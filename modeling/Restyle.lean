import Restyle.Css.Edit
import Restyle.Main
import Restyle.Proofs.Css.ErrorPlaces
import Restyle.Proofs.Css.Heads
import Restyle.Proofs.Css.Numerals
import Restyle.Proofs.Css.TidySources
import Restyle.Proofs.Dom.History
import Restyle.Proofs.Dom.Subtrees
import Restyle.Proofs.Html.ContentModel
import Restyle.Proofs.Html.Halting
import Restyle.Proofs.Html.Rereading
import Restyle.Proofs.Html.TokenStreams
import Restyle.Proofs.Html.Unescaping
import Restyle.Proofs.Log.Notices
import Restyle.Proofs.Revision.DeadCodeTwice
import Restyle.Proofs.Revision.GrayDocument
import Restyle.Proofs.Revision.HiddenContent
import Restyle.Proofs.Revision.InlineStyles
import Restyle.Proofs.Revision.InlineHidden
import Restyle.Proofs.Revision.InlinePattern
import Restyle.Proofs.Revision.OutermostColors
import Restyle.Proofs.Revision.PassOrder
import Restyle.Proofs.Revision.StyleTexts
import Restyle.Proofs.Selector.ChildPosition
import Restyle.Proofs.Selector.Concatenation
import Restyle.Proofs.Selector.ErrorPlaces
import Restyle.Proofs.Selector.Identifier
import Restyle.Proofs.Selector.Matching
import Restyle.Revision.Settings
