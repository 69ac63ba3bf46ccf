import Restyle.Css.Parser
import Restyle.Css.Printer
import Restyle.Dom.Markup
import Restyle.Revision.Pass
import Restyle.Revision.Report

/-!
# Revising the style sources of a document

A `Session` is a document with the warnings and the report so far. `Session.run` takes one pass over
the `style` elements of the document and, if the pass does so, over the `style` attributes;
`Session.runPipeline` runs several passes, each on what the one before has left. A source that is
malformed stays as it is.
-/

namespace Restyle

namespace Dom

/-- Whether an element holds a style sheet. -/
def isStyleElement (d : Dom) (id : NodeId) : Bool :=
  d.tag? id == some "style" &&
    (d.attributeValue? id "type").all fun t => t.isEmpty || Text.sameLetters t "text/css"

/-- The elements of the document that hold a style sheet, in tree order. -/
def styleElements (d : Dom) : List NodeId :=
  d.elements.filter d.isStyleElement

/-- The elements of the document with an attribute `style`, in tree order. -/
def inlineStyleElements (d : Dom) : List NodeId :=
  d.elements.filter fun id => (d.attributeValue? id "style").isSome

end Dom

namespace Revision

/-- A document that is being revised. -/
structure Session where
  /-- The document. -/
  dom : Dom
  /-- The warnings. -/
  log : Log
  /-- What was done so far. -/
  report : Report
deriving DecidableEq, Repr

namespace Session

/-- The session at its start. -/
def start (dom : Dom) (log : Log) : Session :=
  ⟨dom, log, .zero⟩

/-- Takes an element out of the document and counts it. -/
def removeElement (s : Session) (id : NodeId) : Session :=
  { s with
    dom := s.dom.detach id
    report := { s.report with elementsRemoved := s.report.elementsRemoved + 1 } }

/-- Takes out the elements that their own attribute hides. Those inside one are not counted. -/
def removeHiddenElements (t : HiddenTarget) (s : Session) : Session :=
  let hidden := s.dom.elements.filter fun id =>
    (s.dom.attributeValue? id "style").any t.matchesInline
  hidden.foldl (fun s id => if s.dom.isConnected id then s.removeElement id else s) s

/-- Takes out the first element that matches a selector. -/
def removeMatch (s : Session) (selector : String) : Session :=
  let (found, log) := s.dom.findFirst? selector s.log
  let s := { s with log }
  match found with
  | some id => s.removeElement id
  | none => s

/-- What a pass does before it goes over the style sources. -/
def prepare (k : PassKind) (t : HiddenTarget) (s : Session) : Session :=
  match k with
  | .removeHidden => s.removeHiddenElements t
  | _ => s

/-- Counts style rules that were removed. -/
def countRules (s : Session) (n : Nat) : Session :=
  { s with report := { s.report with rulesRemoved := s.report.rulesRemoved + n } }

/-- Counts values that were replaced. -/
def countColors (s : Session) (n : Nat) : Session :=
  { s with report := { s.report with colorsReplaced := s.report.colorsReplaced + n } }

/-- Takes a pass over one style sheet. For each selector of a rule that hides content, the first
element that matches it goes. -/
def reviseSheet (k : PassKind) (t : HiddenTarget) (sheet : Css.Stylesheet) (s : Session) :
    Css.Stylesheet × Session :=
  match k with
  | .grayscale =>
    let (sheet, n) := sheet.grayed
    (sheet, s.countColors n)
  | .removeHidden =>
    let (sheet, removed) := sheet.withoutHidden t
    let selectors := removed.flatMap (·.selectors)
    (sheet, selectors.foldl removeMatch (s.countRules removed.length))
  | .deadCode =>
    let (sheet, n) := sheet.withoutDead s.dom
    (sheet, s.countRules n)

/-- Leaves a malformed source alone. -/
def skip (s : Session) (id : NodeId) (kind : SourceKind) (e : Css.ParseError) : Session :=
  { s with
    log := s.log.unparsable id kind e
    report := { s.report with sourcesSkipped := s.report.sourcesSkipped + 1 } }

/-- Writes a source back with a change of the document. -/
def writeBack (s : Session) (f : Dom → Dom) : Session :=
  { s with
    dom := f s.dom
    report := { s.report with sourcesRevised := s.report.sourcesRevised + 1 } }

/-- Takes a pass over the text of a `style` element. -/
def reviseElement (k : PassKind) (t : HiddenTarget) (s : Session) (id : NodeId) : Session :=
  match Css.Stylesheet.parse (s.dom.textContent id) with
  | .error e => s.skip id .styleElement e
  | .ok sheet =>
    let (sheet, s) := s.reviseSheet k t sheet
    s.writeBack fun d => d.setText id sheet.css

/-- Takes a pass over the attribute `style` of an element. -/
def reviseAttribute (k : PassKind) (t : HiddenTarget) (s : Session) (id : NodeId) : Session :=
  match s.dom.attributeValue? id "style" with
  | none => s
  | some style =>
    match Css.Stylesheet.parseInline style with
    | .error e => s.skip id .styleAttribute e
    | .ok sheet =>
      let (sheet, s) := s.reviseSheet k t sheet
      s.writeBack fun d =>
        d.setAttribute id "style" (Css.Declaration.cssAll sheet.inlineDeclarations)

/-- Takes a pass over the `style` elements. Those that are gone when their turn comes are left
out. -/
def reviseElements (k : PassKind) (t : HiddenTarget) (s : Session) : Session :=
  s.dom.styleElements.foldl
    (fun s id => if s.dom.isConnected id then s.reviseElement k t id else s) s

/-- Takes a pass over the `style` attributes. -/
def reviseAttributes (k : PassKind) (t : HiddenTarget) (s : Session) : Session :=
  s.dom.inlineStyleElements.foldl (reviseAttribute k t) s

/-- Takes a pass over the document. -/
def run (k : PassKind) (t : HiddenTarget) (s : Session) : Session :=
  let s := (s.prepare k t).reviseElements k t
  if k.revisesInline then s.reviseAttributes k t else s

/-- Runs the passes of a pipeline. The notices of earlier documents count as new again. -/
def runPipeline (p : Pipeline) (s : Session) : Session :=
  p.passes.foldl (fun s k => s.run k p.hidden) { s with log := s.log.forget }

end Session

end Revision

end Restyle
