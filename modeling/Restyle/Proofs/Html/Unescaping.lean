import Restyle.Proofs.Html.Reading

/-!
# Escaped text is read back

A character is escaped on its own, so escaped text is read one character at a time, whatever comes
after it. Main statement: reading undoes the escaping of text between tags, of the value of an
attribute and of the text of an element such as `title` (`tokens_escaped`).
-/

namespace Restyle.Html

open Text

theorem toList_escaped (s : String) :
    (escape s).toList = s.toList.flatMap fun c => (escapeChar c).toList := by
  rw [escape, Dom.toList_join_map]

theorem run_data_nil : run .data [] = [.endOfFile] := by
  rw [run.eq_2 _ (by simp)]
  rfl

/-- Escaped text is read as its characters, whatever comes after it. -/
theorem run_escape (s : String) (r : List Char) :
    run .data ((escape s).toList ++ r) = s.toList.map .character ++ run .data r := by
  rw [toList_escaped]
  induction s.toList with
  | nil => rfl
  | cons c cs ih =>
    rw [List.flatMap_cons, List.append_assoc, run_escapeChar, ih]
    rfl

variable {tag name : String} (htag : isTagName tag.toList)

include htag

/-- A start tag with one attribute is read with the value that was escaped. -/
theorem run_escapeAttribute (hname : name.toList.all isAttributeChar) (value : String)
    (r : List Char) :
    run .data (("<" ++ tag ++ " " ++ name ++ "=\"" ++ escapeAttribute value ++ "\">").toList ++ r) =
      .startTag tag false [⟨name, value⟩] :: run (.afterStartTag tag) r := by
  have hmarkup : ("<" ++ tag ++ " " ++ name ++ "=\"" ++ escapeAttribute value ++ "\">").toList =
      (Mark.start ⟨tag, [⟨name, value⟩]⟩).markup := by
    simp [Mark.markup, Element.startTag, Attribute.markup]
  rw [hmarkup]
  exact run_start (e := ⟨tag, [⟨name, value⟩]⟩) htag (by simpa using hname)
    (List.pairwise_singleton _ _) r

/-- An element in which references are resolved is read with the text that was escaped. -/
theorem run_escapableText (hmode : Mode.afterStartTag tag = .rawText tag true) (s : String)
    (r : List Char) :
    run .data (("<" ++ tag ++ ">" ++ escape s ++ ("</" ++ tag ++ ">")).toList ++ r) =
      .startTag tag false [] :: (s.toList.map .character ++ .endTag tag :: run .data r) := by
  have hmarkup : ("<" ++ tag ++ ">" ++ escape s ++ ("</" ++ tag ++ ">")).toList ++ r =
      (Mark.start ⟨tag, []⟩).markup ++ ((escape s).toList ++ ((Mark.close tag).markup ++ r)) := by
    simp [Mark.markup, Element.startTag]
  have hdistinct : Attribute.Distinct [] := .nil
  rw [hmarkup, run_start (e := ⟨tag, []⟩) htag (by simp) hdistinct, hmode, run_rawText,
    toList_escaped, rawText_escaped, run_close htag]
  rfl

omit htag

/-- Reading undoes escaping: escaped text is read as its characters between tags and in an element
such as `title`, and an escaped value is read as the value of the attribute. -/
theorem tokens_escaped (s : String) :
    tokens (escape s) = s.toList.map .character ++ [.endOfFile] ∧
      tokens ("<a b=\"" ++ escapeAttribute s ++ "\">") =
        [.startTag "a" false [⟨"b", s⟩], .endOfFile] ∧
      tokens ("<title>" ++ escape s ++ "</title>") =
        .startTag "title" false [] ::
          (s.toList.map .character ++ [.endTag "title", .endOfFile]) ∧
      tokens ("<textarea>" ++ escape s ++ "</textarea>") =
        .startTag "textarea" false [] ::
          (s.toList.map .character ++ [.endTag "textarea", .endOfFile]) := by
  have htext := run_escape s []
  have hlink : isTagName "a".toList := by decide
  have hname : "b".toList.all isAttributeChar := by decide
  have htitleMode : Mode.afterStartTag "title" = .rawText "title" true := by decide
  have hinputMode : Mode.afterStartTag "textarea" = .rawText "textarea" true := by decide
  have hattribute := run_escapeAttribute hlink hname s []
  have htitle := run_escapableText (by decide) htitleMode s []
  have hinput := run_escapableText (by decide) hinputMode s []
  rw [List.append_nil, run_data_nil] at htext htitle hinput
  rw [List.append_nil] at hattribute
  refine ⟨htext, hattribute.trans ?_, htitle, hinput⟩
  rw [show Mode.afterStartTag "a" = .data by decide, run_data_nil]

/-- Text that looks like a reference and like the end tag of its element is read back. -/
example : tokens ("<title>" ++ escape "&lt</title>" ++ "</title>") =
    .startTag "title" false [] ::
      ("&lt</title>".toList.map .character ++ [.endTag "title", .endOfFile]) := by
  decide +kernel

end Restyle.Html
