import Restyle.Revision.Pass

/-!
# Pipelines as data

`Pipeline.ofData?` reads a pipeline from nested data, as configuration files hold it. A record may
also be written as the list of its fields. Fields with other names are ignored.
-/

namespace Restyle.Revision

/-- Nested data. -/
inductive Data where
  /-- Nothing. -/
  | null
  /-- A number or a truth value; a pipeline has none. -/
  | scalar
  /-- A text. -/
  | text (s : String)
  /-- A list. -/
  | list (items : List Data)
  /-- Fields with their names. -/
  | record (fields : List (String × Data))
deriving Inhabited, Repr

namespace Data

/-- The text, if the data are one. -/
def text? : Data → Option String
  | text s => some s
  | _ => none

/-- The list, if the data are one. -/
def list? : Data → Option (List Data)
  | list items => some items
  | _ => none

/-- The field with the given name. -/
def field? (fields : List (String × Data)) (name : String) : Option Data :=
  (fields.find? (·.1 == name)).map (·.2)

end Data

/-- The pass that a name spells exactly. -/
def PassKind.ofExactName? (s : String) : Option PassKind :=
  all.find? (·.name == s)

/-- The pass that the data name: a text, or a field without a value. -/
def PassKind.ofData? : Data → Option PassKind
  | .text s => ofExactName? s
  | .record [(s, .null)] => ofExactName? s
  | _ => none

/-- The target that the data describe. Both fields are needed. -/
def HiddenTarget.ofData? : Data → Option HiddenTarget
  | .record fields => do
    let property ← Data.field? fields "property"
    let value ← Data.field? fields "value"
    return ⟨← property.text?, ← value.text?⟩
  | .list [property, value] => do return ⟨← property.text?, ← value.text?⟩
  | _ => none

namespace Pipeline

/-- The pipeline of these passes and this target. Without a target, the standard one is meant. -/
def ofFields? (passes : Data) (hidden : Option Data) : Option Pipeline := do
  let passes ← (← passes.list?).mapM PassKind.ofData?
  match hidden with
  | none => return ⟨passes, .standard⟩
  | some h => return ⟨passes, ← HiddenTarget.ofData? h⟩

/-- The pipeline that the data describe. -/
def ofData? : Data → Option Pipeline
  | .record fields => do ofFields? (← Data.field? fields "passes") (Data.field? fields "hidden")
  | .list [passes] => ofFields? passes none
  | .list [passes, hidden] => ofFields? passes (some hidden)
  | _ => none

end Pipeline

end Restyle.Revision
