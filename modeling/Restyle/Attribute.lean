/-!
# Attributes

An attribute is a name with a value. A list of attributes keeps the order in which they were
written; the operations here treat it as a table, in which a name stands once.
-/

namespace Restyle

/-- A name with its value. -/
structure Attribute where
  /-- The name, in lower case where markup was read. -/
  name : String
  /-- The value, with its character references resolved. -/
  value : String
deriving DecidableEq, Repr

namespace Attribute

/-- The value of the attribute with the given name. -/
def find? (name : String) (as : List Attribute) : Option String :=
  (as.find? (·.name == name)).map (·.value)

/-- Whether there is an attribute with the given name. -/
def mem (name : String) (as : List Attribute) : Bool :=
  as.any (·.name == name)

/-- Gives an attribute a value. It keeps its place; a new one comes last. -/
def set (name value : String) (as : List Attribute) : List Attribute :=
  if mem name as then as.map fun a => if a.name == name then { a with value } else a
  else as ++ [⟨name, value⟩]

/-- Drops the attribute with the given name. -/
def erase (name : String) (as : List Attribute) : List Attribute :=
  as.eraseP (·.name == name)

/-- The table in which the later values of a name replace the earlier ones. -/
def lastWins (as : List Attribute) : List Attribute :=
  as.foldl (fun table a => set a.name a.value table) []

/-- The table in which the later values of a name are dropped. -/
def firstWins (as : List Attribute) : List Attribute :=
  as.foldl (fun table a => if mem a.name table then table else table ++ [a]) []

end Attribute

end Restyle
