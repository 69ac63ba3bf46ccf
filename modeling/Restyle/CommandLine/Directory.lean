import Restyle.Text.Ascii

/-!
# A working directory

A `Directory` holds files by their paths. Its folders are those that files stand in. Nothing is
known of what is outside of it, so nothing is found there.
-/

namespace Restyle.CommandLine

/-- Why a file cannot be read or written. -/
inductive FileError where
  /-- There is no such file or folder. -/
  | notFound
  /-- A part of the path is not a folder. -/
  | notDirectory
  /-- The path leads to a folder. -/
  | isDirectory
  /-- The path or a name in it is too long. -/
  | nameTooLong
  /-- The file is not a text. -/
  | notText
deriving DecidableEq, Repr

/-- The text of a file error. -/
def FileError.message : FileError → String
  | notFound => "No such file or directory (os error 2)"
  | notDirectory => "Not a directory (os error 20)"
  | isDirectory => "Is a directory (os error 21)"
  | nameTooLong => "File name too long (os error 36)"
  | notText => "stream did not contain valid UTF-8"

/-- The names on the way from the directory to a file or folder. -/
abbrev Location := List String

/-- Files with their contents. -/
structure Directory where
  /-- The files. Each location stands once. -/
  files : List (Location × ByteArray)

namespace Directory

/-- The contents of a file. -/
def file? (d : Directory) (l : Location) : Option ByteArray :=
  (d.files.find? (·.1 == l)).map (·.2)

/-- Whether there is a file. -/
def isFile (d : Directory) (l : Location) : Bool :=
  (d.file? l).isSome

/-- Whether there is a folder. -/
def isFolder (d : Directory) (l : Location) : Bool :=
  l.isEmpty || d.files.any fun f => l.isPrefixOf f.1 && l != f.1

/-- Puts a file in its place, instead of an older one. -/
def put (d : Directory) (l : Location) (contents : ByteArray) : Directory :=
  if d.isFile l then ⟨d.files.map fun f => if f.1 == l then (l, contents) else f⟩
  else ⟨d.files ++ [(l, contents)]⟩

/-- Follows the names of a path. The place is `none` outside of the directory. Only the last name
may be that of nothing yet. -/
def follow (d : Directory) : Option Location → List String → Except FileError (Option Location)
  | place, [] => .ok place
  | place, name :: names =>
    if place.any d.isFile then .error .notDirectory
    else if name == "" || name == "." then d.follow place names
    else if name == ".." then
      d.follow (place.bind fun l => if l.isEmpty then none else some l.dropLast) names
    else if 255 < Text.bytes name then .error .nameTooLong
    else
      match place with
      | none => .error .notFound
      | some l =>
        let next := l ++ [name]
        if names.isEmpty || d.isFile next || d.isFolder next then d.follow (some next) names
        else .error .notFound

/-- The names in a path. -/
def names (path : String) : List String :=
  (Text.pieces (· == '/') path.toList).map String.ofList

/-- The place where a path starts: outside if it starts with a slash. -/
def origin (path : String) : Option Location :=
  if path.toList.head? == some '/' then none else some []

/-- The place that a path with these names leads to. -/
def locate (d : Directory) (path : String) (names : List String) :
    Except FileError (Option Location) :=
  if path.isEmpty then .error .notFound
  else if 4096 ≤ Text.bytes path then .error .nameTooLong
  else d.follow (origin path) names

/-- Reads a file. -/
def read (d : Directory) (path : String) : Except FileError String := do
  match ← d.locate path (names path) with
  | none => .error .isDirectory
  | some l =>
    match d.file? l with
    | some contents =>
      match String.fromUTF8? contents with
      | some text => .ok text
      | none => .error .notText
    | none => if d.isFolder l then .error .isDirectory else .error .notFound

/-- Writes a file. A path with a slash at its end is meant for a folder. -/
def write (d : Directory) (path text : String) : Except FileError Directory := do
  let reversed := (names path).reverse
  match ← d.locate path (reversed.dropWhile (· == "")).reverse with
  | none => .error .isDirectory
  | some l =>
    if d.isFolder l || reversed.head? == some "" then .error .isDirectory
    else .ok (d.put l text.toUTF8)

end Directory

end Restyle.CommandLine
