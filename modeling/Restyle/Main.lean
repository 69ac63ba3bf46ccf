import Restyle.CommandLine.Run

/-!
# The program

Reads the command line and the file it names, and prints what `Options.revise` gives.
-/

namespace Restyle.CommandLine

/-- The text of what the system says about a file. -/
def systemCause : IO.Error → String
  | .noFileOrDirectory _ _ _ => FileError.notFound.message
  | .inappropriateType _ 20 _ => FileError.notDirectory.message
  | .inappropriateType _ 21 _ => FileError.isDirectory.message
  | e => e.toString

/-- The line about a warning. -/
def warningLine : Warning → String
  | .notice component message => "warning: " ++ component ++ ": " ++ message
  | .unparsable id kind e =>
    "warning: " ++ kind.message ++ " (node " ++ id.repr ++ "): " ++ e.message

/-- Reads the markup of a source. -/
def Source.read : Source → IO (Except String String)
  | markup html => return .ok html
  | file path => do
    try
      let contents ← IO.FS.readBinFile path
      match String.fromUTF8? contents with
      | some text => return .ok text
      | none => return .error (failure "read" path FileError.notText.message)
    catch e => return .error (failure "read" path (systemCause e))

/-- Writes or prints the revised markup. -/
def Options.write (o : Options) (markup : String) : IO (Except String Unit) := do
  match o.output with
  | none => return .ok (← IO.println markup)
  | some path =>
    try return .ok (← IO.FS.writeFile path markup)
    catch e => return .error (failure "write" path (systemCause e))

/-- Runs the program with these options. -/
def Options.perform (o : Options) : IO UInt32 := do
  match ← o.source.read with
  | .error e => IO.eprint e; return 1
  | .ok html =>
    let s := o.revise html
    for w in s.log.warnings do IO.eprintln (warningLine w)
    match ← o.write s.dom.markup with
    | .error e => IO.eprint e; return 1
    | .ok _ => IO.eprint (o.report.render s.report); return 0

end Restyle.CommandLine

open Restyle.CommandLine in
/-- Runs the program with the arguments of the command line. -/
def main (args : List String) : IO UInt32 := do
  match Options.parse args with
  | .error s =>
    let outcome := s.outcome ⟨[]⟩
    IO.print outcome.stdout
    IO.eprint outcome.stderr
    return UInt32.ofNat outcome.code
  | .ok o => o.perform
