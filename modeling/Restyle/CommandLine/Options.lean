import Restyle.Revision.Pass

/-!
# Reading the command line

`Options.parse` reads the arguments from left to right. An argument that starts with a hyphen is an
option and never the value of another one; a lone hyphen is a value. After `--` every argument is a
path.
-/

namespace Restyle.CommandLine

open Revision

/-- Why the arguments do not lead to a run. -/
inductive Stop where
  /-- They are not understood. -/
  | usage
  /-- They ask for help. -/
  | help
  /-- They ask for the version. -/
  | version
deriving DecidableEq, Repr

/-- How the report is printed. -/
inductive ReportFormat where
  /-- In words. -/
  | text
  /-- As data. -/
  | json
deriving DecidableEq, Repr

/-- The format with the given name. -/
def ReportFormat.ofName? : String → Option ReportFormat
  | "text" => some text
  | "json" => some json
  | _ => none

/-- The options that take a value. -/
inductive ValueOption where
  /-- The markup to revise. -/
  | html
  /-- A pass to run. -/
  | pass
  /-- The property that hides content. -/
  | hiddenProperty
  /-- The value that hides content. -/
  | hiddenValue
  /-- The file to write. -/
  | output
  /-- The format of the report. -/
  | report
deriving DecidableEq, Repr

/-- The option with the given name. -/
def ValueOption.ofName? : String → Option ValueOption
  | "html" => some html
  | "pass" => some pass
  | "hidden-property" => some hiddenProperty
  | "hidden-value" => some hiddenValue
  | "output" => some output
  | "report" => some report
  | _ => none

/-- What the arguments say. -/
structure Arguments where
  /-- The file to revise. -/
  path : Option String
  /-- The markup to revise. -/
  html : Option String
  /-- The passes, the first one first. -/
  passes : List PassKind
  /-- The property that hides content. -/
  hiddenProperty : Option String
  /-- The value that hides content. -/
  hiddenValue : Option String
  /-- The file to write. -/
  output : Option String
  /-- The format of the report. -/
  report : Option ReportFormat
  /-- How often more words were asked for. -/
  verbosity : Nat
deriving DecidableEq, Repr

/-- A value for something that may be given once only. -/
def once {α : Type} (old : Option α) (new : α) : Except Stop (Option α) :=
  if old.isSome then .error .usage else .ok (some new)

/-- A value that has to be there. -/
def required {α : Type} (value : Option α) : Except Stop α :=
  match value with
  | some a => .ok a
  | none => .error .usage

/-- A path, which is not empty. -/
def nonempty (path : String) : Except Stop String :=
  if path.isEmpty then .error .usage else .ok path

/-- Whether an argument is a value: it does not start with a hyphen, or is nothing else. -/
def isPlain (arg : String) : Bool :=
  arg == "-" || arg.toList.head? != some '-'

namespace Arguments

/-- Nothing is said. -/
def none : Arguments :=
  ⟨.none, .none, [], .none, .none, .none, .none, 0⟩

/-- Takes the path of the file to revise. -/
def setPath (a : Arguments) (path : String) : Except Stop Arguments := do
  return { a with path := ← once a.path (← nonempty path) }

/-- Takes the value of an option. -/
def setValue (a : Arguments) (o : ValueOption) (value : String) : Except Stop Arguments := do
  match o with
  | .html => return { a with html := ← once a.html value }
  | .pass => return { a with passes := a.passes ++ [← required (PassKind.ofName? value)] }
  | .hiddenProperty => return { a with hiddenProperty := ← once a.hiddenProperty value }
  | .hiddenValue => return { a with hiddenValue := ← once a.hiddenValue value }
  | .output => return { a with output := ← once a.output (← nonempty value) }
  | .report =>
    return { a with report := ← once a.report (← required (ReportFormat.ofName? value)) }

/-- Counts a wish for more words. -/
def moreVerbose (a : Arguments) : Arguments :=
  { a with verbosity := a.verbosity + 1 }

/-- The arguments after a part of the command line, with the option that waits for a value. -/
abbrev Waiting := Arguments × Option ValueOption

/-- Reads an option that has no value. -/
def flag (a : Arguments) : String → Except Stop Arguments
  | "help" => .error .help
  | "version" => .error .version
  | "verbose" => .ok a.moreVerbose
  | _ => .error .usage

/-- Reads a long option after its hyphens. A value may follow a `=`. -/
def long (a : Arguments) (s : List Char) : Except Stop Waiting := do
  let name := String.ofList (s.takeWhile (· != '='))
  match s.dropWhile (· != '='), ValueOption.ofName? name with
  | [], some o => return (a, some o)
  | [], .none => return (← a.flag name, .none)
  | _ :: value, some o => return (← a.setValue o (String.ofList value), .none)
  | _ :: _, .none => .error .usage

/-- Reads short options after their hyphen. -/
def short (a : Arguments) : List Char → Except Stop Waiting
  | [] => .ok (a, .none)
  | 'v' :: r => a.moreVerbose.short r
  | 'h' :: _ => .error .help
  | 'V' :: _ => .error .version
  | ['o'] => .ok (a, some .output)
  | 'o' :: '=' :: value => do return (← a.setValue .output (String.ofList value), .none)
  | 'o' :: value => do return (← a.setValue .output (String.ofList value), .none)
  | _ => .error .usage

/-- Reads one argument other than `--`. -/
def argument (a : Arguments) (arg : String) : Except Stop Waiting := do
  match arg.toList with
  | '-' :: '-' :: s => a.long s
  | '-' :: c :: s => a.short (c :: s)
  | _ => return (← a.setPath arg, .none)

/-- Reads arguments from left to right. -/
def read (a : Arguments) : List String → Except Stop Arguments
  | [] => .ok a
  | arg :: args =>
    if arg == "--" then args.foldlM setPath a
    else
      match a.argument arg, args with
      | .error e, _ => .error e
      | .ok (a, .none), args => a.read args
      | .ok (_, some _), [] => .error .usage
      | .ok (a, some o), value :: args =>
        if isPlain value then
          match a.setValue o value with
          | .error e => .error e
          | .ok a => a.read args
        else .error .usage

end Arguments

/-- Where the markup comes from. -/
inductive Source where
  /-- A file. -/
  | file (path : String)
  /-- The command line. -/
  | markup (html : String)
deriving DecidableEq, Repr

/-- What is to be done. -/
structure Options where
  /-- Where the markup comes from. -/
  source : Source
  /-- What is done to it. -/
  pipeline : Pipeline
  /-- The file to write; the standard output if there is none. -/
  output : Option String
  /-- The format of the report. -/
  report : ReportFormat
  /-- How often more words were asked for. -/
  verbosity : Nat
deriving DecidableEq, Repr

/-- The markup comes either from a file or from the command line. -/
def Arguments.source : Arguments → Except Stop Source
  | { path := some path, html := .none, .. } => .ok (.file path)
  | { path := .none, html := some html, .. } => .ok (.markup html)
  | _ => .error .usage

/-- The options that the arguments give. One pass at least is needed. -/
def Arguments.options (a : Arguments) : Except Stop Options := do
  let source ← a.source
  if a.passes.isEmpty then .error .usage
  let hidden := HiddenTarget.standard
  return {
    source
    pipeline := {
      passes := a.passes
      hidden := ⟨a.hiddenProperty.getD hidden.property, a.hiddenValue.getD hidden.value⟩ }
    output := a.output
    report := a.report.getD .text
    verbosity := a.verbosity }

/-- The options that a command line gives. -/
def Options.parse (args : List String) : Except Stop Options := do
  (← Arguments.none.read args).options

end Restyle.CommandLine
