import Restyle.CommandLine.Directory
import Restyle.CommandLine.Options
import Restyle.Html.Document
import Restyle.Revision.Session

/-!
# Running the program

`Options.revise` turns markup into revised markup with a report, and `run` is the whole program
on a working directory.
-/

namespace Restyle

namespace Revision.Report

/-- A text in a style of the terminal: the code that turns the style on and the one that ends it. -/
def styled (on off : Nat) (s : String) : String :=
  "\x1b[" ++ on.repr ++ "m" ++ s ++ "\x1b[" ++ off.repr ++ "m"

/-- A count: dim if it is zero, else green. -/
def countText (n : Nat) : String :=
  if n = 0 then styled 2 0 n.repr else styled 32 39 n.repr

/-- The line of a count, with its label in a column of 18. -/
def countLine (name : String) (n : Nat) : String :=
  let label := name.toList.map fun c => if c = '_' then ' ' else c
  let padding := List.replicate (18 - label.length) ' '
  "  " ++ String.ofList (label ++ padding) ++ " " ++ countText n ++ "\n"

/-- The report in words. -/
def text (r : Report) : String :=
  styled 1 0 "=== Sepia Report ===" ++ "\n" ++
    String.join (r.entries.map fun (name, n) => countLine name n) ++
    if r.sourcesSkipped = 0 then ""
    else
      styled 33 39 "some style sources could not be parsed and were left unchanged" ++ "\n"

/-- The report as data. -/
def json (r : Report) : String :=
  let fields := r.entries.map fun (name, n) => "  \"" ++ name ++ "\": " ++ n.repr
  "\x7b\n" ++ String.intercalate ",\n" fields ++ "\n\x7d\n"

end Revision.Report

namespace CommandLine

open Revision

/-- The report in the given format. -/
def ReportFormat.render (f : ReportFormat) (r : Report) : String :=
  match f with
  | text => r.text
  | json => r.json

/-- The session after the pipeline has gone over a markup. -/
def Options.revise (o : Options) (html : String) : Session :=
  let doc := Html.parse html
  (Session.start doc.dom (doc.report .empty)).runPipeline o.pipeline

/-- What a run leaves behind. -/
structure Outcome where
  /-- The exit code. -/
  code : Nat
  /-- What was printed. -/
  stdout : String
  /-- What was printed besides: the report or an error. -/
  stderr : String
  /-- The directory after the run. -/
  directory : Directory

/-- How to call the program. -/
def usageText : String :=
  "Usage: sepia [OPTIONS] --pass <PASS> <FILE>\n" ++
    "       sepia [OPTIONS] --pass <PASS> --html <HTML>\n\n" ++
    "Passes: grayscale, remove-hidden, dead-code\n\n" ++
    "Options:\n" ++
    "      --html <HTML>              restyle this markup instead of a file\n" ++
    "      --pass <PASS>              pass to run; repeat it to run several\n" ++
    "      --hidden-property <NAME>   property that hides content [default: display]\n" ++
    "      --hidden-value <VALUE>     value that hides content [default: none]\n" ++
    "  -o, --output <FILE>            write the document here\n" ++
    "      --report <FORMAT>          text or json [default: text]\n" ++
    "  -v, --verbose                  say more\n" ++
    "  -h, --help                     print this help\n" ++
    "  -V, --version                  print the version\n"

/-- The version of the program. -/
def versionText : String :=
  "sepia 0.1.0\n"

/-- The text of an error with its cause. -/
def failure (what path : String) (cause : String) : String :=
  "Error: failed to " ++ what ++ " " ++ path ++ "\n\nCaused by:\n    " ++ cause ++ "\n"

/-- The outcome of arguments that do not lead to a run. -/
def Stop.outcome (s : Stop) (d : Directory) : Outcome :=
  match s with
  | usage => ⟨2, "", usageText, d⟩
  | help => ⟨0, usageText, "", d⟩
  | version => ⟨0, versionText, "", d⟩

/-- The markup of a source. -/
def Source.load (s : Source) (d : Directory) : Except String String :=
  match s with
  | markup html => .ok html
  | file path => (d.read path).mapError fun e => failure "read" path e.message

/-- What is done with the markup: it is written to a file or printed. -/
def Options.deliver (o : Options) (markup : String) (d : Directory) :
    Except String (String × Directory) :=
  match o.output with
  | none => .ok (markup ++ "\n", d)
  | some path =>
    ((d.write path markup).mapError fun e => failure "write" path e.message).map fun d => ("", d)

/-- Runs the program with these options. -/
def Options.run (o : Options) (d : Directory) : Outcome :=
  match o.source.load d with
  | .error e => ⟨1, "", e, d⟩
  | .ok html =>
    let s := o.revise html
    match o.deliver s.dom.markup d with
    | .error e => ⟨1, "", e, d⟩
    | .ok (stdout, d) => ⟨0, stdout, o.report.render s.report, d⟩

/-- Runs the program with these arguments. -/
def run (args : List String) (d : Directory) : Outcome :=
  match Options.parse args with
  | .error s => s.outcome d
  | .ok o => o.run d

end CommandLine

end Restyle
