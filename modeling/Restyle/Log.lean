import Restyle.Css.Error
import Restyle.Dom.Basic

/-!
# Warnings

A `Log` collects warnings in order. A notice is logged only the first time that its component and
its message come together; `Log.forget` makes it count as new again.
-/

namespace Restyle

/-- The places that style sheets come from. -/
inductive SourceKind where
  /-- The text of a `style` element. -/
  | styleElement
  /-- The attribute `style`. -/
  | styleAttribute
deriving DecidableEq, Repr

/-- A warning. -/
inductive Warning where
  /-- A message of a component. -/
  | notice (component message : String)
  /-- A style source that was left alone because it is malformed. -/
  | unparsable (id : NodeId) (kind : SourceKind) (error : Css.ParseError)
deriving DecidableEq, Repr

/-- The message about a malformed source. -/
def SourceKind.message : SourceKind → String
  | styleElement => "leaving unparsable <style> unchanged"
  | styleAttribute => "leaving unparsable style attribute unchanged"

/-- The warnings so far. -/
structure Log where
  /-- The keys of the notices that are not logged again. -/
  keys : List String
  /-- The warnings, in order. -/
  warnings : List Warning
deriving DecidableEq, Repr

namespace Log

/-- The log without warnings. -/
def empty : Log :=
  ⟨[], []⟩

/-- What tells notices apart. -/
def key (component message : String) : String :=
  "[" ++ component ++ "] " ++ message

/-- Whether a notice was logged since the log last forgot its notices. -/
def hasNoticed (log : Log) (component message : String) : Bool :=
  log.keys.contains (key component message)

/-- Logs a notice, unless it was logged already. -/
def notice (log : Log) (component message : String) : Log :=
  if log.hasNoticed component message then log
  else ⟨key component message :: log.keys, log.warnings ++ [.notice component message]⟩

/-- Logs that a style source is malformed. -/
def unparsable (log : Log) (id : NodeId) (kind : SourceKind) (error : Css.ParseError) : Log :=
  { log with warnings := log.warnings ++ [.unparsable id kind error] }

/-- Lets all notices count as new. -/
def forget (log : Log) : Log :=
  { log with keys := [] }

end Log

end Restyle
