import Preproc.Position
import Preproc.Diagnostic.Warning

set_option autoImplicit false

/-! # Diagnostics

What is told to the user about a source, and the failures from which that is made. A recoverable
failure ends the handling of one line; a fatal one ends the whole run, and is reported once however
many callers it passes through. -/

namespace Preproc

/-- How serious a diagnostic is. -/
inductive Severity where
  | warning
  | error
  | fatal
  deriving DecidableEq

namespace Severity

/-- The name of a severity in messages. -/
def name : Severity → Bytes
  | warning => ascii "warning"
  | error => ascii "error"
  | fatal => ascii "fatal"

/-- The name shown for a numeric code, which may stand for no severity. -/
def nameOfCode (code : Int) : Bytes :=
  if code = 0 then warning.name
  else if code = 1 then error.name
  else if code = 2 then fatal.name
  else ascii "severity(" ++ decimal code ++ ascii ")"

end Severity

/-- One message to the user. -/
structure Diagnostic where
  pos : Position
  severity : Severity
  /-- The classes of a warning. -/
  classes : WarningSet := .none
  message : Bytes
  deriving DecidableEq

/-- The end of a run. -/
structure Fatal where
  pos : Position
  message : Bytes
  /-- Whether it was reported already. -/
  reported : Bool := false
  deriving DecidableEq

/-- Anything that may go wrong. -/
inductive Failure where
  /-- A failure that is not tied to a place. -/
  | plain (message : Bytes)
  /-- A failure at a place, after which the next line can be handled. -/
  | recoverable (pos : Position) (message : Bytes)
  /-- A failure that ends the run. -/
  | fatal (f : Fatal)
  /-- A failure with a word about where it happened. -/
  | wrapped (label : Bytes) (inner : Failure)
  deriving DecidableEq

namespace Failure

/-- The wording of a failure. -/
def message : Failure → Bytes
  | plain message => message
  | recoverable pos message => pos.render ++ ascii ": " ++ message
  | fatal f => f.pos.render ++ ascii ": fatal: " ++ f.message
  | wrapped label inner => label ++ ascii ": " ++ inner.message

/-- The failure inside all labels. -/
def root : Failure → Failure
  | wrapped _ inner => inner.root
  | failure => failure

/-- Whether a failure ends the run. -/
def isFatal (f : Failure) : Bool :=
  match f.root with
  | fatal _ => true
  | _ => false

/-- The same failure, marked as reported where it is fatal. -/
def markReported : Failure → Failure
  | fatal f => fatal { f with reported := true }
  | wrapped label inner => wrapped label inner.markReported
  | failure => failure

end Failure

end Preproc
