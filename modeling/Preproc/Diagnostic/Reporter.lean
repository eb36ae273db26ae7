import Preproc.Diagnostic.Basic

set_option autoImplicit false

/-! # Reporting

A reporter drops the warnings that are not wanted, delivers everything else in order, and counts
what it delivers. Errors and fatal diagnostics are counted together. -/

namespace Preproc

/-- Which warnings are wanted, what was delivered, and how much of it. -/
structure Reporter where
  mask : WarningSet
  errors : Nat := 0
  warnings : Nat := 0
  /-- The delivered diagnostics, the first one first. -/
  delivered : List Diagnostic := []

namespace Reporter

/-- Whether warnings of a class are wanted. -/
def enabled (r : Reporter) (classes : WarningSet) : Bool :=
  r.mask.meets classes

/-- Hand on one diagnostic. -/
def deliver (r : Reporter) (d : Diagnostic) : Reporter :=
  { r with delivered := r.delivered ++ [d] }

/-- Report an error. -/
def error (r : Reporter) (pos : Position) (message : Bytes) : Reporter :=
  { r with errors := r.errors + 1 }.deliver { pos, severity := .error, message }

/-- Report a warning, if it is wanted. -/
def warn (r : Reporter) (classes : WarningSet) (pos : Position) (message : Bytes) : Reporter :=
  if r.enabled classes then
    { r with warnings := r.warnings + 1 }.deliver { pos, severity := .warning, classes, message }
  else r

/-- Report the end of the run, unless that was done before. -/
def fatal (r : Reporter) (f : Fatal) : Reporter :=
  if f.reported then r
  else { r with errors := r.errors + 1 }.deliver
    { pos := f.pos, severity := .fatal, message := f.message }

/-- Report a failure. One that has a place of its own is reported there, any other at `pos`. A
    fatal failure is handed back, so that callers go on passing it outward. -/
def report (r : Reporter) (pos : Position) (failure : Failure) : Reporter × Option Failure :=
  match failure.root with
  | .fatal f => (r.fatal f, some failure.markReported)
  | .recoverable place message => (r.error place message, none)
  | _ => (r.error pos failure.message, none)

end Reporter

end Preproc
