import Preproc.Branch
import Preproc.Diagnostic.Reporter
import Preproc.Engine.Message
import Preproc.Macro.Parser
import Preproc.Settings.Basic

set_option autoImplicit false

/-! # The state of a run

What directives read and change, and what a run is given from outside. Nothing is done here yet:
later files describe one directive, one file and one run as functions on this state. -/

namespace Preproc.Engine

/-- Finds an included file: given its name, the file that includes it and whether the name stands
    between angle brackets, its path and contents, or the reason why it cannot be read. -/
abbrev Includer := (name includedFrom : Bytes) → (system : Bool) → Except Bytes (Bytes × Bytes)

/-- What stays the same during a run. -/
structure Host where
  settings : Settings
  /-- Finds included files. Without it, directives other than conditionals and definitions are not
      supported. -/
  includer : Option Includer

/-- The limits on definitions. -/
def Host.limits (h : Host) : Macro.Limits :=
  ⟨h.settings.strict, h.settings.maxParams⟩

/-- Line numbers of the current file as they are presented, which `#line` can change. -/
structure Tracker where
  /-- The presented name of the file. -/
  name : Bytes
  /-- The first physical line of the current logical line. -/
  current : Int := 0
  /-- The physical line after it. -/
  next : Int := 0
  /-- What is added to a physical line number to present it. -/
  delta : Int := 0
  deriving DecidableEq

/-- The presented number of the current line. -/
def Tracker.line (t : Tracker) : Int :=
  t.current + t.delta

/-- Present the next line with another number, and perhaps another file name. -/
def Tracker.setLine (t : Tracker) (line : Int) (file : Bytes) : Tracker :=
  { t with
    delta := line - t.next
    name := if file.isEmpty then t.name else file }

/-- A file that is being processed. -/
structure OpenFile where
  id : Nat
  name : Bytes
  deriving DecidableEq

/-- A file that was asked for by an include directive. -/
structure Request where
  name : Bytes
  includedFrom : Bytes
  system : Bool
  deriving DecidableEq

/-- A condition that was evaluated, as text, with what came of it. -/
structure Evaluation where
  text : Bytes
  result : Except Condition.Error Int

/-- The state of a run. -/
structure State where
  table : Macro.Table
  branches : Branch.Stack
  reporter : Reporter
  /-- The line numbers of the innermost open file. -/
  tracker : Option Tracker := none
  /-- The open files, innermost first. -/
  files : List OpenFile := []
  /-- The file into whose output text is written, by its number; `none` outside all files. -/
  output : Option Nat := none
  /-- How many files were opened so far. -/
  opened : Nat := 0
  /-- Whether the output has to say where it stands before the next line. -/
  resync : Bool := false
  /-- Whether the warning about deep nesting was given. -/
  depthWarned : Bool := false
  /-- The include requests so far, in order. -/
  requests : List Request := []
  /-- The conditions evaluated so far, in order. -/
  evaluations : List Evaluation := []

namespace State

/-- Whether lines are compiled. -/
def compiling (s : State) : Bool :=
  s.branches.compiling

/-- The name of the innermost open file. -/
def file (s : State) : Bytes :=
  match s.files with
  | f :: _ => f.name
  | [] => []

/-- The number of the innermost open file, 0 when there is none. -/
def fileId (s : State) : Nat :=
  match s.files with
  | f :: _ => f.id
  | [] => 0

/-- The place of the current line, as far as it is known. -/
def position (s : State) : Position :=
  { file := s.file, line := (s.tracker.map Tracker.line).getD 0 }

/-- Report an error. -/
def complain (s : State) (pos : Position) (c : Complaint) : State :=
  { s with reporter := s.reporter.error pos c.message }

/-- Report a warning. -/
def caution (s : State) (pos : Position) (c : Caution) : State :=
  { s with reporter := s.reporter.warn c.classes pos c.message }

/-- Report the refusal of a macro or its name. -/
def refuse (s : State) (e : Located Macro.Refusal) : State :=
  { s with reporter := s.reporter.error e.pos e.cause.message }

/-- Report what is to be said about a definition at a place. -/
def notice (s : State) (pos : Position) (n : Option Macro.Notice) : State :=
  match n with
  | some n => { s with reporter := s.reporter.warn n.classes pos n.message }
  | none => s

/-- Report that there are too many macros. -/
def ceiling (s : State) (c : Option Macro.Ceiling) : State :=
  match c with
  | some c => s.caution s.position (.manyMacros c.count c.limit)
  | none => s

end State

/-- A failure of a definition. -/
def refusalFailure (e : Located Macro.Refusal) : Failure :=
  .recoverable e.pos e.cause.message

/-- A failure of a directive. -/
def complaintFailure (e : Located Complaint) : Failure :=
  .recoverable e.pos e.cause.message

/-! ## Definitions -/

/-- Define a macro from the tokens after `define`. -/
def State.define (h : Host) (s : State) (c : Cursor) :
    State × Except (Located Macro.Refusal) Macro.Definition :=
  match Macro.parse h.limits c with
  | .error e => (s, .error e)
  | .ok p =>
    let s := s.notice p.definition.definedAt p.notice
    match Macro.define s.table p.definition with
    | .error e => (s, .error e)
    | .ok r =>
      let s := { s.notice p.definition.definedAt r.notice with table := r.table }
      (s.ceiling r.ceiling, .ok r.definition)

/-- Define a macro of a given origin from the tokens after `define`, whatever is there. -/
def State.defineAs (h : Host) (s : State) (origin : Macro.Origin) (c : Cursor) :
    State × Except (Located Macro.Refusal) Macro.Definition :=
  match Macro.parse h.limits c with
  | .error e => (s, .error e)
  | .ok p =>
    let d := { p.definition with origin }
    let s := s.notice d.definedAt p.notice
    let (table, ceiling) := s.table.definePrivileged d
    ({ s with table }.ceiling ceiling, .ok d)

end Preproc.Engine
