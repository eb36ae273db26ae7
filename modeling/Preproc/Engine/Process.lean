import Preproc.Engine.Directive
import Preproc.Source.LogicalLine

set_option autoImplicit false

/-! # Files and runs

A file is processed line by line. Directives are carried out, compiled lines are copied, and all
other lines are dropped. Either each dropped line leaves its line breaks behind, so that lines keep
their numbers, or a marker says where the output stands after a gap.

Included files nest: the number of files that may still be opened goes down with each of them. -/

namespace Preproc.Engine

open Source (LogicalLine)

/-- The longest gap that is filled by empty lines and not bridged by a marker. -/
def maxBlankGap : Int := 8

/-- Where the output stands: the presented file and the line that would come next. -/
structure OutputPlace where
  file : Bytes := []
  line : Int := 0
  deriving DecidableEq

/-- The line breaks that a dropped line leaves behind. -/
def blankLines (l : LogicalLine) : Bytes :=
  List.replicate (if l.terminated then l.count else l.count - 1) newline

/-- The marker for a place. -/
def lineMarker (line : Int) (file : Bytes) : Bytes :=
  ascii "#line " ++ decimal line ++ ascii " " ++ quoted file ++ [newline]

/-- What is written before a compiled line to bring the output to its place: nothing, a few empty
    lines, or a marker. -/
def bridge (place : OutputPlace) (line : Int) (file : Bytes) : Bytes :=
  let gap := line - place.line
  if place.file = file ∧ gap = 0 then []
  else if place.file = file ∧ 0 < gap ∧ gap ≤ maxBlankGap then List.replicate gap.toNat newline
  else lineMarker line file

/-- A compiled line as it is copied. -/
def copied (l : LogicalLine) : Bytes :=
  if l.terminated then l.raw ++ [newline] else l.raw

namespace State

/-- Take note of the line that is being handled. -/
def track (s : State) (l : LogicalLine) : State :=
  { s with tracker := s.tracker.map ({ · with current := l.line, next := l.line + l.count }) }

/-- The presented name of the current file. -/
def presentedFile (s : State) : Bytes :=
  (s.tracker.map Tracker.name).getD []

/-- The presented number of the current line. -/
def presentedLine (s : State) : Int :=
  (s.tracker.map Tracker.line).getD 0

/-- Open a file. -/
def openFile (s : State) (name : Bytes) : State :=
  { s with
    opened := s.opened + 1
    files := ⟨s.opened + 1, name⟩ :: s.files
    output := some (s.opened + 1)
    tracker := some { name } }

/-- Close the innermost file and go back to the output and the line numbers of `outer`, the state
    in which it was opened. -/
def closeFile (s outer : State) : State :=
  { s with files := s.files.tail, output := outer.output, tracker := outer.tracker }

/-- Report the groups that the innermost file left open, and drop them. -/
def closeGroups (s : State) : State :=
  let (frames, branches) := s.branches.unterminated s.fileId
  let reported := frames.foldl (fun s f => s.complain f.ifPos .unterminatedGroup) s
  { reported with
    branches
    resync := s.resync || branches.compiling != s.compiling }

/-- Handle the lines of the innermost file, the output standing at `place`. -/
def processLines (h : Host) (nested : Option Nested) :
    (place : OutputPlace) → State → List LogicalLine → Outcome
  | _, s, [] => { state := s.closeGroups }
  | place, s, l :: rest =>
    let s := s.track l
    let markers := h.settings.lineMarkers
    if l.directive then
      let blanks := if markers then [] else blankLines l
      let pos : Position :=
        { file := s.presentedFile, offset := l.offset, line := s.presentedLine, column := 1 }
      let out := s.directiveWith h nested pos l.text
      -- no file has an empty name, so the next compiled line is led by a marker
      let place := if out.state.resync then { place with file := [] } else place
      let s := { out.state with resync := false }
      match out.failure with
      | some failure =>
        { state := s, written := blanks ++ out.written, failure := some failure }
      | none =>
        let more := processLines h nested place s rest
        { more with written := blanks ++ out.written ++ more.written }
    else if !s.compiling then
      let blanks := if markers then [] else blankLines l
      let more := processLines h nested place s rest
      { more with written := blanks ++ more.written }
    else
      let lead := if markers then bridge place s.presentedLine s.presentedFile else []
      let place := { file := s.presentedFile, line := s.presentedLine + l.count }
      let more := processLines h nested place s rest
      { more with written := lead ++ copied l ++ more.written }

/-- Process a file from its opening to its end. -/
def processFile (h : Host) (nested : Option Nested) (s : State) (name contents : Bytes) :
    Outcome :=
  let out := processLines h nested {} (s.openFile name) (Source.logicalLines contents)
  { out with state := out.state.closeFile s }

end State

/-- Processing of an included file when `levels` more files may be opened. -/
def nestedProcess (h : Host) : (levels : Nat) → Option Nested
  | 0 => none
  | levels + 1 => some fun s name contents =>
    s.processFile h (nestedProcess h levels) name contents

/-- How many more files may be opened. -/
def State.levelsLeft (h : Host) (s : State) : Nat :=
  (h.settings.maxIncludeDepth - s.files.length).toNat

/-- Handle one directive line. -/
def State.directive (h : Host) (s : State) (pos : Position) (line : Bytes) : Outcome :=
  s.directiveWith h (nestedProcess h (s.levelsLeft h)) pos line

/-- Process a file inside whatever is open. -/
def State.process (h : Host) (s : State) (name contents : Bytes) : Outcome :=
  s.processFile h (nestedProcess h ((s.openFile name).levelsLeft h)) name contents

/-- What came of a run. -/
structure Result where
  errors : Nat := 0
  warnings : Nat := 0
  /-- Whether the run ended early. -/
  aborted : Bool := false
  deriving DecidableEq

/-- Process a top-level file: forget open groups and files of earlier runs, and count what is
    reported. -/
def State.run (h : Host) (s : State) (name contents : Bytes) : Outcome × Result :=
  let start := { s with branches := s.branches.reset, files := [], resync := false }
  let out := start.process h name contents
  ({ out with failure := none },
    { errors := out.state.reporter.errors - s.reporter.errors
      warnings := out.state.reporter.warnings - s.reporter.warnings
      aborted := out.failure.isSome })

end Preproc.Engine
