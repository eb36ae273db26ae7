import Preproc.Proofs.Engine.LineNumbers
import Preproc.Proofs.Source.Placement

set_option autoImplicit false

/-! # Processing what was processed

A text without directives is copied as it is (`run_of_plain`). The output of a run without line
markers is such a text: lines are skipped and compiled in stretches between directives, and no block
comment is open at a directive, so that every compiled line is read with the same comment state in
the output as in the source (`handled_plain`). So processing the output again changes nothing
(`run_of_output`). -/

namespace Preproc.Engine

open Source (LogicalLine PhysicalLine Start Cut ReadAs Broken joinLines physicalLines unlines)

/-! ## Texts without directives -/

/-- A text none of whose lines is a directive. -/
def Plain (text : Bytes) : Prop :=
  ∀ l ∈ Source.logicalLines text, l.directive = false

/-- Lines that hold no directive, given whether a block comment is open before them. -/
def NoDirective (inComment : Bool) (physical : List PhysicalLine) : Prop :=
  ∀ start : Start, start.inComment = inComment →
    ∀ l ∈ joinLines start none physical, l.directive = false

theorem NoDirective.nil (inComment : Bool) : NoDirective inComment [] := by
  intro start _ l hl
  exact absurd hl (by simp [joinLines])

/-- A stretch of lines that is read as one line, which is no directive. -/
theorem NoDirective.append {inComment : Bool} {stretch rest : List PhysicalLine} {l : LogicalLine}
    (hread : ReadAs inComment stretch l) (hl : l.directive = false)
    (hmore : l.terminated = true ∨ rest = []) (hrest : NoDirective l.endsInComment rest) :
    NoDirective inComment (stretch ++ rest) := by
  intro start hstart l' hl'
  rw [hread start rest hstart hmore] at hl'
  rcases List.mem_cons.1 hl' with rfl | hl'
  · exact hl
  · exact hrest _ rfl l' hl'

/-- An empty line leaves an open comment open. -/
theorem NoDirective.blank {inComment : Bool} {rest : List PhysicalLine}
    (hrest : NoDirective inComment rest) : NoDirective inComment (⟨[], true⟩ :: rest) := by
  intro start hstart l hl
  have hjoin : joinLines start none (⟨[], true⟩ :: rest) =
      ((start.pending ⟨[], true⟩).extend ⟨[], true⟩).1.close true ::
        joinLines (((start.pending ⟨[], true⟩).extend ⟨[], true⟩).1.close true).next none rest := by
    rw [joinLines]
    simp [Source.Start.pending, Source.Pending.extend, Source.dropCarriageReturn,
      Source.startsDirective]
  rw [hjoin] at hl
  rcases List.mem_cons.1 hl with rfl | hl
  · simp [Source.Start.pending, Source.Pending.extend, Source.dropCarriageReturn,
      Source.startsDirective, Source.Pending.close]
  · refine hrest _ ?_ l hl
    cases inComment <;>
      simp [Source.LogicalLine.next, Source.Pending.close, Source.Pending.extend,
        Source.Start.pending, Source.dropCarriageReturn, Source.startsDirective,
        Source.endsInComment, Source.Region.after, hstart]

theorem NoDirective.blanks {inComment : Bool} {rest : List PhysicalLine} (l : LogicalLine)
    (hrest : NoDirective inComment rest) : NoDirective inComment (blanks l ++ rest) := by
  unfold Engine.blanks
  generalize (if l.terminated then l.count else l.count - 1) = n
  induction n with
  | zero => exact hrest
  | succ n ih => exact ih.blank

/-! ## The output of a run -/

/-- Lines that are handled, starting in compiled text or not: from one directive to the next, either
    all lines are kept or none is. -/
inductive Switched : Bool → List Handled → Prop where
  | nil (compiling : Bool) : Switched compiling []
  | directive {compiling next : Bool} {e : Handled} {rest : List Handled}
      (he : e.line.directive = true) (hkept : e.kept = false) (hrest : Switched next rest) :
      Switched compiling (e :: rest)
  | text {e : Handled} {rest : List Handled} (he : e.line.directive = false)
      (hrest : Switched e.kept rest) : Switched e.kept (e :: rest)

theorem handled_switched (h : Host) (nested : Option Nested) (s : State)
    (lines : List LogicalLine) : Switched s.compiling (s.handled h nested lines) := by
  induction lines generalizing s with
  | nil => exact .nil _
  | cons l rest ih =>
    rw [State.handled]
    split
    · next hl =>
      dsimp only
      split
      · exact .directive hl rfl (.nil true)
      · exact .directive hl rfl (ih _)
    · next hl =>
      have hrest := ih (s.track l)
      exact .text (e := ⟨l, s.compiling⟩) (by simpa using hl) hrest

/-- **The output of a run holds no directive.** While lines are compiled, a block comment is open in
    the output whenever it is open in the source; while they are skipped, none is. -/
theorem handled_plain {start : Start} {physical : List PhysicalLine} {lines : List LogicalLine}
    (hcut : Cut start physical lines) (hbroken : Broken physical)
    (hfull : ∀ p ∈ physical, p.terminated = false → p.text ≠ []) {compiling : Bool}
    {handled : List Handled} (hswitched : Switched compiling handled)
    (hinitial : handled.map Handled.line <+: lines) :
    NoDirective (compiling && start.inComment)
      (physicalLines (handled.flatMap Handled.bytes)) := by
  induction hcut generalizing handled compiling with
  | nil start =>
    obtain rfl : handled = [] := by simpa using hinitial
    exact .nil _
  | @cons start stretch rest l lines here read count bytes ended more next ih =>
    cases handled with
    | nil => exact .nil _
    | cons e handled =>
      rw [List.map_cons, List.cons_prefix_cons] at hinitial
      obtain ⟨rfl, hinitial⟩ := hinitial
      obtain ⟨hstretch, hrest⟩ := hbroken.of_append
      have hlast := handled_eq_nil more hinitial
      have hmore {on : Bool} (hswitched : Switched on handled) := ih hrest
        (fun p hp => hfull p (List.mem_append_right _ hp)) hswitched hinitial
      rw [List.flatMap_cons, physicalLines_bytes hstretch
        (fun p hp => hfull p (List.mem_append_left _ hp)) bytes ended
        (fun hl => by rw [hlast hl]; rfl), Handled.outputLines]
      cases hswitched with
      | directive he hkept hswitched =>
        -- no comment is open before a directive, and none after it
        rw [here.outside he, Bool.and_false, if_neg (by simp [hkept])]
        refine .blanks _ ?_
        cases hterminated : e.line.terminated with
        | true =>
          have hclosed : e.line.next.inComment = false := here.closed hterminated he
          have hplain := hmore hswitched
          rwa [hclosed, Bool.and_false] at hplain
        | false =>
          rw [hlast hterminated]
          exact .nil _
      | text he hswitched =>
        have hplain := hmore hswitched
        cases hkept : e.kept with
        | true =>
          rw [hkept, Bool.true_and] at hplain
          rw [if_pos rfl, Bool.true_and]
          refine .append read he ?_ hplain
          cases hterminated : e.line.terminated with
          | true => exact .inl rfl
          | false => exact .inr (by rw [hlast hterminated]; rfl)
        | false =>
          rw [hkept, Bool.false_and] at hplain
          exact .blanks _ hplain

theorem plain_of_process {h : Host} {s : State} {name contents : Bytes}
    (hoff : h.settings.lineMarkers = false)
    (halone : (s.process h name contents).state.opened = s.opened + 1) :
    Plain (s.process h name contents).written := by
  have hswitched : Switched s.compiling (s.handledLines h name contents) :=
    handled_switched h _ (s.openFile name) _
  have hplain := handled_plain (Source.logicalLines_cut contents)
    (Source.physicalLines_broken contents) (Source.physicalLines_full contents) hswitched
    (handledLines_initial h s name contents)
  rw [Bool.and_false, ← process_written hoff halone] at hplain
  exact hplain {} rfl

/-! ## Copying -/

/-- What is copied of a line is what it takes of its source. -/
theorem copied_eq_bytes (l : LogicalLine) : copied l = l.bytes := by
  rw [LogicalLine.bytes_eq]
  rfl

theorem flatMap_copied (source : Bytes) : (Source.logicalLines source).flatMap copied = source := by
  rw [funext copied_eq_bytes]
  exact Source.bytesOf_logicalLines source

/-- Compiled lines without a directive among them are copied. -/
theorem processLines_plain {h : Host} (hoff : h.settings.lineMarkers = false)
    (nested : Option Nested) {lines : List LogicalLine} (hplain : ∀ l ∈ lines, l.directive = false)
    (place : OutputPlace) {s : State} (hc : s.compiling = true) :
    ∃ tracker, s.processLines h nested place lines =
      { state := { s with tracker }.closeGroups, written := lines.flatMap copied } := by
  induction lines generalizing place s with
  | nil => exact ⟨s.tracker, rfl⟩
  | cons l rest ih =>
    obtain ⟨hl, hrest⟩ := List.forall_mem_cons.1 hplain
    have htrack : (s.track l).compiling = true := hc
    obtain ⟨tracker, hmore⟩ := ih hrest
      ⟨(s.track l).presentedFile, (s.track l).presentedLine + l.count⟩ htrack
    refine ⟨tracker, ?_⟩
    rw [processLines_copied h nested place s l rest hl hc]
    dsimp only
    rw [hmore, hoff]
    rfl

/-- **A text without directives is copied**, and nothing comes of it but that one more file was
    opened. -/
theorem run_of_plain {h : Host} (hoff : h.settings.lineMarkers = false) (s : State) (name : Bytes)
    {text : Bytes} (hplain : Plain text) :
    s.run h name text =
      ({ state :=
          { s with
            branches := s.branches.reset, files := [], resync := false, opened := s.opened + 1 }
         written := text }, {}) := by
  let start := { s with branches := s.branches.reset, files := [], resync := false }
  obtain ⟨tracker, hlines⟩ := processLines_plain hoff
    (nestedProcess h ((start.openFile name).levelsLeft h)) hplain {} (s := start.openFile name) rfl
  have hprocess : start.process h name text =
      { state := { start with opened := s.opened + 1 }, written := text } := by
    rw [State.process, State.processFile, hlines, flatMap_copied, closeGroups_of_nil rfl]
    rfl
  unfold State.run
  dsimp only
  rw [show State.process h _ name text = _ from hprocess]
  simp [start]

/-- **Processing is idempotent.** Take the output of a run without line markers that opens no other
    file, ended early or not. No line of it is a directive, and any run on it without line markers
    gives it back and reports nothing; of the state of that run, only the number of files opened so
    far and what a run forgets at its start differ from what they were. -/
theorem run_of_output (h h' : Host) (s s' : State) (name name' source : Bytes)
    (hoff : h.settings.lineMarkers = false) (hoff' : h'.settings.lineMarkers = false)
    (halone : (s.run h name source).1.state.opened = s.opened + 1) :
    let output := (s.run h name source).1.written
    let again := s'.run h' name' output
    again.1.written = output ∧
    (∀ l ∈ Source.logicalLines output, l.directive = false) ∧
    again.1.state =
      { s' with
        branches := s'.branches.reset, files := [], resync := false, opened := s'.opened + 1 } ∧
    again.2 = { errors := 0, warnings := 0, aborted := false } := by
  intro output again
  have hplain : Plain output := plain_of_process hoff halone
  have hagain : again = _ := run_of_plain hoff' s' name' hplain
  rw [hagain]
  exact ⟨rfl, hplain, rfl, rfl⟩

/-- A strict host that supports no directives but conditionals and definitions. -/
def strictHost : Host where
  settings := { strict := true }
  includer := none

/-- A source with what looks like directives inside comments, in compiled and in skipped text, and
    in a line that goes on; a group too many ends the run. -/
def commentedSource : Bytes :=
  ascii "/* a\n#define A 1\n*/ b\n#ifdef Q\n/* c\n#endif\n*/\n#else\nd \\\n#x\n#ifdef A\ne\n"

theorem run_of_output_commented :
    let s := shallowHost.start.1
    let s' := strictHost.start.1
    let first := s.run shallowHost (ascii "main.c") commentedSource
    let again := s'.run strictHost (ascii "main.i") first.1.written
    first.1.state.opened = s.opened + 1 ∧ first.2.aborted = true ∧
    first.1.written = ascii "/* a\n#define A 1\n*/ b\n\n\n\n\n\nd \\\n#x\n\n" ∧
    again.1.written = first.1.written ∧ again.2 = {} := by
  intro s s' first again
  have halone : first.1.state.opened = s.opened + 1 := by decide +kernel
  obtain ⟨hwritten, -, -, hresult⟩ := run_of_output shallowHost strictHost s s' (ascii "main.c")
    (ascii "main.i") commentedSource rfl rfl halone
  exact ⟨halone, by decide +kernel, by decide +kernel, hwritten, hresult⟩

end Preproc.Engine
