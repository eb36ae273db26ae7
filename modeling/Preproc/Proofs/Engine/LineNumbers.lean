import Preproc.Engine.Start
import Preproc.Proofs.Engine.SingleFile
import Preproc.Proofs.Source.Partition

set_option autoImplicit false

/-! # Output lines keep their numbers

Without line markers, a line that is not copied leaves as many line breaks behind as it had. So the
output of a file that opens no other file has the compiled lines of the source under the numbers
that they have there, and nothing else (`process_keeps_line_numbers`). -/

namespace Preproc.Engine

open Source (LogicalLine PhysicalLine Start Cut Broken physicalLines unlines)

/-! ## Lines that are handled -/

/-- A logical line that was handled, and whether it was copied. -/
structure Handled where
  line : LogicalLine
  kept : Bool

/-- What is written for a line without line markers. -/
def Handled.bytes (e : Handled) : Bytes :=
  if e.kept then copied e.line else blankLines e.line

/-- The lines of a file that are handled: all of them, unless the run ends before. -/
def State.handled (h : Host) (nested : Option Nested) : State → List LogicalLine → List Handled
  | _, [] => []
  | s, l :: rest =>
    if l.directive then
      let out := s.directiveLine h nested l
      ⟨l, false⟩ :: match out.failure with
        | some _ => []
        | none => handled h nested out.resumed rest
    else ⟨l, s.compiling⟩ :: handled h nested (s.track l) rest

/-- The lines of a source that are handled when it is processed as a file. -/
def State.handledLines (h : Host) (s : State) (name contents : Bytes) : List Handled :=
  (s.openFile name).handled h (nestedProcess h ((s.openFile name).levelsLeft h))
    (Source.logicalLines contents)

/-- The logical lines of a source that are compiled when it is processed as a file. -/
def State.compiledLines (h : Host) (s : State) (name contents : Bytes) : List LogicalLine :=
  ((s.handledLines h name contents).filter Handled.kept).map Handled.line

theorem handled_initial (h : Host) (nested : Option Nested) (s : State)
    (lines : List LogicalLine) : (s.handled h nested lines).map Handled.line <+: lines := by
  induction lines generalizing s with
  | nil => exact List.prefix_refl _
  | cons l rest ih =>
    rw [State.handled]
    split
    · rw [List.map_cons, List.prefix_cons_inj]
      split
      · exact List.nil_prefix
      · exact ih _
    · rw [List.map_cons, List.prefix_cons_inj]
      exact ih _

/-- What is written for the lines of a file that opens no other file. -/
theorem processLines_written_handled {h : Host} {nested : Option Nested}
    (hoff : h.settings.lineMarkers = false) (hnested : NestedOpens nested)
    (lines : List LogicalLine) (place : OutputPlace) (s : State)
    (halone : (s.processLines h nested place lines).state.opened = s.opened) :
    (s.processLines h nested place lines).written =
      (s.handled h nested lines).flatMap Handled.bytes := by
  have hblank : ∀ l, placeholder h l = blankLines l := fun l => by rw [placeholder, hoff]; rfl
  induction lines generalizing place s with
  | nil => rfl
  | cons l rest ih =>
    rw [State.handled]
    cases hl : l.directive with
    | true =>
      obtain ⟨hstays, hrest⟩ := directive_alone hnested hl halone
      rw [if_pos rfl, List.flatMap_cons]
      cases hfailure : (s.directiveLine h nested l).failure with
      | some failure =>
        rw [processLines_ended hl hfailure]
        simp [Handled.bytes, hblank, hstays.written]
      | none =>
        rw [processLines_resumed hl hfailure]
        dsimp only
        rw [hblank, hstays.written, ih _ _ (hrest hfailure), List.append_nil]
        rfl
    | false =>
      rw [if_neg (by simp), List.flatMap_cons]
      cases hc : s.compiling with
      | true =>
        rw [processLines_copied h nested place s l rest hl hc] at halone ⊢
        dsimp only at halone ⊢
        rw [ih _ _ halone, hoff]
        rfl
      | false =>
        rw [processLines_skipped h nested place s l rest hl hc] at halone ⊢
        dsimp only at halone ⊢
        rw [ih _ _ halone, hblank]
        rfl

theorem handledLines_initial (h : Host) (s : State) (name contents : Bytes) :
    (s.handledLines h name contents).map Handled.line <+: Source.logicalLines contents :=
  handled_initial h _ (s.openFile name) (Source.logicalLines contents)

/-- What is written for a file that opens no other file. -/
theorem process_written {h : Host} {s : State} {name contents : Bytes}
    (hoff : h.settings.lineMarkers = false)
    (halone : (s.process h name contents).state.opened = s.opened + 1) :
    (s.process h name contents).written =
      (s.handledLines h name contents).flatMap Handled.bytes :=
  processLines_written_handled hoff (nestedProcess_opens h _) (Source.logicalLines contents) {}
    (s.openFile name) halone

/-! ## Lines of the output -/

/-- How the lines of the output stand against those of the source, both from the number `first` on:
    the lines that are kept have the same numbers, and all others are empty. -/
structure InStep (first : Nat) (source output : List PhysicalLine) (handled : List Handled) :
    Prop where
  kept : ∀ e ∈ handled, e.kept = true → ∃ j, e.line.line = first + j ∧
    ∀ i, i < e.line.count → ∃ p, source[j + i]? = some p ∧ output[j + i]? = some p
  other : ∀ j p, output[j]? = some p →
    (∀ e ∈ handled, e.kept = true →
      first + j < e.line.line ∨ e.line.line + e.line.count ≤ first + j) → p.text = []

theorem InStep.nil (first : Nat) (source : List PhysicalLine) : InStep first source [] [] :=
  ⟨by simp, by simp⟩

/-- One more line: its own lines of the output are those of the source when it is kept, and empty
    when it is not. They are as many, unless they are the last ones. -/
theorem InStep.cons {first : Nat} {stretch rest own output : List PhysicalLine} {e : Handled}
    {handled : List Handled} (hline : e.line.line = first) (hcount : e.line.count = stretch.length)
    (hkept : e.kept = true → own = stretch)
    (hdropped : e.kept = false → ∀ p ∈ own, p.text = [])
    (hlength : own.length = stretch.length ∨ output = [] ∧ handled = [])
    (hrest : InStep (first + e.line.count) rest output handled) :
    InStep first (stretch ++ rest) (own ++ output) (e :: handled) := by
  refine ⟨fun e' he' hkept' => ?_, fun j p hp hothers => ?_⟩
  · rcases List.mem_cons.1 he' with rfl | hmore
    · refine ⟨0, by omega, fun i hi => ?_⟩
      have hi' : i < stretch.length := by omega
      rw [hkept hkept', Nat.zero_add, List.getElem?_append_left hi', List.getElem?_append_left hi']
      exact ⟨stretch[i], List.getElem?_eq_getElem hi', List.getElem?_eq_getElem hi'⟩
    · have hlength' := hlength.resolve_right (fun hlast => by simp [hlast.2] at hmore)
      obtain ⟨j, hj, hsame⟩ := hrest.kept e' hmore hkept'
      refine ⟨stretch.length + j, by omega, fun i hi => ?_⟩
      obtain ⟨p, hsource, houtput⟩ := hsame i hi
      have hshift : stretch.length + j + i = stretch.length + (j + i) := by omega
      refine ⟨p, ?_, ?_⟩
      · rw [hshift, List.getElem?_append_right (by omega), Nat.add_sub_cancel_left, hsource]
      · rw [hshift, ← hlength', List.getElem?_append_right (by omega), Nat.add_sub_cancel_left,
          houtput]
  · by_cases hj : j < own.length
    · rw [List.getElem?_append_left hj] at hp
      cases hk : e.kept with
      | true =>
        have hown := congrArg List.length (hkept hk)
        have houtside := hothers e (by simp) hk
        omega
      | false => exact hdropped hk p (List.mem_of_getElem? hp)
    · rw [List.getElem?_append_right (by omega)] at hp
      rcases hlength with hlength | ⟨rfl, -⟩
      · refine hrest.other _ p hp (fun e' he' hkept' => ?_)
        have houtside := hothers e' (List.mem_cons_of_mem _ he') hkept'
        omega
      · simp at hp

/-- The line breaks of a line that is not copied, as lines. -/
def blanks (l : LogicalLine) : List PhysicalLine :=
  List.replicate (if l.terminated then l.count else l.count - 1) ⟨[], true⟩

theorem unlines_blanks (l : LogicalLine) : unlines (blanks l) = blankLines l := by
  unfold blanks blankLines
  generalize (if l.terminated then l.count else l.count - 1) = n
  induction n with
  | zero => rfl
  | succ n ih => rw [List.replicate_succ, Source.unlines_cons, ih]; rfl

/-- Nothing is handled after a line without its newline. -/
theorem handled_eq_nil {l : LogicalLine} {lines : List LogicalLine} {handled : List Handled}
    (more : l.terminated = true ∨ lines = []) (hinitial : handled.map Handled.line <+: lines)
    (hl : l.terminated = false) : handled = [] := by
  obtain rfl := more.resolve_left (by simp [hl])
  simpa using hinitial

/-- The lines of the output that come from one line of the source, given the physical lines of
    which that is made. -/
def Handled.outputLines (e : Handled) (stretch : List PhysicalLine) : List PhysicalLine :=
  if e.kept then stretch else blanks e.line

theorem physicalLines_bytes {e : Handled} {stretch : List PhysicalLine} {more : Bytes}
    (hbroken : Broken stretch) (hfull : ∀ p ∈ stretch, p.terminated = false → p.text ≠ [])
    (hcopied : copied e.line = unlines stretch)
    (hended : e.line.terminated = true → ∀ p ∈ stretch, p.terminated = true)
    (hlast : e.line.terminated = false → more = []) :
    physicalLines (e.bytes ++ more) = e.outputLines stretch ++ physicalLines more := by
  unfold Handled.bytes Handled.outputLines
  split
  · rw [hcopied]
    cases hterminated : e.line.terminated with
    | true =>
      exact Source.physicalLines_unlines_append stretch hbroken.unbroken (hended hterminated) more
    | false =>
      rw [hlast hterminated, List.append_nil, Source.physicalLines_unlines hbroken hfull]
      exact (List.append_nil stretch).symm
  · rw [← unlines_blanks]
    exact Source.physicalLines_unlines_append (blanks e.line)
      (fun p hp => by simp [List.eq_of_mem_replicate hp])
      (fun p hp => by simp [List.eq_of_mem_replicate hp]) more

/-- The lines that are handled keep their numbers. -/
theorem handled_inStep {start : Start} {physical : List PhysicalLine} {lines : List LogicalLine}
    (hcut : Cut start physical lines) (hbroken : Broken physical)
    (hfull : ∀ p ∈ physical, p.terminated = false → p.text ≠ []) {handled : List Handled}
    (hinitial : handled.map Handled.line <+: lines) :
    InStep start.line physical (physicalLines (handled.flatMap Handled.bytes)) handled := by
  induction hcut generalizing handled with
  | nil start =>
    obtain rfl : handled = [] := by simpa using hinitial
    exact .nil _ _
  | @cons start stretch rest l lines here read count bytes ended more next ih =>
    cases handled with
    | nil => exact .nil _ _
    | cons e handled =>
      rw [List.map_cons, List.cons_prefix_cons] at hinitial
      obtain ⟨rfl, hinitial⟩ := hinitial
      obtain ⟨hstretch, hrest⟩ := hbroken.of_append
      have hlast := handled_eq_nil more hinitial
      have hmore := ih hrest (fun p hp => hfull p (List.mem_append_right _ hp)) hinitial
      rw [show e.line.next.line = start.line + e.line.count by rw [← here.line]; rfl] at hmore
      rw [List.flatMap_cons, physicalLines_bytes hstretch
        (fun p hp => hfull p (List.mem_append_left _ hp)) bytes ended
        (fun hl => by rw [hlast hl]; rfl)]
      refine .cons here.line count (fun hkept => if_pos hkept) ?_ ?_ hmore
      · intro hdropped p hp
        rw [Handled.outputLines, if_neg (by simp [hdropped])] at hp
        rw [List.eq_of_mem_replicate hp]
      · cases hterminated : e.line.terminated with
        | true =>
          refine .inl ?_
          unfold Handled.outputLines
          split
          · rfl
          · rw [blanks, List.length_replicate, if_pos hterminated, count]
        | false => exact .inr ⟨by rw [hlast hterminated]; rfl, hlast hterminated⟩

/-- The line of a text that has a given number, counted from one. -/
def lineAt (text : Bytes) : (number : Nat) → Option PhysicalLine
  | 0 => none
  | n + 1 => (physicalLines text)[n]?

/-- **Output lines keep their numbers.** Without line markers, and when a file opens no other file,
    each physical line of each compiled line stands in the output under the number that it has in
    the source, with the same bytes. Every other line of the output is empty. The run may have been
    ended by a fatal failure. -/
theorem process_keeps_line_numbers (h : Host) (s : State) (name contents : Bytes)
    (hoff : h.settings.lineMarkers = false)
    (halone : (s.process h name contents).state.opened = s.opened + 1) :
    let output := (s.process h name contents).written
    let compiled := s.compiledLines h name contents
    compiled.Sublist (Source.logicalLines contents) ∧
    (∀ l ∈ compiled, ∀ k, l.line ≤ k → k < l.line + l.count →
      ∃ p, lineAt contents k = some p ∧ lineAt output k = some p) ∧
    (∀ k p, lineAt output k = some p →
      (∀ l ∈ compiled, k < l.line ∨ l.line + l.count ≤ k) → p.text = []) := by
  intro output compiled
  have hinitial := handledLines_initial h s name contents
  have hwritten : output = _ := process_written hoff halone
  have hstep : InStep 1 (physicalLines contents) (physicalLines output)
      (s.handledLines h name contents) := by
    rw [hwritten]
    exact handled_inStep (Source.logicalLines_cut contents) (Source.physicalLines_broken contents)
      (Source.physicalLines_full contents) hinitial
  have hcompiled : ∀ l, l ∈ compiled ↔
      ∃ e ∈ s.handledLines h name contents, e.kept = true ∧ e.line = l := by
    intro l
    simp only [compiled, State.compiledLines, List.mem_map, List.mem_filter, and_assoc]
  refine ⟨?_, fun l hl k hle hlt => ?_, fun k p hp hothers => ?_⟩
  · exact (List.filter_sublist.map Handled.line).trans hinitial.sublist
  · obtain ⟨e, he, hkept, rfl⟩ := (hcompiled l).1 hl
    obtain ⟨j, hj, hsame⟩ := hstep.kept e he hkept
    obtain ⟨i, rfl⟩ : ∃ i, k = j + i + 1 := ⟨k - j - 1, by omega⟩
    exact hsame i (by omega)
  · cases k with
    | zero => exact absurd hp (by simp [lineAt])
    | succ j =>
      refine hstep.other j p hp (fun e he hkept => ?_)
      have houtside := hothers e.line ((hcompiled _).2 ⟨e, he, hkept, rfl⟩)
      omega

/-- A host that allows one open group. -/
def shallowHost : Host where
  settings := { maxDepth := 1 }
  includer := some fun _ _ _ => .error (ascii "no such file")

/-- A source with a directive over two lines, a compiled line over two more, a skipped branch, and a
    group too many, after which nothing is handled. -/
def cutOffSource : Bytes :=
  ascii "a\n#define X /* y\n*/\nb \\" ++ 13 :: ascii "\nc\n#ifdef Q\nz\n#else\nd\n#if 1\ne\n"

theorem process_keeps_line_numbers_cutOff :
    let s := shallowHost.start.1
    let out := s.process shallowHost (ascii "main.c") cutOffSource
    out.state.opened = s.opened + 1 ∧ out.failure.isSome = true ∧
    out.written = ascii "a\n\n\nb \\" ++ 13 :: ascii "\nc\n\n\n\nd\n\n" ∧
    ∀ l ∈ s.compiledLines shallowHost (ascii "main.c") cutOffSource,
      ∀ k, l.line ≤ k → k < l.line + l.count →
        ∃ p, lineAt cutOffSource k = some p ∧ lineAt out.written k = some p := by
  intro s out
  have halone : out.state.opened = s.opened + 1 := by decide +kernel
  obtain ⟨-, hkept, -⟩ :=
    process_keeps_line_numbers shallowHost s (ascii "main.c") cutOffSource rfl halone
  exact ⟨halone, by decide +kernel, by decide +kernel, hkept⟩

end Preproc.Engine
