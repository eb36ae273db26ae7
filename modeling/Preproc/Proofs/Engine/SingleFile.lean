import Preproc.Proofs.Engine.Effect

set_option autoImplicit false

/-! # Files that open no other file

The number of files opened so far never goes down, and every included file raises it. So when it is
the same after the lines of a file as before them, no directive among them opened a file, and each
of them stays in its file (`directive_alone`). -/

namespace Preproc.Engine

open Source (LogicalLine)

section Lines

variable {h : Host} {nested : Option Nested} {place : OutputPlace} {s : State} {l : LogicalLine}
  {rest : List LogicalLine}

/-! ## Counting files -/

/-- Processing of included files that counts them. -/
def NestedOpens (nested : Option Nested) : Prop :=
  ∀ process, nested = some process → ∀ s path contents,
    s.opened < (process s path contents).state.opened

/-- A directive stays in its file, or it opens another one. -/
theorem directiveLine_effect (hnested : NestedOpens nested) (s : State) (l : LogicalLine) :
    StaysInFile (s.track l) (s.directiveLine h nested l) ∨
      s.opened < (s.directiveLine h nested l).state.opened := by
  refine (directiveWith_effect h nested (s.track l) _ l.text).effect.imp id ?_
  rintro ⟨process, path, contents, requests, hsome, hpasses⟩
  have hopens := hnested process hsome { s.track l with requests } path contents
  exact Nat.lt_of_lt_of_eq hopens hpasses.place.opened.symm

theorem directiveLine_opened_le (hnested : NestedOpens nested) (s : State) (l : LogicalLine) :
    s.opened ≤ (s.directiveLine h nested l).state.opened := by
  rcases directiveLine_effect (h := h) hnested s l with hstays | hopens
  · exact Nat.le_of_eq hstays.place.opened.symm
  · exact Nat.le_of_lt hopens

theorem closeGroups_opened (s : State) : s.closeGroups.opened = s.opened := by
  obtain ⟨t, hreported, hclosed⟩ := closeGroups_reported s
  rw [hclosed]
  exact hreported.opened

theorem processLines_opened_le (hnested : NestedOpens nested) (lines : List LogicalLine)
    (place : OutputPlace) (s : State) :
    s.opened ≤ (s.processLines h nested place lines).state.opened := by
  refine processLines_trans (R := fun s t => s.opened ≤ t.opened) (fun _ _ _ => Nat.le_trans)
    ?_ ?_ ?_ place s
  · intro s
    exact Nat.le_of_eq (closeGroups_opened s).symm
  · intro s l
    exact Nat.le_refl s.opened
  · intro s l _ _
    exact directiveLine_opened_le hnested s l

/-- A directive in a file whose lines open no other file: it stays in the file, and so do the lines
    after it. -/
theorem directive_alone (hnested : NestedOpens nested) (hl : l.directive = true)
    (halone : (s.processLines h nested place (l :: rest)).state.opened = s.opened) :
    let out := s.directiveLine h nested l
    StaysInFile (s.track l) out ∧
      (out.failure = none →
        (out.resumed.processLines h nested (place.after out.state) rest).state.opened =
          out.resumed.opened) := by
  intro out
  have hle : s.opened ≤ out.resumed.opened := directiveLine_opened_le hnested s l
  have hrest := processLines_opened_le (h := h) hnested rest (place.after out.state) out.resumed
  cases hfailure : out.failure with
  | some failure =>
    rw [processLines_ended hl hfailure] at halone
    refine ⟨(directiveLine_effect hnested s l).resolve_right ?_, fun hnone => ?_⟩
    · exact Nat.not_lt.2 (Nat.le_of_eq halone)
    · exact absurd hnone (by simp)
  | none =>
    rw [processLines_resumed hl hfailure] at halone
    have hsame : out.resumed.opened ≤ s.opened := Nat.le_trans hrest (Nat.le_of_eq halone)
    refine ⟨(directiveLine_effect hnested s l).resolve_right (Nat.not_lt.2 hsame), fun _ => ?_⟩
    exact halone.trans (Nat.le_antisymm hle hsame)

end Lines

/-- Every included file is counted, whatever it includes itself. -/
theorem nestedProcess_opens (h : Host) (levels : Nat) : NestedOpens (nestedProcess h levels) := by
  refine nestedProcess_induct ?_ levels
  intro levels hnested (s : State) path contents
  exact processLines_opened_le hnested (Source.logicalLines contents) {} (s.openFile path)

end Preproc.Engine
