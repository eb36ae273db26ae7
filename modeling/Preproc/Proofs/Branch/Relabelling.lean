import Preproc.Branch

set_option autoImplicit false

/-! # Groups under other file numbers

A group knows its file by a number. When all numbers are moved by the same amount, every step of
the groups gives the same result under the moved numbers: `relabel` commutes with each of them. -/

namespace Preproc.Branch

/-- The group with the number of its file moved by `δ`. -/
def Frame.relabel (δ : Int) (f : Frame) : Frame :=
  { f with file := f.file + δ }

/-- The groups with all numbers of files moved by `δ`. -/
def Stack.relabel (δ : Int) (s : Stack) : Stack :=
  { s with frames := s.frames.map (Frame.relabel δ) }

/-- The step with the numbers of files in its result moved by `δ`. -/
def Step.relabel (δ : Int) : Step → Step
  | refused why => refused why
  | settled stack => settled (stack.relabel δ)
  | asks resume => asks fun taken => (resume taken).relabel δ

namespace Stack

variable (δ : Int) (s : Stack) (pos : Position) (file : Int)

@[simp]
theorem depth_relabel : (s.relabel δ).depth = s.depth := by
  simp [relabel, depth]

theorem relabel_reset : s.reset.relabel δ = s.reset := rfl

theorem owned_relabel :
    (s.relabel δ).owned (file + δ) =
      (s.owned file).map fun top => (top.1.relabel δ, top.2.map (Frame.relabel δ)) := by
  unfold owned relabel
  cases s.frames with
  | nil => rfl
  | cons frame outer =>
    have hfile : (frame.relabel δ).file = file + δ ↔ frame.file = file := Int.add_left_inj δ
    by_cases h : frame.file = file
    · simp only [List.map_cons, if_pos h, if_pos (hfile.2 h), Option.map_some]
    · simp only [List.map_cons, if_neg h, if_neg (mt hfile.1 h), Option.map_none]

theorem enter_relabel :
    (s.relabel δ).enter pos (file + δ) = (s.enter pos file).relabel δ := by
  unfold enter
  rw [depth_relabel]
  by_cases hdeep : s.max ≤ s.depth
  · rw [if_pos hdeep]
    exact if_pos hdeep
  · rw [if_neg hdeep]
    refine (if_neg hdeep).trans ?_
    by_cases hcompiling : s.compiling = true
    · rw [if_pos hcompiling]
      exact if_pos hcompiling
    · rw [if_neg hcompiling]
      exact if_neg hcompiling

theorem elif_relabel : (s.relabel δ).elif (file + δ) = (s.elif file).relabel δ := by
  unfold elif
  rw [owned_relabel]
  cases s.owned file with
  | none => rfl
  | some top =>
    obtain ⟨frame, outer⟩ := top
    dsimp only [Option.map_some, Frame.relabel]
    split
    · rfl
    · split <;> rfl

theorem otherwise_relabel :
    (s.relabel δ).otherwise pos (file + δ) = (s.otherwise pos file).map (relabel δ) := by
  unfold otherwise
  rw [owned_relabel]
  cases s.owned file with
  | none => rfl
  | some top =>
    obtain ⟨frame, outer⟩ := top
    dsimp only [Option.map_some, Frame.relabel]
    split <;> rfl

theorem endif_relabel :
    (s.relabel δ).endif (file + δ) = (s.endif file).map (relabel δ) := by
  unfold endif
  rw [owned_relabel]
  cases s.owned file <;> rfl

/-- The groups that a file left open are the same ones, and so is what lies below them. -/
theorem unterminated_relabel :
    (s.relabel δ).unterminated (file + δ) =
      ((s.unterminated file).1.map (Frame.relabel δ), (s.unterminated file).2.relabel δ) := by
  have hfile : (fun f : Frame => decide (f.file = file + δ)) ∘ Frame.relabel δ =
      fun f : Frame => decide (f.file = file) := by
    funext f
    exact decide_eq_decide.2 (Int.add_left_inj δ)
  unfold unterminated
  simp only [relabel, List.takeWhile_map, List.dropWhile_map, hfile, List.getLast?_map]
  cases (s.frames.takeWhile fun f => decide (f.file = file)).getLast? with
  | none => rfl
  | some outermost => simp only [Option.map_some, List.map_reverse, Frame.relabel]

end Stack

end Preproc.Branch
