import Preproc.Branch

set_option autoImplicit false

/-! # Groups of one file

While a file is processed, the groups it has opened lie on top of those that were open before, and
only they can be switched or closed by it (`Above.moves`). When the groups that it left open are
dropped, the stack is again what it was when the file started (`Above.unterminated`). -/

namespace Preproc.Branch

/-! ## Moves -/

/-- The stacks that a step can lead to. -/
def Step.LeadsTo (stack : Stack) : Step → Prop
  | refused _ => False
  | settled result => stack = result
  | asks resume => ∃ taken, stack = resume taken

/-- What one directive of a file can do to the groups, whatever its test gives. -/
inductive Moves (file : Int) (s : Stack) : Stack → Prop where
  | stay : Moves file s s
  | enter {s' : Stack} (pos : Position) (h : (s.enter pos file).LeadsTo s') : Moves file s s'
  | elif {s' : Stack} (h : (s.elif file).LeadsTo s') : Moves file s s'
  | otherwise {s' : Stack} (pos : Position) (h : s.otherwise pos file = .ok s') : Moves file s s'
  | endif {s' : Stack} (h : s.endif file = .ok s') : Moves file s s'

namespace Stack

theorem owned_eq_some {s : Stack} {file : Int} {frame : Frame} {outer : List Frame}
    (h : s.owned file = some (frame, outer)) : s.frames = frame :: outer ∧ frame.file = file := by
  unfold owned at h
  split at h
  · next top rest hframes =>
    split at h
    · next hfile =>
      simp only [Option.some.injEq, Prod.mk.injEq] at h
      obtain ⟨rfl, rfl⟩ := h
      exact ⟨hframes, hfile⟩
    · exact absurd h (by simp)
  · exact absurd h (by simp)

theorem pushed_of_enter {s s' : Stack} {pos : Position} {file : Int}
    (h : (s.enter pos file).LeadsTo s') : ∃ taken, s' = s.push pos file taken := by
  unfold enter at h
  split at h
  · exact absurd h (by simp [Step.LeadsTo])
  · split at h
    · exact h
    · exact ⟨false, h⟩

/-- The stack `s'` is `s` at another branch of the innermost group, which belongs to `file`. -/
def Switched (file : Int) (s s' : Stack) : Prop :=
  ∃ frame frame' outer, s.frames = frame :: outer ∧ frame.file = file ∧
    s' = { s with frames := frame' :: outer, compiling := s'.compiling } ∧
    frame'.file = frame.file ∧ frame'.wasCompiling = frame.wasCompiling ∧
    frame'.ifPos = frame.ifPos

theorem switched_of_elif {s s' : Stack} {file : Int} (h : (s.elif file).LeadsTo s') :
    s.Switched file s' := by
  unfold elif at h
  split at h
  · exact absurd h (by simp [Step.LeadsTo])
  · next frame outer howned =>
    obtain ⟨hframes, hfile⟩ := owned_eq_some howned
    split at h
    · exact absurd h (by simp [Step.LeadsTo])
    · split at h
      · obtain ⟨taken, rfl⟩ := h
        exact ⟨frame, _, outer, hframes, hfile, rfl, rfl, rfl, rfl⟩
      · obtain rfl := h
        exact ⟨frame, frame, outer, hframes, hfile, by rw [← hframes], rfl, rfl, rfl⟩

theorem switched_of_otherwise {s s' : Stack} {pos : Position} {file : Int}
    (h : s.otherwise pos file = .ok s') : s.Switched file s' := by
  unfold otherwise at h
  split at h
  · exact absurd h (by simp)
  · next frame outer howned =>
    obtain ⟨hframes, hfile⟩ := owned_eq_some howned
    split at h
    · exact absurd h (by simp)
    · obtain rfl := Except.ok.inj h
      exact ⟨frame, _, outer, hframes, hfile, rfl, rfl, rfl, rfl⟩

theorem popped_of_endif {s s' : Stack} {file : Int} (h : s.endif file = .ok s') :
    ∃ frame outer, s.frames = frame :: outer ∧ frame.file = file ∧
      s' = { s with frames := outer, compiling := frame.wasCompiling } := by
  unfold endif at h
  split at h
  · exact absurd h (by simp)
  · next frame outer howned =>
    obtain ⟨hframes, hfile⟩ := owned_eq_some howned
    exact ⟨frame, outer, hframes, hfile, (Except.ok.inj h).symm⟩

end Stack

/-- What a move leaves: the groups as they are, one more, another top of the same file and the same
    start, or one less. -/
theorem Moves.shape {file : Int} {s s' : Stack} (hm : Moves file s s') :
    s'.max = s.max ∧
      (s' = s ∨ (∃ pos taken, s' = s.push pos file taken) ∨
        ∃ frame outer, s.frames = frame :: outer ∧ frame.file = file ∧
          ((∃ frame', s'.frames = frame' :: outer ∧ frame'.file = file ∧
              frame'.wasCompiling = frame.wasCompiling) ∨
            (s'.frames = outer ∧ s'.compiling = frame.wasCompiling))) := by
  have hswitched (h : s.Switched file s') : s'.max = s.max ∧
      ∃ frame outer, s.frames = frame :: outer ∧ frame.file = file ∧
        ∃ frame', s'.frames = frame' :: outer ∧ frame'.file = file ∧
          frame'.wasCompiling = frame.wasCompiling := by
    obtain ⟨frame, frame', outer, hframes, hfile, hs', hfile', hwas, -⟩ := h
    rw [hs']
    exact ⟨rfl, frame, outer, hframes, hfile, frame', rfl, hfile'.trans hfile, hwas⟩
  cases hm with
  | stay => exact ⟨rfl, Or.inl rfl⟩
  | enter pos h =>
    obtain ⟨taken, rfl⟩ := Stack.pushed_of_enter h
    exact ⟨rfl, Or.inr (Or.inl ⟨pos, taken, rfl⟩)⟩
  | elif h =>
    obtain ⟨hmax, frame, outer, hframes, hfile, htop⟩ := hswitched (Stack.switched_of_elif h)
    exact ⟨hmax, Or.inr (Or.inr ⟨frame, outer, hframes, hfile, Or.inl htop⟩)⟩
  | otherwise pos h =>
    obtain ⟨hmax, frame, outer, hframes, hfile, htop⟩ := hswitched (Stack.switched_of_otherwise h)
    exact ⟨hmax, Or.inr (Or.inr ⟨frame, outer, hframes, hfile, Or.inl htop⟩)⟩
  | endif h =>
    obtain ⟨frame, outer, hframes, hfile, rfl⟩ := Stack.popped_of_endif h
    exact ⟨rfl, Or.inr (Or.inr ⟨frame, outer, hframes, hfile, Or.inr ⟨rfl, rfl⟩⟩)⟩

/-- A move brings in no file but its own. -/
theorem Moves.files {file : Int} {s s' : Stack} (hm : Moves file s s') {f : Frame}
    (hf : f ∈ s'.frames) : f.file = file ∨ f ∈ s.frames := by
  obtain ⟨-, rfl | ⟨pos, taken, rfl⟩ | ⟨frame, outer, hframes, hfile, h⟩⟩ := hm.shape
  · exact Or.inr hf
  · rcases List.mem_cons.1 hf with rfl | hf
    · exact Or.inl rfl
    · exact Or.inr hf
  · rw [hframes]
    rcases h with ⟨frame', hframes', hfile', -⟩ | ⟨hframes', -⟩
    · rw [hframes'] at hf
      rcases List.mem_cons.1 hf with rfl | hf
      · exact Or.inl hfile'
      · exact Or.inr (List.mem_cons_of_mem _ hf)
    · rw [hframes'] at hf
      exact Or.inr (List.mem_cons_of_mem _ hf)

/-! ## The groups of a file above those of others -/

/-- Whether lines were compiled before the outermost of some groups, given whether they are compiled
    inside the innermost. -/
def startOf : (compiling : Bool) → List Frame → Bool
  | compiling, [] => compiling
  | _, f :: outer => startOf f.wasCompiling outer

theorem startOf_of_getLast? {own : List Frame} {outermost : Frame}
    (h : own.getLast? = some outermost) (compiling : Bool) :
    startOf compiling own = outermost.wasCompiling := by
  induction own generalizing compiling with
  | nil => exact absurd h (by simp)
  | cons f own ih =>
    cases own with
    | nil =>
      obtain rfl : f = outermost := by simpa using h
      rfl
    | cons g own => exact ih (by simpa using h) f.wasCompiling

/-- The stack `s` is `base` with groups of `file` on top, and lines were compiled before these
    groups as `base` says. -/
structure Above (base : Stack) (file : Int) (s : Stack) : Prop where
  max : s.max = base.max
  split : ∃ own, s.frames = own ++ base.frames ∧ (∀ f ∈ own, f.file = file) ∧
    startOf s.compiling own = base.compiling

namespace Above

variable {base s s' : Stack} {file : Int}

theorem refl (base : Stack) (file : Int) : Above base file base :=
  ⟨rfl, [], rfl, by simp, rfl⟩

theorem suffix (ha : Above base file s) : base.frames <:+ s.frames := by
  obtain ⟨own, hframes, -⟩ := ha.split
  exact ⟨own, hframes.symm⟩

/-- A directive of the file only touches the groups of the file. -/
theorem moves (ha : Above base file s) (hbase : ∀ f ∈ base.frames, f.file ≠ file)
    (hm : Moves file s s') : Above base file s' := by
  obtain ⟨own, hframes, hown, hstart⟩ := ha.split
  obtain ⟨hmax, hshape⟩ := hm.shape
  refine ⟨hmax.trans ha.max, ?_⟩
  rcases hshape with rfl | ⟨pos, taken, rfl⟩ | ⟨frame, outer, htop, hfile, hrest⟩
  · exact ⟨own, hframes, hown, hstart⟩
  · refine ⟨{ wasCompiling := s.compiling, trueSeen := taken, ifPos := pos, file } :: own,
      by rw [Stack.push, hframes]; rfl, ?_, hstart⟩
    intro f hf
    rcases List.mem_cons.1 hf with rfl | hf
    · rfl
    · exact hown f hf
  · -- the top belongs to the file, so it is one of the file's own groups
    cases own with
    | nil =>
      rw [hframes, List.nil_append] at htop
      exact absurd hfile (hbase frame (by rw [htop]; simp))
    | cons top own =>
      rw [hframes, List.cons_append, List.cons.injEq] at htop
      obtain ⟨rfl, rfl⟩ := htop
      have hrestOwn : ∀ f ∈ own, f.file = file := fun f hf => hown f (List.mem_cons_of_mem _ hf)
      rcases hrest with ⟨frame', hframes', hfile', hwas⟩ | ⟨hframes', hcompiling⟩
      · refine ⟨frame' :: own, hframes', ?_, ?_⟩
        · intro f hf
          rcases List.mem_cons.1 hf with rfl | hf
          · exact hfile'
          · exact hrestOwn f hf
        · rw [startOf, hwas]
          exact hstart
      · refine ⟨own, hframes', hrestOwn, ?_⟩
        rw [hcompiling]
        exact hstart

/-- Dropping the groups that the file left open restores the stack on which it started. -/
theorem unterminated (ha : Above base file s) (hbase : ∀ f ∈ base.frames, f.file ≠ file) :
    (s.unterminated file).2 = base := by
  obtain ⟨own, hframes, hown, hstart⟩ := ha.split
  have hhead : ∀ f ∈ base.frames.head?, f.file ≠ file :=
    fun f hf => hbase f (List.mem_of_mem_head? hf)
  have htake : s.frames.takeWhile (·.file = file) = own := by
    rw [hframes, List.takeWhile_append_of_pos (by simpa using hown)]
    cases hb : base.frames with
    | nil => simp
    | cons f rest => simp [hhead f (by simp [hb])]
  have hdrop : s.frames.dropWhile (·.file = file) = base.frames := by
    rw [hframes, List.dropWhile_append_of_pos (by simpa using hown)]
    cases hb : base.frames with
    | nil => simp
    | cons f rest => simp [hhead f (by simp [hb])]
  have hmax := ha.max
  unfold Stack.unterminated
  simp only [htake, hdrop]
  split
  · next hnone =>
    obtain rfl := List.getLast?_eq_none_iff.1 hnone
    cases s
    cases base
    simp_all [startOf]
  · next outermost hsome =>
    rw [startOf_of_getLast? hsome] at hstart
    simp only [hmax, hstart]

end Above

/-! ## Steps inside a group -/

/-- A group that has reached its last branch, at `pos`. -/
def Frame.atElse (frame : Frame) (pos : Position) : Frame :=
  { frame with
    elseSeen := true
    elsePos := pos
    trueSeen := frame.trueSeen || (frame.wasCompiling && !frame.trueSeen) }

namespace Stack

/-- The innermost group, opened by a file, that has not reached its last branch. -/
structure InGroup (s : Stack) (file : Int) (frame : Frame) (outer : List Frame) : Prop where
  frames : s.frames = frame :: outer
  file : frame.file = file
  undecided : frame.elseSeen = false

/-- The stack in another branch of the innermost group. -/
def switch (s : Stack) (frame : Frame) (outer : List Frame) (compiling : Bool) : Stack :=
  { s with frames := frame :: outer, compiling }

/-- The stack after the innermost group. -/
def leave (s : Stack) (frame : Frame) (outer : List Frame) : Stack :=
  { s with frames := outer, compiling := frame.wasCompiling }

variable {s : Stack} {file : Int} {frame : Frame} {outer : List Frame}

theorem owned_of_frames (hframes : s.frames = frame :: outer) (hfile : frame.file = file) :
    s.owned file = some (frame, outer) := by
  simp [owned, hframes, hfile]

theorem InGroup.elif_asks (hg : s.InGroup file frame outer)
    (hneeded : (frame.wasCompiling && !frame.trueSeen) = true) :
    s.elif file = .asks fun taken => s.switch { frame with trueSeen := taken } outer taken := by
  simp only [elif, owned_of_frames hg.frames hg.file, hg.undecided, hneeded]
  simp [switch]

theorem InGroup.elif_settled (hg : s.InGroup file frame outer)
    (hneeded : (frame.wasCompiling && !frame.trueSeen) = false) :
    s.elif file = .settled (s.switch frame outer false) := by
  simp only [elif, owned_of_frames hg.frames hg.file, hg.undecided, hneeded]
  simp [switch, hg.frames]

theorem InGroup.otherwise_ok (hg : s.InGroup file frame outer) (pos : Position) :
    s.otherwise pos file =
      .ok (s.switch (frame.atElse pos) outer (frame.wasCompiling && !frame.trueSeen)) := by
  simp only [otherwise, owned_of_frames hg.frames hg.file, hg.undecided]
  simp [switch, Frame.atElse]

theorem endif_ok (hframes : s.frames = frame :: outer) (hfile : frame.file = file) :
    s.endif file = .ok (s.leave frame outer) := by
  simp only [endif, owned_of_frames hframes hfile, leave]

end Stack

end Preproc.Branch
