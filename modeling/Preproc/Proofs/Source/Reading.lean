import Preproc.Source.LogicalLine

set_option autoImplicit false

/-! # How logical lines follow each other

Each logical line starts where the one before it ends, in its line number, its offset and its block
comments, and only the last one may lack its newline (`Reads`). Every source is read in this way
(`logicalLines_reads`). -/

namespace Preproc.Source

/-- What holds of a line that is read at a given start. -/
structure ReadAt (start : Start) (l : LogicalLine) : Prop where
  line : l.line = start.line
  offset : l.offset = start.offset
  comment : l.endsInComment = endsInComment start.inComment l.text
  /-- No directive begins inside a block comment. -/
  outside : l.directive = true → start.inComment = false
  /-- A directive takes in the lines of a block comment that it opens. -/
  closed : l.terminated = true → l.directive = true → l.endsInComment = false
  /-- The line breaks of a line with its newline are as many as its physical lines. -/
  breaks : l.terminated = true → countNewlines l.raw + 1 = l.count

/-- Lines that are read one after the other. -/
inductive Reads : Start → List LogicalLine → Prop where
  | nil (start : Start) : Reads start []
  | cons {start : Start} {l : LogicalLine} {rest : List LogicalLine} (here : ReadAt start l)
      (more : l.terminated = true ∨ rest = []) (next : Reads l.next rest) : Reads start (l :: rest)

/-! ## Physical lines -/

/-- Lines that a newline ends, but for the last one, and that hold no other newline. -/
inductive Broken : List PhysicalLine → Prop where
  | nil : Broken []
  | cons {l : PhysicalLine} {rest : List PhysicalLine} (unbroken : newline ∉ l.text)
      (more : l.terminated = true ∨ rest = []) (next : Broken rest) : Broken (l :: rest)

theorem physicalLines_broken (source : Bytes) : Broken (physicalLines source) := by
  induction source with
  | nil => exact .nil
  | cons b rest ih =>
    rw [physicalLines]
    split
    · exact .cons (by simp) (.inl rfl) ih
    · next hb =>
      cases hlines : physicalLines rest with
      | nil => exact .cons (by simpa using Ne.symm hb) (.inr rfl) .nil
      | cons l lines =>
        rw [hlines] at ih
        cases ih with
        | cons unbroken more next => exact .cons (by simp [unbroken, Ne.symm hb]) more next

/-! ## Joining -/

/-- What holds of a line of which more is to come, read at a given start. -/
structure PendingAt (start : Start) (p : Pending) : Prop where
  line : p.line = start.line
  offset : p.offset = start.offset
  comment : p.startsInComment = start.inComment
  outside : p.directive = true → start.inComment = false

theorem Start.pending_at (start : Start) (first : PhysicalLine) :
    PendingAt start (start.pending first) where
  line := rfl
  offset := rfl
  comment := rfl
  outside hdirective := by
    simp only [Start.pending, Bool.and_eq_true, Bool.not_eq_true'] at hdirective
    exact hdirective.1

section Extend

variable {start : Start} {p : Pending}

/-- What one more physical line does to a line, apart from its text. -/
theorem Pending.extend_eq (p : Pending) (physical : PhysicalLine) :
    ∃ text, (p.extend physical).1 =
      { p with
        text
        raw := if p.count = 0 then physical.text else p.raw ++ newline :: physical.text
        count := p.count + 1 } := by
  unfold Pending.extend
  dsimp only
  split
  · exact ⟨_, rfl⟩
  · split
    · exact ⟨_, rfl⟩
    · exact ⟨_, rfl⟩

theorem PendingAt.extend (h : PendingAt start p) (physical : PhysicalLine) :
    PendingAt start (p.extend physical).1 := by
  obtain ⟨text, heq⟩ := p.extend_eq physical
  rw [heq]
  exact ⟨h.line, h.offset, h.comment, h.outside⟩

/-- A directive does not end inside a block comment that it opens. -/
theorem Pending.extend_closed {physical : PhysicalLine} (hends : (p.extend physical).2 = false)
    (hp : p.directive = true) : endsInComment false (p.extend physical).1.text = false := by
  unfold Pending.extend at hends ⊢
  dsimp only at hends ⊢
  split at hends
  · exact absurd hends (by simp)
  · split at hends
    · exact absurd hends (by simp)
    · next hbackslash hcomment =>
      rw [if_neg hbackslash, if_neg hcomment]
      simpa [hp] using hcomment

/-- The line breaks inside a line that has begun. -/
def Pending.Counted (p : Pending) : Prop :=
  countNewlines p.raw + 1 = p.count

theorem Pending.extend_counted (hp : p.count = 0 ∨ p.Counted) {physical : PhysicalLine}
    (hunbroken : newline ∉ physical.text) : (p.extend physical).1.Counted := by
  obtain ⟨text, heq⟩ := p.extend_eq physical
  have hnone : countNewlines physical.text = 0 := List.count_eq_zero.2 hunbroken
  rw [heq]
  rcases hp with hzero | hcounted
  · simp [Counted, hzero, hnone]
  · have hpos : p.count ≠ 0 := by unfold Counted at hcounted; omega
    unfold Counted countNewlines at *
    simp only [hpos, if_false, List.count_append, List.count_cons_self]
    omega

/-- A line that ends is read at its start. -/
theorem PendingAt.close (h : PendingAt start p) (hp : p.Counted) {terminated : Bool}
    (hclosed : terminated = true → p.directive = true → endsInComment false p.text = false) :
    ReadAt start (p.close terminated) where
  line := h.line
  offset := h.offset
  comment := by rw [← h.comment]; rfl
  outside := h.outside
  closed hterminated hdirective := by
    show endsInComment p.startsInComment p.text = false
    rw [h.comment, h.outside hdirective]
    exact hclosed hterminated hdirective
  breaks _ := hp

end Extend

/-- What holds of a line that may have begun. -/
def StartedAt (start : Start) (pending : Option Pending) : Prop :=
  ∀ p, pending = some p → PendingAt start p ∧ p.Counted

theorem joinLines_reads {physical : List PhysicalLine} (hbroken : Broken physical) (start : Start)
    (pending : Option Pending) (hpending : StartedAt start pending) :
    Reads start (joinLines start pending physical) := by
  induction hbroken generalizing start pending with
  | nil =>
    cases pending with
    | none => exact .nil start
    | some p =>
      obtain ⟨hat, -⟩ := hpending p rfl
      refine .cons ⟨hat.line, hat.offset, ?_, hat.outside, ?_, ?_⟩ (.inr rfl) (.nil _)
      · rw [← hat.comment]
        rfl
      · exact fun hterminated => absurd hterminated (by simp [Pending.close])
      · exact fun hterminated => absurd hterminated (by simp [Pending.close])
  | @cons l rest unbroken more next ih =>
    -- the line that takes in `l`, begun here or before
    obtain ⟨p, hp, hbefore⟩ : ∃ p, pending.getD (start.pending l) = p ∧
        PendingAt start p ∧ (p.count = 0 ∨ p.Counted) := by
      cases pending with
      | none => exact ⟨_, rfl, start.pending_at l, .inl rfl⟩
      | some p => exact ⟨p, rfl, (hpending p rfl).1, .inr (hpending p rfl).2⟩
    have hat := hbefore.1.extend l
    have hcounted := Pending.extend_counted hbefore.2 unbroken
    rw [joinLines, hp]
    dsimp only
    split
    · exact ih start (some _) (fun q hq => Option.some.inj hq ▸ ⟨hat, hcounted⟩)
    · next hends =>
      have hdirective : (p.extend l).1.directive = p.directive := by
        obtain ⟨text, heq⟩ := p.extend_eq l
        rw [heq]
      refine .cons (hat.close hcounted (fun hterminated hd => ?_)) ?_ (ih _ none ?_)
      · exact Pending.extend_closed (by simpa [hterminated] using hends) (hdirective ▸ hd)
      · exact more.imp id (fun hrest => by rw [hrest]; rfl)
      · exact fun q hq => absurd hq (by simp)

/-- **The lines of a source follow each other.** -/
theorem logicalLines_reads (source : Bytes) : Reads {} (logicalLines source) :=
  joinLines_reads (physicalLines_broken source) {} none (fun _ h => absurd h (by simp))

/-! ## What holds of every line -/

/-- Lines each of which has a property at the place where it starts. -/
inductive EachAt (property : Start → LogicalLine → Prop) : Start → List LogicalLine → Prop where
  | nil (start : Start) : EachAt property start []
  | cons {start : Start} {l : LogicalLine} {rest : List LogicalLine} (here : property start l)
      (next : EachAt property l.next rest) : EachAt property start (l :: rest)

theorem EachAt.forall_mem {property : LogicalLine → Prop} {start : Start}
    {lines : List LogicalLine} (h : EachAt (fun _ => property) start lines) :
    ∀ l ∈ lines, property l := by
  induction h with
  | nil => simp
  | cons here next ih => exact List.forall_mem_cons.2 ⟨here, ih⟩

/-- What a line that has begun keeps with each physical line that it takes in, and what follows from
    it for the line as it ends. The flag beside such a line says whether it goes on. -/
structure Carries (holds : Start → Pending × Bool → Prop)
    (property : Start → LogicalLine → Prop) : Prop where
  first (start : Start) (l : PhysicalLine) (unbroken : newline ∉ l.text) :
    holds start ((start.pending l).extend l)
  next (start : Start) (p : Pending) (l : PhysicalLine) (unbroken : newline ∉ l.text)
    (before : holds start (p, true)) : holds start (p.extend l)
  close (start : Start) (p : Pending) (goesOn terminated : Bool) (last : holds start (p, goesOn)) :
    property start (p.close terminated)
  /-- The source ends where the line would go on. -/
  cutOff (start : Start) (p : Pending) (last : holds start (p, true)) :
    property start ({ p with raw := p.raw ++ [newline] }.close false)

theorem joinLines_each {holds : Start → Pending × Bool → Prop}
    {property : Start → LogicalLine → Prop} (h : Carries holds property)
    {physical : List PhysicalLine} (hbroken : Broken physical) (start : Start)
    (pending : Option Pending) (hpending : ∀ p, pending = some p → holds start (p, true)) :
    EachAt property start (joinLines start pending physical) := by
  induction hbroken generalizing start pending with
  | nil =>
    cases pending with
    | none => exact .nil start
    | some p => exact .cons (h.cutOff start p (hpending p rfl)) (.nil _)
  | @cons l rest unbroken more _ ih =>
    have hafter : holds start ((pending.getD (start.pending l)).extend l) := by
      cases pending with
      | none => exact h.first start l unbroken
      | some p => exact h.next start p l unbroken (hpending p rfl)
    rw [joinLines]
    dsimp only
    split
    · next hends =>
      obtain ⟨hgoes, -⟩ := Bool.and_eq_true_iff.1 hends
      refine ih start _ ?_
      intro p hp
      obtain rfl := Option.some.inj hp
      rw [← hgoes]
      exact hafter
    · refine .cons (h.close start _ _ _ hafter) (ih _ none ?_)
      intro p hp
      exact absurd hp (by simp)

/-- **Every line of a source** has what its physical lines carry. -/
theorem logicalLines_each {holds : Start → Pending × Bool → Prop}
    {property : Start → LogicalLine → Prop} (h : Carries holds property) (source : Bytes) :
    EachAt property {} (logicalLines source) :=
  joinLines_each h (physicalLines_broken source) {} none (fun _ h => absurd h (by simp))

/-! ## How many lines there are -/

theorem physicalLines_length_le (source : Bytes) :
    (physicalLines source).length ≤ source.length := by
  induction source with
  | nil => exact Nat.le_refl _
  | cons b rest ih =>
    rw [physicalLines]
    split
    · simpa using ih
    · cases hlines : physicalLines rest with
      | nil => simp
      | cons l lines =>
        rw [hlines] at ih
        simp only [List.length_cons] at ih ⊢
        omega

/-- Every logical line takes in a physical line, but for one that has begun before. -/
theorem joinLines_length_le (physical : List PhysicalLine) (start : Start)
    (pending : Option Pending) :
    (joinLines start pending physical).length ≤
      physical.length + if pending.isSome then 1 else 0 := by
  induction physical generalizing start pending with
  | nil => cases pending <;> simp [joinLines]
  | cons first rest ih =>
    rw [joinLines]
    dsimp only
    split
    · have hmore := ih start (some ((pending.getD (start.pending first)).extend first).1)
      simp only [Option.isSome_some, if_true, List.length_cons] at hmore ⊢
      omega
    · have hmore := ih (((pending.getD (start.pending first)).extend first).1.close
        first.terminated).next none
      simp only [Option.isSome_none, Bool.false_eq_true, if_false, List.length_cons] at hmore ⊢
      omega

/-- **Every logical line takes at least one byte of its source.** -/
theorem logicalLines_length_le (source : Bytes) :
    (logicalLines source).length ≤ source.length := by
  have hjoined := joinLines_length_le (physicalLines source) {} none
  exact Nat.le_trans hjoined (physicalLines_length_le source)

end Preproc.Source
