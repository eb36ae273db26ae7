import Preproc.Proofs.Source.Reading
import Preproc.Proofs.Source.SimpleLines

set_option autoImplicit false

/-! # The physical lines of a logical line

A source is its physical lines one after the other, and each logical line is made of a stretch of
them that nobody else uses (`logicalLines_cut`). What a stretch is read as depends on nothing but
the stretch itself and on whether a block comment is open before it (`ReadAs`), so that it is read
in the same way when other lines around it change. -/

namespace Preproc.Source

/-! ## Physical lines as text -/

/-- A line as it stands in the source, with its newline if it has one. -/
def PhysicalLine.bytes (l : PhysicalLine) : Bytes :=
  if l.terminated then l.text ++ [newline] else l.text

/-- The source that is made of some physical lines. -/
def unlines (lines : List PhysicalLine) : Bytes :=
  lines.flatMap PhysicalLine.bytes

@[simp] theorem unlines_nil : unlines [] = [] := rfl

@[simp] theorem unlines_cons (l : PhysicalLine) (rest : List PhysicalLine) :
    unlines (l :: rest) = l.bytes ++ unlines rest := by
  simp [unlines]

@[simp] theorem unlines_append (lines more : List PhysicalLine) :
    unlines (lines ++ more) = unlines lines ++ unlines more := by
  simp [unlines]

theorem unlines_physicalLines (source : Bytes) : unlines (physicalLines source) = source := by
  induction source with
  | nil => rfl
  | cons b rest ih =>
    rw [physicalLines]
    split
    · next hb => simp [PhysicalLine.bytes, ih, hb]
    · cases hlines : physicalLines rest with
      | nil =>
        rw [hlines] at ih
        simp [PhysicalLine.bytes, ← ih]
      | cons l lines =>
        rw [hlines, unlines_cons] at ih
        have hbytes : PhysicalLine.bytes { l with text := b :: l.text } = b :: l.bytes := by
          unfold PhysicalLine.bytes
          dsimp only
          split <;> rfl
        show unlines ({ l with text := b :: l.text } :: lines) = b :: rest
        rw [unlines_cons, hbytes, List.cons_append, ih]

/-- A line without its newline is never empty. -/
theorem physicalLines_full (source : Bytes) :
    ∀ l ∈ physicalLines source, l.terminated = false → l.text ≠ [] := by
  induction source with
  | nil => simp [physicalLines]
  | cons b rest ih =>
    rw [physicalLines]
    split
    · intro l hl hterminated
      rcases List.mem_cons.1 hl with rfl | hl
      · exact absurd hterminated (by simp)
      · exact ih l hl hterminated
    · cases hlines : physicalLines rest with
      | nil => simp
      | cons first lines =>
        intro l hl hterminated
        rcases List.mem_cons.1 hl with rfl | hl
        · simp
        · exact ih l (hlines ▸ List.mem_cons_of_mem _ hl) hterminated

theorem physicalLines_unbroken {line : Bytes} (hl : newline ∉ line) (hne : line ≠ []) :
    physicalLines line = [⟨line, false⟩] := by
  induction line with
  | nil => exact absurd rfl hne
  | cons b line ih =>
    simp only [List.mem_cons, not_or] at hl
    rw [physicalLines, if_neg (fun h => hl.1 h.symm)]
    cases line with
    | nil => rfl
    | cons c line => rw [ih hl.2 (by simp)]

/-- Lines that all have their newline are found again, whatever follows them. -/
theorem physicalLines_unlines_append (lines : List PhysicalLine)
    (hunbroken : ∀ l ∈ lines, newline ∉ l.text) (hended : ∀ l ∈ lines, l.terminated = true)
    (rest : Bytes) : physicalLines (unlines lines ++ rest) = lines ++ physicalLines rest := by
  induction lines with
  | nil => rfl
  | cons l lines ih =>
    obtain ⟨text, terminated⟩ := l
    obtain rfl : terminated = true := hended _ List.mem_cons_self
    have hbytes : PhysicalLine.bytes ⟨text, true⟩ = text ++ [newline] := rfl
    rw [unlines_cons, hbytes, List.append_assoc, List.append_assoc, List.singleton_append,
      physicalLines_append_newline (hunbroken _ List.mem_cons_self),
      ih (fun l hl => hunbroken l (List.mem_cons_of_mem _ hl))
        (fun l hl => hended l (List.mem_cons_of_mem _ hl)), List.cons_append]

/-- The lines at the end of a source are found again. -/
theorem physicalLines_unlines {lines : List PhysicalLine} (hbroken : Broken lines)
    (hfull : ∀ l ∈ lines, l.terminated = false → l.text ≠ []) :
    physicalLines (unlines lines) = lines := by
  induction hbroken with
  | nil => rfl
  | @cons l rest unbroken more next ih =>
    obtain ⟨text, terminated⟩ := l
    cases terminated with
    | true =>
      have hfirst := physicalLines_unlines_append [⟨text, true⟩] (by simpa using unbroken) (by simp)
        (unlines rest)
      rw [ih (fun l hl => hfull l (List.mem_cons_of_mem _ hl))] at hfirst
      simpa using hfirst
    | false =>
      obtain rfl : rest = [] := more.resolve_left (by simp)
      have hbytes : PhysicalLine.bytes ⟨text, false⟩ = text := rfl
      rw [unlines_cons, hbytes, unlines_nil, List.append_nil]
      exact physicalLines_unbroken unbroken (hfull _ List.mem_cons_self rfl)

theorem Broken.of_append {lines more : List PhysicalLine} (h : Broken (lines ++ more)) :
    Broken lines ∧ Broken more := by
  induction lines with
  | nil => exact ⟨.nil, h⟩
  | cons l lines ih =>
    cases h with
    | cons unbroken ends next =>
      obtain ⟨hlines, hmore⟩ := ih next
      refine ⟨.cons unbroken (ends.imp id fun hnil => ?_) hlines, hmore⟩
      exact (List.append_eq_nil_iff.1 hnil).1

theorem Broken.unbroken {lines : List PhysicalLine} (h : Broken lines) :
    ∀ l ∈ lines, newline ∉ l.text := by
  induction h with
  | nil => simp
  | cons unbroken more next ih => exact List.forall_mem_cons.2 ⟨unbroken, ih⟩

/-! ## Stretches of lines -/

/-- The line, read at another place. -/
def LogicalLine.at (l : LogicalLine) (start : Start) : LogicalLine :=
  { l with line := start.line, offset := start.offset }

/-- A stretch of physical lines is read as a logical line wherever it stands, given whether a block
    comment is open before it. A line that the end of the source cuts short is read so at the end
    only. -/
def ReadAs (inComment : Bool) (stretch : List PhysicalLine) (l : LogicalLine) : Prop :=
  ∀ (start : Start) (rest : List PhysicalLine), start.inComment = inComment →
    (l.terminated = true ∨ rest = []) →
    joinLines start none (stretch ++ rest) = l.at start :: joinLines (l.at start).next none rest

/-- The rest of a stretch completes the line that its beginning has begun. -/
def Completes (p : Pending) (stretch : List PhysicalLine) (l : LogicalLine) : Prop :=
  ∀ (start : Start) (rest : List PhysicalLine), (l.terminated = true ∨ rest = []) →
    joinLines start (some { p with line := start.line, offset := start.offset }) (stretch ++ rest) =
      l.at start :: joinLines (l.at start).next none rest

/-- What one more physical line does to a line does not depend on where the line stands. -/
theorem Pending.extend_at (p : Pending) (physical : PhysicalLine) (line offset : Nat) :
    { p with line, offset }.extend physical =
      ({ (p.extend physical).1 with line, offset }, (p.extend physical).2) := by
  unfold Pending.extend
  dsimp only
  split
  · rfl
  · split <;> rfl

/-- What stands before the next physical line of a line that may have begun. -/
def Pending.lead (p : Pending) : Bytes :=
  if p.count = 0 then [] else p.raw ++ [newline]

theorem Pending.extend_raw (p : Pending) (physical : PhysicalLine) :
    (p.extend physical).1.raw = p.lead ++ physical.text := by
  obtain ⟨text, heq⟩ := p.extend_eq physical
  rw [heq, Pending.lead]
  dsimp only
  split <;> simp

theorem Pending.extend_count (p : Pending) (physical : PhysicalLine) :
    (p.extend physical).1.count = p.count + 1 := by
  obtain ⟨text, heq⟩ := p.extend_eq physical
  rw [heq]

section Joining

variable {p : Pending} {first : PhysicalLine} {stretch : List PhysicalLine} {l : LogicalLine}

/-- A line that goes on is completed by what completes it after one more physical line. -/
theorem Completes.cons (hgoes : (p.extend first).2 = true) (hfirst : first.terminated = true)
    (h : Completes (p.extend first).1 stretch l) : Completes p (first :: stretch) l := by
  intro start rest hrest
  rw [List.cons_append, joinLines]
  simp only [Option.getD_some, Pending.extend_at, hgoes, hfirst, Bool.and_self, if_true]
  exact h start rest hrest

/-- A line that does not go on is complete. -/
theorem completes_last (hends : ((p.extend first).2 && first.terminated) = false) :
    Completes p [first] ((p.extend first).1.close first.terminated) := by
  intro start rest _
  rw [List.singleton_append, joinLines]
  simp only [Option.getD_some, Pending.extend_at, hends, Bool.false_eq_true, if_false]
  rfl

/-- A line that goes on at the end of the source is complete with the last newline. -/
theorem completes_nil (p : Pending) :
    Completes p [] ({ p with raw := p.raw ++ [newline] }.close false) := by
  intro start rest hrest
  obtain rfl : rest = [] := hrest.resolve_left (by simp [Pending.close])
  rfl

/-- A stretch is read as the line that its first physical line begins. -/
theorem readAs_of_completes {start : Start}
    (h : Completes (start.pending first) (first :: stretch) l) :
    ReadAs start.inComment (first :: stretch) l := by
  intro start' rest hstart hrest
  have hpending : start'.pending first =
      { start.pending first with line := start'.line, offset := start'.offset } := by
    simp only [Start.pending, hstart]
  have hsame : joinLines start' none (first :: stretch ++ rest) =
      joinLines start' (some (start'.pending first)) (first :: stretch ++ rest) := rfl
  rw [hsame, hpending]
  exact h start' rest hrest

end Joining

/-! ## Cutting a source -/

/-- How physical lines are cut where the line that has begun before them ends: a stretch completes
    the line, and the rest belongs to others. -/
structure CutOff (p : Pending) (physical stretch rest : List PhysicalLine) (l : LogicalLine) :
    Prop where
  split : physical = stretch ++ rest
  nonempty : physical ≠ [] → stretch ≠ []
  completes : Completes p stretch l
  count : l.count = p.count + stretch.length
  bytes : PhysicalLine.bytes ⟨l.raw, l.terminated⟩ = p.lead ++ unlines stretch
  ended : l.terminated = true → ∀ line ∈ stretch, line.terminated = true
  more : l.terminated = true ∨ rest = []

theorem exists_cutOff {physical : List PhysicalLine} (hbroken : Broken physical) (p : Pending)
    (hp : p.count ≠ 0 ∨ physical ≠ []) : ∃ stretch rest l, CutOff p physical stretch rest l := by
  induction hbroken generalizing p with
  | nil =>
    have hcount := hp.resolve_right (by simp)
    refine ⟨[], [], _, rfl, id, completes_nil p, rfl, ?_, by simp, .inr rfl⟩
    simp [PhysicalLine.bytes, Pending.close, Pending.lead, hcount]
  | @cons first physical unbroken more next ih =>
    have hraw := p.extend_raw first
    have hcount := p.extend_count first
    cases hends : (p.extend first).2 && first.terminated with
    | true =>
      -- the line takes in `first` and goes on
      obtain ⟨hgoes, hfirst⟩ : (p.extend first).2 = true ∧ first.terminated = true := by
        simpa using hends
      have hpos : (p.extend first).1.count ≠ 0 := by omega
      obtain ⟨stretch, rest, l, h⟩ := ih (p.extend first).1 (.inl hpos)
      refine ⟨first :: stretch, rest, l, ?_, by simp, h.completes.cons hgoes hfirst, ?_, ?_, ?_,
        h.more⟩
      · rw [h.split, List.cons_append]
      · rw [h.count, hcount, List.length_cons]
        omega
      · rw [h.bytes, Pending.lead, if_neg hpos, hraw, unlines_cons, PhysicalLine.bytes,
          if_pos hfirst]
        simp
      · exact fun hl => List.forall_mem_cons.2 ⟨hfirst, h.ended hl⟩
    | false =>
      refine ⟨[first], physical, _, rfl, by simp, completes_last hends, hcount, ?_, ?_, more⟩
      · simp only [Pending.close, PhysicalLine.bytes, hraw, unlines_cons, unlines_nil]
        split <;> simp
      · intro hl line hline
        rwa [List.mem_singleton.1 hline]

/-- Physical lines as they are cut into the stretches of logical lines. -/
inductive Cut : Start → List PhysicalLine → List LogicalLine → Prop where
  | nil (start : Start) : Cut start [] []
  | cons {start : Start} {stretch rest : List PhysicalLine} {l : LogicalLine}
      {lines : List LogicalLine} (here : ReadAt start l) (read : ReadAs start.inComment stretch l)
      (count : l.count = stretch.length)
      (bytes : PhysicalLine.bytes ⟨l.raw, l.terminated⟩ = unlines stretch)
      (ended : l.terminated = true → ∀ line ∈ stretch, line.terminated = true)
      (more : l.terminated = true ∨ lines = []) (next : Cut l.next rest lines) :
      Cut start (stretch ++ rest) (l :: lines)

theorem joinLines_cut {physical : List PhysicalLine} (hbroken : Broken physical) (start : Start) :
    Cut start physical (joinLines start none physical) := by
  -- a logical line may take in many physical lines, so the induction is on their number
  induction hn : physical.length using Nat.strongRecOn generalizing physical start with
  | ind n ih =>
    cases physical with
    | nil => exact .nil start
    | cons first physical =>
      obtain ⟨stretch, rest, l, h⟩ := exists_cutOff hbroken (start.pending first) (.inr (by simp))
      have hread : ReadAs start.inComment stretch l := by
        obtain ⟨first', stretch, rfl⟩ := List.exists_cons_of_ne_nil (h.nonempty (by simp))
        obtain rfl : first = first' := (List.cons.inj h.split).1
        exact readAs_of_completes h.completes
      have hcount : l.count = stretch.length := h.count.trans (Nat.zero_add _)
      have hreads := joinLines_reads hbroken start none (fun _ hp => absurd hp (by simp))
      rw [h.split] at hbroken hreads ⊢
      rw [hread start rest rfl h.more] at hreads ⊢
      cases hreads with
      | cons here more next =>
        refine .cons here hread hcount h.bytes h.ended more
          (ih rest.length ?_ hbroken.of_append.2 _ rfl)
        have hlength := congrArg List.length h.split
        have hpos := List.length_pos_iff.2 (h.nonempty (by simp))
        rw [List.length_append] at hlength
        omega

/-- **Reading cuts a source into its logical lines.** -/
theorem logicalLines_cut (source : Bytes) : Cut {} (physicalLines source) (logicalLines source) :=
  joinLines_cut (physicalLines_broken source) {}

end Preproc.Source
