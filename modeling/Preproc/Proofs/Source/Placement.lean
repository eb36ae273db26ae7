import Preproc.Proofs.Source.Partition

set_option autoImplicit false

/-! # Where logical lines stand

The logical lines of a source, each with its newline, are the source again. Each of them is marked
with the number of bytes and of line breaks before it, and none that starts inside a block comment
is a directive (`logicalLines_partition`). -/

namespace Preproc.Source

/-! ## Lines as text -/

/-- What a line takes of its source: its text as it stands there, and its newline if it has one. -/
def LogicalLine.bytes (l : LogicalLine) : Bytes :=
  l.raw ++ if l.terminated then [newline] else []

/-- What some lines take of their source. -/
def bytesOf (lines : List LogicalLine) : Bytes :=
  lines.flatMap LogicalLine.bytes

@[simp] theorem bytesOf_nil : bytesOf [] = [] := rfl

@[simp] theorem bytesOf_cons (l : LogicalLine) (lines : List LogicalLine) :
    bytesOf (l :: lines) = l.bytes ++ bytesOf lines := by
  simp [bytesOf]

theorem LogicalLine.bytes_eq (l : LogicalLine) :
    l.bytes = PhysicalLine.bytes ⟨l.raw, l.terminated⟩ := by
  unfold LogicalLine.bytes PhysicalLine.bytes
  split <;> simp

/-- Lines that are cut out of physical lines take all of them. -/
theorem Cut.bytesOf_eq {start : Start} {physical : List PhysicalLine} {lines : List LogicalLine}
    (h : Cut start physical lines) : bytesOf lines = unlines physical := by
  induction h with
  | nil => rfl
  | cons here read count bytes ended more next ih =>
    rw [bytesOf_cons, LogicalLine.bytes_eq, bytes, ih, unlines_append]

theorem bytesOf_logicalLines (source : Bytes) : bytesOf (logicalLines source) = source := by
  rw [(logicalLines_cut source).bytesOf_eq, unlines_physicalLines]

/-! ## The start of a line -/

/-- Whether a block comment is open after some lines, given whether one is open before them. -/
def commentAfter (inside : Bool) (lines : List LogicalLine) : Bool :=
  lines.foldl (fun inside l => endsInComment inside l.text) inside

/-- Where the line after some lines starts. -/
def Start.past (start : Start) (lines : List LogicalLine) : Start where
  line := start.line + countNewlines (bytesOf lines)
  offset := start.offset + (bytesOf lines).length
  inComment := commentAfter start.inComment lines

theorem Start.past_cons (start : Start) (l : LogicalLine) (lines : List LogicalLine) :
    start.past (l :: lines) = (start.past [l]).past lines := by
  simp [Start.past, commentAfter, countNewlines, Nat.add_assoc]

/-- A line with its newline leads to where its bytes end. -/
theorem ReadAt.next_eq {start : Start} {l : LogicalLine} (h : ReadAt start l)
    (hl : l.terminated = true) : l.next = start.past [l] := by
  have hbytes : bytesOf [l] = l.raw ++ [newline] := by simp [LogicalLine.bytes, hl]
  have hline : l.line + l.count = start.line + countNewlines (bytesOf [l]) := by
    have hbreaks := h.breaks hl
    rw [hbytes, countNewlines, List.count_append, ← countNewlines, h.line, ← hbreaks]
    rfl
  have hoffset : l.offset + l.raw.length + 1 = start.offset + (bytesOf [l]).length := by
    rw [hbytes, List.length_append, h.offset, Nat.add_assoc]
    rfl
  have hcomment : l.endsInComment = commentAfter start.inComment [l] := h.comment
  simp only [LogicalLine.next, Start.past, hl, if_true, hline, hoffset, hcomment]

section Past

variable {start : Start} {before after : List LogicalLine} {l : LogicalLine}

/-- Lines in the middle are read from where those before them end. -/
theorem Reads.past (h : Reads start (before ++ l :: after)) :
    Reads (start.past before) (l :: after) := by
  induction before generalizing start with
  | nil => exact h
  | cons first before ih =>
    cases h with
    | cons here more next =>
      have hended : first.terminated = true := more.resolve_right (by simp)
      rw [Start.past_cons, ← here.next_eq hended]
      exact ih next

/-- What every line has, a line in the middle has where those before it end. -/
theorem EachAt.past {property : Start → LogicalLine → Prop}
    (h : EachAt property start (before ++ l :: after)) (hreads : Reads start (before ++ l :: after)) :
    property (start.past before) l := by
  induction before generalizing start with
  | nil =>
    cases h with
    | cons here next => exact here
  | cons first before ih =>
    cases h with
    | cons _ next =>
      cases hreads with
      | cons here more hnext =>
        have hended : first.terminated = true := more.resolve_right (by simp)
        rw [Start.past_cons, ← here.next_eq hended]
        exact ih next hnext

end Past

/-! ## Every line -/

/-- A line that has begun has taken in a physical line. -/
theorem carries_count : Carries (fun _ p => 1 ≤ p.1.count) (fun _ l => 1 ≤ l.count) where
  first start l _ := by
    rw [Pending.extend_count]
    omega
  next _ p l _ _ := by
    rw [Pending.extend_count]
    omega
  close _ _ _ _ last := last
  cutOff _ _ last := last

/-- **The logical lines partition their source.** There are at most as many as the source has bytes,
    and their bytes, one line after the other, are the source. Each line is marked with the number
    of bytes before it, and with one more than the number of line breaks before it. It spans at
    least one physical line, and the next line has the number that follows. Only the last line may
    lack its newline, and no line that starts inside a block comment is a directive. -/
theorem logicalLines_partition (source : Bytes) :
    (logicalLines source).length ≤ source.length ∧
    (logicalLines source).flatMap LogicalLine.bytes = source ∧
    ∀ before l after, logicalLines source = before ++ l :: after →
      l.offset = (before.flatMap LogicalLine.bytes).length ∧
      l.line = 1 + countNewlines (before.flatMap LogicalLine.bytes) ∧
      (∀ l' ∈ after.head?, l'.line = l.line + l.count) ∧
      1 ≤ l.count ∧
      (l.terminated = false → after = []) ∧
      (commentAfter false before = true → l.directive = false) := by
  refine ⟨logicalLines_length_le source, bytesOf_logicalLines source, ?_⟩
  intro before l after hlines
  have hcount : 1 ≤ l.count := by
    refine (logicalLines_each carries_count source).forall_mem l ?_
    rw [hlines]
    simp
  have hreads := logicalLines_reads source
  rw [hlines] at hreads
  cases hreads.past with
  | cons here more next =>
    refine ⟨?_, here.line, ?_, hcount, ?_, ?_⟩
    · exact here.offset.trans (Nat.zero_add _)
    · intro l' hl'
      cases next with
      | nil => exact absurd hl' (by simp)
      | cons hnext _ _ =>
        obtain rfl := Option.some.inj hl'
        exact hnext.line
    · intro hopen
      exact more.resolve_left (by simp [hopen])
    · intro hinside
      by_contra hdirective
      have houtside := here.outside (by simpa using hdirective)
      exact absurd (hinside.symm.trans houtside) (by simp)

/-- A line over two physical lines, a comment with a `#` in it, a directive with a comment over two
    lines, and a last line that would go on. -/
def mixedSource : Bytes :=
  ascii "a \\\r\nb\n/* x\n#define Y\n*/\n#if /* c\nd */ 1\nz\\\n"

theorem logicalLines_partition_mixed :
    let lines := logicalLines mixedSource
    lines.map LogicalLine.directive = [false, false, false, false, true, false] ∧
    lines.map LogicalLine.terminated = [true, true, true, true, true, false] ∧
    lines.flatMap LogicalLine.bytes = mixedSource ∧
    ∃ l, lines[2]? = some l ∧ l.text = ascii "#define Y" ∧ commentAfter false (lines.take 2) = true ∧
      l.offset = 12 ∧ l.line = 4 ∧ l.directive = false := by
  intro lines
  obtain ⟨-, hbytes, heach⟩ := logicalLines_partition mixedSource
  obtain ⟨l, hl⟩ : ∃ l, lines[2]? = some l := Option.isSome_iff_exists.1 (by decide +kernel)
  have htext : l.text = ascii "#define Y" := by
    have htexts : lines[2]?.map LogicalLine.text = some (ascii "#define Y") := by decide +kernel
    rw [hl] at htexts
    exact Option.some.inj htexts
  have hinside : commentAfter false (lines.take 2) = true := by decide +kernel
  have hsplit : lines = lines.take 2 ++ l :: lines.drop 3 := by
    obtain ⟨hlt, rfl⟩ := List.getElem?_eq_some_iff.1 hl
    rw [List.cons_getElem_drop_succ, List.take_append_drop]
  obtain ⟨hoffset, hline, -, -, -, hdirective⟩ := heach _ l _ hsplit
  refine ⟨by decide +kernel, by decide +kernel, hbytes, l, hl, htext, hinside, ?_, ?_,
    hdirective hinside⟩
  · rw [hoffset]
    decide +kernel
  · rw [hline]
    decide +kernel

end Preproc.Source
