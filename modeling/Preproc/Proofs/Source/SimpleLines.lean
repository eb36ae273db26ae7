import Mathlib.Data.List.Infix
import Preproc.Source.LogicalLine

set_option autoImplicit false

/-! # Lines that are read alone

A physical line without quotes, comment openers and a backslash at its end is a logical line of its
own. So a source made of such lines is read line by line (`logicalLines_sourceOf`). -/

namespace Preproc.Source

/-- A line in which nothing can start that goes on in the next line. A carriage return before the
    line break belongs to the line break. -/
structure SimpleLine (line : Bytes) : Prop where
  unbroken : newline ∉ line
  unquoted : doubleQuote ∉ line ∧ singleQuote ∉ line
  uncommented : ¬ ascii "//" <:+: line ∧ ¬ ascii "/*" <:+: line
  ended : (dropCarriageReturn line).getLast? ≠ some backslash

instance (line : Bytes) : Decidable (SimpleLine line) :=
  decidable_of_iff
    (newline ∉ line ∧ (doubleQuote ∉ line ∧ singleQuote ∉ line) ∧
      (¬ ascii "//" <:+: line ∧ ¬ ascii "/*" <:+: line) ∧
      (dropCarriageReturn line).getLast? ≠ some backslash)
    ⟨fun ⟨h, h', h'', h'''⟩ => ⟨h, h', h'', h'''⟩, fun ⟨h, h', h'', h'''⟩ => ⟨h, h', h'', h'''⟩⟩

/-- Code without quotes and comment openers stays code. -/
theorem Region.after_code {text : Bytes} (hquotes : doubleQuote ∉ text ∧ singleQuote ∉ text)
    (hcomments : ¬ ascii "//" <:+: text ∧ ¬ ascii "/*" <:+: text) :
    Region.code.after text = .code := by
  induction text with
  | nil => simp [Region.after]
  | cons a rest ih =>
    simp only [List.mem_cons, not_or] at hquotes
    have ha : ¬ (a = doubleQuote ∨ a = singleQuote) := by
      rintro (h | h)
      · exact hquotes.1.1 h.symm
      · exact hquotes.2.1 h.symm
    cases rest with
    | nil => simp [Region.after, ha]
    | cons b rest =>
      have hline : ¬ (a = byte '/' ∧ b = byte '/') := by
        rintro ⟨rfl, rfl⟩
        exact hcomments.1 ⟨[], rest, rfl⟩
      have hblock : ¬ (a = byte '/' ∧ b = byte '*') := by
        rintro ⟨rfl, rfl⟩
        exact hcomments.2 ⟨[], rest, rfl⟩
      rw [Region.after, if_neg ha, if_neg hline, if_neg hblock]
      refine ih ⟨hquotes.1.2, hquotes.2.2⟩ ⟨fun h => ?_, fun h => ?_⟩
      · exact hcomments.1 (h.trans (List.suffix_cons a _).isInfix)
      · exact hcomments.2 (h.trans (List.suffix_cons a _).isInfix)

theorem dropCarriageReturn_initial (line : Bytes) : dropCarriageReturn line <+: line := by
  unfold dropCarriageReturn
  split
  · exact List.dropLast_prefix line
  · exact List.prefix_refl line

theorem SimpleLine.endsInComment {line : Bytes} (hl : SimpleLine line) :
    Source.endsInComment false (dropCarriageReturn line) = false := by
  have hinitial := dropCarriageReturn_initial line
  have hcode : Region.code.after (dropCarriageReturn line) = .code :=
    Region.after_code
      ⟨fun h => hl.unquoted.1 (hinitial.mem h), fun h => hl.unquoted.2 (hinitial.mem h)⟩
      ⟨fun h => hl.uncommented.1 (h.trans hinitial.isInfix),
        fun h => hl.uncommented.2 (h.trans hinitial.isInfix)⟩
  simp [Source.endsInComment, hcode]

/-! ## Reading -/

/-- Where the line after `line` starts. -/
def Start.below (start : Start) (line : Bytes) : Start where
  line := start.line + 1
  offset := start.offset + line.length + 1

/-- Where the line after some lines starts. -/
def Start.belowAll (start : Start) (lines : List Bytes) : Start :=
  lines.foldl Start.below start

theorem Start.belowAll_cons (start : Start) (line : Bytes) (lines : List Bytes) :
    start.belowAll (line :: lines) = (start.below line).belowAll lines := rfl

theorem Start.belowAll_append (start : Start) (lines more : List Bytes) :
    start.belowAll (lines ++ more) = (start.belowAll lines).belowAll more :=
  List.foldl_append

/-- A line that is read alone. -/
def simpleLine (start : Start) (line : Bytes) : LogicalLine where
  text := dropCarriageReturn line
  raw := line
  line := start.line
  count := 1
  offset := start.offset
  terminated := true
  directive := startsDirective line
  endsInComment := false

/-- Lines that are read one by one. -/
def simpleLines (start : Start) : List Bytes → List LogicalLine
  | [] => []
  | line :: rest => simpleLine start line :: simpleLines (start.below line) rest

theorem simpleLines_append (start : Start) (lines more : List Bytes) :
    simpleLines start (lines ++ more) =
      simpleLines start lines ++ simpleLines (start.belowAll lines) more := by
  induction lines generalizing start with
  | nil => rfl
  | cons line rest ih => exact congrArg (simpleLine start line :: ·) (ih (start.below line))

/-- The source with the given lines. -/
def sourceOf (lines : List Bytes) : Bytes :=
  lines.flatMap (· ++ [newline])

theorem physicalLines_append_newline {line : Bytes} (hl : newline ∉ line) (rest : Bytes) :
    physicalLines (line ++ newline :: rest) = ⟨line, true⟩ :: physicalLines rest := by
  induction line with
  | nil => simp [physicalLines]
  | cons b line ih =>
    simp only [List.mem_cons, not_or] at hl
    rw [List.cons_append, physicalLines, if_neg (fun h => hl.1 h.symm), ih hl.2]

theorem physicalLines_sourceOf {lines : List Bytes} (hl : ∀ line ∈ lines, newline ∉ line) :
    physicalLines (sourceOf lines) = lines.map (⟨·, true⟩) := by
  induction lines with
  | nil => rfl
  | cons line rest ih =>
    have hrest := ih (fun l h => hl l (List.mem_cons_of_mem _ h))
    rw [sourceOf, List.flatMap_cons, List.append_assoc, List.singleton_append,
      physicalLines_append_newline (hl line (by simp)), List.map_cons, ← hrest]
    rfl

/-- A line after which nothing goes on in the next line. -/
structure ClosedLine (line : Bytes) : Prop where
  unbroken : newline ∉ line
  ended : (dropCarriageReturn line).getLast? ≠ some backslash
  closed : endsInComment false (dropCarriageReturn line) = false

theorem SimpleLine.closedLine {line : Bytes} (hl : SimpleLine line) : ClosedLine line :=
  ⟨hl.unbroken, hl.ended, hl.endsInComment⟩

theorem extend_closedLine {line : Bytes} (hl : ClosedLine line) {start : Start}
    (hs : start.inComment = false) :
    ((start.pending ⟨line, true⟩).extend ⟨line, true⟩).2 = false ∧
      ((start.pending ⟨line, true⟩).extend ⟨line, true⟩).1.close true = simpleLine start line := by
  have hcomment := hl.closed
  simp only [Pending.extend, Start.pending, if_neg hl.ended, hs, List.nil_append, hcomment,
    Bool.and_false, Bool.false_eq_true, if_false, if_true]
  refine ⟨trivial, ?_⟩
  simp [Pending.close, simpleLine, hcomment]

theorem joinLines_closed {lines : List Bytes} (hl : ∀ line ∈ lines, ClosedLine line) {start : Start}
    (hs : start.inComment = false) :
    joinLines start none (lines.map (⟨·, true⟩)) = simpleLines start lines := by
  induction lines generalizing start with
  | nil => rfl
  | cons line rest ih =>
    obtain ⟨hstops, hclose⟩ := extend_closedLine (hl line (by simp)) hs
    rw [List.map_cons, joinLines]
    simp only [Option.getD_none, hstops, Bool.false_and, Bool.false_eq_true, if_false, hclose]
    rw [simpleLines, ← ih (fun l h => hl l (List.mem_cons_of_mem _ h)) rfl]
    rfl

/-- A source of closed lines is read line by line. -/
theorem logicalLines_closed {lines : List Bytes} (hl : ∀ line ∈ lines, ClosedLine line) :
    logicalLines (sourceOf lines) = simpleLines {} lines := by
  rw [logicalLines, physicalLines_sourceOf (fun line h => (hl line h).unbroken),
    joinLines_closed hl rfl]

/-- A source of simple lines is read line by line. -/
theorem logicalLines_sourceOf {lines : List Bytes} (hl : ∀ line ∈ lines, SimpleLine line) :
    logicalLines (sourceOf lines) = simpleLines {} lines :=
  logicalLines_closed fun line h => (hl line h).closedLine

end Preproc.Source
