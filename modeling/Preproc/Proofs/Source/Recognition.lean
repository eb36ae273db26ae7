import Mathlib.Data.List.TakeWhile
import Preproc.Proofs.Source.Joined
import Preproc.Proofs.Source.Placement

set_option autoImplicit false

/-! # Which lines are directives

A line is a directive by the first byte of its first physical line that is no blank. So a line whose
joined text begins with `#` is one, unless it starts inside a block comment or has only blanks
before the backslash at the end of its first physical line (`directive_iff_sign`). -/

namespace Preproc.Source

/-! ## The first mark of a text -/

/-- The first byte of a text that is no blank. -/
def firstMark (text : Bytes) : Option UInt8 :=
  text.find? (fun b => !isIndent b)

theorem firstMark_append (text more : Bytes) :
    firstMark (text ++ more) = (firstMark text).or (firstMark more) :=
  List.find?_append

theorem firstMark_eq_none {text : Bytes} :
    firstMark text = none ↔ ∀ b ∈ text, isIndent b = true := by
  simp [firstMark]

theorem startsDirective_iff_firstMark {text : Bytes} :
    startsDirective text = true ↔ firstMark text = some (byte '#') := by
  rw [startsDirective, firstMark, List.find?_not_eq_head?_dropWhile, decide_eq_true_iff]

theorem startsDirective_append {text : Bytes} (h : startsDirective text = true) (more : Bytes) :
    startsDirective (text ++ more) = true := by
  rw [startsDirective_iff_firstMark] at h ⊢
  rw [firstMark_append, h]
  rfl

/-- A mark that is no sign hides what follows it. -/
theorem startsDirective_append_mark {b : UInt8} (hmark : isIndent b = false) (hsign : b ≠ byte '#')
    (text more : Bytes) : startsDirective (text ++ b :: more) = startsDirective text := by
  have hfirst : firstMark (b :: more) = some b := by simp [firstMark, hmark]
  rw [Bool.eq_iff_iff, startsDirective_iff_firstMark, startsDirective_iff_firstMark,
    firstMark_append, hfirst]
  cases hm : firstMark text with
  | none => simpa using hsign
  | some c => simp

theorem startsDirective_dropCarriageReturn (text : Bytes) :
    startsDirective (dropCarriageReturn text) = startsDirective text := by
  unfold dropCarriageReturn
  split
  · next hlast =>
    obtain ⟨line, rfl⟩ := List.getLast?_eq_some_iff.1 hlast
    rw [List.dropLast_concat, startsDirective_append_mark (by decide) (by decide)]
  · rfl

/-! ## Lines that begin late -/

/-- A text whose first physical line has only blanks before the backslash that continues it. -/
def StartsLate (raw : Bytes) : Prop :=
  ∃ blank ending rest, (∀ b ∈ blank, isIndent b = true) ∧
    (ending = [backslash] ∨ ending = [backslash, 13]) ∧ raw = blank ++ ending ++ newline :: rest

theorem StartsLate.append {raw : Bytes} (h : StartsLate raw) (more : Bytes) :
    StartsLate (raw ++ more) := by
  obtain ⟨blank, ending, rest, hblank, hending, rfl⟩ := h
  exact ⟨blank, ending, rest ++ more, hblank, hending, by simp⟩

/-- Its first mark is the backslash. -/
theorem StartsLate.not_sign {raw : Bytes} (h : StartsLate raw) : startsDirective raw = false := by
  obtain ⟨blank, ending, rest, hblank, hending, rfl⟩ := h
  have hnone : startsDirective blank = false := by
    rw [Bool.eq_false_iff, Ne, startsDirective_iff_firstMark, firstMark_eq_none.2 hblank]
    simp
  rw [List.append_assoc, ← hnone]
  rcases hending with rfl | rfl
  · exact startsDirective_append_mark (by decide) (by decide) blank _
  · exact startsDirective_append_mark (by decide) (by decide) blank _

/-! ## Joining -/

/-- What one more physical line adds to the text of a line: all but the backslash at its end, or all
    of it, with a line end where a comment of a directive goes on. -/
theorem Pending.extend_text (p : Pending) (l : PhysicalLine) :
    ∃ own, (p.extend l).1.text = p.text ++ own ∧
      (dropCarriageReturn l.text = own ++ [backslash] ∨
        own = dropCarriageReturn l.text ∧ (p.extend l).2 = false ∨
        own = dropCarriageReturn l.text ++ [newline]) := by
  unfold Pending.extend
  dsimp only
  split
  · next hlast =>
    obtain ⟨own, hown⟩ := List.getLast?_eq_some_iff.1 hlast
    refine ⟨own, ?_, Or.inl hown⟩
    rw [hown, List.dropLast_concat]
  · split
    · exact ⟨_, List.append_assoc _ _ _, Or.inr (Or.inr rfl)⟩
    · exact ⟨_, rfl, Or.inr (Or.inl ⟨rfl, rfl⟩)⟩

/-- What is known of the first mark of a line that has begun. -/
structure Recognised (start : Start) (p : Pending) (goesOn : Bool) : Prop where
  count : p.count ≠ 0
  directive : p.directive = (!start.inComment && startsDirective p.raw)
  signed : startsDirective p.raw = true → startsDirective p.text = true
  late : startsDirective p.raw = false → startsDirective p.text = true → StartsLate p.raw
  /-- A line that is blank so far goes on after a backslash only. -/
  blank : goesOn = true → firstMark p.text = none → StartsLate (p.raw ++ [newline])

/-- The first physical line has the sign exactly if what it adds to the text has it. -/
theorem Start.extend_recognised (start : Start) (l : PhysicalLine) :
    Recognised start ((start.pending l).extend l).1 ((start.pending l).extend l).2 := by
  obtain ⟨own, htext, hown⟩ := (start.pending l).extend_text l
  have htext : ((start.pending l).extend l).1.text = own := htext
  have hraw : ((start.pending l).extend l).1.raw = l.text := (start.pending l).extend_raw l
  have hsame : startsDirective own = startsDirective l.text := by
    rw [← startsDirective_dropCarriageReturn l.text]
    rcases hown with hbackslash | ⟨hall, -⟩ | hbreak
    · rw [hbackslash, startsDirective_append_mark (by decide) (by decide)]
    · rw [hall]
    · rw [hbreak, startsDirective_append_mark (by decide) (by decide)]
  refine ⟨?_, ?_, ?_, ?_, ?_⟩
  · rw [Pending.extend_count]
    omega
  · rw [Pending.extend_directive, hraw]
    rfl
  · rw [htext, hraw, hsame]
    exact id
  · rw [htext, hraw, hsame]
    intro hfalse htrue
    exact absurd (hfalse.symm.trans htrue) (by simp)
  · rw [htext, hraw]
    intro hgoes hnone
    rcases hown with hbackslash | ⟨-, hends⟩ | hbreak
    · have hblank := firstMark_eq_none.1 hnone
      unfold dropCarriageReturn at hbackslash
      split at hbackslash
      · next hlast =>
        obtain ⟨line, hline⟩ := List.getLast?_eq_some_iff.1 hlast
        rw [hline, List.dropLast_concat] at hbackslash
        exact ⟨own, _, [], hblank, Or.inr rfl, by rw [hline, hbackslash]; simp⟩
      · exact ⟨own, _, [], hblank, Or.inl rfl, by rw [hbackslash]⟩
    · exact absurd (hgoes.symm.trans hends) (by simp)
    · rw [hbreak, firstMark_append, Option.or_eq_none_iff] at hnone
      exact absurd hnone.2 (by decide)

/-- Later physical lines add to the text only what the backslashes before them let through. -/
theorem Recognised.extend {start : Start} {p : Pending} (h : Recognised start p true)
    (l : PhysicalLine) : Recognised start (p.extend l).1 (p.extend l).2 := by
  obtain ⟨own, htext, -⟩ := p.extend_text l
  have hraw : (p.extend l).1.raw = p.raw ++ newline :: l.text := by
    rw [Pending.extend_raw, Pending.lead, if_neg h.count, List.append_assoc, List.singleton_append]
  have hsame : startsDirective (p.extend l).1.raw = startsDirective p.raw := by
    rw [hraw, startsDirective_append_mark (by decide) (by decide)]
  have hlate : firstMark p.text = none → StartsLate (p.extend l).1.raw := by
    intro hnone
    have hbefore := (h.blank rfl hnone).append l.text
    rwa [List.append_assoc, List.singleton_append, ← hraw] at hbefore
  refine ⟨?_, ?_, ?_, ?_, ?_⟩
  · rw [Pending.extend_count]
    omega
  · rw [Pending.extend_directive, hsame]
    exact h.directive
  · rw [hsame, htext]
    intro hsign
    exact startsDirective_append (h.signed hsign) own
  · rw [hsame, htext]
    intro hraw' hsign
    rw [startsDirective_iff_firstMark, firstMark_append] at hsign
    cases hmark : firstMark p.text with
    | none => exact hlate hmark
    | some b =>
      rw [hmark] at hsign
      have htext' := startsDirective_iff_firstMark.2 (hmark.trans hsign)
      rw [hraw]
      exact (h.late hraw' htext').append _
  · rw [htext, firstMark_append, Option.or_eq_none_iff]
    rintro - ⟨hnone, -⟩
    exact (hlate hnone).append _

/-- How a line is recognised, given where it starts. -/
structure RecognisedAt (start : Start) (l : LogicalLine) : Prop where
  directive : l.directive = (!start.inComment && startsDirective l.raw)
  sign : startsDirective l.raw = true ↔ startsDirective l.text = true ∧ ¬ StartsLate l.raw

theorem Recognised.sign {start : Start} {p : Pending} {goesOn : Bool}
    (h : Recognised start p goesOn) :
    startsDirective p.raw = true ↔ startsDirective p.text = true ∧ ¬ StartsLate p.raw := by
  constructor
  · intro hsign
    refine ⟨h.signed hsign, ?_⟩
    intro hlate
    exact absurd (hsign.symm.trans hlate.not_sign) (by simp)
  · rintro ⟨htext, hearly⟩
    by_contra hraw
    exact hearly (h.late (by simpa using hraw) htext)

/-- The newline at the end of the source changes nothing in this. -/
theorem Recognised.cutOff {start : Start} {p : Pending} (h : Recognised start p true) :
    Recognised start { p with raw := p.raw ++ [newline] } false := by
  have hsame : startsDirective (p.raw ++ [newline]) = startsDirective p.raw :=
    startsDirective_append_mark (by decide) (by decide) p.raw []
  refine ⟨h.count, ?_, ?_, ?_, ?_⟩
  · rw [hsame]
    exact h.directive
  · rw [hsame]
    exact h.signed
  · rw [hsame]
    intro hraw htext
    exact (h.late hraw htext).append _
  · intro hgoes
    exact absurd hgoes (by simp)

theorem carries_recognised :
    Carries (fun start p => Recognised start p.1 p.2) RecognisedAt where
  first start l _ := start.extend_recognised l
  next _ _ l _ before := before.extend l
  close _ _ _ _ last := ⟨last.directive, last.sign⟩
  cutOff _ _ last := ⟨last.cutOff.directive, last.cutOff.sign⟩

/-! ## Every line -/

section Lines

variable {source : Bytes} {before after : List LogicalLine} {l : LogicalLine}

theorem recognisedAt_past (hlines : logicalLines source = before ++ l :: after) :
    RecognisedAt (Start.past {} before) l := by
  have hreads := logicalLines_reads source
  have heach := logicalLines_each carries_recognised source
  rw [hlines] at hreads heach
  exact heach.past hreads

/-- A directive begins with its sign, however its lines are joined. -/
theorem logicalLines_signed (source : Bytes) :
    ∀ l ∈ logicalLines source, l.directive = true → startsDirective l.text = true := by
  intro l hl hdirective
  obtain ⟨before, after, hlines⟩ := List.append_of_mem hl
  have hrecognised := recognisedAt_past hlines
  rw [hrecognised.directive, Bool.and_eq_true] at hdirective
  exact (hrecognised.sign.1 hdirective.2).1

/-- **Which lines are directives.** A line of a source is a directive if and only if no block comment
    is open before it, the first byte of its joined text that is no blank is `#`, and its first
    physical line is not a run of blanks that a backslash continues. -/
theorem directive_iff_sign (hlines : logicalLines source = before ++ l :: after) :
    l.directive = true ↔ commentAfter false before = false ∧ startsDirective l.text = true ∧
      ¬ StartsLate l.raw := by
  have hrecognised := recognisedAt_past hlines
  rw [hrecognised.directive, Bool.and_eq_true, Bool.not_eq_true', hrecognised.sign]
  exact Iff.rfl

end Lines

/-- Two definitions that are broken into physical lines, one inside its keyword and one before its
    sign. -/
def brokenSource : Bytes :=
  ascii " #def\\\r\nine B 2\n\\\n#define A 1\n"

theorem directive_iff_sign_broken :
    ∃ first second, logicalLines brokenSource = [first, second] ∧
      first.text = ascii " #define B 2" ∧ first.directive = true ∧
      second.text = ascii "#define A 1" ∧ startsDirective second.text = true ∧
      commentAfter false [first] = false ∧ second.directive = false := by
  obtain ⟨first, second, hlines⟩ : ∃ first second, logicalLines brokenSource = [first, second] :=
    List.length_eq_two.1 (by decide +kernel)
  have htexts : (logicalLines brokenSource).map LogicalLine.text =
      [ascii " #define B 2", ascii "#define A 1"] := by decide +kernel
  have hraws : (logicalLines brokenSource).map LogicalLine.raw =
      [ascii " #def\\\r\nine B 2", ascii "\\\n#define A 1"] := by decide +kernel
  simp only [hlines, List.map_cons, List.map_nil, List.cons.injEq, and_true] at htexts hraws
  have houtside : commentAfter false [first] = false := by
    simp only [commentAfter, List.foldl_cons, List.foldl_nil, htexts.1]
    decide +kernel
  have hsecond : StartsLate second.raw :=
    ⟨[], [backslash], ascii "#define A 1", by simp, Or.inl rfl, hraws.2⟩
  have hfirst : ¬ StartsLate first.raw := by
    intro hlate
    have hsign := hlate.not_sign
    rw [hraws.1] at hsign
    exact absurd hsign (by decide)
  refine ⟨first, second, hlines, htexts.1, ?_, htexts.2, ?_, houtside, ?_⟩
  · have hsplit : logicalLines brokenSource = [] ++ first :: [second] := hlines
    refine (directive_iff_sign hsplit).2 ⟨rfl, ?_, hfirst⟩
    rw [htexts.1]
    decide
  · rw [htexts.2]
    decide
  · have hsplit : logicalLines brokenSource = [first] ++ second :: [] := hlines
    by_contra hdirective
    obtain ⟨-, -, hearly⟩ := (directive_iff_sign hsplit).1 (by simpa using hdirective)
    exact hearly hsecond

end Preproc.Source
