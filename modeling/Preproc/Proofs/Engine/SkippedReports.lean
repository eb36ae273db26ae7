import Preproc.Proofs.Engine.Accounting
import Preproc.Proofs.Engine.SkippedText
import Preproc.Proofs.Source.Recognition

set_option autoImplicit false

/-! # Reports from text that is not compiled

A line is a directive by its first byte, `#`, but it is handled by its first token, which takes in a
second `#` when one follows directly. So a line that is not compiled and holds no conditional
directive gives rise to at most one warning, unless it begins with `##`, which is an error even
there (`skipped_line_reports`). -/

namespace Preproc

/-! ## Lines that begin with a sign -/

namespace Source

theorem startsDirective_iff {text : Bytes} :
    startsDirective text = true ↔
      ∃ blank rest, text = blank ++ byte '#' :: rest ∧ ∀ b ∈ blank, isIndent b = true := by
  constructor
  · intro h
    obtain ⟨rest, hrest⟩ := List.head?_eq_some_iff.1 (of_decide_eq_true h)
    refine ⟨text.takeWhile isIndent, rest, ?_, fun b hb => List.mem_takeWhile_imp hb⟩
    rw [← hrest, List.takeWhile_append_dropWhile]
  · rintro ⟨blank, rest, rfl, hblank⟩
    have hsign : isIndent (byte '#') = false := by decide
    rw [startsDirective, List.dropWhile_append_of_pos hblank,
      List.dropWhile_cons_of_neg (by simp [hsign])]
    rfl

/-- Whether the first sign of a line is directly followed by another one. -/
def doubledSign (text : Bytes) : Bool :=
  (ascii "##").isPrefixOf (text.dropWhile isIndent)

theorem doubledSign_eq {blank : Bytes} (hblank : ∀ b ∈ blank, isIndent b = true) (rest : Bytes) :
    doubledSign (blank ++ byte '#' :: rest) = decide (rest.head? = some (byte '#')) := by
  have hsign : isIndent (byte '#') = false := by decide
  rw [doubledSign, List.dropWhile_append_of_pos hblank,
    List.dropWhile_cons_of_neg (by simp [hsign])]
  cases rest with
  | nil => decide
  | cons b rest => simp [ascii, byte, List.isPrefixOf, eq_comm, BEq.beq]

end Source

/-! ## The first token -/

namespace Lexer

theorem place_after_spaces (pos : Position) (blank : Bytes) (l : TokenKind × Bytes)
    (rest : List (TokenKind × Bytes)) :
    ∃ start more, place pos (spaces blank ++ l :: rest) =
      place pos (spaces blank) ++ ⟨l.1, l.2, start⟩ :: more := by
  unfold spaces
  split
  · exact ⟨_, _, rfl⟩
  · exact ⟨_, _, rfl⟩

/-- The lexeme at a sign is the sign itself, or two of them. -/
theorem sign_lexeme (rest : Bytes) :
    ∃ t more, lexemes (byte '#' :: rest) = (.punctuator, t) :: more ∧
      decide (Operator.ofText t = .hash) = !decide (rest.head? = some (byte '#')) := by
  by_cases hsecond : rest.head? = some (byte '#')
  · obtain ⟨following, rfl⟩ := List.head?_eq_some_iff.1 hsecond
    refine ⟨ascii "##", lexemes following, lexemes_of_stands (stands_paste following), ?_⟩
    rw [decide_eq_true hsecond]
    decide
  · have hstop : StopsAt (· == byte '#') rest := by
      intro b hb
      refine beq_false_of_ne fun hsign => hsecond ?_
      rw [hb, hsign]
    refine ⟨[byte '#'], lexemes rest, lexemes_of_stands (stands_hash hstop), ?_⟩
    rw [decide_eq_false hsecond]
    decide

/-- The first token of a line that begins with a sign is the sign, or two of them. -/
theorem sign_token {text : Bytes} (h : Source.startsDirective text = true) (pos : Position) :
    (Cursor.ofText pos text).nextNonSpace.1.is .hash = !Source.doubledSign text := by
  obtain ⟨blank, rest, rfl, hblank⟩ := Source.startsDirective_iff.1 h
  have hseparators : ∀ b ∈ blank, isSeparator b = true :=
    fun b hb => DirectiveLine.isIndent_separates b (hblank b hb)
  obtain ⟨t, more, hlexemes, hsign⟩ := sign_lexeme rest
  have hcut : mergeSpaces (lexemes (blank ++ byte '#' :: rest)) =
      spaces blank ++ (.punctuator, t) :: mergeSpaces more := by
    rw [lexemes_spaces hseparators (stops_cons (by decide) rest), hlexemes,
      mergeSpaces_spaces (by decide)]
  obtain ⟨start, after, htokens⟩ := place_after_spaces
    { pos with column := if 0 < pos.column then pos.column else 1 } blank (.punctuator, t)
    (mergeSpaces more)
  rw [← hcut] at htokens
  obtain ⟨hfirst, -⟩ := Cursor.nextNonSpace_of_after
    (c := Cursor.ofText pos (blank ++ byte '#' :: rest)) htokens (isSpace_place_spaces _ _) rfl
  rw [hfirst, Source.doubledSign_eq hblank, ← hsign]
  rfl

end Lexer

namespace Engine

open Source (LogicalLine logicalLines doubledSign)

/-! ## Reports -/

/-- A warning of the class for text that is not compiled. -/
def IsSkippedWarning (d : Diagnostic) : Prop :=
  d.severity = .warning ∧ d.classes = .skipped

theorem caution_delivers (s : State) (pos : Position) :
    ∃ told, Delivers s.reporter told (s.caution pos .skippedInvalid).reporter ∧
      told.length ≤ 1 ∧ ∀ d ∈ told, IsSkippedWarning d := by
  have hclass : WarningSet.skipped ∈ WarningSet.classes.map Prod.snd := by decide
  simp only [State.caution, Reporter.warn]
  split
  · next henabled =>
    refine ⟨[⟨pos, .warning, .skipped, Caution.skippedInvalid.message⟩],
      ⟨rfl, rfl, rfl, rfl, ?_⟩, by simp, ?_⟩
    · intro d hd _
      rw [List.mem_singleton.1 hd]
      exact ⟨hclass, henabled⟩
    · intro d hd
      rw [List.mem_singleton.1 hd]
      exact ⟨rfl, rfl⟩
  · exact ⟨[], .nil _, by simp, by simp⟩

/-- A line that begins with a sign has it as its first token, unless the sign is doubled. -/
theorem unsigned_iff {line : Bytes} (h : Source.startsDirective line = true) (pos : Position) :
    (∃ place, skippedLine pos line = .unsigned place) ↔ doubledSign line = true := by
  have hsign := Lexer.sign_token h pos
  unfold skippedLine
  dsimp only
  rw [hsign, Bool.not_not]
  by_cases hdoubled : doubledSign line = true
  · rw [if_pos hdoubled]
    exact iff_of_true ⟨_, rfl⟩ hdoubled
  · rw [if_neg hdoubled]
    refine iff_of_false ?_ hdoubled
    rintro ⟨place, hline⟩
    split at hline
    case h_3 =>
      split at hline
      · split at hline <;> cases hline
      · cases hline
    all_goals cases hline

/-- **What a line that is not compiled reports.** A line of a source that is taken for a directive
    and holds no conditional one is handled without a failure where lines are not compiled. It gives
    rise to at most one warning, of the class for such text, exactly when its sign is not doubled;
    a line that begins with `##` is an error. -/
theorem skipped_line_reports (h : Host) (nested : Option Nested) {s : State} {source : Bytes}
    {l : LogicalLine} (hs : s.compiling = false) (hl : l ∈ logicalLines source)
    (hdirective : l.directive = true)
    (hkeyword : ∀ kw name c, Announces kw ((s.track l).linePosition l) l.text name c →
      kw.isConditional = false) :
    let out := s.directiveLine h nested l
    out.failure = none ∧
      (doubledSign l.text = false → ∃ told, Delivers s.reporter told out.state.reporter ∧
        told.length ≤ 1 ∧ ∀ d ∈ told, IsSkippedWarning d) ∧
      (doubledSign l.text = true → ∃ pos, Delivers s.reporter
        [⟨pos, .error, .none, Complaint.expectedHash.message⟩] out.state.reporter) := by
  intro out
  have hsigned := Source.logicalLines_signed source l hl hdirective
  have hs' : (s.track l).compiling = false := hs
  have hout : out = (s.track l).skipLine h (skippedLine ((s.track l).linePosition l) l.text) :=
    directiveWith_skipped hs' nested _ l.text
  have hunsigned := unsigned_iff hsigned ((s.track l).linePosition l)
  rw [hout]
  cases hline : skippedLine ((s.track l).linePosition l) l.text with
  | conditional kw name c =>
    obtain ⟨ha, hkw⟩ := announces_of_conditional hline
    exact absurd hkw (by simp [hkeyword kw name c ha])
  | unsigned pos =>
    have hdoubled : doubledSign l.text = true := hunsigned.1 ⟨pos, hline⟩
    refine ⟨rfl, fun hsingle => ?_, fun _ => ⟨pos, rfl, rfl, rfl, rfl, by simp⟩⟩
    exact absurd hdoubled (by simp [hsingle])
  | dropped =>
    refine ⟨rfl, fun _ => ⟨[], .nil _, by simp, by simp⟩, fun hdoubled => ?_⟩
    obtain ⟨pos, hpos⟩ := hunsigned.2 hdoubled
    exact absurd (hline.symm.trans hpos) (by simp)
  | invalid pos =>
    refine ⟨rfl, fun _ => caution_delivers (s.track l) pos, fun hdoubled => ?_⟩
    obtain ⟨pos', hpos⟩ := hunsigned.2 hdoubled
    exact absurd (hline.symm.trans hpos) (by simp)

/-- A group of `A` that is skipped, with a line that begins with `##` in it. -/
def skippedPaste : Bytes :=
  ascii "#ifdef A\n## x\n#endif\n"

theorem skipped_line_reports_paste :
    let lines := logicalLines skippedPaste
    let start : State :=
      { table := .empty 0 false, branches := { max := 4 }, reporter := { mask := .none } }
    let s := (start.progress echoHost (ascii "main.c") (lines.take 1)).out.state
    ∃ l pos, lines[1]? = some l ∧ l.directive = true ∧ s.compiling = false ∧
      Delivers s.reporter [⟨pos, .error, .none, Complaint.expectedHash.message⟩]
        (s.directiveLine echoHost none l).state.reporter := by
  intro lines start s
  obtain ⟨l, hl⟩ : ∃ l, lines[1]? = some l := Option.isSome_iff_exists.1 (by decide +kernel)
  have hdirective : l.directive = true := by
    have hall : lines[1]?.all LogicalLine.directive = true := by decide +kernel
    rw [hl] at hall
    exact hall
  have htext : l.text = ascii "## x" := by
    have hall : lines[1]?.map LogicalLine.text = some (ascii "## x") := by decide +kernel
    rw [hl] at hall
    exact Option.some.inj hall
  have hskipped : s.compiling = false := by decide +kernel
  have hkeyword : ∀ kw name c, Announces kw ((s.track l).linePosition l) l.text name c →
      kw.isConditional = false := by
    intro kw name c ha
    have hsigned : Source.startsDirective l.text = true := by
      rw [htext]
      decide
    have hhash := (Lexer.sign_token hsigned ((s.track l).linePosition l)).symm.trans ha.sign
    rw [htext] at hhash
    exact absurd hhash (by decide)
  obtain ⟨-, -, herror⟩ := skipped_line_reports echoHost none hskipped (List.mem_of_getElem? hl)
    hdirective hkeyword
  obtain ⟨pos, hdelivers⟩ := herror (by rw [htext]; decide)
  exact ⟨l, pos, hl, hdirective, hskipped, hdelivers⟩

end Engine

end Preproc
