import Mathlib.Data.List.TakeWhile
import Preproc.Condition.Eval
import Preproc.Proofs.Condition.Grammar
import Preproc.Proofs.Token.Lexemes

set_option autoImplicit false

/-! # Conditions that are accepted

The reader of conditions returns a tree on exactly the lexemes by which the tree is written. What
it returns was written that way (`readChoice_sound`). And whatever a tree is written by is read
back as that tree, because no reader takes an operator that the tree gives to a level further out
(`Sentence.read`). -/

namespace Preproc.Condition

/-! ## What is read was written -/

mutual

theorem readChoice_sound {input rest : List Lexeme} {e : Expr}
    (h : readChoice input = some (e, rest)) :
    ∃ s : Sentence, s.expr = e ∧ input = s.lexemes ++ rest := by
  rw [readChoice] at h
  split at h
  · next test afterTest htest =>
    obtain ⟨l, rfl, hl⟩ := readRank_sound htest
    split at h
    · split at h
      · next yes afterYes hyes =>
        obtain ⟨y, rfl, hy⟩ := readChoice_sound hyes
        split at h
        · split at h
          · next no afterNo hno =>
            obtain ⟨n, rfl, hn⟩ := readChoice_sound hno
            obtain ⟨rfl, rfl⟩ : _ ∧ afterNo = rest := by simpa using h
            exact ⟨.choice l y n, rfl, by simp [Sentence.lexemes, hl, hy, hn]⟩
          · exact absurd h (by simp)
        · exact absurd h (by simp)
      · exact absurd h (by simp)
    · exact absurd h (by simp)
  · obtain ⟨l, rfl, hl⟩ := readRank_sound h
    exact ⟨.plain l, rfl, hl⟩
termination_by (input.length, looseRank + 1)

theorem readRank_sound {rank : Nat} {input rest : List Lexeme} {e : Expr}
    (h : readRank rank input = some (e, rest)) :
    ∃ l : Level rank, l.expr = e ∧ input = l.lexemes ++ rest := by
  rw [readRank.eq_def] at h
  split at h
  · next text _ =>
    obtain ⟨rfl, rfl⟩ : _ ∧ _ = rest := by simpa using h
    exact ⟨.number text, rfl, rfl⟩
  · next text _ =>
    obtain ⟨rfl, rfl⟩ : _ ∧ _ = rest := by simpa using h
    exact ⟨.character text, rfl, rfl⟩
  · next text _ =>
    obtain ⟨rfl, rfl⟩ : _ ∧ _ = rest := by simpa using h
    exact ⟨.name text, rfl, rfl⟩
  · next inside =>
    split at h
    · next inner after hinner =>
      obtain ⟨s, rfl, hs⟩ := readChoice_sound hinner
      obtain ⟨rfl, rfl⟩ : _ ∧ after = rest := by simpa using h
      exact ⟨.group s, rfl, by simp [Level.lexemes, hs]⟩
    · exact absurd h (by simp)
  · next s operands _ =>
    split at h
    · next op hop =>
      obtain rfl := Symbol.unary?_eq_some.1 hop
      split at h
      · next operand after hoperand =>
        obtain ⟨l, rfl, hl⟩ := readRank_sound hoperand
        obtain ⟨rfl, rfl⟩ : _ ∧ after = rest := by simpa using h
        exact ⟨.unary op l, rfl, by simp [Level.lexemes, hl]⟩
      · exact absurd h (by simp)
    · exact absurd h (by simp)
  · exact absurd h (by simp)
  · split at h
    · next rank first after hfirst =>
      obtain ⟨l, rfl, hl⟩ := readRank_sound hfirst
      split at h
      · next hshorter =>
        obtain ⟨t, rfl, ht⟩ := readChain_sound h
        exact ⟨.chain l t, rfl, by simp [Level.lexemes, hl, ht]⟩
      · exact absurd h (by simp)
    · exact absurd h (by simp)
termination_by (input.length, rank)

theorem readChain_sound {rank : Nat} {input rest : List Lexeme} {left e : Expr}
    (h : readChain rank left input = some (e, rest)) :
    ∃ t : Tail rank, t.onto left = e ∧ input = t.lexemes ++ rest := by
  rw [readChain.eq_def] at h
  split at h
  · next s more =>
    split at h
    · next op hop =>
      obtain rfl := Symbol.binary?_eq_some.1 hop
      split at h
      · next hrank =>
        split at h
        · next right after hright =>
          obtain ⟨l, rfl, hl⟩ := readRank_sound hright
          split at h
          · next hshorter =>
            obtain ⟨t, rfl, ht⟩ := readChain_sound h
            exact ⟨.cons op hrank l t, rfl, by simp [Tail.lexemes, hl, ht]⟩
          · exact absurd h (by simp)
        · exact absurd h (by simp)
      · obtain ⟨rfl, rfl⟩ : left = e ∧ _ = rest := by simpa using h
        exact ⟨.nil, rfl, rfl⟩
    · obtain ⟨rfl, rfl⟩ : left = e ∧ _ = rest := by simpa using h
      exact ⟨.nil, rfl, rfl⟩
  · obtain ⟨rfl, rfl⟩ : left = e ∧ _ = rest := by simpa using h
    exact ⟨.nil, rfl, rfl⟩
termination_by (input.length, rank)

end

/-! ## What is written is read -/

/-- What follows begins with no operator that a level of the given rank could take. -/
def Stops (rank : Nat) (rest : List Lexeme) : Prop :=
  ∀ s op, rest.head? = some (.symbol s) → s.binary? = some op → rank < op.rank

theorem stops_symbol {s : Symbol} (hs : s.binary? = none) (rank : Nat) (rest : List Lexeme) :
    Stops rank (.symbol s :: rest) := by
  intro s' op hhead hop
  obtain rfl : s = s' := by simpa using hhead
  exact absurd hop (by simp [hs])

theorem stops_nil (rank : Nat) : Stops rank [] := by
  intro s op hhead
  exact absurd hhead (by simp)

theorem Stops.mono {rank rank' : Nat} (hle : rank ≤ rank') {rest : List Lexeme}
    (h : Stops rank' rest) : Stops rank rest :=
  fun s op hhead hop => Nat.lt_of_le_of_lt hle (h s op hhead hop)

/-- The operators of a level are no operators of the level below. -/
theorem Tail.stops {rank : Nat} {rest : List Lexeme} (h : Stops (rank + 1) rest) :
    ∀ t : Tail rank, Stops rank (t.lexemes ++ rest)
  | .nil => h.mono (Nat.le_succ rank)
  | .cons op fits operand more => by
    intro s op' hhead hop
    obtain rfl : op.symbol = s := by simpa [Tail.lexemes] using hhead
    obtain rfl : op = op' := by
      have hself := Symbol.binary?_eq_some.2 (Eq.refl op.symbol)
      exact Option.some.inj (hself.symm.trans hop)
    omega

theorem Level.lexemes_ne_nil : ∀ {rank : Nat} (l : Level rank), l.lexemes ≠ []
  | _, .number _ | _, .character _ | _, .name _ | _, .group _ | _, .unary .. => by simp [lexemes]
  | _, .chain first more => by simp [lexemes, first.lexemes_ne_nil]

theorem Level.length_lt {rank : Nat} (l : Level rank) (rest : List Lexeme) :
    rest.length < (l.lexemes ++ rest).length := by
  have hpos := List.length_pos_iff.2 l.lexemes_ne_nil
  rw [List.length_append]
  omega

theorem readRank_unary (op : UnaryOp) (rest : List Lexeme) :
    readRank 0 (.symbol op.symbol :: rest) =
      match readRank 0 rest with
      | some (operand, rest) => some (.unary op operand, rest)
      | none => none := by
  have hread := readRank.eq_5 op.symbol rest (by cases op <;> simp [UnaryOp.symbol])
  rw [Symbol.unary?_eq_some.2 (Eq.refl op.symbol)] at hread
  exact hread

mutual

/-- A condition is read back from what it is written by. -/
theorem Sentence.read : ∀ (s : Sentence) {rest : List Lexeme}, Stops looseRank rest →
    rest.head? ≠ some (.symbol .question) → readChoice (s.lexemes ++ rest) = some (s.expr, rest)
  | .plain test, rest, hstops, hquestion => by
    rw [Sentence.lexemes, readChoice, test.read hstops]
    split
    · next test' rest' heq =>
      obtain ⟨-, rfl⟩ : _ ∧ rest = .symbol .question :: rest' := by simpa using heq
      exact absurd rfl hquestion
    · rfl
  | .choice test yes no, rest, hstops, hquestion => by
    have hno : readChoice (no.lexemes ++ rest) = some (no.expr, rest) :=
      no.read hstops hquestion
    have hyes : readChoice (yes.lexemes ++ .symbol .colon :: (no.lexemes ++ rest)) =
        some (yes.expr, .symbol .colon :: (no.lexemes ++ rest)) :=
      yes.read (stops_symbol rfl _ _) (by simp)
    have htest : readRank looseRank (test.lexemes ++ .symbol .question ::
        (yes.lexemes ++ .symbol .colon :: (no.lexemes ++ rest))) =
        some (test.expr, .symbol .question ::
          (yes.lexemes ++ .symbol .colon :: (no.lexemes ++ rest))) :=
      test.read (stops_symbol rfl _ _)
    have hwritten : (Sentence.choice test yes no).lexemes ++ rest =
        test.lexemes ++ .symbol .question ::
          (yes.lexemes ++ .symbol .colon :: (no.lexemes ++ rest)) := by
      simp [Sentence.lexemes]
    rw [hwritten, readChoice, htest]
    simp only [hyes, hno]
    rw [if_pos, if_pos]
    · rfl
    · simp only [List.length_append, List.length_cons]
      omega
    · simp only [List.length_append, List.length_cons]
      omega

theorem Level.read : ∀ {rank : Nat} (l : Level rank) {rest : List Lexeme}, Stops rank rest →
    readRank rank (l.lexemes ++ rest) = some (l.expr, rest)
  | _, .number text, rest, _ => readRank.eq_1 text rest
  | _, .character text, rest, _ => readRank.eq_2 text rest
  | _, .name text, rest, _ => readRank.eq_3 text rest
  | _, .group inner, rest, _ => by
    have hinner : readChoice (inner.lexemes ++ .symbol .rightParen :: rest) =
        some (inner.expr, .symbol .rightParen :: rest) :=
      inner.read (stops_symbol rfl _ _) (by simp)
    simp only [Level.lexemes, List.cons_append, List.append_assoc, List.nil_append]
    rw [readRank.eq_4, hinner]
    rfl
  | _, .unary op operand, rest, hstops => by
    rw [Level.lexemes, List.cons_append, readRank_unary, operand.read hstops]
    rfl
  | _, .chain first more, rest, hstops => by
    rw [Level.lexemes, List.append_assoc, readRank.eq_7, first.read (more.stops hstops)]
    dsimp only
    rw [if_pos (first.length_lt _), more.read hstops]
    rfl

theorem Tail.read : ∀ {rank : Nat} (t : Tail rank) {left : Expr} {rest : List Lexeme},
    Stops (rank + 1) rest → readChain rank left (t.lexemes ++ rest) = some (t.onto left, rest)
  | rank, .nil, left, rest, hstops => by
    rw [Tail.lexemes, List.nil_append, readChain.eq_def]
    split
    · next s more =>
      split
      · next op hop => rw [if_neg (Nat.ne_of_gt (hstops s op rfl hop))]; rfl
      · rfl
    · rfl
  | rank, .cons op fits operand more, left, rest, hstops => by
    rw [Tail.lexemes, List.cons_append, List.append_assoc, readChain.eq_def]
    dsimp only
    rw [Symbol.binary?_eq_some.2 (Eq.refl op.symbol)]
    dsimp only
    rw [if_pos fits, operand.read (more.stops hstops)]
    dsimp only
    rw [if_pos (operand.length_lt _), more.read hstops]
    rfl

end

/-! ## Blank conditions -/

theorem bytes_ne_nil_of_mem_runes {text : Bytes} : ∀ r ∈ runes text, r.bytes ≠ [] := by
  fun_induction runes text with
  | case1 => simp
  | case2 b rest code width hcode ih => exact List.forall_mem_cons.2 ⟨by simp [Rune.bytes], ih⟩
  | case3 b rest hcode ih => exact List.forall_mem_cons.2 ⟨by simp [Rune.bytes], ih⟩

/-- A text of which nothing is left without the white space at its ends has nothing else. -/
theorem isBlank_of_trimBlank {text : Bytes} (h : trimBlank text = []) :
    ∀ r ∈ runes text, r.isBlank = true := by
  have hbody : ((runes text).dropWhile Rune.isBlank).reverse.dropWhile Rune.isBlank = [] := by
    refine List.eq_nil_iff_forall_not_mem.2 (fun r hr => ?_)
    have hrunes : r ∈ runes text :=
      (List.dropWhile_sublist _).mem (List.mem_reverse.1 ((List.dropWhile_sublist _).mem hr))
    rw [trimBlank, List.flatMap_eq_nil_iff] at h
    exact bytes_ne_nil_of_mem_runes r hrunes (h r (List.mem_reverse.2 hr))
  have hblank : ∀ r ∈ (runes text).dropWhile Rune.isBlank, r.isBlank = true :=
    fun r hr => List.dropWhile_eq_nil_iff.1 hbody r (List.mem_reverse.2 hr)
  refine List.dropWhile_eq_nil_iff.1 ?_
  cases hrest : (runes text).dropWhile Rune.isBlank with
  | nil => rfl
  | cons r rest =>
    -- the first unit that is kept is no white space
    have hfirst := List.head?_dropWhile_not Rune.isBlank (runes text)
    rw [hrest] at hfirst hblank
    exact absurd (hblank r (by simp)) (by simpa using hfirst)

/-- The bytes with which some lexeme begins. -/
def startsLexeme (b : UInt8) : Bool :=
  isDigit b || b == singleQuote || isIdentStart b ||
    symbols.any fun entry => entry.1.head? == some b

theorem lexeme?_eq_none {b : UInt8} (hb : startsLexeme b = false) (rest : Bytes) :
    lexeme? (b :: rest) = none := by
  simp only [startsLexeme, Bool.or_eq_false_iff] at hb
  obtain ⟨⟨⟨hdigit, hquote⟩, hident⟩, hsymbol⟩ := hb
  have hhex : hexWidth (b :: rest) = 0 := by
    have hzero : b ≠ byte '0' := by
      rintro rfl
      exact absurd hdigit (by decide)
    cases rest <;> simp [hexWidth, hzero]
  have hnumber : numberWidth (b :: rest) = 0 := by
    simp [numberWidth, hhex, digitsWidth, hdigit]
  have hcharacter : characterWidth (b :: rest) = 0 := by
    have hne : b ≠ singleQuote := by simpa using hquote
    cases rest <;> simp [characterWidth, hne]
  have hname : nameWidth (b :: rest) = 0 := by simp [nameWidth, hident]
  have hnone : symbol? (b :: rest) = none := by
    refine List.find?_eq_none.2 (fun entry hentry hstarts => ?_)
    have hhead := List.any_eq_false.1 hsymbol entry hentry
    have hspelled : ∀ entry ∈ symbols, entry.1 ≠ [] := by decide
    cases hspelling : entry.1 with
    | nil => exact hspelled entry hentry hspelling
    | cons c spelling => simp_all
  simp [lexeme?, hnumber, hcharacter, hname, hnone]

theorem isGap_lt : ∀ b, isGap b = true → b < 0x80 := by
  intro b h
  simp only [isGap, Bool.or_eq_true, beq_iff_eq] at h
  rcases h with ((rfl | rfl) | rfl) | rfl <;> decide

/-- White space that is no gap begins no lexeme, and neither does a byte beyond ASCII. -/
theorem startsLexeme_of_blank : ∀ b, isGap b = false → (b < 0x80 → isBlankCode b.toNat = true) →
    startsLexeme b = false :=
  forall_byte (by decide +kernel)

/-- A condition of white space has no lexemes, whether it can be cut or not. -/
theorem lexemes?_of_blank {text : Bytes} (h : ∀ r ∈ runes text, r.isBlank = true)
    {input : List Lexeme} (hinput : lexemes? text = some input) : input = [] := by
  fun_induction runes text generalizing input with
  | case1 => simpa [lexemes?] using hinput.symm
  | case2 b rest code width hcode ih =>
    obtain ⟨hblank, hrest⟩ := List.forall_mem_cons.1 h
    have hsmall : b < 0x80 → code = b.toNat ∧ width = 1 := by
      intro hb
      simpa [decodeRune?, hb, eq_comm] using hcode
    rw [lexemes?] at hinput
    cases hgap : isGap b with
    | true =>
      obtain ⟨-, rfl⟩ := hsmall (isGap_lt b hgap)
      rw [if_pos hgap] at hinput
      exact ih hrest hinput
    | false =>
      have hnone : lexeme? (b :: rest) = none := by
        refine lexeme?_eq_none (startsLexeme_of_blank b hgap (fun hb => ?_)) rest
        rw [← (hsmall hb).1]
        exact hblank
      rw [hgap, hnone] at hinput
      exact absurd hinput (by simp)
  | case3 b rest hcode ih => exact absurd (h (.stray b) (by simp)) (by simp [Rune.isBlank])

/-! ## Acceptance -/

theorem Sentence.lexemes_ne_nil (s : Sentence) : s.lexemes ≠ [] := by
  cases s with
  | plain test => exact test.lexemes_ne_nil
  | choice test yes no => simp [lexemes]

theorem Expr.ofLexemes?_lexemes (s : Sentence) : Expr.ofLexemes? s.lexemes = some s.expr := by
  have hread := s.read (stops_nil looseRank) (by simp)
  rw [List.append_nil] at hread
  rw [ofLexemes?, hread]

/-- Every expression that is read is one of the grammar, and was written by all the lexemes. -/
theorem Expr.ofLexemes?_sound {input : List Lexeme} {e : Expr}
    (h : Expr.ofLexemes? input = some e) : ∃ s : Sentence, s.expr = e ∧ s.lexemes = input := by
  unfold ofLexemes? at h
  split at h
  · next e' hread =>
    obtain ⟨s, rfl, hinput⟩ := readChoice_sound hread
    exact ⟨s, Option.some.inj h, by rw [hinput, List.append_nil]⟩
  · exact absurd h (by simp)

theorem Expr.ofLexemes?_eq_some {input : List Lexeme} {s : Sentence} :
    Expr.ofLexemes? input = some s.expr ↔ s.lexemes = input := by
  constructor
  · intro h
    obtain ⟨s', hexpr, hinput⟩ := ofLexemes?_sound h
    rwa [← Sentence.expr_injective hexpr]
  · rintro rfl
    exact ofLexemes?_lexemes s

/-- Reading a condition: it is no white space, and its lexemes are those of an expression. -/
theorem parse_eq_ok {text : Bytes} {e : Expr} :
    parse text = .ok e ↔ ∃ input, lexemes? text = some input ∧ Expr.ofLexemes? input = some e := by
  unfold parse
  split
  · next hblank =>
    constructor
    · intro h
      exact absurd h (by simp)
    · rintro ⟨input, hinput, he⟩
      obtain ⟨s, -, hs⟩ := Expr.ofLexemes?_sound he
      have hnil := lexemes?_of_blank (isBlank_of_trimBlank (List.isEmpty_iff.1 hblank)) hinput
      exact absurd (hs.trans hnil) s.lexemes_ne_nil
  · cases lexemes? text with
    | none => simp
    | some input => cases he : Expr.ofLexemes? input <;> simp [he]

/-- A text that is not read is white space, or no expression. -/
theorem parse_eq_error (text : Bytes) :
    (parse text = .error .malformed ∨ parse text = .error .empty) ↔ ∀ e, parse text ≠ .ok e := by
  unfold parse
  split
  · simp
  · cases lexemes? text with
    | none => simp
    | some input => cases he : Expr.ofLexemes? input <;> simp [he]

/-- **Exactly the conditions of the grammar are read, each as its one tree.** A tree is returned on
    the lexemes by which it is written and on no others, all that is returned is such a tree, and
    lexemes by which no tree is written are refused. No two trees are written alike. The same holds
    of a whole text, in which blanks stand between the lexemes. -/
theorem parse_accepts_grammar (text : Bytes) (input : List Lexeme) :
    (∀ s : Sentence, Expr.ofLexemes? input = some s.expr ↔ s.lexemes = input) ∧
    (∀ e, Expr.ofLexemes? input = some e ↔ ∃ s : Sentence, s.expr = e ∧ s.lexemes = input) ∧
    (Expr.ofLexemes? input = none ↔ ∀ s : Sentence, s.lexemes ≠ input) ∧
    (∀ s s' : Sentence, s.lexemes = s'.lexemes ↔ s = s') ∧
    (∀ s : Sentence, parse text = .ok s.expr ↔ lexemes? text = some s.lexemes) ∧
    (∀ e, parse text = .ok e ↔
      ∃ s : Sentence, s.expr = e ∧ lexemes? text = some s.lexemes) ∧
    ((parse text = .error .malformed ∨ parse text = .error .empty) ↔
      ∀ s : Sentence, lexemes? text ≠ some s.lexemes) := by
  have hread : ∀ input e, Expr.ofLexemes? input = some e ↔
      ∃ s : Sentence, s.expr = e ∧ s.lexemes = input := by
    intro input e
    refine ⟨Expr.ofLexemes?_sound, ?_⟩
    rintro ⟨s, rfl, hs⟩
    exact Expr.ofLexemes?_eq_some.2 hs
  have hparse : ∀ e, parse text = .ok e ↔
      ∃ s : Sentence, s.expr = e ∧ lexemes? text = some s.lexemes := by
    intro e
    rw [parse_eq_ok]
    constructor
    · rintro ⟨input, hinput, he⟩
      obtain ⟨s, hs, rfl⟩ := (hread input e).1 he
      exact ⟨s, hs, hinput⟩
    · rintro ⟨s, rfl, hs⟩
      exact ⟨s.lexemes, hs, Expr.ofLexemes?_lexemes s⟩
  refine ⟨fun s => Expr.ofLexemes?_eq_some, hread input, ?_, fun s s' => ?_, fun s => ?_, hparse,
    ?_⟩
  · rw [Option.eq_none_iff_forall_ne_some]
    simp only [ne_eq, hread, not_exists, not_and]
    exact ⟨fun h s => h s.expr s rfl, fun h e s _ => h s⟩
  · refine ⟨fun h => Sentence.expr_injective ?_, fun h => by rw [h]⟩
    have hs := Expr.ofLexemes?_lexemes s
    rw [h, Expr.ofLexemes?_lexemes s'] at hs
    exact (Option.some.inj hs).symm
  · rw [hparse]
    refine ⟨?_, fun h => ⟨s, rfl, h⟩⟩
    rintro ⟨s', hexpr, hs'⟩
    rwa [← Sentence.expr_injective hexpr]
  · rw [parse_eq_error]
    simp only [ne_eq, hparse, not_exists, not_and]
    exact ⟨fun h s => h s.expr s rfl, fun h e s _ => h s⟩

end Preproc.Condition
