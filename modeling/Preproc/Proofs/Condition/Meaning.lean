import Preproc.Proofs.Condition.Acceptance
import Preproc.Proofs.Condition.Constant

set_option autoImplicit false

/-! # The meaning of conditions

What a tree of the grammar means, said over whole numbers and without expressions: the operands of
a level are combined from left to right, and `&&` and `||` stop at the first operand that decides,
so that nothing that is wrong after it matters. Evaluation gives every tree this meaning
(`eval_eq_meaning`). -/

namespace Preproc.Condition

/-! ## Reference meaning -/

/-- What a character constant means: a signed number. -/
def Number.ofCharacter (text : Bytes) : Except Error Number :=
  match readCharacter? (text.drop 1).dropLast with
  | some n => .ok ⟨n, false⟩
  | none => .error (.badCharacter text)

mutual

/-- The number that a condition means. With `? :` it is the one that the selected operand means. -/
def Sentence.meaning : Sentence → Except Error Number
  | .plain test => test.meaning
  | .choice test yes no =>
    match test.meaning with
    | .error e => .error e
    | .ok n => if n.value ≠ 0 then yes.meaning else no.meaning

/-- The number that a level means. A name means a signed zero. -/
def Level.meaning : {rank : Nat} → Level rank → Except Error Number
  | _, .number text => Number.ofConstant text
  | _, .character text => Number.ofCharacter text
  | _, .name _ => .ok ⟨0, false⟩
  | _, .group inner => inner.meaning
  | _, .unary op operand => operand.meaning.map (.unary op)
  | _, .chain first more =>
    match first.meaning with
    | .error e => .error e
    | .ok n => more.meaning n

/-- The number that a level means whose operands so far give `left`. Once `left` decides `&&` or
    `||`, the operands that follow have no say. -/
def Tail.meaning : {rank : Nat} → Tail rank → Number → Except Error Number
  | _, .nil, left => .ok left
  | _, .cons op _ operand more, left =>
    if op = .logicalOr ∧ left.value ≠ 0 then .ok (.ofBool true)
    else if op = .logicalAnd ∧ left.value = 0 then .ok (.ofBool false)
    else match operand.meaning with
      | .error e => .error e
      | .ok right =>
        match Number.binary? op left right with
        | some n => more.meaning n
        | none => .error .divisionByZero

end

/-- All numbers that stand among lexemes are integer constants. -/
def Integers (input : List Lexeme) : Prop :=
  ∀ text, .number text ∈ input → IsInteger text

/-! ## Evaluation of a level -/

theorem readNat?_lt {base bound n : Nat} {digits : Bytes}
    (h : readNat? base bound digits = some n) : n < bound := by
  unfold readNat? at h
  split at h
  · exact absurd h (by simp)
  · dsimp only at h
    split at h
    · next hlt => exact Option.some.inj h ▸ hlt
    · exact absurd h (by simp)

theorem readCharacter?_lt {body : Bytes} {n : Nat} (h : readCharacter? body = some n) :
    n < 256 := by
  have hbyte : ∀ {b : UInt8}, some b.toNat = some n → n < 256 := by
    intro b hb
    exact Option.some.inj hb ▸ b.toNat_lt
  unfold readCharacter? at h
  split at h
  · exact absurd h (by simp)
  · split at h
    · exact hbyte h
    · split at h
      · exact absurd h (by simp)
      · split at h
        · exact readNat?_lt h
        · split at h
          · exact readNat?_lt h
          · exact hbyte h

theorem characterValue_eq_ofCharacter (text : Bytes) :
    (characterValue text).map Value.number = Number.ofCharacter text := by
  unfold characterValue Number.ofCharacter
  cases hn : readCharacter? (text.drop 1).dropLast with
  | none => rfl
  | some n =>
    have hsmall := readCharacter?_lt hn
    have hvalue := number_ofNat (n := n) (by omega) false
    rw [decide_eq_false (by unfold signedBound; omega)] at hvalue
    exact congrArg Except.ok hvalue

/-- The value of an operator whose left operand has one. -/
theorem Expr.eval_binary (op : BinaryOp) {left : Expr} {a : Value} (h : left.eval = .ok a)
    (right : Expr) : (Expr.binary op left right).eval =
      if op = .logicalOr ∧ a.number.value ≠ 0 then .ok (Value.ofBool true)
      else if op = .logicalAnd ∧ a.number.value = 0 then .ok (Value.ofBool false)
      else match right.eval with
        | .error e => .error e
        | .ok b =>
          match Value.binary? op a b with
          | some v => .ok v
          | none => .error .divisionByZero := by
  have hfalse : ¬ a.isTrue = true ↔ a.number.value = 0 := by rw [Value.isTrue_iff, not_not]
  rw [Expr.eval, h]
  exact if_congr (and_congr_right fun _ => Value.isTrue_iff a) rfl
    (if_congr (and_congr_right fun _ => hfalse) rfl rfl)

/-- An operand that fails makes the level fail. -/
theorem Tail.eval_onto_error {rank : Nat} {e : Error} :
    ∀ (t : Tail rank) {left : Expr}, left.eval = .error e → (t.onto left).eval = .error e
  | .nil, _, h => h
  | .cons op fits operand more, left, h => by
    refine eval_onto_error more ?_
    rw [Expr.eval, h]

/-- A value that every operator of a level keeps as a left operand is the value of the level. -/
theorem Tail.eval_onto_kept {rank : Nat} {v : Value}
    (hkept : ∀ op left right, op.rank = rank + 1 → left.eval = .ok v →
      (Expr.binary op left right).eval = .ok v) :
    ∀ (t : Tail rank) {left : Expr}, left.eval = .ok v → (t.onto left).eval = .ok v
  | .nil, _, h => h
  | .cons op fits operand more, left, h =>
    eval_onto_kept hkept more (hkept op left operand.expr fits h)

theorem rank_eq_logicalOr {op : BinaryOp} (h : op.rank = BinaryOp.logicalOr.rank) :
    op = .logicalOr := by
  cases op <;> first | rfl | exact absurd h (by decide)

theorem rank_eq_logicalAnd {op : BinaryOp} (h : op.rank = BinaryOp.logicalAnd.rank) :
    op = .logicalAnd := by
  cases op <;> first | rfl | exact absurd h (by decide)

/-- Once an operand of `||` is true, the level is. -/
theorem Tail.eval_onto_true {rank : Nat} (hrank : BinaryOp.logicalOr.rank = rank + 1)
    (t : Tail rank) {left : Expr} (h : left.eval = .ok (Value.ofBool true)) :
    (t.onto left).eval = .ok (Value.ofBool true) := by
  refine t.eval_onto_kept (fun op left right hop hleft => ?_) h
  obtain rfl := rank_eq_logicalOr (hop.trans hrank.symm)
  rw [Expr.eval, hleft]
  rfl

/-- Once an operand of `&&` is false, the level is. -/
theorem Tail.eval_onto_false {rank : Nat} (hrank : BinaryOp.logicalAnd.rank = rank + 1)
    (t : Tail rank) {left : Expr} (h : left.eval = .ok (Value.ofBool false)) :
    (t.onto left).eval = .ok (Value.ofBool false) := by
  refine t.eval_onto_kept (fun op left right hop hleft => ?_) h
  obtain rfl := rank_eq_logicalAnd (hop.trans hrank.symm)
  rw [Expr.eval, hleft]
  rfl

/-! ## Evaluation of trees -/

mutual

theorem Sentence.eval_expr : ∀ s : Sentence, Integers s.lexemes →
    s.expr.eval.map Value.number = s.meaning
  | .plain test, h => test.eval_expr h
  | .choice test yes no, h => by
    have htest := test.eval_expr (fun text hmem => h text (by simp [Sentence.lexemes, hmem]))
    have hyes := yes.eval_expr (fun text hmem => h text (by simp [Sentence.lexemes, hmem]))
    have hno := no.eval_expr (fun text hmem => h text (by simp [Sentence.lexemes, hmem]))
    rw [Sentence.expr, Expr.eval, Sentence.meaning, ← htest]
    cases test.expr.eval with
    | error e => rfl
    | ok v =>
      simp only [Except.map, ← Value.isTrue_iff]
      by_cases hv : v.isTrue = true
      · rw [if_pos hv, if_pos hv]
        exact hyes
      · rw [if_neg hv, if_neg hv]
        exact hno

theorem Level.eval_expr : ∀ {rank : Nat} (l : Level rank), Integers l.lexemes →
    l.expr.eval.map Value.number = l.meaning
  | _, .number text, h => integerValue_eq_ofConstant (h text (by simp [Level.lexemes]))
  | _, .character text, _ => characterValue_eq_ofCharacter text
  | _, .name _, _ => rfl
  | _, .group inner, h =>
    inner.eval_expr (fun text hmem => h text (by simp [Level.lexemes, hmem]))
  | _, .unary op operand, h => by
    have hoperand := operand.eval_expr (fun text hmem => h text (by simp [Level.lexemes, hmem]))
    rw [Level.expr, Expr.eval, Level.meaning, ← hoperand]
    cases operand.expr.eval with
    | error e => rfl
    | ok v => exact congrArg Except.ok (Value.number_unary op v)
  | _, .chain first more, h => by
    have hfirst := first.eval_expr (fun text hmem => h text (by simp [Level.lexemes, hmem]))
    have hmore : Integers more.lexemes := fun text hmem => h text (by simp [Level.lexemes, hmem])
    rw [Level.expr, Level.meaning, ← hfirst]
    cases hv : first.expr.eval with
    | error e => rw [more.eval_onto_error hv]; rfl
    | ok v => exact more.eval_onto hmore hv

theorem Tail.eval_onto : ∀ {rank : Nat} (t : Tail rank), Integers t.lexemes →
    ∀ {left : Expr} {v : Value}, left.eval = .ok v →
      (t.onto left).eval.map Value.number = t.meaning v.number
  | _, .nil, _, left, v, hv => by
    rw [Tail.onto, hv]
    rfl
  | _, .cons op fits operand more, h, left, v, hv => by
    have hoperand := operand.eval_expr (fun text hmem => h text (by simp [Tail.lexemes, hmem]))
    have hmore : Integers more.lexemes := fun text hmem => h text (by simp [Tail.lexemes, hmem])
    have hbinary := Expr.eval_binary op hv operand.expr
    rw [Tail.onto, Tail.meaning, ← hoperand]
    -- the meaning stops here where `v` decides; evaluation still walks through `more`
    by_cases hor : op = .logicalOr ∧ v.number.value ≠ 0
    · obtain ⟨rfl, htrue⟩ := hor
      rw [if_pos ⟨rfl, htrue⟩] at hbinary ⊢
      rw [more.eval_onto_true fits hbinary]
      rfl
    by_cases hand : op = .logicalAnd ∧ v.number.value = 0
    · obtain ⟨rfl, hzero⟩ := hand
      rw [if_neg hor, if_pos ⟨rfl, hzero⟩] at hbinary ⊢
      rw [more.eval_onto_false fits hbinary]
      rfl
    rw [if_neg hor, if_neg hand] at hbinary ⊢
    cases hright : operand.expr.eval with
    | error e =>
      rw [hright] at hbinary
      rw [more.eval_onto_error hbinary]
      rfl
    | ok b =>
      have hnumber := Value.number_binary op v b
      simp only [hright] at hbinary
      cases hresult : Value.binary? op v b with
      | none =>
        rw [hresult] at hbinary hnumber
        rw [more.eval_onto_error hbinary]
        simp only [Except.map, ← hnumber, Option.map_none]
      | some result =>
        rw [hresult] at hbinary hnumber
        rw [more.eval_onto hmore hbinary]
        simp only [Except.map, ← hnumber, Option.map_some]

end

/-- **Evaluation is exact arithmetic.** A condition whose numbers are integer constants has the
    value that stands for the number it means, or the error that its meaning has; and every
    condition that is read from a text is of this kind. -/
theorem eval_eq_meaning (s : Sentence) :
    (Integers s.lexemes → s.expr.eval.map Value.number = s.meaning) ∧
    (∀ text, parse text = .ok s.expr → Integers s.lexemes) := by
  refine ⟨s.eval_expr, fun text h => ?_⟩
  obtain ⟨input, hinput, hs⟩ := parse_eq_ok.1 h
  rw [Expr.ofLexemes?_eq_some.1 hs]
  exact fun constant => isInteger_of_lexemes? hinput

/-- A level as one of a larger rank, with no operators in between. -/
def Level.raise {rank : Nat} (l : Level rank) : (n : Nat) → Level (rank + n)
  | 0 => l
  | n + 1 => .chain (l.raise n) .nil

/-- The condition `-1 > 0u || 1 / 0` means 1: its left side compares unsigned numbers, and what it
    decides hides the division by zero. -/
theorem eval_eq_meaning_hidden :
    let test : Level 4 := .chain ((Level.unary .neg (.number (ascii "1"))).raise 3)
      (.cons .greater rfl ((Level.number (ascii "0u")).raise 3) .nil)
    let quotient : Level 1 := .chain (.number (ascii "1"))
      (.cons .div rfl (.number (ascii "0")) .nil)
    let s : Sentence := .plain (.chain (test.raise 5)
      (.cons .logicalOr rfl (quotient.raise 8) .nil))
    Integers s.lexemes ∧ s.meaning = .ok ⟨1, false⟩ ∧
      s.expr.eval.map Value.number = .ok ⟨1, false⟩ := by
  intro test quotient s
  have hlexemes : s.lexemes = [.symbol .minus, .number (ascii "1"), .symbol .greater,
      .number (ascii "0u"), .symbol .orOr, .number (ascii "1"), .symbol .slash,
      .number (ascii "0")] := rfl
  have hdigits : ∀ b, isDigit b = true → IsDigits [b] :=
    fun b hb => .inl ⟨by simp, by simpa using hb⟩
  have hintegers : Integers s.lexemes := by
    intro text hmem
    rw [hlexemes] at hmem
    simp only [List.mem_cons, Lexeme.number.injEq, reduceCtorEq, false_or, List.not_mem_nil,
      or_false] at hmem
    rcases hmem with rfl | rfl | rfl | rfl
    · exact ⟨ascii "1", [], rfl, hdigits _ (by decide), rfl⟩
    · exact ⟨ascii "0", ascii "u", rfl, hdigits _ (by decide), rfl⟩
    · exact ⟨ascii "1", [], rfl, hdigits _ (by decide), rfl⟩
    · exact ⟨ascii "0", [], rfl, hdigits _ (by decide), rfl⟩
  have hmeaning : s.meaning = .ok ⟨1, false⟩ := by decide
  exact ⟨hintegers, hmeaning, ((eval_eq_meaning s).1 hintegers).trans hmeaning⟩

end Preproc.Condition
