import Preproc.Proofs.Condition.Meaning

set_option autoImplicit false

/-! # The type of a choice

In C, the result of `c ? a : b` has the common type of `a` and `b`, whichever of them is selected.
Here the operand that is not selected is never looked at, so the result keeps the type of the
selected one. It has the right bits always, and the right type exactly when it is not a signed value
beside an unsigned one (`choice_converted_iff`). An operator that is applied to such a result goes
wrong unless it works on unsigned numbers for another reason, or its result does not depend on the
type. -/

namespace Preproc.Condition

/-- The number that a choice stands for in C: the selected operand, converted to the common type of
    both. -/
def Number.choose (test yes no : Number) : Number :=
  let unsigned := yes.unsigned || no.unsigned
  ⟨reduce unsigned (if test.value ≠ 0 then yes.value else no.value), unsigned⟩

/-- What an operator on numbers gives as the result of a condition. -/
def Number.result : Option Number → Except Error Number
  | some n => .ok n
  | none => .error .divisionByZero

/-! ## Values of another type -/

namespace Value

theorem number_injective : Function.Injective number := by
  intro v w h
  have hbits : v.bits = w.bits := by rw [← ofInt_value v, h, ofInt_value]
  have hunsigned : v.unsigned = w.unsigned := congrArg Number.unsigned h
  cases v
  cases w
  exact congr (congrArg Value.mk hbits) hunsigned

/-- The same bits, taken as an unsigned number. -/
def toUnsigned (v : Value) : Value :=
  { v with unsigned := true }

/-- A number is the same after conversion exactly when it is not negative. -/
theorem toUnsigned_value {v : Value} (hv : v.unsigned = false) :
    v.toUnsigned.number.value = v.number.value ↔ v.bits.msb = false := by
  simp only [number, toUnsigned, hv, if_true, Bool.false_eq_true, if_false,
    BitVec.toInt_eq_msb_cond]
  cases v.bits.msb with
  | false => simp
  | true =>
    simp only [if_true, Bool.true_eq_false, iff_false]
    omega

/-- An operator whose result stays the same when its left operand `v` is taken as unsigned. -/
def LeftBlind (op : BinaryOp) (v w : Value) : Prop :=
  match op with
  | .equal | .notEqual | .logicalAnd | .logicalOr => True
  | .less | .greater | .lessEqual | .greaterEqual => w.unsigned = true ∨ v.bits.msb = w.bits.msb
  | .div | .mod => w.unsigned = true ∨ w.bits = 0
  | .shiftLeft | .shiftRight => False
  | .add | .sub | .mul | .bitAnd | .bitOr | .bitXor => w.unsigned = true

/-- An operator whose result stays the same when its right operand `w` is taken as unsigned. -/
def RightBlind (op : BinaryOp) (v w : Value) : Prop :=
  match op with
  | .shiftLeft | .shiftRight => True
  | .div | .mod => v.unsigned = true ∨ w.bits = 0
  | op => LeftBlind op w v

/-- Signed and unsigned order agree exactly on numbers of one sign. -/
theorem slt_eq_ult_iff (x y : BitVec 64) : x.slt y = x.ult y ↔ x.msb = y.msb := by
  rw [BitVec.slt_eq_ult]
  cases x.msb <;> cases y.msb <;> cases x.ult y <;> decide

theorem sle_eq_ule_iff (x y : BitVec 64) : x.sle y = x.ule y ↔ x.msb = y.msb := by
  rw [BitVec.sle_eq_not_slt, BitVec.ule_eq_not_ult, Bool.not_inj_iff, slt_eq_ult_iff]
  exact eq_comm

theorem ofBool_injective : Function.Injective ofBool := by
  intro a b h
  cases a <;> cases b <;> first | rfl | exact absurd h (by decide)

/-- A comparison after one side was taken as unsigned. -/
theorem compare_toUnsigned_left {signedTest unsignedTest : BitVec 64 → BitVec 64 → Bool}
    (htests : ∀ x y, signedTest x y = unsignedTest x y ↔ x.msb = y.msb) {v : Value}
    (hv : v.unsigned = false) (w : Value) :
    compare signedTest unsignedTest v w = compare signedTest unsignedTest v.toUnsigned w ↔
      w.unsigned = true ∨ v.bits.msb = w.bits.msb := by
  rw [compare, compare, ofBool_injective.eq_iff]
  cases hw : w.unsigned with
  | true => simp [toUnsigned]
  | false => simpa [toUnsigned, hv] using htests v.bits w.bits

theorem compare_toUnsigned_right {signedTest unsignedTest : BitVec 64 → BitVec 64 → Bool}
    (htests : ∀ x y, signedTest x y = unsignedTest x y ↔ x.msb = y.msb) {v : Value}
    (hv : v.unsigned = false) (w : Value) :
    compare signedTest unsignedTest w v = compare signedTest unsignedTest w v.toUnsigned ↔
      w.unsigned = true ∨ v.bits.msb = w.bits.msb := by
  rw [compare, compare, ofBool_injective.eq_iff]
  cases hw : w.unsigned with
  | true => simp [toUnsigned]
  | false => simpa [toUnsigned, hv, eq_comm (a := v.bits.msb)] using htests w.bits v.bits

/-- Of two results with the same bits, one is unsigned. -/
theorem some_mk_eq_iff {bits : BitVec 64} {unsigned : Bool} :
    some (Value.mk bits unsigned) = some (Value.mk bits true) ↔ unsigned = true := by
  simp

/-- Quotients and remainders differ at least in their types, unless there is none. -/
theorem quotient_eq_iff {unsigned : Bool} (divisor : BitVec 64) (quotient : Bool → BitVec 64) :
    (if divisor = 0 then none else some (Value.mk (quotient unsigned) unsigned)) =
        (if divisor = 0 then none else some (Value.mk (quotient true) true)) ↔
      unsigned = true ∨ divisor = 0 := by
  by_cases hzero : divisor = 0
  · rw [if_pos hzero, if_pos hzero]
    exact iff_of_true rfl (.inr hzero)
  · rw [if_neg hzero, if_neg hzero, Option.some_inj, or_iff_left hzero]
    cases unsigned <;> simp

theorem binary?_toUnsigned_left {v : Value} (hv : v.unsigned = false) (op : BinaryOp) (w : Value) :
    binary? op v w = binary? op v.toUnsigned w ↔ LeftBlind op v w := by
  have hleft : (v.unsigned || w.unsigned) = w.unsigned := by rw [hv, Bool.false_or]
  have hboth : (v.toUnsigned.unsigned || w.unsigned) = true := rfl
  have hbits : v.toUnsigned.bits = v.bits := rfl
  cases op with
  | equal | notEqual | logicalAnd | logicalOr => exact iff_of_true rfl trivial
  | shiftLeft | shiftRight =>
    refine iff_of_false (fun h => ?_) id
    have htype := congrArg Value.unsigned (Option.some.inj h)
    exact absurd (hv.symm.trans htype) (by simp [toUnsigned])
  | less => exact Option.some_inj.trans (compare_toUnsigned_left slt_eq_ult_iff hv w)
  | lessEqual => exact Option.some_inj.trans (compare_toUnsigned_left sle_eq_ule_iff hv w)
  | greater => exact Option.some_inj.trans (compare_toUnsigned_right slt_eq_ult_iff hv w)
  | greaterEqual => exact Option.some_inj.trans (compare_toUnsigned_right sle_eq_ule_iff hv w)
  | add | sub | mul | bitAnd | bitOr | bitXor =>
    simp only [binary?, LeftBlind, hleft, hboth, hbits]
    exact some_mk_eq_iff
  | div =>
    simp only [binary?, hleft, hboth, hbits]
    exact quotient_eq_iff w.bits fun u => if u then v.bits.udiv w.bits else v.bits.sdiv w.bits
  | mod =>
    simp only [binary?, hleft, hboth, hbits]
    exact quotient_eq_iff w.bits fun u => if u then v.bits.umod w.bits else v.bits.srem w.bits

theorem binary?_toUnsigned_right {w : Value} (hw : w.unsigned = false) (op : BinaryOp) (v : Value) :
    binary? op v w = binary? op v w.toUnsigned ↔ RightBlind op v w := by
  have hright : (v.unsigned || w.unsigned) = v.unsigned := by rw [hw, Bool.or_false]
  have hboth : (v.unsigned || w.toUnsigned.unsigned) = true := Bool.or_true _
  have hbits : w.toUnsigned.bits = w.bits := rfl
  cases op with
  | equal | notEqual | logicalAnd | logicalOr | shiftLeft | shiftRight =>
    exact iff_of_true rfl trivial
  | less => exact Option.some_inj.trans (compare_toUnsigned_right slt_eq_ult_iff hw v)
  | lessEqual => exact Option.some_inj.trans (compare_toUnsigned_right sle_eq_ule_iff hw v)
  | greater => exact Option.some_inj.trans (compare_toUnsigned_left slt_eq_ult_iff hw v)
  | greaterEqual => exact Option.some_inj.trans (compare_toUnsigned_left sle_eq_ule_iff hw v)
  | add | sub | mul | bitAnd | bitOr | bitXor =>
    simp only [binary?, RightBlind, LeftBlind, hright, hboth, hbits]
    exact some_mk_eq_iff
  | div =>
    simp only [binary?, hright, hboth, hbits]
    exact quotient_eq_iff w.bits fun u => if u then v.bits.udiv w.bits else v.bits.sdiv w.bits
  | mod =>
    simp only [binary?, hright, hboth, hbits]
    exact quotient_eq_iff w.bits fun u => if u then v.bits.umod w.bits else v.bits.srem w.bits

/-- The operand that a test selects of two. -/
def select (test yes no : Value) : Value :=
  if test.isTrue then yes else no

theorem select_unsigned (test yes no : Value) :
    (yes.unsigned || no.unsigned) =
      ((select test yes no).unsigned || (select test no yes).unsigned) := by
  unfold select
  split
  · rfl
  · exact Bool.or_comm _ _

/-- What a choice stands for in C is the selected operand with its own type, unless that operand is
    signed and the other one is not. -/
theorem choose_number (test yes no : Value) :
    Number.choose test.number yes.number no.number =
      if (select test no yes).unsigned = true → (select test yes no).unsigned = true then
        (select test yes no).number
      else (select test yes no).toUnsigned.number := by
  have hvalue : (if test.number.value ≠ 0 then yes.number.value else no.number.value) =
      (select test yes no).number.value := by
    simp only [select, ← isTrue_iff]
    split <;> rfl
  have hcommon : Number.choose test.number yes.number no.number =
      (Value.mk (select test yes no).bits (yes.unsigned || no.unsigned)).number := by
    rw [Number.choose, hvalue]
    exact congrArg (Number.mk · _) (reduce_value _ _)
  rw [hcommon, select_unsigned test]
  generalize select test yes no = picked
  generalize (select test no yes).unsigned = other
  obtain ⟨bits, unsigned⟩ := picked
  cases unsigned <;> cases other <;> rfl

end Value

/-! ## Choices -/

/-- The result of an operator whose operands both have a value. -/
theorem Expr.eval_binary_number {left right : Expr} {a b : Value} (hleft : left.eval = .ok a)
    (hright : right.eval = .ok b) (op : BinaryOp) :
    (Expr.binary op left right).eval.map Value.number =
      Number.result (Number.binary? op a.number b.number) := by
  rw [Expr.eval_binary op hleft, hright]
  by_cases hor : op = .logicalOr ∧ a.number.value ≠ 0
  · obtain ⟨rfl, htrue⟩ := hor
    simp [Number.binary?, Number.result, htrue, Except.map, Value.number_ofBool]
  by_cases hand : op = .logicalAnd ∧ a.number.value = 0
  · obtain ⟨rfl, hfalse⟩ := hand
    simp [Number.binary?, Number.result, hfalse, Except.map, Value.number_ofBool]
  rw [if_neg hor, if_neg hand, ← Value.number_binary]
  dsimp only
  cases Value.binary? op a b <;> rfl

theorem Number.result_injective : Function.Injective Number.result := by
  intro m n h
  cases m <;> cases n <;> simp_all [Number.result]

/-- The result of an operator tells two values of an operand apart where the operator on values
    does. -/
theorem result_number_eq_iff {op : BinaryOp} {a b a' b' : Value} :
    Number.result (Number.binary? op a.number b.number) =
        Number.result (Number.binary? op a'.number b'.number) ↔
      Value.binary? op a b = Value.binary? op a' b' := by
  rw [Number.result_injective.eq_iff, ← Value.number_binary, ← Value.number_binary,
    (Option.map_injective Value.number_injective).eq_iff]

/-- **The type of a choice.** A choice whose operands all have a value has the value of the selected
    operand, and so the bits that C gives it. Its type is the one that C gives it exactly when it is
    unsigned or the other operand is signed; otherwise it is a signed value that should be unsigned,
    which is another number when it is negative. The result of an operator that is applied to the
    choice, on either side, is the one that C gives exactly when the choice has the right type or
    the operator is blind to it: so for `==` and `!=`, for the other comparisons and for quotients
    and remainders beside an unsigned operand, for comparisons of numbers of one sign, and for the
    count of a shift, but never for a number that is shifted. -/
theorem choice_converted_iff {c a b : Expr} {vc va vb : Value} (hc : c.eval = .ok vc)
    (ha : a.eval = .ok va) (hb : b.eval = .ok vb) :
    let choice := Expr.group (.choice c a b)
    let picked := Value.select vc va vb
    let other := Value.select vc vb va
    let wanted := Number.choose vc.number va.number vb.number
    let kept := other.unsigned = true → picked.unsigned = true
    choice.eval = .ok picked ∧
    BitVec.ofInt 64 wanted.value = picked.bits ∧
    (picked.unsigned = wanted.unsigned ↔ kept) ∧
    (picked.number.value = wanted.value ↔ kept ∨ picked.bits.msb = false) ∧
    ∀ (op : BinaryOp) (d : Expr) (w : Value), d.eval = .ok w →
      ((Expr.binary op choice d).eval.map Value.number =
          Number.result (Number.binary? op wanted w.number) ↔
        kept ∨ Value.LeftBlind op picked w) ∧
      ((Expr.binary op d choice).eval.map Value.number =
          Number.result (Number.binary? op w.number wanted) ↔
        kept ∨ Value.RightBlind op w picked) := by
  intro choice picked other wanted kept
  have hchoice : choice.eval = .ok picked := by
    simp only [choice, Expr.eval, hc]
    split
    · next htrue => rw [ha, show picked = va from if_pos htrue]
    · next hfalse => rw [hb, show picked = vb from if_neg hfalse]
  have hwanted : wanted = if kept then picked.number else picked.toUnsigned.number :=
    Value.choose_number vc va vb
  by_cases hkept : kept
  · rw [if_pos hkept] at hwanted
    rw [hwanted]
    refine ⟨hchoice, Value.ofInt_value picked, iff_of_true rfl hkept,
      iff_of_true rfl (.inl hkept), fun op d w hd => ⟨?_, ?_⟩⟩
    · exact iff_of_true (Expr.eval_binary_number hchoice hd op) (.inl hkept)
    · exact iff_of_true (Expr.eval_binary_number hd hchoice op) (.inl hkept)
  · rw [if_neg hkept] at hwanted
    rw [hwanted]
    have hsigned : picked.unsigned = false := by
      cases hpicked : picked.unsigned with
      | false => rfl
      | true => exact absurd (fun _ => hpicked) hkept
    refine ⟨hchoice, Value.ofInt_value picked.toUnsigned, iff_of_false ?_ hkept, ?_,
      fun op d w hd => ⟨?_, ?_⟩⟩
    · rw [hsigned]
      exact Bool.false_ne_true
    · rw [or_iff_right hkept, eq_comm]
      exact Value.toUnsigned_value hsigned
    · rw [Expr.eval_binary_number hchoice hd, result_number_eq_iff, or_iff_right hkept]
      exact Value.binary?_toUnsigned_left hsigned op w
    · rw [Expr.eval_binary_number hd hchoice, result_number_eq_iff, or_iff_right hkept]
      exact Value.binary?_toUnsigned_right hsigned op w

/-- In `(1 ? -1 : 0u) < 0` the choice should be the largest unsigned number, so that the comparison
    is false. It is a signed -1, and the comparison is true. -/
theorem choice_converted_iff_negative :
    let minusOne := Expr.unary .neg (.number (ascii "1"))
    let choice := Expr.group (.choice (.number (ascii "1")) minusOne (.number (ascii "0u")))
    let wanted := Number.choose ⟨1, false⟩ ⟨-1, false⟩ ⟨0, true⟩
    wanted = ⟨2 ^ 64 - 1, true⟩ ∧ choice.eval.map Value.number = .ok ⟨-1, false⟩ ∧
      Number.binary? .less wanted ⟨0, false⟩ = some ⟨0, false⟩ ∧
      (Expr.binary .less choice (.number (ascii "0"))).eval.map Value.number = .ok ⟨1, false⟩ ∧
      (Expr.binary .less choice (.number (ascii "0"))).eval.map Value.number ≠
        Number.result (Number.binary? .less wanted ⟨0, false⟩) := by
  intro minusOne choice wanted
  have hone : (Expr.number (ascii "1")).eval = .ok ⟨1, false⟩ := by decide
  have hminus : minusOne.eval = .ok ⟨-1, false⟩ := by decide
  have hzero : (Expr.number (ascii "0u")).eval = .ok ⟨0, true⟩ := by decide
  have hright : (Expr.number (ascii "0")).eval = .ok ⟨0, false⟩ := by decide
  obtain ⟨hchoice, -, -, -, hops⟩ := choice_converted_iff hone hminus hzero
  refine ⟨by decide, ?_, by decide, ?_, fun hsame => ?_⟩
  · rw [hchoice]
    decide
  · decide
  · rcases (hops .less _ _ hright).1.1 hsame with hkept | hblind
    · exact absurd hkept (by decide)
    · exact absurd hblind (by unfold Value.LeftBlind; decide)

end Preproc.Condition
