import Mathlib.Data.Int.Bitwise
import Preproc.Condition.Value

set_option autoImplicit false

/-! # Exact arithmetic of conditions

The operators of conditions as they are defined on whole numbers: operands are converted to a
common type, the result is computed exactly, and it is reduced modulo 2^64 into the range of its
type. A value of 64 bits stands for such a number (`Value.number`), and every operator on values
gives the value of what the same operator gives on numbers (`number_unary`, `number_binary`). -/

namespace Preproc.Condition

/-- A whole number with its type, which is a signed or an unsigned one of 64 bits. -/
structure Number where
  value : Int
  unsigned : Bool
  deriving DecidableEq

namespace Number

/-- The number in the range of a type that equals a given one modulo 2^64. -/
def reduce (unsigned : Bool) (n : Int) : Int :=
  if unsigned then n % 2 ^ 64 else Int.bmod n (2 ^ 64)

/-- The signed 1 or 0 that stands for a truth value. -/
def ofBool (b : Bool) : Number :=
  ⟨if b then 1 else 0, false⟩

/-- The operators on one number. -/
def unary (op : UnaryOp) (a : Number) : Number :=
  match op with
  | .neg => ⟨reduce a.unsigned (-a.value), a.unsigned⟩
  | .pos => ⟨reduce a.unsigned a.value, a.unsigned⟩
  | .complement => ⟨reduce a.unsigned (-a.value - 1), a.unsigned⟩
  | .not => ofBool (a.value = 0)

/-- The operators on two numbers, with no quotient and no remainder by zero. Division goes toward
    zero, and a shift to the right rounds down. -/
def binary? (op : BinaryOp) (a b : Number) : Option Number :=
  let unsigned := a.unsigned || b.unsigned
  let x := reduce unsigned a.value
  let y := reduce unsigned b.value
  let exactly (n : Int) : Option Number := some ⟨reduce unsigned n, unsigned⟩
  let shifted (n : Int) : Option Number := some ⟨reduce a.unsigned n, a.unsigned⟩
  let factor : Int := 2 ^ (b.value % 64).toNat
  match op with
  | .mul => exactly (x * y)
  | .div => if y = 0 then none else exactly (x.tdiv y)
  | .mod => if y = 0 then none else exactly (x.tmod y)
  | .add => exactly (x + y)
  | .sub => exactly (x - y)
  | .shiftLeft => shifted (a.value * factor)
  | .shiftRight => shifted (a.value.fdiv factor)
  | .less => some (ofBool (x < y))
  | .greater => some (ofBool (x > y))
  | .lessEqual => some (ofBool (x ≤ y))
  | .greaterEqual => some (ofBool (x ≥ y))
  | .equal => some (ofBool (x = y))
  | .notEqual => some (ofBool (x ≠ y))
  | .bitAnd => exactly (Int.land x y)
  | .bitOr => exactly (Int.lor x y)
  | .bitXor => exactly (Int.xor x y)
  | .logicalAnd => some (ofBool (a.value ≠ 0 ∧ b.value ≠ 0))
  | .logicalOr => some (ofBool (a.value ≠ 0 ∨ b.value ≠ 0))

end Number

/-! ## Values as numbers -/

/-- The number that a value stands for. -/
def Value.number (v : Value) : Number :=
  ⟨if v.unsigned then v.bits.toNat else v.bits.toInt, v.unsigned⟩

namespace Value

open Number (reduce)

/-- The value with the bits of a number stands for the number, reduced to its type. -/
theorem number_ofInt (n : Int) (unsigned : Bool) :
    (Value.mk (BitVec.ofInt 64 n) unsigned).number = ⟨reduce unsigned n, unsigned⟩ := by
  cases unsigned with
  | false => simp [number, reduce, BitVec.toInt_ofInt]
  | true =>
    simp only [number, reduce, if_true, BitVec.toNat_ofInt, Number.mk.injEq, and_true]
    exact Int.toNat_of_nonneg (Int.emod_nonneg n (by decide))

theorem ofInt_value (v : Value) : BitVec.ofInt 64 v.number.value = v.bits := by
  cases hv : v.unsigned <;> simp [number, hv, BitVec.ofInt_natCast]

/-- Conversion to a type keeps the bits. -/
theorem reduce_value (v : Value) (unsigned : Bool) :
    reduce unsigned v.number.value = (Value.mk v.bits unsigned).number.value := by
  have h := number_ofInt v.number.value unsigned
  rw [ofInt_value] at h
  rw [h]

theorem ofInt_reduce (v : Value) (unsigned : Bool) :
    BitVec.ofInt 64 (reduce unsigned v.number.value) = v.bits := by
  rw [reduce_value]
  exact ofInt_value ⟨v.bits, unsigned⟩

theorem number_eq_zero (v : Value) : v.number.value = 0 ↔ v.bits = 0 := by
  constructor
  · intro h
    rw [← ofInt_value v, h]
    rfl
  · intro h
    cases hv : v.unsigned <;> simp [number, hv, h]

theorem reduce_eq_zero (v : Value) (unsigned : Bool) :
    reduce unsigned v.number.value = 0 ↔ v.bits = 0 := by
  rw [reduce_value]
  exact number_eq_zero ⟨v.bits, unsigned⟩

theorem isTrue_iff (v : Value) : v.isTrue = true ↔ v.number.value ≠ 0 := by
  rw [Ne, number_eq_zero]
  simp [isTrue]

theorem number_ofBool (b : Bool) : (ofBool b).number = Number.ofBool b := by
  cases b <;> rfl

/-! ## Operators on one value -/

theorem not_eq_ofInt (v : Value) : ~~~v.bits = BitVec.ofInt 64 (-v.number.value - 1) := by
  rw [Int.sub_eq_add_neg, BitVec.ofInt_add, BitVec.ofInt_neg, ofInt_value, BitVec.neg_eq_not_add]
  simp [BitVec.add_assoc]

theorem number_unary (op : UnaryOp) (v : Value) :
    (unary op v).number = Number.unary op v.number := by
  cases op with
  | neg =>
    have hbits : -v.bits = BitVec.ofInt 64 (-v.number.value) := by
      rw [BitVec.ofInt_neg, ofInt_value]
    rw [unary, hbits, number_ofInt]
    rfl
  | pos =>
    rw [Number.unary, unary, reduce_value]
    rfl
  | complement =>
    rw [unary, not_eq_ofInt, number_ofInt]
    rfl
  | not =>
    have hzero : (v.bits == 0) = decide (v.number.value = 0) := by
      rw [Bool.eq_iff_iff, beq_iff_eq, decide_eq_true_iff, number_eq_zero]
    rw [unary, number_ofBool, hzero]
    rfl

/-! ## Operators on two values -/

/-- The bits of a number are those of its two's complement. -/
theorem getLsbD_ofInt (n : Int) (i : Nat) (hi : i < 64) :
    (BitVec.ofInt 64 n).getLsbD i = n.testBit i := by
  cases n with
  | ofNat n =>
    show (BitVec.ofInt 64 (n : Int)).getLsbD i = n.testBit i
    rw [BitVec.ofInt_natCast, BitVec.getLsbD_ofNat, decide_eq_true hi, Bool.true_and]
  | negSucc n =>
    show (BitVec.ofInt 64 (Int.negSucc n)).getLsbD i = !n.testBit i
    rw [BitVec.ofInt_negSucc_eq_not_ofNat, BitVec.getLsbD_not, BitVec.getLsbD_ofNat,
      decide_eq_true hi, Bool.true_and, Bool.true_and]

theorem and_eq_ofInt (x y : Int) :
    BitVec.ofInt 64 x &&& BitVec.ofInt 64 y = BitVec.ofInt 64 (Int.land x y) := by
  refine BitVec.eq_of_getLsbD_eq (fun i hi => ?_)
  simp only [BitVec.getLsbD_and, getLsbD_ofInt _ _ hi, Int.testBit_land]

theorem or_eq_ofInt (x y : Int) :
    BitVec.ofInt 64 x ||| BitVec.ofInt 64 y = BitVec.ofInt 64 (Int.lor x y) := by
  refine BitVec.eq_of_getLsbD_eq (fun i hi => ?_)
  simp only [BitVec.getLsbD_or, getLsbD_ofInt _ _ hi, Int.testBit_lor]

theorem xor_eq_ofInt (x y : Int) :
    BitVec.ofInt 64 x ^^^ BitVec.ofInt 64 y = BitVec.ofInt 64 (Int.xor x y) := by
  refine BitVec.eq_of_getLsbD_eq (fun i hi => ?_)
  simp only [BitVec.getLsbD_xor, getLsbD_ofInt _ _ hi, Int.testBit_lxor]

/-- Division of words is exact division of the numbers they stand for. -/
theorem div_eq_ofInt (a b : Value) (unsigned : Bool) :
    (if unsigned then a.bits.udiv b.bits else a.bits.sdiv b.bits) =
      BitVec.ofInt 64 ((reduce unsigned a.number.value).tdiv (reduce unsigned b.number.value)) := by
  rw [reduce_value, reduce_value]
  cases unsigned with
  | false =>
    refine BitVec.toInt_inj.1 ?_
    rw [BitVec.toInt_ofInt]
    exact BitVec.toInt_sdiv a.bits b.bits
  | true =>
    show a.bits.udiv b.bits = BitVec.ofInt 64 ((a.bits.toNat : Int).tdiv b.bits.toNat)
    rw [← Int.ofNat_tdiv, BitVec.ofInt_natCast]
    exact BitVec.udiv_def

theorem mod_eq_ofInt (a b : Value) (unsigned : Bool) :
    (if unsigned then a.bits.umod b.bits else a.bits.srem b.bits) =
      BitVec.ofInt 64 ((reduce unsigned a.number.value).tmod (reduce unsigned b.number.value)) := by
  rw [reduce_value, reduce_value]
  cases unsigned with
  | false =>
    show a.bits.srem b.bits = BitVec.ofInt 64 (a.bits.toInt.tmod b.bits.toInt)
    rw [← BitVec.toInt_srem, BitVec.ofInt_toInt]
  | true =>
    show a.bits.umod b.bits = BitVec.ofInt 64 ((a.bits.toNat : Int).tmod b.bits.toNat)
    rw [← Int.ofNat_tmod, BitVec.ofInt_natCast]
    exact BitVec.umod_def

/-- The count of a shift does not depend on the type of the operand that gives it. -/
theorem shiftCount (v : Value) : v.bits.toNat % 64 = (v.number.value % 64).toNat := by
  cases hv : v.unsigned with
  | false =>
    have hint := BitVec.toInt_eq_toNat_cond v.bits
    simp only [number, hv, Bool.false_eq_true, if_false, hint]
    split <;> omega
  | true =>
    simp only [number, hv, if_true]
    omega

theorem shiftLeft_eq_ofInt (v : Value) (count : Nat) :
    v.bits <<< count = BitVec.ofInt 64 (v.number.value * 2 ^ count) := by
  have hpower : BitVec.ofInt 64 (2 ^ count) = BitVec.twoPow 64 count := by
    have hcast : ((2 ^ count : Nat) : Int) = 2 ^ count := by push_cast; rfl
    refine BitVec.eq_of_toNat_eq ?_
    rw [← hcast, BitVec.ofInt_natCast, BitVec.toNat_ofNat, BitVec.toNat_twoPow]
  rw [BitVec.ofInt_mul, ofInt_value, hpower, BitVec.shiftLeft_eq_mul_twoPow]

theorem shiftRight_eq_ofInt (v : Value) (count : Nat) :
    (if v.unsigned then v.bits >>> count else v.bits.sshiftRight count) =
      BitVec.ofInt 64 (v.number.value.fdiv (2 ^ count)) := by
  have hcast : ((2 ^ count : Nat) : Int) = 2 ^ count := by push_cast; rfl
  rw [← hcast, Int.fdiv_eq_ediv_of_nonneg _ (Int.natCast_nonneg _)]
  cases hv : v.unsigned with
  | false =>
    simp only [number, hv, Bool.false_eq_true, if_false]
    rw [← Int.shiftRight_eq_div_pow, ← BitVec.toInt_sshiftRight, BitVec.ofInt_toInt]
  | true =>
    simp only [number, hv, if_true]
    rw [← Int.natCast_ediv, BitVec.ofInt_natCast, ← Nat.shiftRight_eq_div_pow]
    refine BitVec.eq_of_toNat_eq ?_
    have hlt : v.bits.toNat >>> count < 2 ^ 64 :=
      Nat.lt_of_le_of_lt (Nat.shiftRight_le _ _) v.bits.isLt
    rw [BitVec.toNat_ushiftRight, BitVec.toNat_ofNat, Nat.mod_eq_of_lt hlt]

/-- A comparison of words is that of the numbers they stand for after conversion. -/
theorem compare_eq {signedTest unsignedTest : BitVec 64 → BitVec 64 → Bool}
    (holds : Int → Int → Bool) (hsigned : ∀ x y, signedTest x y = holds x.toInt y.toInt)
    (hunsigned : ∀ x y, unsignedTest x y = holds x.toNat y.toNat) (a b : Value) :
    (compare signedTest unsignedTest a b).number =
      Number.ofBool (holds (reduce (a.unsigned || b.unsigned) a.number.value)
        (reduce (a.unsigned || b.unsigned) b.number.value)) := by
  rw [compare, number_ofBool, reduce_value, reduce_value]
  cases a.unsigned || b.unsigned with
  | false => exact congrArg Number.ofBool (hsigned a.bits b.bits)
  | true => exact congrArg Number.ofBool (hunsigned a.bits b.bits)

theorem reduce_eq_iff (a b : Value) (unsigned : Bool) :
    reduce unsigned a.number.value = reduce unsigned b.number.value ↔ a.bits = b.bits := by
  constructor
  · intro h
    rw [← ofInt_reduce a unsigned, h, ofInt_reduce]
  · intro h
    rw [reduce_value, reduce_value, h]

/-- A result computed on words, where the exact one has the same bits. -/
theorem map_number_some {bits : BitVec 64} {n : Int} (unsigned : Bool)
    (hbits : bits = BitVec.ofInt 64 n) :
    (some (Value.mk bits unsigned)).map number = some ⟨reduce unsigned n, unsigned⟩ := by
  rw [hbits, Option.map_some, number_ofInt]

theorem map_number_ofBool {b c : Bool} (h : b = c) :
    (some (ofBool b)).map number = some (Number.ofBool c) := by
  rw [h, Option.map_some, number_ofBool]

/-- **An operator on values is the exact operator on the numbers they stand for.** -/
theorem number_binary (op : BinaryOp) (a b : Value) :
    (binary? op a b).map number = Number.binary? op a.number b.number := by
  -- conversion to the common type does not touch the words, so words can be computed with at once
  have ha : BitVec.ofInt 64 (reduce (a.number.unsigned || b.number.unsigned) a.number.value) =
      a.bits := ofInt_reduce a _
  have hb : BitVec.ofInt 64 (reduce (a.number.unsigned || b.number.unsigned) b.number.value) =
      b.bits := ofInt_reduce b _
  have hzero : reduce (a.number.unsigned || b.number.unsigned) b.number.value = 0 ↔ b.bits = 0 :=
    reduce_eq_zero b _
  cases op with
  | mul => exact map_number_some _ (by rw [BitVec.ofInt_mul, ha, hb])
  | add => exact map_number_some _ (by rw [BitVec.ofInt_add, ha, hb])
  | sub =>
    exact map_number_some _ (by rw [Int.sub_eq_add_neg, BitVec.ofInt_add, BitVec.ofInt_neg, ha,
      hb, BitVec.sub_eq_add_neg])
  | bitAnd => exact map_number_some _ (by rw [← and_eq_ofInt, ha, hb])
  | bitOr => exact map_number_some _ (by rw [← or_eq_ofInt, ha, hb])
  | bitXor => exact map_number_some _ (by rw [← xor_eq_ofInt, ha, hb])
  | div =>
    simp only [binary?, Number.binary?, hzero]
    by_cases hy : b.bits = 0
    · rw [if_pos hy, if_pos hy, Option.map_none]
    · rw [if_neg hy, if_neg hy]
      exact map_number_some _ (div_eq_ofInt a b _)
  | mod =>
    simp only [binary?, Number.binary?, hzero]
    by_cases hy : b.bits = 0
    · rw [if_pos hy, if_pos hy, Option.map_none]
    · rw [if_neg hy, if_neg hy]
      exact map_number_some _ (mod_eq_ofInt a b _)
  | shiftLeft => exact map_number_some _ (by rw [shiftCount, shiftLeft_eq_ofInt])
  | shiftRight => exact map_number_some _ (by rw [shiftCount, shiftRight_eq_ofInt])
  | less =>
    exact congrArg some (compare_eq (fun x y => decide (x < y))
      (fun x y => BitVec.slt_eq_decide) (fun x y => by simp [BitVec.ult]) a b)
  | lessEqual =>
    exact congrArg some (compare_eq (fun x y => decide (x ≤ y))
      (fun x y => BitVec.sle_eq_decide) (fun x y => by simp [BitVec.ule]) a b)
  | greater =>
    exact congrArg some ((compare_eq (fun x y => decide (x < y))
      (fun x y => BitVec.slt_eq_decide) (fun x y => by simp [BitVec.ult]) b a).trans
      (by rw [Bool.or_comm]; rfl))
  | greaterEqual =>
    exact congrArg some ((compare_eq (fun x y => decide (x ≤ y))
      (fun x y => BitVec.sle_eq_decide) (fun x y => by simp [BitVec.ule]) b a).trans
      (by rw [Bool.or_comm]; rfl))
  | equal =>
    refine map_number_ofBool ?_
    rw [Bool.eq_iff_iff, beq_iff_eq, decide_eq_true_iff]
    exact (reduce_eq_iff a b _).symm
  | notEqual =>
    refine map_number_ofBool ?_
    rw [Bool.eq_iff_iff, bne_iff_ne, decide_eq_true_iff]
    exact (reduce_eq_iff a b _).symm.not
  | logicalAnd =>
    refine map_number_ofBool ?_
    rw [Bool.eq_iff_iff, Bool.and_eq_true, decide_eq_true_iff, isTrue_iff, isTrue_iff]
  | logicalOr =>
    refine map_number_ofBool ?_
    rw [Bool.eq_iff_iff, Bool.or_eq_true, decide_eq_true_iff, isTrue_iff, isTrue_iff]

end Value

end Preproc.Condition
