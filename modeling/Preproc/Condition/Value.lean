import Preproc.Condition.Expr

set_option autoImplicit false

/-! # Values of conditions

A value is a word of 64 bits with a mark that says whether it stands for a signed or an unsigned
number. An operation on a signed and an unsigned value works on unsigned numbers. -/

namespace Preproc.Condition

/-- A word of 64 bits, signed or not. -/
structure Value where
  bits : BitVec 64
  unsigned : Bool := false
  deriving DecidableEq

namespace Value

/-- The signed 1 or 0 that stands for a truth value. -/
def ofBool (b : Bool) : Value :=
  ⟨if b then 1 else 0, false⟩

/-- A value counts as true when it is not zero. -/
def isTrue (v : Value) : Bool :=
  v.bits != 0

/-- The operators on one value. -/
def unary : UnaryOp → Value → Value
  | .neg, v => { v with bits := -v.bits }
  | .pos, v => v
  | .not, v => ofBool (v.bits == 0)
  | .complement, v => { v with bits := ~~~v.bits }

/-- A comparison after conversion of both sides. -/
def compare (signedTest unsignedTest : BitVec 64 → BitVec 64 → Bool) (a b : Value) : Value :=
  ofBool (if a.unsigned || b.unsigned then unsignedTest a.bits b.bits
    else signedTest a.bits b.bits)

/-- The operators on two values, without the two that may leave their right operand unevaluated.
    There is no quotient and no remainder by zero. -/
def binary? (op : BinaryOp) (a b : Value) : Option Value :=
  let unsigned := a.unsigned || b.unsigned
  let count := b.bits.toNat % 64
  match op with
  | .mul => some ⟨a.bits * b.bits, unsigned⟩
  | .div =>
    if b.bits = 0 then none
    else some ⟨if unsigned then a.bits.udiv b.bits else a.bits.sdiv b.bits, unsigned⟩
  | .mod =>
    if b.bits = 0 then none
    else some ⟨if unsigned then a.bits.umod b.bits else a.bits.srem b.bits, unsigned⟩
  | .add => some ⟨a.bits + b.bits, unsigned⟩
  | .sub => some ⟨a.bits - b.bits, unsigned⟩
  | .shiftLeft => some ⟨a.bits <<< count, a.unsigned⟩
  | .shiftRight =>
    some ⟨if a.unsigned then a.bits >>> count else a.bits.sshiftRight count, a.unsigned⟩
  | .less => some (compare BitVec.slt BitVec.ult a b)
  | .greater => some (compare BitVec.slt BitVec.ult b a)
  | .lessEqual => some (compare BitVec.sle BitVec.ule a b)
  | .greaterEqual => some (compare BitVec.sle BitVec.ule b a)
  | .equal => some (ofBool (a.bits == b.bits))
  | .notEqual => some (ofBool (a.bits != b.bits))
  | .bitAnd => some ⟨a.bits &&& b.bits, unsigned⟩
  | .bitOr => some ⟨a.bits ||| b.bits, unsigned⟩
  | .bitXor => some ⟨a.bits ^^^ b.bits, unsigned⟩
  | .logicalAnd => some (ofBool (a.isTrue && b.isTrue))
  | .logicalOr => some (ofBool (a.isTrue || b.isTrue))

end Value

end Preproc.Condition
