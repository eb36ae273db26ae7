import Preproc.Text.Blank
import Preproc.Text.Quoted
import Preproc.Condition.Parser
import Preproc.Condition.Value

set_option autoImplicit false

/-! # Evaluating conditions

Constants are decoded when they are reached. The right operand of `&&` and `||` and the operand
that `? :` does not select are never evaluated, so nothing that is wrong there matters. -/

namespace Preproc.Condition

/-- Why a condition has no value. -/
inductive Error where
  /-- There is nothing but blanks. -/
  | empty
  /-- The text is no expression. -/
  | malformed
  | divisionByZero
  /-- A constant that no 64 bits can hold, or with a digit that its base does not have. -/
  | badInteger (text : Bytes)
  | badCharacter (text : Bytes)
  deriving DecidableEq

/-- The wording of an error. -/
def Error.message : Error → Bytes
  | empty => ascii "#if with no expression"
  | malformed => ascii "invalid preprocessor expression"
  | divisionByZero => ascii "division by zero in preprocessor expression"
  | badInteger text => ascii "invalid integer constant " ++ quoted text
  | badCharacter text => ascii "invalid character constant " ++ text

/-! ## Constants -/

/-- An integer constant without its suffix letters. -/
def integerDigits (text : Bytes) : Bytes :=
  (text.reverse.dropWhile isSuffix).reverse

/-- The number that the digits of an integer constant denote: hexadecimal after `0x`, octal after
    any other leading zero, else decimal. It has to be below 2^64. -/
def readInteger? (digits : Bytes) : Option Nat :=
  match digits with
  | a :: b :: c :: rest =>
    if b = byte 'x' ∨ b = byte 'X' then readNat? 16 wordCount (c :: rest)
    else if a = byte '0' then readNat? 8 wordCount (b :: c :: rest)
    else readNat? 10 wordCount digits
  | [a, b] => if a = byte '0' then readNat? 8 wordCount [b] else readNat? 10 wordCount digits
  | _ => readNat? 10 wordCount digits

/-- The value of an integer constant. It is unsigned when its suffix has a `u`, and when it is too
    large to be signed. -/
def integerValue (text : Bytes) : Except Error Value :=
  let digits := integerDigits text
  match readInteger? digits with
  | some n =>
    let marked := (text.drop digits.length).any fun b => b == byte 'u' || b == byte 'U'
    .ok ⟨BitVec.ofNat 64 n, marked || signedBound ≤ n⟩
  | none => .error (.badInteger digits)

/-- The byte that a letter stands for after a backslash, where it has a meaning of its own. -/
def escapedByte (letter : UInt8) : UInt8 :=
  if letter = byte 'n' then 10
  else if letter = byte 't' then 9
  else if letter = byte 'r' then 13
  else if letter = byte 'a' then 7
  else if letter = byte 'b' then 8
  else if letter = byte 'f' then 12
  else if letter = byte 'v' then 11
  else letter

/-- The number of the first character between the quotes, or of the numeric escape there, which
    has to fit in a byte. -/
def readCharacter? (body : Bytes) : Option Nat :=
  match body with
  | [] => none
  | a :: rest =>
    if a ≠ backslash then some a.toNat
    else match rest with
      | [] => none
      | letter :: digits =>
        if letter = byte 'x' then readNat? 16 256 digits
        else if byte '0' ≤ letter ∧ letter ≤ byte '7' then readNat? 8 256 (letter :: digits)
        else some (escapedByte letter).toNat

/-- The value of a character constant, which is written with its quotes. -/
def characterValue (text : Bytes) : Except Error Value :=
  match readCharacter? (text.drop 1).dropLast with
  | some n => .ok ⟨BitVec.ofNat 64 n, false⟩
  | none => .error (.badCharacter text)

/-! ## Expressions -/

/-- The value of an expression. A name is zero: names that mean anything were replaced before. -/
def Expr.eval : Expr → Except Error Value
  | .number text => integerValue text
  | .character text => characterValue text
  | .name _ => .ok ⟨0, false⟩
  | .group inner => inner.eval
  | .unary op operand =>
    match operand.eval with
    | .ok v => .ok (Value.unary op v)
    | .error e => .error e
  | .binary op left right =>
    match left.eval with
    | .error e => .error e
    | .ok a =>
      if op = .logicalOr ∧ a.isTrue then .ok (Value.ofBool true)
      else if op = .logicalAnd ∧ ¬ a.isTrue then .ok (Value.ofBool false)
      else match right.eval with
        | .error e => .error e
        | .ok b =>
          match Value.binary? op a b with
          | some v => .ok v
          | none => .error .divisionByZero
  | .choice test yes no =>
    match test.eval with
    | .ok v => if v.isTrue then yes.eval else no.eval
    | .error e => .error e

/-- Read a condition. -/
def parse (text : Bytes) : Except Error Expr :=
  if (trimBlank text).isEmpty then .error .empty
  else match lexemes? text with
    | none => .error .malformed
    | some input =>
      match Expr.ofLexemes? input with
      | some e => .ok e
      | none => .error .malformed

/-- Read and evaluate a condition. The result is the value's bits as a signed number. -/
def evaluate (text : Bytes) : Except Error Int :=
  match parse text with
  | .ok e =>
    match e.eval with
    | .ok v => .ok v.bits.toInt
    | .error err => .error err
  | .error err => .error err

end Preproc.Condition
