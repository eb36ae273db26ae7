import Preproc.Text.Bytes

set_option autoImplicit false

/-! # Base 64

Bytes as text: three bytes are written as four digits, and equals signs fill up what is left. -/

namespace Preproc

/-- The digit for six bits in base 64. -/
def base64Digit (n : Nat) : UInt8 :=
  if n < 26 then (65 + n).toUInt8
  else if n < 52 then (71 + n).toUInt8
  else if n < 62 then (n - 4).toUInt8
  else if n = 62 then byte '+'
  else byte '/'

/-- Bytes in base 64. -/
def base64 : Bytes → Bytes
  | [] => []
  | [a] =>
    let n := a.toNat * 16
    [base64Digit (n / 64), base64Digit (n % 64), byte '=', byte '=']
  | [a, b] =>
    let n := (a.toNat * 256 + b.toNat) * 4
    [base64Digit (n / 4096), base64Digit (n / 64 % 64), base64Digit (n % 64), byte '=']
  | a :: b :: c :: rest =>
    let n := (a.toNat * 256 + b.toNat) * 256 + c.toNat
    base64Digit (n / 262144) :: base64Digit (n / 4096 % 64) :: base64Digit (n / 64 % 64)
      :: base64Digit (n % 64) :: base64 rest

/-- The six bits of a digit. -/
def base64Value? (b : UInt8) : Option Nat :=
  if byte 'A' ≤ b ∧ b ≤ byte 'Z' then some (b.toNat - 65)
  else if byte 'a' ≤ b ∧ b ≤ byte 'z' then some (b.toNat - 71)
  else if isDigit b then some (b.toNat + 4)
  else if b = byte '+' then some 62
  else if b = byte '/' then some 63
  else none

/-- The bytes of four digits at a time, of which only the last may be filled up. -/
def groupsOfBase64? : Bytes → Option Bytes
  | [] => some []
  | a :: b :: c :: d :: rest => do
    let x ← base64Value? a
    let y ← base64Value? b
    let first := (x * 4 + y / 16).toUInt8
    if c = byte '=' then
      if d = byte '=' ∧ rest = [] then some [first] else none
    else
      let z ← base64Value? c
      let second := (y % 16 * 16 + z / 4).toUInt8
      if d = byte '=' then
        if rest = [] then some [first, second] else none
      else
        let w ← base64Value? d
        let third := (z % 4 * 64 + w).toUInt8
        (groupsOfBase64? rest).map fun more => first :: second :: third :: more
  | _ => none

/-- The bytes that a text in base 64 stands for; line ends in it do not count. -/
def ofBase64? (text : Bytes) : Option Bytes :=
  groupsOfBase64? (text.filter fun b => b != newline && b != 13)

end Preproc
