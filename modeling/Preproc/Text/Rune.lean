import Preproc.Text.Bytes

set_option autoImplicit false

/-! # Code points in byte strings

Columns and quoting look at the code points of a text. A text is cut from the left: a well-formed
UTF-8 sequence of the shortest form that denotes a scalar value is one code point, and any byte
that starts no such sequence stands alone. -/

namespace Preproc

/-- A byte that continues a multi-byte sequence. -/
def isContinuation (b : UInt8) : Bool :=
  0x80 ≤ b && b ≤ 0xBF

/-- The six low bits that a continuation byte carries. -/
def continuationBits (b : UInt8) : Nat :=
  b.toNat - 0x80

/-- The code point at the head of a text with its width in bytes, or `none` when the text is empty
    or its first byte starts no well-formed sequence. Overlong forms, surrogates and values above
    U+10FFFF are not well formed. -/
def decodeRune? : Bytes → Option (Nat × Nat)
  | [] => none
  | a :: rest =>
    if a < 0x80 then some (a.toNat, 1)
    else if a < 0xC2 then none
    else if a < 0xE0 then
      match rest with
      | b :: _ =>
        if isContinuation b then some ((a.toNat - 0xC0) * 64 + continuationBits b, 2) else none
      | [] => none
    else if a < 0xF0 then
      match rest with
      | b :: c :: _ =>
        let n := (a.toNat - 0xE0) * 4096 + continuationBits b * 64 + continuationBits c
        if isContinuation b && isContinuation c && 0x800 ≤ n && !(0xD800 ≤ n && n ≤ 0xDFFF)
        then some (n, 3) else none
      | _ => none
    else if a < 0xF5 then
      match rest with
      | b :: c :: d :: _ =>
        let n := (a.toNat - 0xF0) * 262144 + continuationBits b * 4096
          + continuationBits c * 64 + continuationBits d
        if isContinuation b && isContinuation c && isContinuation d && 0x10000 ≤ n && n ≤ 0x10FFFF
        then some (n, 4) else none
      | _ => none
    else none

/-- Width in bytes of the first code point; a byte that starts none counts alone. -/
def runeWidth (text : Bytes) : Nat :=
  match decodeRune? text with
  | some (_, width) => width
  | none => 1

/-- One unit of a text: a code point with its bytes, or a byte that belongs to none. -/
inductive Rune where
  | scalar (code : Nat) (bytes : Bytes)
  | stray (byte : UInt8)
  deriving DecidableEq

/-- The bytes of a unit. -/
def Rune.bytes : Rune → Bytes
  | .scalar _ bytes => bytes
  | .stray b => [b]

/-- The units of a text, from left to right. -/
def runes : Bytes → List Rune
  | [] => []
  | b :: rest =>
    match decodeRune? (b :: rest) with
    | some (code, width) =>
      .scalar code (b :: rest.take (width - 1)) :: runes (rest.drop (width - 1))
    | none => .stray b :: runes rest
termination_by text => text.length
decreasing_by
  · simp only [List.length_cons, List.length_drop]; omega
  · simp only [List.length_cons]; omega

/-- Number of code points of a text, each stray byte counting as one. -/
def runeCount (text : Bytes) : Nat :=
  (runes text).length

/-- A text all of whose units are code points. -/
def isValidUtf8 (text : Bytes) : Bool :=
  (runes text).all fun
    | .scalar .. => true
    | .stray _ => false

/-- The UTF-8 form of a code point. -/
def encodeRune (n : Nat) : Bytes :=
  if n < 0x80 then [n.toUInt8]
  else if n < 0x800 then [(0xC0 + n / 64).toUInt8, (0x80 + n % 64).toUInt8]
  else if n < 0x10000 then
    [(0xE0 + n / 4096).toUInt8, (0x80 + n / 64 % 64).toUInt8, (0x80 + n % 64).toUInt8]
  else
    [(0xF0 + n / 262144).toUInt8, (0x80 + n / 4096 % 64).toUInt8, (0x80 + n / 64 % 64).toUInt8,
      (0x80 + n % 64).toUInt8]

end Preproc
