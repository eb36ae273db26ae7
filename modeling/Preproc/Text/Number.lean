import Preproc.Text.Bytes

set_option autoImplicit false

/-! # Numbers as they are typed

A whole number may have a sign, one of the prefixes `0x`, `0o`, `0b` and `0` that choose its base,
and underscores between its digits. It is read from left to right, so a number that has become too
large is refused as too large, whatever follows. -/

namespace Preproc

/-- Why a text is no number of 64 bits. -/
inductive NumberError where
  | malformed
  | outOfRange
  deriving DecidableEq

/-- A text without its sign, and whether the sign is a minus. -/
def splitSign : Bytes → Bool × Bytes
  | b :: rest =>
    if b = byte '-' then (true, rest)
    else if b = byte '+' then (false, rest)
    else (false, b :: rest)
  | [] => (false, [])

/-! ## Underscores -/

/-- What stands before a place in a number, as far as underscores care. -/
inductive Before where
  /-- A digit, or the prefix of a base. -/
  | digit
  | underscore
  | other
  deriving DecidableEq

/-- Whether each underscore stands between two digits. -/
def underscoresBetween (isDigit : UInt8 → Bool) : Before → Bytes → Bool
  | before, [] => before ≠ .underscore
  | before, b :: rest =>
    if isDigit b then underscoresBetween isDigit .digit rest
    else if b = byte '_' then before = .digit && underscoresBetween isDigit .underscore rest
    else before ≠ .underscore && underscoresBetween isDigit .other rest

/-- Whether the underscores of an unsigned number are well placed. The prefix of a base counts as a
    digit. -/
def underscoresOk (text : Bytes) : Bool :=
  match text with
  | z :: x :: rest =>
    if z = byte '0' ∧ (x = byte 'x' ∨ x = byte 'X') then underscoresBetween isHexDigit .digit rest
    else if z = byte '0' ∧ [byte 'b', byte 'B', byte 'o', byte 'O'].contains x then
      underscoresBetween isDigit .digit rest
    else underscoresBetween isDigit .other text
  | _ => underscoresBetween isDigit .other text

/-! ## Whole numbers -/

/-- The base that a prefix chooses, and the digits after it. -/
def splitBase (text : Bytes) : Nat × Bytes :=
  match text with
  | z :: x :: y :: rest =>
    if z ≠ byte '0' then (10, text)
    else if x = byte 'b' ∨ x = byte 'B' then (2, y :: rest)
    else if x = byte 'o' ∨ x = byte 'O' then (8, y :: rest)
    else if x = byte 'x' ∨ x = byte 'X' then (16, y :: rest)
    else (8, x :: y :: rest)
  | z :: rest => if z = byte '0' then (8, rest) else (10, text)
  | [] => (10, [])

/-- Read digits onto the number `n`; underscores are passed over where they are allowed. -/
def readDigits (base : Nat) (underscores : Bool) (n : Nat) : Bytes → Except NumberError Nat
  | [] => .ok n
  | b :: rest =>
    if underscores && b = byte '_' then readDigits base underscores n rest
    else if !isHexDigit b || base ≤ digitValue b then .error .malformed
    else
      let next := n * base + digitValue b
      if wordCount ≤ next then .error .outOfRange else readDigits base underscores next rest

/-- An unsigned number in a given base, or in the base that its prefix chooses. -/
def readUnsigned (base : Option Nat) (text : Bytes) : Except NumberError Nat :=
  if text.isEmpty then .error .malformed
  else match base with
    | some base => readDigits base false 0 text
    | none =>
      let (base, digits) := splitBase text
      match readDigits base true 0 digits with
      | .error e => .error e
      | .ok n => if digits.contains (byte '_') && !underscoresOk text then .error .malformed else .ok n

/-- A signed number in a given base, or in the base that its prefix chooses. -/
def readSigned (base : Option Nat) (text : Bytes) : Except NumberError Int :=
  let (negative, body) := splitSign text
  match readUnsigned base body with
  | .error e => .error e
  | .ok n =>
    if negative then
      if signedBound < n then .error .outOfRange else .ok (-n)
    else if signedBound ≤ n then .error .outOfRange
    else .ok n

end Preproc
