import Preproc.Text.Base64
import Preproc.Text.Number

set_option autoImplicit false

/-! # What scalars stand for

A YAML scalar that is written without quotes is told by its form: numbers, truth values, the null
value and points in time; everything else is text. A tag says outright what a scalar is. -/

namespace Preproc.Yaml

/-- What a plain scalar stands for. -/
inductive Meaning where
  | null
  | bool (value : Bool)
  | int (value : Int)
  /-- A floating-point number, cut off toward zero. -/
  | float (wholePart : Int)
  /-- Infinity, or no number at all. -/
  | endless (negative : Bool)
  | timestamp
  | text
  deriving DecidableEq

/-- Whether a text is one of a few words. -/
def isOneOf (words : List String) (text : Bytes) : Bool :=
  words.any fun w => ascii w = text

/-! ## Numbers -/

/-- A whole number: decimal, or with one of the prefixes `0x`, `0o`, `0b` and `0`. It may fill a
    word of 64 bits with or without a sign. -/
def readWord? (text : Bytes) : Option Int :=
  match readSigned none text, readUnsigned none text with
  | .ok n, _ => some n
  | _, .ok n => some n
  | _, _ => none

/-- A whole number behind a prefix in lower case, where a sign may stand between the two. -/
def readAfterPrefix? (base : Nat) (letter : Char) (text : Bytes) : Option Int :=
  match text with
  | z :: x :: rest =>
    if z = byte '0' ∧ x = byte letter then
      match readSigned (some base) rest, readUnsigned (some base) rest with
      | .ok n, _ => some n
      | _, .ok n => some n
      | _, _ => none
    else match rest with
      | y :: rest =>
        if z = byte '-' ∧ x = byte '0' ∧ y = byte letter then
          (readSigned (some base) (byte '-' :: rest)).toOption
        else none
      | [] => none
  | _ => none

/-- The first number that is too large for a floating-point number of 64 bits. -/
def floatBound : Nat :=
  Nat.pow 2 1024 - Nat.pow 2 970

/-- The whole number nearest to a quotient; halfway between two of them, the even one. -/
def roundedQuotient (num den : Nat) : Nat :=
  let q := num / den
  let r := num % den
  if den < 2 * r ∨ (2 * r = den ∧ q % 2 = 1) then q + 1 else q

/-- A quotient with 53 significant bits, cut off toward zero. -/
def nearestFloat (num den : Nat) : Nat :=
  if 2 * num < den then 0
  else
    let atExponent (e : Int) : Nat × Nat :=
      if 0 ≤ e then (num, den * Nat.pow 2 e.toNat) else (num * Nat.pow 2 (-e).toNat, den)
    let guess : Int := (num.log2 : Int) - den.log2 - 52
    let e := if (atExponent guess).1 < (atExponent guess).2 * Nat.pow 2 52 then guess - 1 else guess
    let q := roundedQuotient (atExponent e).1 (atExponent e).2
    if 0 ≤ e then q * Nat.pow 2 e.toNat else q / Nat.pow 2 (-e).toNat

/-- The floating-point number nearest to `digits * 10 ^ shift`, cut off toward zero; `none` when it
    is too large for one. -/
def scaled? (digits : Nat) (shift : Int) : Option Nat :=
  let magnitude := shift + (decimalNat digits).length
  if digits = 0 ∨ magnitude < 0 then some 0
  else if 309 < magnitude then none
  else
    let scale := Nat.pow 10 shift.natAbs
    let (num, den) := if 0 ≤ shift then (digits * scale, 1) else (digits, scale)
    if num < floatBound * den then some (nearestFloat num den) else none

/-- The exponent behind the digits of a number, which may be missing. -/
def readExponent? : Bytes → Option Int
  | [] => some 0
  | e :: more =>
    if e = byte 'e' ∨ e = byte 'E' then
      let (minus, digits) := splitSign more
      if digits.isEmpty || !digits.all isDigit then none
      else
        let n : Int := digitsValue 10 digits
        some (if minus then -n else n)
    else none

/-- A number with a point or an exponent, cut off toward zero. -/
def readFloat? (text : Bytes) : Option Int :=
  let (negative, rest) := splitSign text
  let whole := rest.takeWhile isDigit
  let rest := rest.drop whole.length
  let (fraction, rest) := match rest with
    | b :: more => if b = byte '.' then (more.takeWhile isDigit, more.dropWhile isDigit)
      else ([], rest)
    | [] => ([], [])
  if whole.isEmpty && fraction.isEmpty then none
  else match readExponent? rest with
    | none => none
    | some e =>
      (scaled? (digitsValue 10 (whole ++ fraction)) (e - fraction.length)).map fun n =>
        if negative then -n else n

/-! ## Points in time -/

/-- Days of a month. -/
def monthDays (year month : Nat) : Nat :=
  match month with
  | 2 => if year % 4 = 0 ∧ (year % 100 ≠ 0 ∨ year % 400 = 0) then 29 else 28
  | 4 | 6 | 9 | 11 => 30
  | _ => 31

/-- A number of one or two digits within bounds at the head of a text. -/
def readField? (lo hi : Nat) (text : Bytes) : Option (Nat × Bytes) :=
  let digits := (text.take 2).takeWhile isDigit
  match readNat? 10 (hi + 1) digits with
  | some n => if lo ≤ n then some (n, text.drop digits.length) else none
  | none => none

/-- One byte at the head of a text. -/
def expectByte (b : UInt8) : Bytes → Option Bytes
  | c :: rest => if c = b then some rest else none
  | [] => none

/-- A time of day with an optional fraction of a second. -/
def readClock? (text : Bytes) : Option Bytes := do
  let (_, text) ← readField? 0 23 text
  let text ← expectByte (byte ':') text
  let (_, text) ← readField? 0 59 text
  let text ← expectByte (byte ':') text
  let (_, text) ← readField? 0 59 text
  match text with
  | p :: more =>
    if (p = byte '.' || p = byte ',') && more.head?.any isDigit then some (more.dropWhile isDigit)
    else some text
  | [] => some []

/-- A time zone: `Z`, or hours and minutes with a sign. -/
def isZone (text : Bytes) : Bool :=
  match text with
  | [z] => z = byte 'Z'
  | [s, a, b, c, d, e] =>
    (s = byte '+' || s = byte '-') && c = byte ':' && [a, b, d, e].all isDigit
      && digitsValue 10 [a, b] ≤ 24 && digitsValue 10 [d, e] ≤ 60
  | _ => false

/-- A date, alone or with a time of day. -/
def isTimestamp (text : Bytes) : Bool :=
  let year := text.takeWhile isDigit
  if year.length ≠ 4 then false
  else
    let parsed : Option Bytes := do
      let rest ← expectByte (byte '-') (text.drop 4)
      let (month, rest) ← readField? 1 12 rest
      let rest ← expectByte (byte '-') rest
      let (_, rest) ← readField? 1 (monthDays (digitsValue 10 year) month) rest
      some rest
    match parsed with
    | none => false
    | some [] => true
    | some (sep :: rest) =>
      if sep = byte 'T' ∨ sep = byte 't' then (readClock? rest).any isZone
      else if sep = byte ' ' then (readClock? (rest.dropWhile (· == sep))).any (·.isEmpty)
      else false

/-! ## All scalars -/

/-- What a plain scalar stands for. -/
def meaningOf (text : Bytes) : Meaning :=
  match text with
  | [] => .null
  | first :: _ =>
    if isOneOf ["~", "null", "Null", "NULL"] text then .null
    else if isOneOf ["true", "True", "TRUE"] text then .bool true
    else if isOneOf ["false", "False", "FALSE"] text then .bool false
    else if isOneOf [".nan", ".NaN", ".NAN", ".inf", ".Inf", ".INF", "+.inf", "+.Inf", "+.INF"] text
    then .endless false
    else if isOneOf ["-.inf", "-.Inf", "-.INF"] text then .endless true
    else if first = byte '.' then
      if !underscoresOk text then .text
      else match readFloat? (text.filter (· != byte '_')) with
        | some n => .float n
        | none => .text
    else if isDigit first || first = byte '+' || first = byte '-' then
      if isTimestamp text then .timestamp
      else
        let plain := text.filter (· != byte '_')
        match readWord? plain, readFloat? plain with
        | some n, _ => .int n
        | none, some n => .float n
        | none, none =>
          match readAfterPrefix? 2 'b' plain, readAfterPrefix? 8 'o' plain with
          | some n, _ => .int n
          | none, some n => .int n
          | none, none => .text
    else .text

/-! ## Tags -/

/-- A tag in its short form, in which two exclamation marks stand for the tags that everyone
    knows. -/
def shortTag (tag : Bytes) : Bytes :=
  let known := ascii "tag:yaml.org,2002:"
  if known.isPrefixOf tag then ascii "!!" ++ tag.drop known.length else tag

/-- A scalar with what it stands for. -/
structure Scalar where
  meaning : Meaning
  text : Bytes

/-- What a scalar with a tag stands for when its tag names a kind; `none` when it is of another
    one. A whole number passes for a floating-point number if it fits a word with a sign. -/
def meaningAs? (kind text : Bytes) : Option Meaning :=
  match meaningOf text with
  | .null => if kind = ascii "!!null" then some .null else none
  | .bool b => if kind = ascii "!!bool" then some (.bool b) else none
  | .timestamp => if kind = ascii "!!timestamp" then some .timestamp else none
  | .float n => if kind = ascii "!!float" then some (.float n) else none
  | .endless negative => if kind = ascii "!!float" then some (.endless negative) else none
  | .int n =>
    if kind = ascii "!!int" then some (.int n)
    else if kind = ascii "!!float" ∧ n < signedBound then
      some (.float (if n < 0 then -nearestFloat n.natAbs 1 else nearestFloat n.natAbs 1))
    else none
  | .text => none

/-- What a scalar stands for. Only a plain one is told by its form; a tag of a known kind must fit,
    and any other tag makes a string. -/
def scalar? (tag : Option Bytes) (isPlain : Bool) (text : Bytes) : Option Scalar :=
  match tag.map shortTag with
  | none => some ⟨if isPlain then meaningOf text else .text, text⟩
  | some kind =>
    if kind = ascii "!!binary" then (ofBase64? text).map fun bytes => ⟨.text, bytes⟩
    else if isOneOf ["!!null", "!!bool", "!!int", "!!float", "!!timestamp"] kind then
      (meaningAs? kind text).map fun meaning => ⟨meaning, text⟩
    else some ⟨.text, text⟩

/-! ## Older readers -/

/-- Words that older readers take for true. -/
def isOldTrue (text : Bytes) : Bool :=
  isOneOf ["y", "Y", "yes", "Yes", "YES", "on", "On", "ON"] text

/-- Words that older readers take for false. -/
def isOldFalse (text : Bytes) : Bool :=
  isOneOf ["n", "N", "no", "No", "NO", "off", "Off", "OFF"] text

/-- Words that older readers take for a truth value. -/
def isOldBool (text : Bytes) : Bool :=
  isOldTrue text || isOldFalse text

/-- A number from 0 to 59, of one or two digits. -/
def isSixtieth (digits : Bytes) : Bool :=
  digits.all isDigit
    && (digits.length = 1 || (digits.length = 2 && digits.head?.any (· ≤ byte '5')))

/-- A digit or the underscore that may stand between digits. -/
def isSpacedDigit (b : UInt8) : Bool :=
  isDigit b || b == byte '_'

/-- The parts after the first of a number in base sixty. The last may have a fraction. -/
def isSexagesimalTail : List Bytes → Bool
  | [] => true
  | [last] =>
    match cut? (byte '.') last with
    | some (digits, fraction) => isSixtieth digits && fraction.all isSpacedDigit
    | none => isSixtieth last
  | part :: rest => isSixtieth part && isSexagesimalTail rest

/-- A number in base sixty, which older readers know. -/
def isSexagesimal (text : Bytes) : Bool :=
  let (_, digits) := splitSign text
  match splitOn (byte ':') digits with
  | first :: part :: rest =>
    first.head?.any isDigit && first.all isSpacedDigit && isSexagesimalTail (part :: rest)
  | _ => false

end Preproc.Yaml
