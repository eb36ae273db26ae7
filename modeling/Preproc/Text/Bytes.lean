set_option autoImplicit false

/-! # Byte strings

Source text is a sequence of bytes, which need not be valid in any encoding. This file fixes the
type, the classes of bytes that the readers ask about, and the few ways of making and cutting byte
strings that the rest of the library shares. -/

namespace Preproc

/-- A text: bytes in order, in no particular encoding. -/
abbrev Bytes := List UInt8

/-- The bytes of a text that is written in the program itself, which is always ASCII. -/
def ascii (s : String) : Bytes :=
  s.toList.map fun c => c.toNat.toUInt8

/-- The byte of an ASCII character. -/
def byte (c : Char) : UInt8 :=
  c.toNat.toUInt8

/-- The byte that ends a physical line. -/
abbrev newline : UInt8 := 10

/-- The byte that continues a line when it stands at its end, and escapes inside quotes. -/
abbrev backslash : UInt8 := 92

/-- The byte around a string. -/
abbrev doubleQuote : UInt8 := 34

/-- The byte around a character constant. -/
abbrev singleQuote : UInt8 := 39

/-! ## Classes of bytes -/

/-- `0` to `9`. -/
def isDigit (b : UInt8) : Bool :=
  byte '0' ≤ b && b ≤ byte '9'

/-- `0` to `9`, `a` to `f` and `A` to `F`. -/
def isHexDigit (b : UInt8) : Bool :=
  isDigit b || (byte 'a' ≤ b && b ≤ byte 'f') || (byte 'A' ≤ b && b ≤ byte 'F')

/-- The bytes that may begin an identifier: a letter or an underscore. -/
def isIdentStart (b : UInt8) : Bool :=
  b == byte '_' || (byte 'a' ≤ b && b ≤ byte 'z') || (byte 'A' ≤ b && b ≤ byte 'Z')

/-- The bytes that may continue an identifier. -/
def isIdentPart (b : UInt8) : Bool :=
  isIdentStart b || isDigit b

/-- A whole text that is one identifier. -/
def isIdent : Bytes → Bool
  | [] => false
  | b :: rest => isIdentStart b && rest.all isIdentPart

/-! ## Numbers as text -/

/-- A natural number in decimal, without leading zeros. -/
def decimalNat (n : Nat) : Bytes :=
  (Nat.toDigits 10 n).map byte

/-- An integer in decimal, with a minus sign when it is negative. -/
def decimal (n : Int) : Bytes :=
  if n < 0 then byte '-' :: decimalNat n.natAbs else decimalNat n.natAbs

/-- The value of a digit in any base up to sixteen. -/
def digitValue (b : UInt8) : Nat :=
  if b ≤ byte '9' then (b - byte '0').toNat
  else if b ≤ byte 'F' then (b - byte 'A').toNat + 10
  else (b - byte 'a').toNat + 10

/-- The number that a run of digits denotes in `base`. -/
def digitsValue (base : Nat) (digits : Bytes) : Nat :=
  digits.foldl (fun n b => n * base + digitValue b) 0

/-- How many words of 64 bits there are. -/
abbrev wordCount : Nat := 0x10000000000000000

/-- The first number that is too large for a signed word of 64 bits. -/
abbrev signedBound : Nat := 0x8000000000000000

/-- Read a non-empty run of digits of `base` (at most sixteen) that denotes a number below
    `bound`. -/
def readNat? (base bound : Nat) (digits : Bytes) : Option Nat :=
  if digits.isEmpty || !digits.all (fun b => isHexDigit b && digitValue b < base) then none
  else
    let n := digitsValue base digits
    if n < bound then some n else none

/-- A number in hexadecimal, padded with zeros to at least `width` digits. -/
def hex (width n : Nat) : Bytes :=
  let digits := (Nat.toDigits 16 n).map byte
  List.replicate (width - digits.length) (byte '0') ++ digits

/-! ## Cutting and joining -/

/-- The texts with `sep` between each two neighbours. -/
def joinWith (sep : Bytes) : List Bytes → Bytes
  | [] => []
  | [t] => t
  | t :: ts => t ++ sep ++ joinWith sep ts

/-- The pieces of a text between the occurrences of one byte: always at least one piece. -/
def splitOn (sep : UInt8) : Bytes → List Bytes
  | [] => [[]]
  | b :: rest =>
    if b == sep then [] :: splitOn sep rest
    else match splitOn sep rest with
      | [] => [[b]]
      | piece :: more => (b :: piece) :: more

/-- The text before and after the first occurrence of a byte, if there is one. -/
def cut? (sep : UInt8) (text : Bytes) : Option (Bytes × Bytes) :=
  match text.dropWhile (· != sep) with
  | [] => none
  | _ :: after => some (text.takeWhile (· != sep), after)

/-- Number of line ends in a text. -/
def countNewlines (text : Bytes) : Nat :=
  text.count newline

/-- Strict order of texts: byte by byte, a proper beginning first. -/
def bytesLt : Bytes → Bytes → Bool
  | _, [] => false
  | [], _ :: _ => true
  | a :: as, b :: bs => a < b || (a == b && bytesLt as bs)

end Preproc
