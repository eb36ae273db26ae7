import Preproc.Yaml.Input
import Preproc.Yaml.Scalar

set_option autoImplicit false

/-! # Writing YAML strings

A string is written without quotes where that reads back as the same string, else between single
quotes, and between double quotes where it holds what single quotes cannot show or would be taken
for something other than a string. A string of several lines stands in lines of its own. Bytes that
are no text are written in base 64. -/

namespace Preproc.Yaml

/-- The code points that are written as they are. -/
def isShown (code : Nat) : Bool :=
  code == 10 || (0x20 ≤ code && code ≤ 0x7E) || (0xA0 ≤ code && code ≤ 0xFFFD && code != 0xFEFF)

/-- The code points that end a line. -/
def isBreak (code : Nat) : Bool :=
  code == 10 || code == 13 || code == 0x85 || code == 0x2028 || code == 0x2029

/-- The bytes that give the rest of a line another meaning when a value starts with them. -/
def opensIndicator (b : UInt8) : Bool :=
  (ascii "#,[]&*!|>%@\x7b\x7d").contains b || b == singleQuote || b == doubleQuote || b == 96

/-- A blank, or the end of a text. -/
def blankNext (text : Bytes) : Bool :=
  text.head?.all fun b => b == 32 || b == 9

/-- Whether what follows the first byte of a text would end a scalar without quotes: a colon before
    a blank, or a hash after one. -/
def hasInnerIndicator : (afterBlank : Bool) → Bytes → Bool
  | _, [] => false
  | afterBlank, b :: rest =>
    (b = byte ':' && blankNext rest) || (b = byte '#' && afterBlank)
      || hasInnerIndicator (b == 32 || b == 9 || b == newline || b == 13) rest

/-- Whether a text would not be read as one scalar without quotes. -/
def hasIndicator (text : Bytes) : Bool :=
  match text with
  | [] => false
  | b :: rest =>
    (ascii "---").isPrefixOf text || (ascii "...").isPrefixOf text || opensIndicator b
      || ((b = byte '-' || b = byte '?' || b = byte ':') && blankNext rest)
      || hasInnerIndicator (b == 32 || b == 9) rest

/-- A unit that ends a line. -/
def isBreakUnit : Rune → Bool
  | .scalar code _ => isBreak code
  | .stray _ => false

/-- A unit that is a blank. -/
def isSpaceUnit : Rune → Bool
  | .scalar code _ => code == 32
  | .stray _ => false

/-- A unit that can only stand between double quotes. -/
def isSpecialUnit : Rune → Bool
  | .scalar code _ => !isShown code && code != 9
  | .stray _ => true

/-- Whether two neighbours have two properties in turn. -/
def hasPair (p q : Rune → Bool) : List Rune → Bool
  | a :: b :: rest => (p a && q b) || hasPair p q (b :: rest)
  | _ => false

/-- Whether a text starts or ends with a blank or a line end. -/
def hasOuterGap (units : List Rune) : Bool :=
  units.head?.any (fun u => isSpaceUnit u || isBreakUnit u)
    || units.getLast?.any fun u => isSpaceUnit u || isBreakUnit u

/-- Whether a text may stand between single quotes. -/
def mayBeSingleQuoted (text : Bytes) : Bool :=
  let units := runes text
  !text.contains 9 && !units.any isSpecialUnit && !hasPair isBreakUnit isSpaceUnit units
    && !hasPair isSpaceUnit isBreakUnit units

/-- Whether a text may stand without quotes. -/
def mayBePlain (text : Bytes) : Bool :=
  let units := runes text
  mayBeSingleQuoted text && !hasIndicator text && !hasOuterGap units && !units.any isBreakUnit

/-- Whether a text may stand in lines of its own. -/
def mayBeBlock (text : Bytes) : Bool :=
  let units := runes text
  !units.any isSpecialUnit && !hasPair isSpaceUnit isBreakUnit units
    && !units.getLast?.any isSpaceUnit

/-- Whether a text is read as a string when it stands without quotes. -/
def readsAsText (text : Bytes) : Bool :=
  meaningOf text = .text && !isSexagesimal text && !isOldBool text

/-- The letter that names a code point after a backslash. -/
def namedEscape? (code : Nat) : Option UInt8 :=
  let table : List (Nat × Char) :=
    [(0, '0'), (7, 'a'), (8, 'b'), (9, 't'), (10, 'n'), (11, 'v'), (12, 'f'), (13, 'r'), (27, 'e'),
      (0x85, 'N'), (0xA0, '_'), (0x2028, 'L'), (0x2029, 'P')]
  if code = 34 then some doubleQuote
  else if code = 92 then some backslash
  else (table.find? (·.1 = code)).map fun entry => byte entry.2

/-- A number in hexadecimal with capital letters. -/
def capitalHex (width n : Nat) : Bytes :=
  (hex width n).map fun b => if byte 'a' ≤ b then b - 32 else b

/-- How one unit of a text is escaped between double quotes. -/
def escapedUnit : Rune → Bytes
  | .stray b => ascii "\\x" ++ capitalHex 2 b.toNat
  | .scalar code _ =>
    match namedEscape? code with
    | some letter => [backslash, letter]
    | none =>
      if code ≤ 0xFF then ascii "\\x" ++ capitalHex 2 code
      else if code ≤ 0xFFFF then ascii "\\u" ++ capitalHex 4 code
      else ascii "\\U" ++ capitalHex 8 code

/-- How one unit of a text is written between double quotes. -/
def doubleQuotedUnit : Rune → Bytes
  | .stray b => escapedUnit (.stray b)
  | .scalar code bytes =>
    if isShown code && !isBreak code && code != 34 && code != 92 then bytes
    else escapedUnit (.scalar code bytes)

/-- A text between double quotes. Everything is escaped behind the mark of an encoding at its
    head. -/
def doubleQuoted (text : Bytes) : Bytes :=
  let isMarked := (encodeRune byteOrderMark).isPrefixOf text
  doubleQuote :: (runes text).flatMap (if isMarked then escapedUnit else doubleQuotedUnit)
    ++ [doubleQuote]

/-- The indentation of the lines of a value. -/
def valueIndent : Bytes :=
  List.replicate 4 32

/-- Units with the indentation put before each line that is not empty. -/
def indentLines : (atStart : Bool) → List Rune → Bytes
  | _, [] => []
  | atStart, u :: rest =>
    if isBreakUnit u then u.bytes ++ indentLines true rest
    else (if atStart then valueIndent else []) ++ u.bytes ++ indentLines false rest

/-- A text between single quotes, where a quote is written twice. -/
def singleQuoted (text : Bytes) : Bytes :=
  let doubled := text.flatMap fun b => if b = singleQuote then [b, b] else [b]
  singleQuote :: indentLines false (runes doubled) ++ [singleQuote]

/-- What is said behind the sign of a block: that the first line starts with a blank, and what becomes
    of the line ends after the last line. -/
def blockHints (units : List Rune) : Bytes :=
  (if units.head?.any fun u => isSpaceUnit u || isBreakUnit u then ascii "2" else [])
    ++ match units.reverse with
      | [] => ascii "-"
      | [last] => if isBreakUnit last then ascii "+" else ascii "-"
      | last :: before :: _ =>
        if !isBreakUnit last then ascii "-"
        else if isBreakUnit before then ascii "+"
        else []

/-- A text in lines of its own; the line end after the last line is left to what follows. -/
def blockText (text : Bytes) : Bytes :=
  let units := runes text
  let body := indentLines true units
  let trimmed := if body.getLast? = some newline then body.dropLast else body
  ascii "|" ++ blockHints units ++ [newline] ++ trimmed

/-- The length of the lines of a long text in base 64. -/
def base64Width : Nat := 70

/-- Lines of a given length, each with a line end. -/
def cutLines (width : Nat) : (steps : Nat) → Bytes → Bytes
  | 0, text => text
  | steps + 1, text =>
    if text.isEmpty then []
    else text.take width ++ newline :: cutLines width steps (text.drop width)

/-- Bytes that are no text. -/
def binaryText (bytes : Bytes) : Bytes :=
  let digits := base64 bytes
  ascii "!!binary " ++ if digits.length < base64Width then digits
    else blockText (cutLines base64Width digits.length digits)

/-- A string as a value. -/
def writeString (text : Bytes) : Bytes :=
  if !isValidUtf8 text then binaryText text
  else if text.contains newline then
    if mayBeBlock text then blockText text else doubleQuoted text
  else if !readsAsText text then doubleQuoted text
  else if mayBePlain text then text
  else if mayBeSingleQuoted text then singleQuoted text
  else doubleQuoted text

end Preproc.Yaml
