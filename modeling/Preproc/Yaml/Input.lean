import Preproc.Text.Rune

set_option autoImplicit false

/-! # The text of a YAML document

A document comes as bytes in one of three encodings. It is read as characters that know where they
stand, because columns and lines decide what belongs together. -/

namespace Preproc.Yaml

/-! ## Characters from bytes -/

/-- The mark that may stand before a text to tell its encoding. -/
def byteOrderMark : Nat := 0xFEFF

/-- The code points that may stand in a document. -/
def isAllowed (code : Nat) : Bool :=
  code == 9 || code == 10 || code == 13 || (0x20 ≤ code && code ≤ 0x7E) || code == 0x85
    || (0xA0 ≤ code && code ≤ 0xD7FF) || (0xE000 ≤ code && code ≤ 0xFFFD) || 0x10000 ≤ code

/-- The code points of a text in UTF-8. -/
def utf8Codes? (text : Bytes) : Option (List Nat) :=
  (runes text).mapM fun
    | .scalar code _ => some code
    | .stray _ => none

/-- The units of a text in UTF-16. -/
def utf16Units? (littleEndian : Bool) : Bytes → Option (List Nat)
  | [] => some []
  | [_] => none
  | a :: b :: rest =>
    let unit := if littleEndian then b.toNat * 256 + a.toNat else a.toNat * 256 + b.toNat
    (utf16Units? littleEndian rest).map (unit :: ·)

/-- The code points of units of UTF-16, in which two surrogates stand for one of them. -/
def codesOfUnits? : List Nat → Option (List Nat)
  | [] => some []
  | [unit] => if 0xD800 ≤ unit && unit ≤ 0xDFFF then none else some [unit]
  | high :: low :: rest =>
    if 0xDC00 ≤ high && high ≤ 0xDFFF then none
    else if 0xD800 ≤ high && high ≤ 0xDBFF then
      if 0xDC00 ≤ low && low ≤ 0xDFFF then
        (codesOfUnits? rest).map ((0x10000 + (high - 0xD800) * 0x400 + (low - 0xDC00)) :: ·)
      else none
    else (codesOfUnits? (low :: rest)).map (high :: ·)

/-- The code points of a document, without the mark that tells its encoding. -/
def codes? (text : Bytes) : Option (List Nat) :=
  match text with
  | 0xFF :: 0xFE :: rest => (utf16Units? true rest).bind codesOfUnits?
  | 0xFE :: 0xFF :: rest => (utf16Units? false rest).bind codesOfUnits?
  | 0xEF :: 0xBB :: 0xBF :: rest => utf8Codes? rest
  | _ => utf8Codes? text

/-- One line end in the place of a carriage return, with or without a line feed after it. -/
def unifyLineEnds : List Char → List Char
  | [] => []
  | '\r' :: '\n' :: rest => '\n' :: unifyLineEnds rest
  | '\r' :: rest => '\n' :: unifyLineEnds rest
  | c :: rest => c :: unifyLineEnds rest

/-- The characters of a document; `none` when its bytes are no text, or hold what may not stand in
    a document. -/
def characters? (text : Bytes) : Option (List Char) :=
  match codes? text with
  | none => none
  | some codes => if codes.all isAllowed then some (unifyLineEnds (codes.map Char.ofNat)) else none

/-- The bytes of characters. -/
def utf8 (text : List Char) : Bytes :=
  text.flatMap fun c => encodeRune c.toNat

/-! ## Characters in their places -/

/-- A character and where it stands. -/
structure Mark where
  char : Char
  /-- How many characters stand before it. -/
  index : Nat
  line : Nat
  column : Nat
  deriving DecidableEq

/-- A blank inside a line. -/
def isBlank (c : Char) : Bool :=
  c == ' ' || c == '\t'

/-- Whether a line end is more than the end of a line: these stay what they are in a scalar. -/
def isSeparator (c : Char) : Bool :=
  c.toNat == 0x2028 || c.toNat == 0x2029

/-- The characters that end a line. -/
def isLineEnd (c : Char) : Bool :=
  c == '\n' || c.toNat == 0x85 || isSeparator c

/-- What a line end is in a scalar. -/
def lineEndText (c : Char) : Char :=
  if isSeparator c then c else '\n'

/-- Give each character its place. -/
def place (index line column : Nat) : List Char → List Mark
  | [] => []
  | c :: rest =>
    ⟨c, index, line, column⟩
      :: if isLineEnd c then place (index + 1) (line + 1) 0 rest
        else place (index + 1) line (column + 1) rest

/-- The characters of a document in their places. -/
def marks? (text : Bytes) : Option (List Mark) :=
  (characters? text).map (place 0 0 0)

/-- The character at the head of a text. -/
def peek (text : List Mark) : Option Char :=
  text.head?.map Mark.char

/-- Whether a text starts with a given character. -/
def startsWith (c : Char) (text : List Mark) : Bool :=
  peek text = some c

/-- The end of a line, or of the text. -/
def atLineEnd (text : List Mark) : Bool :=
  (peek text).all isLineEnd

/-- A blank, the end of a line, or the end of the text. -/
def atGap (text : List Mark) : Bool :=
  (peek text).all fun c => isBlank c || isLineEnd c

/-- The text after the blanks at its head. -/
def dropBlanks (text : List Mark) : List Mark :=
  text.dropWhile fun m => isBlank m.char

/-- The text from the end of its first line. -/
def dropLine (text : List Mark) : List Mark :=
  text.dropWhile fun m => !isLineEnd m.char

/-- Whether a text starts with the word that separates documents, at the head of a line. -/
def atMarker (word : List Char) (text : List Mark) : Bool :=
  text.head?.any (·.column = 0) && (text.take 3).map Mark.char = word && atGap (text.drop 3)

/-- The word before a document. -/
def startWord : List Char := ['-', '-', '-']

/-- The word after a document. -/
def endWord : List Char := ['.', '.', '.']

/-- Whether a text starts with one of the words that separate documents. -/
def atAnyMarker (text : List Mark) : Bool :=
  atMarker startWord text || atMarker endWord text

end Preproc.Yaml
