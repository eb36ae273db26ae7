import Preproc.Condition.Expr

set_option autoImplicit false

/-! # The lexemes of a condition

A condition is cut into constants, names and symbols; blanks between them are dropped. Unlike a
whole line, a condition may hold text that is none of these, and then it has no lexemes at all. -/

namespace Preproc.Condition

/-- The blanks between the lexemes of a condition. -/
def isGap (b : UInt8) : Bool :=
  b == 32 || b == 9 || b == 13 || b == newline

/-- The letters that may end an integer constant. -/
def isSuffix (b : UInt8) : Bool :=
  b == byte 'u' || b == byte 'U' || b == byte 'l' || b == byte 'L'

/-- Length of a run of suffix letters. -/
def suffixWidth (text : Bytes) : Nat :=
  (text.takeWhile isSuffix).length

/-- Length of the hexadecimal constant at the head of a text, or 0. -/
def hexWidth : Bytes → Nat
  | a :: x :: rest =>
    if a = byte '0' ∧ (x = byte 'x' ∨ x = byte 'X') then
      let digits := (rest.takeWhile isHexDigit).length
      if 0 < digits then 2 + digits + suffixWidth (rest.drop digits) else 0
    else 0
  | _ => 0

/-- Length of the decimal or octal constant at the head of a text, or 0. -/
def digitsWidth (text : Bytes) : Nat :=
  let digits := (text.takeWhile isDigit).length
  if 0 < digits then digits + suffixWidth (text.drop digits) else 0

/-- Length of the integer constant at the head of a text, or 0. -/
def numberWidth (text : Bytes) : Nat :=
  if 0 < hexWidth text then hexWidth text else digitsWidth text

/-- Bytes up to and including the quote that closes a character constant. A backslash takes the
    following byte with it, unless that ends the line. -/
def constantEnd? : Bytes → Option Nat
  | [] => none
  | [b] => if b = singleQuote then some 1 else none
  | b :: c :: rest =>
    if b = singleQuote then some 1
    else if b = backslash then
      if c = newline then none else (constantEnd? rest).map (· + 2)
    else (constantEnd? (c :: rest)).map (· + 1)

/-- Length of the character constant at the head of a text, or 0. It holds at least one
    character. -/
def characterWidth : Bytes → Nat
  | q :: b :: rest =>
    if q = singleQuote ∧ b ≠ singleQuote then ((constantEnd? (b :: rest)).map (· + 1)).getD 0
    else 0
  | _ => 0

/-- Length of the name at the head of a text, or 0. -/
def nameWidth : Bytes → Nat
  | b :: rest => if isIdentStart b then (rest.takeWhile isIdentPart).length + 1 else 0
  | [] => 0

/-- The symbols with their spelling, the longer ones first. -/
def symbols : List (Bytes × Symbol) :=
  [("||", Symbol.orOr), ("&&", .andAnd), ("==", .equal), ("!=", .notEqual), ("<=", .lessEqual),
    (">=", .greaterEqual), ("<<", .shiftLeft), (">>", .shiftRight), ("-", .minus), ("+", .plus),
    ("*", .star), ("/", .slash), ("%", .percent), ("&", .amp), ("|", .bar), ("^", .caret),
    ("!", .bang), ("~", .tilde), ("<", .less), (">", .greater), ("?", .question), (":", .colon),
    ("(", .leftParen), (")", .rightParen)].map fun (text, s) => (ascii text, s)

/-- The symbol at the head of a text. -/
def symbol? (text : Bytes) : Option (Bytes × Symbol) :=
  symbols.find? fun entry => entry.1.isPrefixOf text

/-- The lexeme at the head of a text with its length, or `none` when nothing fits there. -/
def lexeme? (text : Bytes) : Option (Lexeme × Nat) :=
  if 0 < numberWidth text then some (.number (text.take (numberWidth text)), numberWidth text)
  else if 0 < characterWidth text then
    some (.character (text.take (characterWidth text)), characterWidth text)
  else if 0 < nameWidth text then some (.name (text.take (nameWidth text)), nameWidth text)
  else (symbol? text).map fun (spelling, s) => (.symbol s, spelling.length)

/-- All lexemes of a condition, or `none` when some part of it is no lexeme. -/
def lexemes? : Bytes → Option (List Lexeme)
  | [] => some []
  | b :: rest =>
    if isGap b then lexemes? rest
    else match lexeme? (b :: rest) with
      | some (lexeme, width) => (lexemes? (rest.drop (width - 1))).map (lexeme :: ·)
      | none => none
termination_by text => text.length
decreasing_by
  · simp only [List.length_cons]; omega
  · simp only [List.length_cons, List.length_drop]; omega

end Preproc.Condition
