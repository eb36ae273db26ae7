import Preproc.Text.Rune
import Preproc.Token.Basic

set_option autoImplicit false

/-! # Cutting a line into lexemes

Each kind of lexeme has a rule that says how many bytes at the head of a text belong to it. The
rules are tried in a fixed order and the first that takes any bytes wins, so a comment is tried
before the punctuator `/` and the punctuators are listed longest first. The last rule takes one
code point whatever it is, so every text can be cut. -/

namespace Preproc.Lexer

/-! ## Rules -/

/-- Bytes up to and including the first `*/`, if the text has one. -/
def commentEnd? : Bytes → Option Nat
  | [] => none
  | [_] => none
  | a :: b :: rest =>
    if a = byte '*' ∧ b = byte '/' then some 2
    else (commentEnd? (b :: rest)).map (· + 1)

/-- A comment: `//` to the end of the line, or `/*` to the first `*/`. A block comment that is not
    closed is no comment. -/
def comment : Bytes → Nat
  | a :: b :: rest =>
    if a = byte '/' ∧ b = byte '/' then (rest.takeWhile (· != newline)).length + 2
    else if a = byte '/' ∧ b = byte '*' then ((commentEnd? rest).map (· + 2)).getD 0
    else 0
  | _ => 0

/-- The bytes that separate lexemes. -/
def isSeparator (b : UInt8) : Bool :=
  b == 32 || (9 ≤ b && b ≤ 13)

/-- A run of whitespace. -/
def blanks (text : Bytes) : Nat :=
  (text.takeWhile isSeparator).length

/-- An identifier: a letter or underscore and what may continue it. -/
def identifier : Bytes → Nat
  | b :: rest => if isIdentStart b then (rest.takeWhile isIdentPart).length + 1 else 0
  | [] => 0

/-- The letters after which a sign still belongs to a number. -/
def isExponent (b : UInt8) : Bool :=
  b == byte 'e' || b == byte 'E' || b == byte 'p' || b == byte 'P'

/-- A plus or a minus. -/
def isSign (b : UInt8) : Bool :=
  b == byte '+' || b == byte '-'

/-- What follows the first digit of a number: letters, digits, underscores and points, and signs
    that directly follow an exponent letter. -/
def numberTail : Bytes → Nat
  | [] => 0
  | [b] => if isIdentPart b || b == byte '.' then 1 else 0
  | b :: c :: rest =>
    if isExponent b && isSign c then numberTail rest + 2
    else if isIdentPart b || b == byte '.' then numberTail (c :: rest) + 1
    else 0

/-- A number: an optional point, a digit, and a tail. -/
def number : Bytes → Nat
  | [] => 0
  | b :: rest =>
    if isDigit b then numberTail rest + 1
    else if b = byte '.' then
      match rest with
      | c :: rest => if isDigit c then numberTail rest + 2 else 0
      | [] => 0
    else 0

/-- Bytes up to and including the closing `quote`, if it stands on this line. A backslash takes
    the following byte with it. -/
def quoteEnd? (quote : UInt8) : Bytes → Option Nat
  | [] => none
  | [b] => if b = quote then some 1 else none
  | b :: c :: rest =>
    if b = quote then some 1
    else if b = newline then none
    else if b = backslash then
      if c = newline then none else (quoteEnd? quote rest).map (· + 2)
    else (quoteEnd? quote (c :: rest)).map (· + 1)

/-- A text between two `quote` bytes on one line. -/
def quotation (quote : UInt8) : Bytes → Nat
  | b :: rest => if b = quote then ((quoteEnd? quote rest).map (· + 1)).getD 0 else 0
  | [] => 0

/-- The punctuators of more than one byte, in the order in which they are tried. -/
def longPunctuators : List Bytes :=
  ["...", "##", "<<=", ">>=", "->", "++", "--", "<<", ">>", "<=", ">=", "==", "!=", "&&",
    "||"].map ascii

/-- The punctuators of one byte. -/
def shortPunctuators : Bytes :=
  ascii "-+*/%&|^=!<>~?:;,.()[]\x7b\x7d#"

/-- A punctuator. -/
def punctuator (text : Bytes) : Nat :=
  match longPunctuators.find? (·.isPrefixOf text) with
  | some p => p.length
  | none =>
    match text with
    | b :: _ => if shortPunctuators.contains b then 1 else 0
    | [] => 0

/-- The rules in the order in which they are tried. -/
def rules : List (TokenKind × (Bytes → Nat)) :=
  [(.space, comment), (.space, blanks), (.ident, identifier), (.number, number),
    (.string, quotation doubleQuote), (.character, quotation singleQuote),
    (.punctuator, punctuator)]

/-! ## Lexemes -/

/-- Kind and length of the lexeme at the head of a text: that of the first rule that takes any
    bytes, else one stray code point. -/
def lexeme (text : Bytes) : TokenKind × Nat :=
  match rules.find? (fun rule => 0 < rule.2 text) with
  | some rule => (rule.1, rule.2 text)
  | none => (.stray, runeWidth text)

/-- A text cut into lexemes. -/
def lexemes : Bytes → List (TokenKind × Bytes)
  | [] => []
  | b :: rest =>
    let (kind, width) := lexeme (b :: rest)
    (kind, b :: rest.take (width - 1)) :: lexemes (rest.drop (width - 1))
termination_by text => text.length
decreasing_by simp only [List.length_cons, List.length_drop]; omega

/-- Neighbouring pieces of whitespace become one. -/
def mergeSpaces : List (TokenKind × Bytes) → List (TokenKind × Bytes)
  | [] => []
  | (kind, text) :: rest =>
    match mergeSpaces rest with
    | [] => [(kind, text)]
    | (kind', text') :: more =>
      if kind = .space ∧ kind' = .space then (.space, text ++ text') :: more
      else (kind, text) :: (kind', text') :: more

/-! ## Positions -/

/-- The place reached from `pos` by moving over `text`: columns count code points and start at one
    after each line end. -/
def advance (pos : Position) (text : Bytes) : Position :=
  { pos with
    offset := pos.offset + text.length
    line := pos.line + countNewlines text
    column :=
      if text.contains newline then
        (runeCount (text.reverse.takeWhile (· != newline)).reverse : Int) + 1
      else pos.column + runeCount text }

/-- The tokens of lexemes that start at `pos`. -/
def place (pos : Position) : List (TokenKind × Bytes) → List Token
  | [] => []
  | (kind, text) :: rest => ⟨kind, text, pos⟩ :: place (advance pos text) rest

/-- The place where a text that starts at `start` ends; its column counts bytes, and stays unknown
    when the column of `start` is. -/
def endPosition (start : Position) (text : Bytes) : Position :=
  { start with
    offset := start.offset + text.length
    line := start.line + countNewlines text
    column :=
      if text.contains newline then (text.reverse.takeWhile (· != newline)).length + 1
      else if 0 < start.column then start.column + text.length
      else start.column }

/-- The tokens of a text that starts at `start`. When the column of `start` is not known, the
    columns count from one. -/
def tokens (start : Position) (text : Bytes) : List Token :=
  place { start with column := if 0 < start.column then start.column else 1 }
    (mergeSpaces (lexemes text))

end Preproc.Lexer
