import Preproc.Position

set_option autoImplicit false

/-! # Tokens

The lexemes of one logical line. Whitespace and comments are tokens too, because `F(` and `F (`
mean different things after `#define`. -/

namespace Preproc

/-- The kinds of tokens. -/
inductive TokenKind where
  /-- The end of the logical line. -/
  | endOfLine
  | ident
  | number
  | string
  | character
  | punctuator
  /-- Whitespace and comments. -/
  | space
  /-- Anything that no other kind accepts. -/
  | stray
  deriving DecidableEq

namespace TokenKind

/-- The name of a kind in messages. -/
def name : TokenKind → Bytes
  | endOfLine => ascii "end of line"
  | ident => ascii "identifier"
  | number => ascii "number"
  | string => ascii "string"
  | character => ascii "character constant"
  | punctuator => ascii "punctuator"
  | space => ascii "whitespace"
  | stray => ascii "stray character"

/-- All kinds, in the order of their numeric codes. -/
def all : List TokenKind :=
  [endOfLine, ident, number, string, character, punctuator, space, stray]

/-- The name shown for a numeric code, which may stand for no kind. -/
def nameOfCode (code : Nat) : Bytes :=
  match all[code]? with
  | some kind => kind.name
  | none => ascii "kind(" ++ decimal code ++ ascii ")"

end TokenKind

/-- The punctuators that have a meaning in directives. -/
inductive Operator where
  | none
  | hash
  | paste
  | ellipsis
  | leftParen
  | rightParen
  | comma
  | other
  deriving DecidableEq

namespace Operator

/-- The operator that a punctuator's text stands for. -/
def ofText (text : Bytes) : Operator :=
  if text = ascii "#" then hash
  else if text = ascii "##" then paste
  else if text = ascii "..." then ellipsis
  else if text = ascii "(" then leftParen
  else if text = ascii ")" then rightParen
  else if text = ascii "," then comma
  else other

/-- The numeric code of an operator. -/
def code : Operator → Nat
  | none => 0
  | hash => 1
  | paste => 2
  | ellipsis => 3
  | leftParen => 4
  | rightParen => 5
  | comma => 6
  | other => 7

end Operator

/-- One lexeme with the place where it starts. -/
structure Token where
  kind : TokenKind
  text : Bytes
  pos : Position
  deriving DecidableEq

namespace Token

/-- The operator of a token; only punctuators have one. -/
def op (t : Token) : Operator :=
  if t.kind = .punctuator then Operator.ofText t.text else .none

/-- Whether a token is the punctuator `op`. -/
def is (t : Token) (op : Operator) : Bool :=
  t.kind = .punctuator && Operator.ofText t.text = op

/-- Whether a token is whitespace. -/
def isSpace (t : Token) : Bool :=
  t.kind = .space

/-- Whether a token is an identifier. -/
def isIdent (t : Token) : Bool :=
  t.kind = .ident

/-- A token as it is named in messages. -/
def describe (t : Token) : Bytes :=
  if t.kind = .endOfLine then ascii "end of line" else t.text

/-- The text of a list of tokens, each run of whitespace being one blank. -/
def textOf (toks : List Token) : Bytes :=
  toks.flatMap fun t => if t.isSpace then ascii " " else t.text

end Token

end Preproc
