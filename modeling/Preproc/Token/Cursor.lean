import Preproc.Token.Lexer

set_option autoImplicit false

/-! # Reading the tokens of a line

A cursor stands between two tokens of a line and can step forward and back. The end of the line is
a token of its own that can be read any number of times; taking it back once undoes all those
reads. -/

namespace Preproc

/-- A place between two tokens of a line. -/
structure Cursor where
  /-- The tokens already read, the last one first. -/
  before : List Token
  /-- The tokens still to be read. -/
  after : List Token
  /-- The token that stands for the end of the line. -/
  eol : Token
  /-- Whether the end of the line itself was read. -/
  pastEnd : Bool := false

namespace Cursor

/-- The cursor at the start of a text that begins at `start`. -/
def ofText (start : Position) (text : Bytes) : Cursor where
  before := []
  after := Lexer.tokens start text
  eol := ⟨.endOfLine, [], Lexer.endPosition start text⟩

/-- Read one token, whitespace included. -/
def next (c : Cursor) : Token × Cursor :=
  match c.after with
  | [] => (c.eol, { c with pastEnd := true })
  | t :: rest => (t, { c with before := t :: c.before, after := rest })

/-- Move over whitespace. -/
def skipSpace (c : Cursor) : Cursor :=
  { c with
    before := (c.after.takeWhile Token.isSpace).reverse ++ c.before
    after := c.after.dropWhile Token.isSpace }

/-- Read the next token that is not whitespace. -/
def nextNonSpace (c : Cursor) : Token × Cursor :=
  c.skipSpace.next

/-- Take back the last token that was read. -/
def pushBack (c : Cursor) : Cursor :=
  if c.pastEnd then { c with pastEnd := false }
  else match c.before with
    | [] => c
    | t :: earlier => { c with before := earlier, after := t :: c.after }

/-- The next token, without reading it. -/
def peek (c : Cursor) : Token :=
  c.after.headD c.eol

/-- Whether only whitespace is left. -/
def atEnd (c : Cursor) : Bool :=
  c.after.all Token.isSpace

/-- What is left, without the whitespace at its two ends. -/
def remaining (c : Cursor) : List Token :=
  ((c.after.dropWhile Token.isSpace).reverse.dropWhile Token.isSpace).reverse

/-- The cursor at the end of the line, with the end itself still to be read. -/
def toEnd (c : Cursor) : Cursor :=
  { c with before := c.after.reverse ++ c.before, after := [], pastEnd := false }

/-- Read everything that is left. -/
def rest (c : Cursor) : List Token × Cursor :=
  (c.remaining, c.toEnd)

end Cursor

end Preproc
