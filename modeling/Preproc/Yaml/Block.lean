import Preproc.Yaml.Input

set_option autoImplicit false

/-! # Block scalars

A scalar may stand in lines of its own, indented further than what it belongs to. Behind the sign
that opens it, a digit may give the indentation, and a plus or a minus says what becomes of the line
ends after its last line. -/

namespace Preproc.Yaml

/-- What becomes of the line ends after the last line. -/
inductive Chomping where
  /-- None is kept. -/
  | strip
  /-- The first is kept. -/
  | clip
  /-- All are kept. -/
  | keep
  deriving DecidableEq

/-- What is said behind the sign that opens a block scalar. -/
structure BlockHeader where
  chomping : Chomping := .clip
  /-- The indentation that is asked for, or 0. -/
  increment : Nat := 0

/-- The chomping at the head of a text, if there is one. -/
def readChomping (text : List Mark) : Option Chomping :=
  if startsWith '+' text then some .keep
  else if startsWith '-' text then some .strip
  else none

/-- The indentation at the head of a text: one digit, or nothing. A zero is refused. -/
def readIncrement (text : List Mark) : Option (Option Nat) :=
  match peek text with
  | some c =>
    if c = '0' then none
    else if c.isDigit then some (some (c.toNat - '0'.toNat))
    else some none
  | none => some none

/-- What is said behind the sign that opens a block scalar, up to the end of the line. -/
def readBlockHeader (text : List Mark) : Option (BlockHeader × List Mark) := do
  let (header, text) : BlockHeader × List Mark ←
    match readChomping text with
    | some chomping => do
      let text := text.drop 1
      match ← readIncrement text with
      | some increment => some (⟨chomping, increment⟩, text.drop 1)
      | none => some (⟨chomping, 0⟩, text)
    | none => do
      match ← readIncrement text with
      | some increment =>
        let text := text.drop 1
        match readChomping text with
        | some chomping => some (⟨chomping, increment⟩, text.drop 1)
        | none => some (⟨.clip, increment⟩, text)
      | none => some ({}, text)
  let text := dropBlanks text
  let text := if startsWith '#' text then dropLine text else text
  if atLineEnd text then some (header, text.drop 1) else none

/-- The lines at the head of a text that hold nothing, up to the indentation of the next one: their
    line ends, the last first, the column of the furthest, and what follows. An `indent` of 0 takes
    any number of blanks. -/
def emptyLines (indent : Nat) : (furthest : Nat) → (ends : List Char) → List Mark →
    Option (List Char × Nat × List Mark)
  | furthest, ends, [] => some (ends, furthest, [])
  | furthest, ends, m :: rest =>
    let inside := indent = 0 || m.column < indent
    if inside && m.char = ' ' then emptyLines indent furthest ends rest
    else
      let furthest := furthest.max m.column
      if inside && m.char = '\t' then none
      else if isLineEnd m.char then emptyLines indent furthest (lineEndText m.char :: ends) rest
      else some (ends, furthest, m :: rest)

/-- A block scalar as far as it was read: its text, the last character first, the line end after the
    last line, the empty lines after that, and whether the last line starts with a blank. -/
structure BlockText where
  text : List Char := []
  lineEnd : List Char := []
  empty : List Char := []
  afterBlank : Bool := false

/-- Join a line to what was read. Where lines are folded, the line end between two of them that do
    not start with a blank becomes a blank, or vanishes where empty lines follow. -/
def BlockText.joinLine (b : BlockText) (literal : Bool) (line : List Char) : BlockText :=
  let startsBlank := line.head?.any isBlank
  let joint :=
    if !literal && !b.afterBlank && !startsBlank && b.lineEnd = ['\n'] then
      if b.empty.isEmpty then [' '] else []
    else b.lineEnd
  { text := line.reverse ++ b.empty ++ joint ++ b.text
    lineEnd := []
    empty := []
    afterBlank := startsBlank }

/-- Read the lines of a block scalar. -/
def readBlockLines (literal : Bool) (indent : Nat) : (steps : Nat) → BlockText → List Mark →
    Option (BlockText × List Mark)
  | 0, b, text => some (b, text)
  | steps + 1, b, text =>
    if !text.head?.any (·.column = indent) then some (b, text)
    else
      let line := (text.takeWhile fun m => !isLineEnd m.char).map Mark.char
      let after := dropLine text
      let lineEnd := (peek after).toList.map lineEndText
      match emptyLines indent 0 [] (after.drop 1) with
      | none => none
      | some (empty, _, rest) =>
        readBlockLines literal indent steps { b.joinLine literal line with lineEnd, empty } rest

/-- Read a block scalar after the sign that opens it, inside a collection that is indented by
    `outer`, if there is one. -/
def readBlock (literal : Bool) (outer : Option Nat) (text : List Mark) :
    Option (List Char × List Mark) := do
  let (header, text) ← readBlockHeader text
  let asked := if header.increment = 0 then 0 else outer.getD 0 + header.increment
  let (empty, furthest, text) ← emptyLines asked 0 [] text
  let least := match outer with
    | some n => n + 1
    | none => 1
  let indent := if asked = 0 then furthest.max least else asked
  let (b, rest) ← readBlockLines literal indent (text.length + 1) { empty } text
  let tail := match header.chomping with
    | .strip => []
    | .clip => b.lineEnd
    | .keep => b.empty ++ b.lineEnd
  some ((tail ++ b.text).reverse, rest)

end Preproc.Yaml
