import Preproc.Source.Comment

set_option autoImplicit false

/-! # Logical lines

A source is cut into physical lines, which are then joined into logical ones: a line that ends in a
backslash goes on, and so does a directive while a block comment is open in it. A carriage return at
the end of a physical line does not belong to its text. -/

namespace Preproc.Source

/-- A line of the source as it stands there. -/
structure PhysicalLine where
  text : Bytes
  /-- Whether a newline follows the text. -/
  terminated : Bool
  deriving DecidableEq

/-- The physical lines of a source. Only the last one may lack its newline. -/
def physicalLines : Bytes → List PhysicalLine
  | [] => []
  | b :: rest =>
    if b = newline then ⟨[], true⟩ :: physicalLines rest
    else match physicalLines rest with
      | [] => [⟨[b], false⟩]
      | line :: lines => { line with text := b :: line.text } :: lines

/-- A line of the source as it is read. -/
structure LogicalLine where
  /-- The text without the line breaks that were joined away. -/
  text : Bytes
  /-- The text as it stands in the source, without its final newline. -/
  raw : Bytes
  /-- The number of its first physical line, counted from one. -/
  line : Nat
  /-- How many physical lines it spans. -/
  count : Nat
  /-- How many bytes stand before it. -/
  offset : Nat
  /-- Whether a newline follows it. -/
  terminated : Bool
  /-- Whether it is a directive. -/
  directive : Bool
  /-- Whether a block comment is open after it. -/
  endsInComment : Bool
  deriving DecidableEq

/-- The blanks that may stand before the `#` of a directive. -/
def isIndent (b : UInt8) : Bool :=
  b == 32 || b == 9 || b == 11 || b == 12

/-- Whether the first byte that is no blank is `#`. -/
def startsDirective (text : Bytes) : Bool :=
  (text.dropWhile isIndent).head? = some (byte '#')

/-- A text without a carriage return at its end. -/
def dropCarriageReturn (text : Bytes) : Bytes :=
  if text.getLast? = some 13 then text.dropLast else text

/-- A logical line of which more is to come. -/
structure Pending where
  text : Bytes := []
  raw : Bytes := []
  line : Nat
  count : Nat := 0
  offset : Nat
  directive : Bool
  /-- Whether the line starts inside a block comment. -/
  startsInComment : Bool

namespace Pending

/-- The line as it ends here. -/
def close (p : Pending) (terminated : Bool) : LogicalLine where
  text := p.text
  raw := p.raw
  line := p.line
  count := p.count
  offset := p.offset
  terminated := terminated
  directive := p.directive
  endsInComment := Source.endsInComment p.startsInComment p.text

/-- The line with one more physical line in it, and whether it goes on after that. -/
def extend (p : Pending) (physical : PhysicalLine) : Pending × Bool :=
  let text := dropCarriageReturn physical.text
  let longer := { p with
    raw := if p.count = 0 then physical.text else p.raw ++ newline :: physical.text
    count := p.count + 1 }
  if text.getLast? = some backslash then
    ({ longer with text := p.text ++ text.dropLast }, true)
  else if p.directive && Source.endsInComment false (p.text ++ text) then
    ({ longer with text := p.text ++ text ++ [newline] }, true)
  else ({ longer with text := p.text ++ text }, false)

end Pending

/-- Where the next logical line starts. -/
structure Start where
  line : Nat := 1
  offset : Nat := 0
  inComment : Bool := false

/-- The start after a line. -/
def LogicalLine.next (l : LogicalLine) : Start where
  line := l.line + l.count
  offset := l.offset + l.raw.length + if l.terminated then 1 else 0
  inComment := l.endsInComment

/-- An empty line that begins at `start` with a given physical line. -/
def Start.pending (start : Start) (first : PhysicalLine) : Pending where
  line := start.line
  offset := start.offset
  directive := !start.inComment && startsDirective first.text
  startsInComment := start.inComment

/-- Join physical lines into logical ones. A line that goes on when the source ends takes the last
    newline of the source into its raw text. -/
def joinLines (start : Start) (pending : Option Pending) : List PhysicalLine → List LogicalLine
  | [] =>
    match pending with
    | some p => [{ p with raw := p.raw ++ [newline] }.close false]
    | none => []
  | physical :: rest =>
    let (p, goesOn) := (pending.getD (start.pending physical)).extend physical
    if goesOn && physical.terminated then joinLines start (some p) rest
    else
      let line := p.close physical.terminated
      line :: joinLines line.next none rest

/-- The logical lines of a source. -/
def logicalLines (source : Bytes) : List LogicalLine :=
  joinLines {} none (physicalLines source)

end Preproc.Source
