import Preproc.Yaml.Input

set_option autoImplicit false

/-! # Scalars of several lines, and between quotes

Where a scalar runs over a line end, the blanks around the line end do not count: one line end
becomes a blank, and of more of them all but the first are kept. -/

namespace Preproc.Yaml

/-! ## Gaps -/

/-- Blanks and line ends. -/
def isGap (c : Char) : Bool :=
  isBlank c || isLineEnd c

/-- The gap at the head of a text. -/
def takeGap (text : List Mark) : List Mark :=
  text.takeWhile fun m => isGap m.char

/-- The text after the gap at its head. -/
def dropGap (text : List Mark) : List Mark :=
  text.dropWhile fun m => isGap m.char

/-- The line ends of a gap as they stand in a scalar. -/
def gapLineEnds (gap : List Mark) : List Char :=
  (gap.filter fun m => isLineEnd m.char).map fun m => lineEndText m.char

/-- What a gap between two words is in a scalar. -/
def joinGap (gap : List Mark) : List Char :=
  match gapLineEnds gap with
  | [] => gap.map Mark.char
  | first :: more =>
    if first ≠ '\n' then first :: more
    else if more.isEmpty then [' ']
    else more

/-! ## Between quotes -/

/-- The character that a letter stands for after a backslash. -/
def escape? (letter : Char) : Option Char :=
  let table : List (Char × Nat) :=
    [('0', 0), ('a', 7), ('b', 8), ('t', 9), ('\t', 9), ('n', 10), ('v', 11), ('f', 12), ('r', 13),
      ('e', 27), (' ', 32), ('"', 34), ('\'', 39), ('\\', 92), ('N', 0x85), ('_', 0xA0),
      ('L', 0x2028), ('P', 0x2029)]
  (table.find? fun entry => entry.1 = letter).map fun entry => Char.ofNat entry.2

/-- The number of digits of a numeric escape. -/
def escapeWidth? (letter : Char) : Option Nat :=
  if letter = 'x' then some 2
  else if letter = 'u' then some 4
  else if letter = 'U' then some 8
  else none

/-- The code point of a run of hexadecimal digits. -/
def hexCode? (digits : List Char) : Option Nat :=
  if digits.all fun c => c.toNat < 0x80 then readNat? 16 0x110000 (digits.map byte) else none

/-- The character with the given hexadecimal digits. -/
def escapedChar? (width : Nat) (text : List Mark) : Option Char :=
  let digits := (text.take width).map Mark.char
  if digits.length ≠ width then none
  else match hexCode? digits with
    | some n => if 0xD800 ≤ n ∧ n ≤ 0xDFFF then none else some (Char.ofNat n)
    | none => none

/-- A scalar between quotes, after the first of them, and the text behind it. The characters that
    were read stand in `acc`, the last first. -/
def readQuoted (quote : Char) : (steps : Nat) → (acc : List Char) → List Mark →
    Option (List Char × List Mark)
  | 0, _, _ => none
  | _, _, [] => none
  | steps + 1, acc, m :: rest =>
    let text := m :: rest
    if atAnyMarker text then none
    else if isGap m.char then
      readQuoted quote steps ((joinGap (takeGap text)).reverse ++ acc) (dropGap text)
    else if m.char = quote then
      if quote = '\'' ∧ startsWith '\'' rest then readQuoted quote steps ('\'' :: acc) (rest.drop 1)
      else some (acc.reverse, rest)
    else if quote = '"' ∧ m.char = '\\' then
      match rest with
      | [] => none
      | letter :: more =>
        if isLineEnd letter.char then
          readQuoted quote steps ((gapLineEnds (takeGap more)).reverse ++ acc) (dropGap more)
        else match escape? letter.char, escapeWidth? letter.char with
          | some c, _ => readQuoted quote steps (c :: acc) more
          | none, some width =>
            match escapedChar? width more with
            | some c => readQuoted quote steps (c :: acc) (more.drop width)
            | none => none
          | none, none => none
    else readQuoted quote steps (m.char :: acc) rest

end Preproc.Yaml
