import Preproc.Yaml.Input
import Preproc.Yaml.Token

set_option autoImplicit false

/-! # Anchors, tags and directives

What may stand before a value: a name under which it can be repeated, and a tag that tells its kind.
Lines before a document may name the version of the language and give handles of tags a meaning. -/

namespace Preproc.Yaml

/-- The characters of names. -/
def isNameChar (c : Char) : Bool :=
  c.isDigit || ('a' ≤ c && c ≤ 'z') || ('A' ≤ c && c ≤ 'Z') || c == '_' || c == '-'

/-- The name at the head of a text. -/
def takeName (text : List Mark) : List Char :=
  (text.takeWhile fun m => isNameChar m.char).map Mark.char

/-- The text after the name at its head. -/
def dropName (text : List Mark) : List Mark :=
  text.dropWhile fun m => isNameChar m.char

/-- The name of an anchor or alias, after the sign before it. -/
def readAnchor (text : List Mark) : Option (Bytes × List Mark) :=
  let name := takeName text
  let rest := dropName text
  let ended := atGap rest
    || (peek rest).any fun c => ['?', ':', ',', ']', '\x7d', '%', '@', Char.ofNat 96].contains c
  if name.isEmpty || !ended then none else some (utf8 name, rest)

/-! ## Tags -/

/-- The characters of tags. -/
def isTagChar (c : Char) : Bool :=
  isNameChar c || [';', '/', '?', ':', '@', '&', '=', '+', '$', ',', '.', '%', '!', '~', '*', '\'',
    '(', ')', '[', ']'].contains c

/-- The byte that a percent sign and two hexadecimal digits stand for. -/
def escapedByte? (text : List Mark) : Option (UInt8 × List Mark) :=
  match text with
  | p :: a :: b :: rest =>
    if p.char = '%' ∧ a.char.toNat < 0x80 ∧ b.char.toNat < 0x80 then
      (readNat? 16 256 [byte a.char, byte b.char]).map fun n => (n.toUInt8, rest)
    else none
  | _ => none

/-- How many bytes a character of UTF-8 has by its first one. -/
def utf8Width? (b : UInt8) : Option Nat :=
  if b < 0x80 then some 1
  else if 0xC0 ≤ b && b < 0xE0 then some 2
  else if 0xE0 ≤ b && b < 0xF0 then some 3
  else if 0xF0 ≤ b && b < 0xF8 then some 4
  else none

/-- As many escaped bytes as are asked for, all of which continue a character. -/
def escapedTail? : (count : Nat) → List Mark → Option (Bytes × List Mark)
  | 0, text => some ([], text)
  | count + 1, text =>
    match escapedByte? text with
    | none => none
    | some (b, rest) =>
      if !isContinuation b then none
      else (escapedTail? count rest).map fun (tail, after) => (b :: tail, after)

/-- A character that is written as escaped bytes. -/
def escapedUtf8? (text : List Mark) : Option (Bytes × List Mark) :=
  match escapedByte? text with
  | none => none
  | some (b, rest) =>
    match utf8Width? b with
    | none => none
    | some width => (escapedTail? (width - 1) rest).map fun (tail, after) => (b :: tail, after)

/-- The characters of a tag at the head of a text. -/
def readTagText : (steps : Nat) → List Mark → Option (Bytes × List Mark)
  | 0, text => some ([], text)
  | steps + 1, text =>
    match text with
    | [] => some ([], [])
    | m :: rest =>
      if !isTagChar m.char then some ([], text)
      else
        let head := if m.char = '%' then escapedUtf8? text else some (utf8 [m.char], rest)
        match head with
        | none => none
        | some (piece, rest) =>
          (readTagText steps rest).map fun (more, after) => (piece ++ more, after)

/-- The text of a tag, which must not be empty. -/
def readFullTag (text : List Mark) : Option (Bytes × List Mark) :=
  if (peek text).any isTagChar then readTagText text.length text else none

/-- A handle of tags: a name between two exclamation marks, or what there is of it. -/
def readHandle (text : List Mark) : Bytes × List Mark :=
  let name := takeName (text.drop 1)
  let rest := dropName (text.drop 1)
  if startsWith '!' rest then (utf8 ('!' :: name ++ ['!']), rest.drop 1)
  else (utf8 ('!' :: name), rest)

/-- Whether a handle is complete, with an exclamation mark at both ends. -/
def isFullHandle (handle : Bytes) : Bool :=
  1 < handle.length && handle.getLast? = some (byte '!')

/-- A tag, from its exclamation mark on: in full between angle brackets, behind a handle, or alone.
    The exclamation mark alone is the tag of no particular kind. -/
def readTag (text : List Mark) : Option (Token × List Mark) := do
  let (handle, suffix, rest) ←
    if startsWith '<' (text.drop 1) then do
      let (suffix, rest) ← readFullTag (text.drop 2)
      if startsWith '>' rest then some (([] : Bytes), suffix, rest.drop 1) else none
    else
      let (handle, rest) := readHandle text
      if isFullHandle handle then do
        let (suffix, rest) ← readFullTag rest
        some (handle, suffix, rest)
      else do
        let (more, rest) ← readTagText rest.length rest
        let suffix := handle.drop 1 ++ more
        if suffix.isEmpty then some ([], ascii "!", rest) else some (ascii "!", suffix, rest)
  if atGap rest then some (.tag handle suffix, rest) else none

/-! ## Directives -/

/-- A number of one or two digits. -/
def readVersionNumber (text : List Mark) : Option (Nat × List Mark) :=
  let digits := (text.takeWhile fun m => m.char.isDigit).map fun m => byte m.char
  if digits.isEmpty || 2 < digits.length then none
  else some (digitsValue 10 digits, text.drop digits.length)

/-- The version that a directive names. -/
def readVersion (text : List Mark) : Option (Token × List Mark) := do
  let (major, rest) ← readVersionNumber (dropBlanks text)
  if startsWith '.' rest then do
    let (minor, rest) ← readVersionNumber (rest.drop 1)
    some (.version major minor, rest)
  else none

/-- The handle and its meaning in a directive. -/
def readTagDirective (text : List Mark) : Option (Token × List Mark) := do
  let text := dropBlanks text
  if !startsWith '!' text then none
  else
    let (handle, rest) := readHandle text
    if !(isFullHandle handle || handle = ascii "!") || !(peek rest).any isBlank then none
    else do
      let (meaning, rest) ← readFullTag (dropBlanks rest)
      if atGap rest then some (.tagHandle handle meaning, rest) else none

/-- A directive after its percent sign, and the text from the next line on. -/
def readDirective (text : List Mark) : Option (Token × List Mark) := do
  let name := takeName text
  let rest := dropName text
  if name.isEmpty || !atGap rest then none
  else
    let (token, rest) ←
      if name = ['Y', 'A', 'M', 'L'] then readVersion rest
      else if name = ['T', 'A', 'G'] then readTagDirective rest
      else none
    let rest := dropBlanks rest
    let rest := if startsWith '#' rest then dropLine rest else rest
    if atLineEnd rest then some (token, rest.drop 1) else none

end Preproc.Yaml
