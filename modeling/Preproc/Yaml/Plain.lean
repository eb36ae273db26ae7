import Preproc.Yaml.Quoted

set_option autoImplicit false

/-! # Plain scalars

A scalar without quotes ends where something else begins: at a colon before a blank, at a comment,
between brackets at what separates their items, and at a line that is indented too little. -/

namespace Preproc.Yaml

/-- The characters that give what follows another meaning when a value starts with them. -/
def isIndicator (c : Char) : Bool :=
  ['-', '?', ':', ',', '[', ']', '\x7b', '\x7d', '#', '&', '*', '!', '|', '>', '\'', '"', '%', '@',
    Char.ofNat 96].contains c

/-- Whether a plain scalar can begin here. -/
def startsPlain (inFlow : Bool) (text : List Mark) : Bool :=
  match text with
  | [] => false
  | m :: rest =>
    (!isGap m.char && !isIndicator m.char)
      || (m.char = '-' && !(peek rest).any isBlank)
      || (!inFlow && (m.char = '?' || m.char = ':') && !atGap rest)

/-- The characters that end a plain scalar between brackets. -/
def isFlowEnd (c : Char) : Bool :=
  [',', '?', '[', ']', '\x7b', '\x7d'].contains c

/-- The part of a plain scalar up to the next gap, and the text behind it. -/
def plainWord (inFlow : Bool) : List Mark → List Char × List Mark
  | [] => ([], [])
  | m :: rest =>
    if isGap m.char || (m.char = ':' && atGap rest) || (inFlow && isFlowEnd m.char) then
      ([], m :: rest)
    else
      let (word, after) := plainWord inFlow rest
      (m.char :: word, after)

/-- Whether a gap uses a tab to indent a line that must start at the column `least`. -/
def indentsByTab (least : Nat) (gap : List Mark) : Bool :=
  (gap.dropWhile fun m => !isLineEnd m.char).any fun m => m.char = '\t' && m.column < least

/-- A plain scalar that was read. -/
structure PlainScalar where
  text : List Char
  /-- Whether the gap behind it holds a line end. -/
  crossed : Bool
  rest : List Mark

/-- Read a plain scalar whose lines must start at the column `least`. What was read so far stands in
    `acc`, the last first, and `gap` is the gap behind it. -/
def readPlain (inFlow : Bool) (least : Nat) : (steps : Nat) → (acc : List Char) →
    (gap : List Mark) → List Mark → Option PlainScalar
  | 0, _, _, _ => none
  | steps + 1, acc, gap, text =>
    let done : PlainScalar := ⟨acc.reverse, gap.any fun m => isLineEnd m.char, text⟩
    if atAnyMarker text || startsWith '#' text then some done
    else match plainWord inFlow text with
      | ([], _) => some done
      | (word, after) =>
        let acc := word.reverse ++ (joinGap gap).reverse ++ acc
        let gap := takeGap after
        let rest := dropGap after
        if gap.isEmpty then some ⟨acc.reverse, false, after⟩
        else if indentsByTab least gap then none
        else if !inFlow && rest.head?.any (·.column < least) then
          some ⟨acc.reverse, gap.any fun m => isLineEnd m.char, rest⟩
        else readPlain inFlow least steps acc gap rest

end Preproc.Yaml
