import Preproc.Yaml.Block
import Preproc.Yaml.Plain
import Preproc.Yaml.Property

set_option autoImplicit false

/-! # Tokens of a document

Tokens are made from left to right. Outside brackets the column of a token opens and closes
collections. Whether a value is the key of a mapping is known only at the colon behind it, so a value
that may be a key is noted, and the colon puts the tokens of a key before it.

The tokens are handed out while others are still being made: one is handed out when two more stand
behind it and it cannot become a key any more. Where the text turns out to be malformed, only what
was handed out before counts. -/

namespace Preproc.Yaml

/-- How deeply collections may be nested. -/
def nestingLimit : Nat := 10000

/-- How far behind its beginning the colon of a key may stand. -/
def keyReach : Nat := 1024

/-- How far a comment is looked for behind a token or another comment. -/
def commentReach : Nat := 511

/-- A value that may turn out to be a key. -/
structure Key where
  /-- The number of its first token. -/
  number : Nat
  /-- Whether it can be nothing else. -/
  required : Bool
  /-- Whether its first token is held back until this is known. -/
  held : Bool := true
  /-- Where it begins. -/
  start : Mark

/-- Whether a value can still become a key at the head of a text: only on its own line, and not too
    far away. -/
def Key.isOpen (k : Key) (text : List Mark) : Bool :=
  text.head?.all fun m => m.line = k.start.line && m.index ≤ k.start.index + keyReach

/-- What is known of one level of brackets. -/
structure Level where
  key : Option Key := none
  /-- The number of the bracket that opened the level, as long as no key was noted inside. -/
  opener : Option Nat := none

/-- Tokens in the making. -/
structure Layout where
  rest : List Mark
  /-- The tokens so far, the last first. -/
  made : List Token := []
  /-- How many tokens there are. -/
  count : Nat := 0
  /-- How many of them were handed out. -/
  released : Nat := 0
  /-- The columns of the open collections outside brackets, the innermost first. -/
  indents : List Nat := []
  level : Level := {}
  /-- The levels of brackets around this one. -/
  outer : List Level := []
  /-- Whether a key may begin here. -/
  keyAllowed : Bool := true
  /-- Whether the text starts with a second mark of its encoding. -/
  doublyMarked : Bool := false

namespace Layout

/-- Whether the text stands between brackets. -/
def inFlow (l : Layout) : Bool :=
  !l.outer.isEmpty

/-- Add a token. -/
def push (l : Layout) (t : Token) : Layout :=
  { l with made := t :: l.made, count := l.count + 1 }

/-- Put a token before the one with a given number; behind all others when that one was handed out
    already. -/
def insert (l : Layout) (number : Nat) (t : Token) : Layout :=
  if number < l.released then l.push t
  else
    let behind := l.count - number
    { l with made := l.made.take behind ++ t :: l.made.drop behind, count := l.count + 1 }

/-! ## Collections by indentation -/

/-- Close the collections that start to the right of a column; all of them when there is none. -/
def closeIndents (column : Option Nat) : List Nat → List Nat × Nat
  | [] => ([], 0)
  | indent :: rest =>
    if column.any (indent ≤ ·) then (indent :: rest, 0)
    else
      let (left, closed) := closeIndents column rest
      (left, closed + 1)

/-- Close the collections that end at a column. Between brackets columns do not count. -/
def unroll (l : Layout) (column : Option Nat) : Layout :=
  if l.inFlow then l
  else
    let (indents, closed) := closeIndents column l.indents
    { l with
      indents
      made := List.replicate closed .blockEnd ++ l.made
      count := l.count + closed }

/-- Open a collection at a column unless one is open there. Its token goes before the one with the
    given number, or to the end. -/
def roll (l : Layout) (column : Nat) (number : Option Nat) (t : Token) : Option Layout :=
  if l.inFlow || !l.indents.head?.all (· < column) then some l
  else if nestingLimit ≤ l.indents.length then none
  else
    let opened := { l with indents := column :: l.indents }
    some (match number with
      | some number => opened.insert number t
      | none => opened.push t)

/-! ## Keys -/

/-- Give up the key of this level; this fails when it must be a key. -/
def dropKey (l : Layout) : Option Layout :=
  match l.level.key with
  | none => some l
  | some k => if k.required then none else some { l with level := { l.level with key := none } }

/-- Note that the value which begins at a mark may be a key, and that no other can follow it. -/
def noteKey (l : Layout) (start : Mark) : Option Layout :=
  if !l.keyAllowed then some l
  else do
    let required := !l.inFlow && l.indents.head? = some start.column
    let l ← l.dropKey
    some { l with level := { key := some { number := l.count, required, start } } }

/-- The key that holds back the token with a given number. -/
def holder? (l : Layout) (number : Nat) : Option Key :=
  let holds (level : Level) : Bool := level.key.any fun k => k.held && k.number = number
  if holds l.level then l.level.key else (l.outer.find? holds).bind Level.key

/-- Hand out the tokens that can be, and tell whether that went well: it does not at a token that had
    to be a key and is none. -/
def release (l : Layout) : (steps : Nat) → Bool × Layout
  | 0 => (true, l)
  | steps + 1 =>
    if l.count ≤ l.released + 2 then (true, l)
    else
      let next := { l with released := l.released + 1 }
      match l.holder? l.released with
      | none => next.release steps
      | some k =>
        if k.isOpen l.rest then (true, l)
        else if k.required then (false, l)
        else next.release steps

/-! ## Between tokens -/

/-- Whether a later text is near enough to an earlier one for a comment that is looked for. -/
def isNear (earlier later : List Mark) : Bool :=
  earlier.head?.all fun m => later.head?.all fun n => n.index ≤ m.index + commentReach

/-- Skip a comment, and the comments on the lines below it. -/
def skipComment : (steps : Nat) → List Mark → List Mark
  | 0, text => text
  | steps + 1, text =>
    let after := dropLine text
    let next := (after.drop 1).dropWhile fun m => isBlank m.char || m.char = '\n'
    if startsWith '\n' after && startsWith '#' next && isNear after next then skipComment steps next
    else after

/-- Skip blanks, comments and line ends up to the next token. A tab is skipped only where no key can
    begin. -/
def skipToToken : (steps : Nat) → Layout → Layout
  | 0, l => l
  | steps + 1, l =>
    let atStart := l.rest.head?.any (·.column = 0)
    let text := if l.doublyMarked && atStart && 1 < (l.rest.take 2).length then l.rest.drop 1
      else l.rest
    let tabs := l.inFlow || !l.keyAllowed
    let text := text.dropWhile fun m => m.char = ' ' || (tabs && m.char = '\t')
    let text := if startsWith '#' text then skipComment steps text else text
    match text with
    | [] => { l with rest := [] }
    | m :: more =>
      if isLineEnd m.char then
        skipToToken steps { l with rest := more, keyAllowed := l.keyAllowed || !l.inFlow }
      else { l with rest := text }

/-- Skip a comment behind a token on its line. -/
def skipLineComment (l : Layout) : Layout :=
  let text := dropBlanks l.rest
  if startsWith '#' text && isNear l.rest text then { l with rest := dropLine text }
  else l

/-! ## Tokens -/

/-- Add the token for a sign that is one character long. -/
def sign (l : Layout) (t : Token) : Layout :=
  { l with rest := l.rest.drop 1 }.push t

/-- The beginning or end of a document. -/
def documentMarker (l : Layout) (t : Token) : Option Layout := do
  let l ← (l.unroll none).dropKey
  some { l.push t with keyAllowed := false, rest := l.rest.drop 3 }

/-- A line before a document. -/
def directive (l : Layout) : Option Layout := do
  let l ← (l.unroll none).dropKey
  let (t, rest) ← readDirective (l.rest.drop 1)
  some { l.push t with keyAllowed := false, rest }

/-- A bracket that opens a collection. -/
def openFlow (l : Layout) (start : Mark) (t : Token) : Option Layout := do
  let l ← l.noteKey start
  if nestingLimit ≤ l.outer.length then none
  else some { l.sign t with
    level := { opener := some l.count }
    outer := l.level :: l.outer
    keyAllowed := true }

/-- A bracket that closes a collection. When no key was noted between the brackets, the first of them
    is held back no longer. -/
def closeFlow (l : Layout) (t : Token) : Option Layout := do
  let l ← l.dropKey
  let closed := { l.sign t with keyAllowed := false }
  some (match l.outer with
    | [] => closed
    | level :: outer =>
      let held (k : Key) : Bool := k.held && l.level.opener ≠ some k.number
      let key := level.key.map fun k => { k with held := held k }
      { closed with level := { level with key }, outer })

/-- The comma between items. -/
def comma (l : Layout) : Option Layout := do
  let l ← l.dropKey
  some { l.sign .comma with keyAllowed := true }

/-- The dash before an item. -/
def item (l : Layout) (start : Mark) : Option Layout := do
  let l ← if l.inFlow then some l
    else if l.keyAllowed then l.roll start.column none .sequenceStart
    else none
  let l ← l.dropKey
  some { l.sign .item with keyAllowed := true }

/-- The question mark before a key. -/
def explicitKey (l : Layout) (start : Mark) : Option Layout := do
  let l ← if l.inFlow then some l
    else if l.keyAllowed then l.roll start.column none .mappingStart
    else none
  let l ← l.dropKey
  some { l.sign .key with keyAllowed := !l.inFlow }

/-- The colon before a value: it makes the value before it a key, or follows a key that was marked as
    such. -/
def valueSign (l : Layout) (start : Mark) : Option Layout := do
  let simple ← match l.level.key with
    | none => some none
    | some k => if k.isOpen l.rest then some (some k) else if k.required then none else some none
  match simple with
  | some k =>
    let l ← (l.insert k.number .key).roll k.start.column (some k.number) .mappingStart
    some { l.sign .value with level := { l.level with key := none }, keyAllowed := false }
  | none =>
    let l := { l with level := { l.level with key := none } }
    let l ← if l.inFlow then some l
      else if l.keyAllowed then l.roll start.column none .mappingStart
      else none
    some { l.sign .value with keyAllowed := !l.inFlow }

/-- What stands before or in the place of a value, and may belong to a key. -/
def property (l : Layout) (start : Mark) (read : List Mark → Option (Token × List Mark)) :
    Option Layout := do
  let l ← l.noteKey start
  let (t, rest) ← read l.rest
  some { l.push t with rest, keyAllowed := false }

/-- A scalar between quotes. -/
def quoted (l : Layout) (steps : Nat) (start : Mark) : Option Layout :=
  l.property start fun text =>
    (readQuoted start.char steps [] (text.drop 1)).map fun (s, rest) =>
      (.scalar false (utf8 s), rest)

/-- A scalar in lines of its own. -/
def block (l : Layout) (literal : Bool) : Option Layout := do
  let l ← l.dropKey
  let (s, rest) ← readBlock literal l.indents.head? (l.rest.drop 1)
  some { l.push (.scalar false (utf8 s)) with rest, keyAllowed := true }

/-- A plain scalar. A key may follow it only on another line. -/
def plain (l : Layout) (steps : Nat) (start : Mark) : Option Layout := do
  let l ← l.noteKey start
  let least := match l.indents.head? with
    | some n => n + 1
    | none => 0
  let s ← readPlain l.inFlow least steps [] [] l.rest
  let read := { l.push (.scalar true (utf8 s.text)) with rest := s.rest, keyAllowed := s.crossed }
  some (if s.crossed then read else read.skipLineComment)

/-- The end of the text. -/
def finish (l : Layout) : Option Layout := do
  let l ← (l.unroll none).dropKey
  some (l.push .streamEnd)

/-- Make the next token from a text that starts with it. -/
def token (l : Layout) (steps : Nat) (m : Mark) : Option Layout :=
  let next := l.rest.drop 1
  let commented (l : Option Layout) : Option Layout := l.map skipLineComment
  match m.char with
  | '[' => commented (l.openFlow m .openBracket)
  | '\x7b' => commented (l.openFlow m .openBrace)
  | ']' => commented (l.closeFlow .closeBracket)
  | '\x7d' => commented (l.closeFlow .closeBrace)
  | ',' => commented l.comma
  | '*' => commented (l.property m fun text =>
      (readAnchor (text.drop 1)).map fun (name, rest) => (.alias name, rest))
  | '&' => commented (l.property m fun text =>
      (readAnchor (text.drop 1)).map fun (name, rest) => (.anchor name, rest))
  | '!' => commented (l.property m readTag)
  | '\'' => commented (l.quoted steps m)
  | '"' => commented (l.quoted steps m)
  | _ =>
    if m.char = '-' && atGap next then l.item m
    else if m.char = '?' && (l.inFlow || atGap next) then commented (l.explicitKey m)
    else if m.char = ':' && (l.inFlow || atGap next) then commented (l.valueSign m)
    else if m.char = '|' && !l.inFlow then l.block true
    else if m.char = '>' && !l.inFlow then l.block false
    else if startsPlain l.inFlow l.rest then l.plain steps m
    else none

/-- Make the next token. There must be more steps than characters left. -/
def step (l : Layout) (steps : Nat) : Option Layout :=
  let l := skipToToken steps l
  match l.rest with
  | [] => l.finish
  | m :: _ =>
    let l := l.unroll (some m.column)
    if m.column = 0 && m.char = '%' then l.directive
    else if atMarker startWord l.rest then l.documentMarker .documentStart
    else if atMarker endWord l.rest then l.documentMarker .documentEnd
    else l.token steps m

/-- The tokens that were handed out. -/
def handedOut (l : Layout) : List Token :=
  l.made.reverse.take l.released

/-- Make all tokens; where the text is malformed, those that were handed out before. Each token takes
    a character at least, so there are always more steps than characters left. -/
def run : (steps : Nat) → Layout → List Token
  | 0, l => l.handedOut
  | steps + 1, l =>
    match l.release (l.count + 1) with
    | (false, l) => l.handedOut
    | (true, l) =>
      match l.step (steps + 1) with
      | none => l.handedOut
      | some next => if next.made.head? = some .streamEnd then next.made.reverse else run steps next

end Layout

/-- The tokens of a document. -/
def tokens (text : List Mark) : List Token :=
  let doublyMarked := text.head?.any fun m => m.char.toNat = byteOrderMark
  Layout.run (text.length + 1) { rest := text, doublyMarked }

end Preproc.Yaml
