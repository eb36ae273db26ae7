import Preproc.Text.Bytes

set_option autoImplicit false

/-! # Comments across lines

A block comment may run over several lines, and a `#` inside it starts no directive. This file
follows comments and quotes through a text, byte by byte. -/

namespace Preproc.Source

/-- What a byte of the source stands in. -/
inductive Region where
  | code
  /-- Between two quote bytes. -/
  | quotation (quote : UInt8)
  /-- After `//`, which hides the rest of the text. -/
  | lineComment
  /-- After `/*` and before its `*/`. -/
  | blockComment
  deriving DecidableEq

/-- The region in which a text ends that starts in a given region. -/
def Region.after : Region → Bytes → Region
  | region, [] => region
  | .lineComment, _ :: _ => .lineComment
  | .blockComment, [_] => .blockComment
  | .blockComment, a :: b :: rest =>
    if a = byte '*' ∧ b = byte '/' then Region.code.after rest
    else Region.blockComment.after (b :: rest)
  | .quotation q, [a] => if a = q then .code else .quotation q
  | .quotation q, a :: b :: rest =>
    if a = backslash then (Region.quotation q).after rest
    else if a = q then Region.code.after (b :: rest)
    else (Region.quotation q).after (b :: rest)
  | .code, [a] => if a = doubleQuote ∨ a = singleQuote then .quotation a else .code
  | .code, a :: b :: rest =>
    if a = doubleQuote ∨ a = singleQuote then (Region.quotation a).after (b :: rest)
    else if a = byte '/' ∧ b = byte '/' then .lineComment
    else if a = byte '/' ∧ b = byte '*' then Region.blockComment.after rest
    else Region.code.after (b :: rest)

/-- Whether a text ends inside a block comment, given whether it starts inside one. -/
def endsInComment (startsInside : Bool) (text : Bytes) : Bool :=
  (if startsInside then Region.blockComment else Region.code).after text = .blockComment

end Preproc.Source
