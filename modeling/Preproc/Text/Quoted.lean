import Preproc.Text.Rune
import Preproc.Text.Printable

set_option autoImplicit false

/-! # Quoted text

The form in which a text is shown inside a message: between double quotes, with escapes for what
cannot be printed. Named escapes come first, then printable code points as they are, then the
numeric escapes, two digits for a byte and four or eight for a code point. -/

namespace Preproc

/-- The byte that names a code point after a backslash, if it has such a name. -/
def namedEscape? (code : Nat) : Option UInt8 :=
  match code with
  | 7 => some (byte 'a')
  | 8 => some (byte 'b')
  | 9 => some (byte 't')
  | 10 => some (byte 'n')
  | 11 => some (byte 'v')
  | 12 => some (byte 'f')
  | 13 => some (byte 'r')
  | 34 => some doubleQuote
  | 92 => some backslash
  | _ => none

/-- How one unit of a text is written between the quotes. -/
def Rune.quoted : Rune → Bytes
  | .stray b => ascii "\\x" ++ hex 2 b.toNat
  | .scalar code bytes =>
    match namedEscape? code with
    | some letter => [backslash, letter]
    | none =>
      if isPrintable code then bytes
      else if code < 0x80 then ascii "\\x" ++ hex 2 code
      else if code < 0x10000 then ascii "\\u" ++ hex 4 code
      else ascii "\\U" ++ hex 8 code

/-- A text between double quotes, escaped so that it stays on one line. -/
def quoted (text : Bytes) : Bytes :=
  doubleQuote :: (runes text).flatMap Rune.quoted ++ [doubleQuote]

end Preproc
