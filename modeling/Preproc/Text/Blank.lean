import Preproc.Text.Rune

set_option autoImplicit false

/-! # Blank code points

The white space that is trimmed off the two ends of a text: the code points that Unicode lists as
`White_Space`. -/

namespace Preproc

/-- Whether a code point is white space. -/
def isBlankCode (code : Nat) : Bool :=
  (9 ≤ code && code ≤ 13) || code == 0x20 || code == 0x85 || code == 0xA0 || code == 0x1680
    || (0x2000 ≤ code && code ≤ 0x200A) || code == 0x2028 || code == 0x2029 || code == 0x202F
    || code == 0x205F || code == 0x3000

/-- Whether a unit of a text is white space; a stray byte is not. -/
def Rune.isBlank : Rune → Bool
  | .scalar code _ => isBlankCode code
  | .stray _ => false

/-- A text without the white space at its two ends. -/
def trimBlank (text : Bytes) : Bytes :=
  let body := ((runes text).dropWhile Rune.isBlank).reverse.dropWhile Rune.isBlank
  body.reverse.flatMap Rune.bytes

end Preproc
