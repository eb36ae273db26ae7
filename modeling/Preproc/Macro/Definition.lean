import Preproc.Position
import Preproc.Text.Quoted

set_option autoImplicit false

/-! # Macro definitions

A definition is a name, perhaps a list of parameters, and a replacement list. The replacement list
is kept as items: text that is copied, references to parameters, and the operators `#` and `##`. -/

namespace Preproc.Macro

/-- One element of a replacement list. -/
inductive Item where
  /-- Text that is copied. -/
  | literal (text : Bytes)
  /-- One blank. -/
  | space
  /-- The argument for a parameter, counted from one. -/
  | param (index : Int)
  /-- The argument for a parameter as a string. -/
  | stringize (index : Int)
  /-- The neighbours become one token. -/
  | paste
  /-- The macro's own name, which is copied and not replaced again. -/
  | selfRef (text : Bytes)
  /-- An element of a kind that is not known, by its numeric code. -/
  | unknown (code : Nat)
  deriving DecidableEq

namespace Item

/-- The name shown for the numeric code of a kind of item. -/
def nameOfCode (code : Nat) : Bytes :=
  match code with
  | 1 => ascii "Literal"
  | 2 => ascii "Space"
  | 3 => ascii "Param"
  | 4 => ascii "Stringize"
  | 5 => ascii "Paste"
  | 6 => ascii "SelfRef"
  | code => ascii "ItemKind(" ++ decimal code ++ ascii ")"

/-- The numeric code of an item's kind. -/
def code : Item → Nat
  | literal _ => 1
  | space => 2
  | param _ => 3
  | stringize _ => 4
  | paste => 5
  | selfRef _ => 6
  | unknown code => code

/-- The name of an item's kind. -/
def kindName (item : Item) : Bytes :=
  nameOfCode item.code

/-- An item as it is shown to a reader of the list. -/
def describe (item : Item) : Bytes :=
  match item with
  | literal text => quoted text
  | param index | stringize index => item.kindName ++ ascii "(" ++ decimal index ++ ascii ")"
  | selfRef text => item.kindName ++ ascii "(" ++ text ++ ascii ")"
  | _ => item.kindName

/-- The name of the parameter with a given number, or the number itself behind a `$`. -/
def paramName (params : List Bytes) (index : Int) : Bytes :=
  match if 1 ≤ index then params[index.toNat - 1]? else none with
  | some name => name
  | none => ascii "$" ++ decimal index

/-- The text of an item after `#define`. -/
def source (params : List Bytes) : Item → Bytes
  | literal text | selfRef text => text
  | space => ascii " "
  | param index => paramName params index
  | stringize index => ascii "#" ++ paramName params index
  | paste => ascii " ## "
  | unknown _ => []

end Item

/-- A replacement list. -/
abbrev Replacement := List Item

/-- The text of a replacement list after `#define`. -/
def Replacement.source (params : List Bytes) (body : Replacement) : Bytes :=
  body.flatMap (Item.source params)

/-- Where a definition comes from. -/
inductive Origin where
  /-- A directive or the command line. -/
  | user
  /-- Built in; directives may change it. -/
  | predefined
  /-- Built in; directives may not change it. -/
  | locked
  /-- Built in; not seen in strict mode. -/
  | extension
  deriving DecidableEq

namespace Origin

/-- All origins, in the order of their numeric codes. -/
def all : List Origin :=
  [user, predefined, locked, extension]

/-- The name of an origin. -/
def name : Origin → Bytes
  | user => ascii "user"
  | predefined => ascii "predefined"
  | locked => ascii "protected"
  | extension => ascii "extension"

/-- The name shown for a numeric code, which may stand for no origin. -/
def nameOfCode (code : Nat) : Bytes :=
  match all[code]? with
  | some origin => origin.name
  | none => ascii "kind(" ++ decimal code ++ ascii ")"

end Origin

/-- The name of the parameter that takes the arguments for an ellipsis. -/
def variadicName : Bytes :=
  ascii "__VA_ARGS__"

/-- A macro. A macro with an empty parameter list differs from one with no list at all. -/
structure Definition where
  name : Bytes
  functionLike : Bool := false
  /-- Whether the last parameter takes all further arguments. -/
  variadic : Bool := false
  params : List Bytes := []
  body : Replacement := []
  definedAt : Position := {}
  origin : Origin := .user
  deriving DecidableEq

namespace Definition

/-- The parameters as they are written, where only the last may have an ellipsis. -/
def writtenParams (variadic : Bool) : List Bytes → List Bytes
  | [] => []
  | [last] =>
    if variadic && last = variadicName then [ascii "..."]
    else if variadic then [last ++ ascii "..."]
    else [last]
  | p :: rest => p :: writtenParams variadic rest

/-- The parameter list as it is written; empty for a macro without one. -/
def signature (d : Definition) : Bytes :=
  if d.functionLike then
    ascii "(" ++ joinWith (ascii ",") (writtenParams d.variadic d.params) ++ ascii ")"
  else []

/-- Whether two definitions say the same. Position and origin do not matter. -/
def sameAs (d o : Definition) : Bool :=
  d.name = o.name && d.functionLike = o.functionLike && d.variadic = o.variadic
    && d.signature = o.signature && d.body = o.body

/-- The text that defines a macro after `#define`. -/
def source (d : Definition) : Bytes :=
  let body := Replacement.source d.params d.body
  if body.isEmpty then d.name ++ d.signature else d.name ++ d.signature ++ ascii " " ++ body

/-- The number of a parameter, counted from one. -/
def formal? (params : List Bytes) (name : Bytes) : Option Nat :=
  (params.findIdx? (· = name)).map (· + 1)

end Definition

end Preproc.Macro
