import Preproc.Text.Bytes

set_option autoImplicit false

/-! # YAML documents

The tree that a document stands for. -/

namespace Preproc.Yaml

/-- A value in a document. -/
inductive Node where
  /-- A scalar, perhaps with a tag. One that is plain may stand for something other than its text. -/
  | scalar (tag : Option Bytes) (isPlain : Bool) (text : Bytes)
  | sequence (items : List Node)
  | mapping (entries : List (Node × Node))
  /-- Another value by its name; `none` when this value is part of the other one. -/
  | alias (name : Bytes) (target : Option Node)

/-- The value where nothing is written. -/
def Node.null : Node :=
  .scalar none true []

end Preproc.Yaml
