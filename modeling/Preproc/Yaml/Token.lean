import Preproc.Text.Bytes

set_option autoImplicit false

/-! # YAML tokens

What a document is made of once indentation has been turned into explicit beginnings and ends. -/

namespace Preproc.Yaml

/-- A token of a document. -/
inductive Token where
  | streamEnd
  /-- A line that names the version of the language. -/
  | version (major minor : Nat)
  /-- A line that gives a handle of tags its meaning. -/
  | tagHandle (handle meaning : Bytes)
  | documentStart
  | documentEnd
  | sequenceStart
  | mappingStart
  /-- The end of a collection that is laid out by indentation. -/
  | blockEnd
  | openBracket
  | closeBracket
  | openBrace
  | closeBrace
  /-- The dash before an item. -/
  | item
  | comma
  | key
  | value
  | alias (name : Bytes)
  | anchor (name : Bytes)
  /-- A tag with its handle, which is empty when the tag is written in full. -/
  | tag (handle suffix : Bytes)
  /-- A scalar; one that is not plain stands in quotes or in a block of its own. -/
  | scalar (isPlain : Bool) (text : Bytes)
  deriving DecidableEq

end Preproc.Yaml
