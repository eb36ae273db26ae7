import Preproc.Diagnostic.Basic

set_option autoImplicit false

/-! # Diagnostics as text

Diagnostics are written one after the other, each as a line for people (plain or with colours) or
as a record for programs (fields with values, or a JSON object). -/

namespace Preproc

/-- The ways of writing diagnostics. -/
inductive DiagnosticFormat where
  | plain
  | colour
  | fields
  | json
  deriving DecidableEq

namespace Diagnostic

/-- A diagnostic as one line of text without its end: the place, when it is known, the severity
    and the message. -/
def render (d : Diagnostic) : Bytes :=
  (if d.pos.file.isEmpty && d.pos.line ≤ 0 then [] else d.pos.render ++ ascii ": ")
    ++ d.severity.name ++ ascii ": " ++ d.message

/-- The control sequence of a display attribute. -/
def sgr (code : String) : Bytes :=
  27 :: ascii "[" ++ ascii code ++ ascii "m"

/-- A diagnostic for a terminal: the place bold, the severity yellow or red. -/
def renderColour (d : Diagnostic) : Bytes :=
  let shade := if d.severity = .warning then sgr "33" else sgr "31"
  sgr "1" ++ d.pos.render ++ ascii ":" ++ sgr "0" ++ ascii " " ++ shade
    ++ d.severity.name ++ ascii ":" ++ sgr "0" ++ ascii " " ++ d.message

/-! ## Records -/

/-- The level of a record: a fatal diagnostic is an error with a mark. -/
def level (d : Diagnostic) : Bytes :=
  if d.severity = .warning then ascii "warning" else ascii "error"

/-- The bytes that need no quotes in the value of a field. -/
def isBare (b : UInt8) : Bool :=
  isIdentPart b || (ascii "-./@^+").contains b

/-- One field of a record. -/
def field (name : String) (value : Bytes) : Bytes :=
  ascii name ++ ascii "=" ++ if value.all isBare then value else quoted value

/-- A diagnostic as fields in a fixed order; an empty message is left out. -/
def renderFields (d : Diagnostic) : Bytes :=
  joinWith (ascii " ") <|
    [field "level" d.level]
    ++ (if d.message.isEmpty then [] else [field "msg" d.message])
    ++ (if d.classes = .none then [] else [field "class" d.classes.name])
    ++ [field "column" (decimal d.pos.column)]
    ++ (if d.severity = .fatal then [field "fatal" (ascii "true")] else [])
    ++ [field "file" d.pos.file, field "line" (decimal d.pos.line)]

/-- How one unit of a text is written inside a JSON string. Angle brackets and the ampersand are
    escaped, so that a record can stand inside markup; a stray byte becomes the replacement
    character. -/
def jsonUnit : Rune → Bytes
  | .stray _ => ascii "\\ufffd"
  | .scalar code bytes =>
    if code = 34 ∨ code = 92 then backslash :: bytes
    else if code = 8 then ascii "\\b"
    else if code = 12 then ascii "\\f"
    else if code = 10 then ascii "\\n"
    else if code = 13 then ascii "\\r"
    else if code = 9 then ascii "\\t"
    else if code < 32 ∨ code = 60 ∨ code = 62 ∨ code = 38 ∨ code = 0x2028 ∨ code = 0x2029 then
      ascii "\\u" ++ hex 4 code
    else bytes

/-- A text as a JSON string. -/
def jsonString (text : Bytes) : Bytes :=
  doubleQuote :: (runes text).flatMap jsonUnit ++ [doubleQuote]

/-- A diagnostic as a JSON object with its keys in order; `time` says when it was made. -/
def renderJson (time : Bytes) (d : Diagnostic) : Bytes :=
  let entry (key : String) (value : Bytes) : Bytes := jsonString (ascii key) ++ ascii ":" ++ value
  ascii "\x7b" ++ joinWith (ascii ",") (
    (if d.classes = .none then [] else [entry "class" (jsonString d.classes.name)])
    ++ [entry "column" (decimal d.pos.column)]
    ++ (if d.severity = .fatal then [entry "fatal" (ascii "true")] else [])
    ++ [entry "file" (jsonString d.pos.file), entry "level" (jsonString d.level),
      entry "line" (decimal d.pos.line), entry "msg" (jsonString d.message),
      entry "time" (jsonString time)]) ++ ascii "\x7d"

/-- A diagnostic in one of the formats, with the end of its line. -/
def write (format : DiagnosticFormat) (time : Bytes) (d : Diagnostic) : Bytes :=
  let line := match format with
    | .plain => d.render
    | .colour => d.renderColour
    | .fields => d.renderFields
    | .json => d.renderJson time
  line ++ [newline]

end Diagnostic

end Preproc
