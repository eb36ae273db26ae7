import Preproc.Text.Bytes

set_option autoImplicit false

/-! # Directive keywords

The names that may follow `#`. A name is recognised by a hash of its length, its first and its
middle byte: no two keywords share a hash, so at most one keyword has to be compared. -/

namespace Preproc

/-- The known directives. -/
inductive Keyword where
  | define
  | undef
  | ifTrue
  | ifdef
  | ifndef
  | elif
  | otherwise
  | endif
  | includeFile
  | line
  | pragma
  | error
  | warning
  | version
  | extension
  deriving DecidableEq

namespace Keyword

/-- All keywords, in the order of their numeric codes. -/
def all : List Keyword :=
  [define, undef, ifTrue, ifdef, ifndef, elif, otherwise, endif, includeFile, line, pragma, error,
    warning, version, extension]

/-- The name of a keyword. -/
def name : Keyword → Bytes
  | define => ascii "define"
  | undef => ascii "undef"
  | ifTrue => ascii "if"
  | ifdef => ascii "ifdef"
  | ifndef => ascii "ifndef"
  | elif => ascii "elif"
  | otherwise => ascii "else"
  | endif => ascii "endif"
  | includeFile => ascii "include"
  | line => ascii "line"
  | pragma => ascii "pragma"
  | error => ascii "error"
  | warning => ascii "warning"
  | version => ascii "version"
  | extension => ascii "extension"

/-- The numeric code of a keyword, counted from one. -/
def code (k : Keyword) : Nat :=
  all.idxOf k + 1

/-- The code of the keyword that a name stands for, 0 when it stands for none. -/
def codeOf (k : Option Keyword) : Nat :=
  match k with
  | some k => k.code
  | none => 0

/-- The name shown for a numeric code, which may stand for no keyword. -/
def nameOfCode (code : Nat) : Bytes :=
  match all.find? (·.code = code) with
  | some k => k.name
  | none => ascii "keyword(" ++ decimal code ++ ascii ")"

/-- The directives that open, switch or close a conditional group. They are obeyed inside skipped
    text as well. -/
def isConditional : Keyword → Bool
  | ifTrue | ifdef | ifndef | elif | otherwise | endif => true
  | _ => false

/-- The hash of a name: its length, its first byte and its middle byte mixed into one byte. An
    empty name has none. -/
def hash? (name : Bytes) : Option UInt8 :=
  match name.head?, name[name.length / 2]? with
  | some first, some middle => some ((name.length.toUInt8 <<< 4) ^^^ first ^^^ (7 * middle))
  | _, _ => none

/-- The keyword that a directive's name stands for. -/
def ofName? (name : Bytes) : Option Keyword :=
  match hash? name with
  | none => none
  | some h =>
    match all.find? (fun k => hash? k.name = some h) with
    | some k => if k.name = name then some k else none
    | none => none

end Keyword

end Preproc
