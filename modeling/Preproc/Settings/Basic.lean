import Preproc.Diagnostic.Warning

set_option autoImplicit false

/-! # Settings

Everything that a run is told beforehand: definitions, warnings, limits, and how output is laid
out. -/

namespace Preproc

/-- The settings of a run. -/
structure Settings where
  /-- Definitions to begin with, each `NAME`, `NAME=BODY` or `NAME(PARAMS)=BODY`. -/
  defines : List Bytes := []
  /-- Names to be dropped after that. -/
  undefines : List Bytes := []
  /-- Directories that are searched for included files. -/
  includeDirs : List Bytes := []
  /-- The names by which the warnings were chosen. -/
  warningNames : List Bytes := []
  /-- The warnings that are wanted. -/
  warnings : WarningSet := .default
  /-- Whether extensions are refused. -/
  strict : Bool := false
  /-- How many conditional groups may be open. -/
  maxDepth : Int := 64
  /-- How many parameters a macro may have. -/
  maxParams : Int := 127
  /-- The number of macros after which there is a warning; 0 for none. -/
  maxMacros : Int := 4096
  /-- How many files may be open. -/
  maxIncludeDepth : Int := 32
  /-- Directives that are accepted and ignored. -/
  vendorDirectives : List Bytes := [ascii "version", ascii "extension"]
  /-- Whether places are marked by `#line` and not kept by empty lines. -/
  lineMarkers : Bool := false
  deriving DecidableEq

namespace Settings

/-- The largest number of parameters that can be asked for. -/
def hardMaxParams : Int := 256

/-- What is wrong with settings. -/
inductive Error where
  | maxDepth (n : Int)
  | maxParams (n : Int)
  | maxMacros (n : Int)
  | maxIncludeDepth (n : Int)
  | unclosedParams (define : Bytes)
  | badDefineName (define : Bytes)
  | badUndefine (name : Bytes)
  | unknownWarning (name : Bytes)
  deriving DecidableEq

/-- The wording of an error. -/
def Error.message : Error → Bytes
  | maxDepth n => ascii "max_depth must be positive, got " ++ decimal n
  | maxParams n =>
    ascii "max_params must be in 1.." ++ decimal hardMaxParams ++ ascii ", got " ++ decimal n
  | maxMacros n => ascii "max_macros must not be negative, got " ++ decimal n
  | maxIncludeDepth n => ascii "max_include_depth must be positive, got " ++ decimal n
  | unclosedParams define =>
    ascii "invalid define " ++ quoted define ++ ascii ": unterminated parameter list"
  | badDefineName define =>
    ascii "invalid define " ++ quoted define ++ ascii ": macro names must be identifiers"
  | badUndefine name => ascii "invalid undefine " ++ quoted name
  | unknownWarning name => WarningSet.unknownMessage name

/-- A definition to begin with: the name with its parameters, and the body. -/
structure Define where
  head : Bytes
  body : Bytes
  deriving DecidableEq

/-- Read a definition to begin with. A name alone is defined as 1. -/
def Define.ofText (text : Bytes) : Except Error Define :=
  let (head, body) := (cut? (byte '=') text).getD (text, ascii "1")
  let named (name : Bytes) : Except Error Define :=
    if isIdent name then .ok ⟨head, body⟩ else .error (.badDefineName text)
  match cut? (byte '(') head with
  | some (name, _) =>
    if head.getLast? = some (byte ')') then named name else .error (.unclosedParams text)
  | none => named head

/-- Check the definitions to begin with. -/
def checkDefines : List Bytes → Except Error Unit
  | [] => .ok ()
  | text :: rest =>
    match Define.ofText text with
    | .ok _ => checkDefines rest
    | .error e => .error e

/-- Check settings: the limits first, then the definitions, then the names to be dropped. -/
def validate (s : Settings) : Except Error Unit :=
  if s.maxDepth ≤ 0 then .error (.maxDepth s.maxDepth)
  else if s.maxParams ≤ 0 ∨ hardMaxParams < s.maxParams then .error (.maxParams s.maxParams)
  else if s.maxMacros < 0 then .error (.maxMacros s.maxMacros)
  else if s.maxIncludeDepth ≤ 0 then .error (.maxIncludeDepth s.maxIncludeDepth)
  else match checkDefines s.defines with
    | .error e => .error e
    | .ok () =>
      match s.undefines.find? (fun name => !isIdent name) with
      | some name => .error (.badUndefine name)
      | none => .ok ()

/-- Whether a directive is accepted and ignored. -/
def isVendorDirective (s : Settings) (name : Bytes) : Bool :=
  s.vendorDirectives.contains name

end Settings

end Preproc
