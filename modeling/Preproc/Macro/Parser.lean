import Preproc.Diagnostic.Warning
import Preproc.Macro.Table
import Preproc.Token.Cursor

set_option autoImplicit false

/-! # Reading definitions

What follows `#define`: a name, a parameter list when a parenthesis touches the name, and the
replacement list. Both lists are read token by token, each reader keeping what it has to remember
in a state. -/

namespace Preproc.Macro

/-- The settings that matter for definitions. -/
structure Limits where
  strict : Bool
  /-- How many parameters a macro may have; a number that is not positive stands for 127. -/
  maxParams : Int

/-- The number of parameters that is allowed. -/
def Limits.paramLimit (l : Limits) : Int :=
  if l.maxParams ≤ 0 then 127 else l.maxParams

/-- Why a definition or a macro name is refused. -/
inductive Refusal where
  | noName (directive : Bytes)
  | notIdentifier
  | definedAsName
  /-- The name of the variadic parameter stands where it may not. -/
  | variadicMisplaced
  | missingBlank
  | unclosedParams
  | unclosedEllipsis
  | expectedParam (found : Bytes)
  | variadicParam
  | duplicateParam (name : Bytes)
  | tooManyParams (name : Bytes) (limit : Int)
  | namedVariadic (name : Bytes)
  | expectedSeparator (found : Bytes)
  | pasteAtEnd
  | pasteAfterPaste
  | stringizeNonParam
  | locked (name : Bytes)
  deriving DecidableEq

/-- The wording of a refusal. -/
def Refusal.message : Refusal → Bytes
  | noName directive => ascii "no macro name given in #" ++ directive ++ ascii " directive"
  | notIdentifier => ascii "macro names must be identifiers"
  | definedAsName => ascii "\"defined\" cannot be used as a macro name"
  | variadicMisplaced =>
    variadicName ++ ascii " can only appear in the expansion of a variadic macro"
  | missingBlank => ascii "missing whitespace after the macro name"
  | unclosedParams => ascii "missing ')' in macro parameter list"
  | unclosedEllipsis => ascii "missing ')' after \"...\" in macro parameter list"
  | expectedParam found => ascii "expected parameter name, found \"" ++ found ++ ascii "\""
  | variadicParam => variadicName ++ ascii " can not be used as a parameter name"
  | duplicateParam name => ascii "duplicate macro parameter \"" ++ name ++ ascii "\""
  | tooManyParams name limit =>
    ascii "too many parameters in macro \"" ++ name ++ ascii "\" (limit " ++ decimal limit
      ++ ascii ")"
  | namedVariadic name =>
    ascii "named variadic parameter \"" ++ name ++ ascii "\" is not allowed in strict mode"
  | expectedSeparator found => ascii "expected ',' or ')', found \"" ++ found ++ ascii "\""
  | pasteAtEnd => ascii "'##' cannot appear at either end of a macro expansion"
  | pasteAfterPaste => ascii "'##' cannot follow another '##'"
  | stringizeNonParam => ascii "'#' is not followed by a macro parameter"
  | locked name => ascii "cannot redefine protected macro \"" ++ name ++ ascii "\""

/-- What a definition gives rise to besides itself. -/
inductive Notice where
  /-- Another definition of the name is replaced. -/
  | redefined (name : Bytes) (previous : Position)
  /-- The order in which several `##` act is not fixed. -/
  | manyPastes (name : Bytes) (count : Nat)
  deriving DecidableEq

/-- The class of a notice. -/
def Notice.classes : Notice → WarningSet
  | redefined .. => .redefine
  | manyPastes .. => .paste

/-- A place as it is named in a notice about a definition. -/
def showOrigin (pos : Position) : Bytes :=
  if pos.file.isEmpty && pos.line = 0 then ascii "<builtin>" else pos.showLine

/-- The wording of a notice. -/
def Notice.message : Notice → Bytes
  | redefined name previous =>
    ascii "\"" ++ name ++ ascii "\" redefined (previous definition at " ++ showOrigin previous
      ++ ascii ")"
  | manyPastes name count =>
    ascii "macro \"" ++ name ++ ascii "\" uses '##' " ++ decimal count
      ++ ascii " times; the order of evaluation is unspecified"

/-- Refuse a token that cannot name a macro in the given directive. -/
def checkName (t : Token) (directive : Bytes) : Except (Located Refusal) Unit :=
  if t.kind = .endOfLine then .error ⟨t.pos, .noName directive⟩
  else if t.kind ≠ .ident then .error ⟨t.pos, .notIdentifier⟩
  else if t.text = ascii "defined" then .error ⟨t.pos, .definedAsName⟩
  else if t.text = variadicName then .error ⟨t.pos, .variadicMisplaced⟩
  else .ok ()

/-! ## Parameters -/

/-- What is expected next in a parameter list. -/
inductive ParamState where
  /-- A parameter, or the end of an empty list. -/
  | first
  /-- A parameter after a comma. -/
  | next
  /-- What follows a parameter. -/
  | separator (name : Bytes)
  /-- The end of the list after an ellipsis. -/
  | closing
  deriving DecidableEq

/-- A parameter list and what follows it. -/
structure Params where
  names : List Bytes
  variadic : Bool
  rest : List Token

/-- Read a parameter list after its opening parenthesis. -/
def readParams (limits : Limits) (macroName : Bytes) (eol : Token) :
    ParamState → List Bytes → List Token → Except (Located Refusal) Params
  | .closing, _, [] => .error ⟨eol.pos, .unclosedEllipsis⟩
  | _, _, [] => .error ⟨eol.pos, .unclosedParams⟩
  | state, names, t :: rest =>
    if t.isSpace then readParams limits macroName eol state names rest
    else match state with
      | .closing =>
        if t.is .rightParen then .ok ⟨names, true, rest⟩
        else .error ⟨t.pos, .unclosedEllipsis⟩
      | .separator name =>
        if t.is .ellipsis then
          if limits.strict then .error ⟨t.pos, .namedVariadic name⟩
          else readParams limits macroName eol .closing names rest
        else if t.is .comma then readParams limits macroName eol .next names rest
        else if t.is .rightParen then .ok ⟨names, false, rest⟩
        else .error ⟨t.pos, .expectedSeparator t.text⟩
      | .first | .next =>
        if t.is .rightParen && state = .first then .ok ⟨names, false, rest⟩
        else if t.is .ellipsis then
          readParams limits macroName eol .closing (names ++ [variadicName]) rest
        else if !t.isIdent then .error ⟨t.pos, .expectedParam t.text⟩
        else if t.text = variadicName then .error ⟨t.pos, .variadicParam⟩
        else if names.contains t.text then .error ⟨t.pos, .duplicateParam t.text⟩
        else if limits.paramLimit ≤ names.length then
          .error ⟨t.pos, .tooManyParams macroName limits.paramLimit⟩
        else readParams limits macroName eol (.separator t.text) (names ++ [t.text]) rest

/-! ## Replacement lists -/

/-- A replacement list of which more is to come. -/
structure BodyState where
  /-- The items so far, the last one first. -/
  items : List Item := []
  /-- Whether there was whitespace after the last item. -/
  pendingSpace : Bool := false
  /-- How many `##` there were. -/
  pastes : Nat := 0
  /-- Where the last `##` stands. -/
  lastPaste : Position := {}
  /-- Where a `#` stands whose operand is still to come. -/
  hash : Option Position := none

namespace BodyState

/-- Add an item, after the blank that is due before it. -/
def push (s : BodyState) (item : Item) : BodyState :=
  { s with items := item :: s.items, pendingSpace := false }

/-- Add the blank that is due before the next item: none at the start and none after `##`. -/
def settleSpace (s : BodyState) : BodyState :=
  if s.pendingSpace && s.items.head? ≠ some .paste then
    { s with items := .space :: s.items, pendingSpace := false }
  else { s with pendingSpace := false }

end BodyState

/-- The item for a token that is neither whitespace nor an operator. -/
def itemOf (name : Bytes) (params : List Bytes) (t : Token) : Except (Located Refusal) Item :=
  if t.isIdent then
    match Definition.formal? params t.text with
    | some index => .ok (.param index)
    | none =>
      if t.text = variadicName then .error ⟨t.pos, .variadicMisplaced⟩
      else if t.text = name then .ok (.selfRef t.text)
      else .ok (.literal t.text)
  else .ok (.literal t.text)

/-- Take one token into a replacement list. -/
def BodyState.step (d : Definition) (s : BodyState) (t : Token) :
    Except (Located Refusal) BodyState :=
  match s.hash with
  | some hashPos =>
    if t.isSpace then .ok s
    else match if t.isIdent then Definition.formal? d.params t.text else none with
      | some index => .ok { s.push (.stringize index) with hash := none }
      | none => .error ⟨hashPos, .stringizeNonParam⟩
  | none =>
    if t.isSpace then .ok { s with pendingSpace := !s.items.isEmpty }
    else if t.is .paste then
      match s.items.head? with
      | none => .error ⟨t.pos, .pasteAtEnd⟩
      | some .paste => .error ⟨t.pos, .pasteAfterPaste⟩
      -- whitespace that was noted before the operator is forgotten
      | some _ => .ok { s.push .paste with pastes := s.pastes + 1, lastPaste := t.pos }
    else if t.is .hash && d.functionLike then .ok { s.settleSpace with hash := some t.pos }
    else match itemOf d.name d.params t with
      | .ok item => .ok (s.settleSpace.push item)
      | .error e => .error e

/-- Take all tokens into a replacement list. -/
def BodyState.run (d : Definition) : BodyState → List Token → Except (Located Refusal) BodyState
  | s, [] => .ok s
  | s, t :: rest =>
    match s.step d t with
    | .ok s => BodyState.run d s rest
    | .error e => .error e

/-- The replacement list of a macro whose name and parameters are known, and how many `##` it
    has. -/
def readBody (d : Definition) (toks : List Token) : Except (Located Refusal) (Replacement × Nat) :=
  match BodyState.run d {} toks with
  | .error e => .error e
  | .ok s =>
    match s.hash with
    | some hashPos => .error ⟨hashPos, .stringizeNonParam⟩
    | none =>
      if s.items.head? = some .paste then .error ⟨s.lastPaste, .pasteAtEnd⟩
      else .ok (s.items.reverse, s.pastes)

/-! ## Definitions -/

/-- A definition that was read, with the notice about it, if there is one. -/
structure Parsed where
  definition : Definition
  notice : Option Notice

/-- Read the name and the parameter list. What is left is the replacement list. -/
def readHead (limits : Limits) (c : Cursor) : Except (Located Refusal) (Definition × List Token) :=
  let (nameTok, c) := c.nextNonSpace
  match checkName nameTok (ascii "define") with
  | .error e => .error e
  | .ok () =>
    let d : Definition := { name := nameTok.text, definedAt := nameTok.pos }
    match c.after with
    | [] => .ok (d, [])
    | t :: rest =>
      -- only a parenthesis that touches the name opens a parameter list
      if t.is .leftParen then
        match readParams limits d.name c.eol .first [] rest with
        | .error e => .error e
        | .ok ps =>
          .ok ({ d with functionLike := true, params := ps.names, variadic := ps.variadic }, ps.rest)
      else if t.isSpace then .ok (d, t :: rest)
      else if limits.strict then .error ⟨t.pos, .missingBlank⟩
      else .ok (d, t :: rest)

/-- Read a definition: what follows the keyword `define`. -/
def parse (limits : Limits) (c : Cursor) : Except (Located Refusal) Parsed :=
  match readHead limits c with
  | .error e => .error e
  | .ok (head, toks) =>
    match readBody head toks with
    | .error e => .error e
    | .ok (body, pastes) =>
      .ok {
        definition := { head with body }
        notice := if 1 < pastes then some (.manyPastes head.name pastes) else none }

/-- What a definition did to a table. -/
structure Defined where
  table : Table
  /-- The definition that is in the table now. -/
  definition : Definition
  /-- Whether that is the new definition, and not an equal one that was there before. -/
  isNew : Bool
  notice : Option Notice := none
  ceiling : Option Ceiling := none

/-- Define a macro. An equal definition is kept, a different one is replaced with a notice, and a
    locked one cannot be replaced. -/
def define (t : Table) (d : Definition) : Except (Located Refusal) Defined :=
  let slot := t.findSlot d.name
  let locked : Located Refusal := ⟨d.definedAt, .locked d.name⟩
  let store (notice : Option Notice) : Except (Located Refusal) Defined :=
    match t.install? d slot with
    | some (table, ceiling) => .ok { table, definition := d, isNew := true, notice, ceiling }
    | none => .error locked
  match (t.at? slot).filter t.visible with
  | some current =>
    if current.origin = .locked then .error locked
    else if current.sameAs d then .ok { table := t, definition := current, isNew := false }
    else store (some (.redefined d.name current.definedAt))
  | none => store none

end Preproc.Macro
