import Preproc.Yaml.Layout
import Preproc.Yaml.Node

set_option autoImplicit false

/-! # Reading YAML

The tokens of a document form a tree. The readers return `none` where they do not, and each takes a
number of steps that it may still make; the number of tokens is enough of them. -/

namespace Preproc.Yaml

/-- A named value; `none` as long as its end was not seen. -/
structure Anchor where
  name : Bytes
  node : Option Node

/-- What is known while a document is read. -/
structure Scope where
  /-- The meaning of the handles of tags. -/
  handles : List (Bytes × Bytes) := []
  /-- The named values, the last first. -/
  anchors : List Anchor := []

namespace Scope

/-- Give a value its name, if it has one. -/
def bind (s : Scope) (name : Option Bytes) (node : Option Node) : Scope :=
  match name with
  | some name => { s with anchors := ⟨name, node⟩ :: s.anchors }
  | none => s

/-- Complete the value that was named when `number` others had been. -/
def complete (s : Scope) (name : Option Bytes) (number : Nat) (node : Node) : Scope :=
  match name with
  | some name =>
    { s with anchors := s.anchors.set (s.anchors.length - 1 - number) ⟨name, some node⟩ }
  | none => s

/-- The meaning of a handle; two of them need not be declared. -/
def handle? (s : Scope) (handle : Bytes) : Option Bytes :=
  match s.handles.lookup handle with
  | some meaning => some meaning
  | none =>
    if handle = ascii "!" then some (ascii "!")
    else if handle = ascii "!!" then some (ascii "tag:yaml.org,2002:")
    else none

/-- A tag in full; `none` for a handle that was not declared. -/
def tag? (s : Scope) (handle suffix : Bytes) : Option Bytes :=
  if handle.isEmpty then some suffix
  else match s.handle? handle with
    | some meaning => if (meaning ++ suffix).isEmpty then none else some (meaning ++ suffix)
    | none => none

end Scope

/-- What stands before a value. -/
structure Properties where
  anchor : Option Bytes := none
  tag : Option Bytes := none

/-- Read what stands before a value: an anchor and a tag, in either order. -/
def readProperties (s : Scope) : List Token → Option (Properties × List Token)
  | .anchor name :: .tag handle suffix :: rest =>
    (s.tag? handle suffix).map fun tag => (⟨some name, some tag⟩, rest)
  | .tag handle suffix :: .anchor name :: rest =>
    (s.tag? handle suffix).map fun tag => (⟨some name, some tag⟩, rest)
  | .anchor name :: rest => some (⟨some name, none⟩, rest)
  | .tag handle suffix :: rest =>
    (s.tag? handle suffix).map fun tag => (⟨none, some tag⟩, rest)
  | tokens => some ({}, tokens)

/-- A value that was read, and what follows it. -/
structure Read (α : Type) where
  result : α
  scope : Scope
  rest : List Token

/-- Whether a place for a value outside brackets is left empty. -/
def isLeftEmpty (inSequence : Bool) : List Token → Bool
  | .item :: _ => inSequence
  | .key :: _ => !inSequence
  | .value :: _ => !inSequence
  | .blockEnd :: _ => true
  | _ => false

/-- Whether a place for an item of a sequence at the column of its mapping is left empty. -/
def isItemLeftEmpty (tokens : List Token) : Bool :=
  isLeftEmpty true tokens || isLeftEmpty false tokens

/-- Whether a place for a value between brackets is left empty. -/
def isFlowLeftEmpty (close : Token) : List Token → Bool
  | t :: _ => t = .comma || t = close
  | [] => false

mutual

/-- Read a value. Collections by indentation are read only where `isBlock` is set, and a sequence at
    the column of its mapping only where `atKey` is. -/
def readNode (isBlock atKey : Bool) (steps : Nat) (s : Scope) (tokens : List Token) :
    Option (Read Node) :=
  match steps with
  | 0 => none
  | steps + 1 =>
    match tokens with
    | .alias name :: rest =>
      (s.anchors.find? (·.name = name)).map fun anchor => ⟨.alias name anchor.node, s, rest⟩
    | _ =>
      match readProperties s tokens with
      | none => none
      | some (p, tokens) =>
        let number := s.anchors.length
        let opened := s.bind p.anchor none
        let collected (r : Option (Read Node)) : Option (Read Node) :=
          r.map fun r => { r with scope := r.scope.complete p.anchor number r.result }
        let scalar (isPlain : Bool) (text : Bytes) (rest : List Token) : Option (Read Node) :=
          let node := Node.scalar (p.tag.filter (· != ascii "!")) isPlain text
          some ⟨node, s.bind p.anchor (some node), rest⟩
        match tokens with
        | .scalar isPlain text :: rest => scalar isPlain text rest
        | .openBracket :: rest => collected (readFlowItems true [] steps opened rest)
        | .openBrace :: rest => collected (readFlowEntries true [] steps opened rest)
        | .item :: _ =>
          if atKey then collected (readItemsAtKey [] steps opened tokens)
          else if p.anchor.isSome || p.tag.isSome then scalar true [] tokens
          else none
        | .sequenceStart :: rest =>
          if isBlock then collected (readItems [] steps opened rest)
          else if p.anchor.isSome || p.tag.isSome then scalar true [] tokens
          else none
        | .mappingStart :: rest =>
          if isBlock then collected (readEntries [] steps opened rest)
          else if p.anchor.isSome || p.tag.isSome then scalar true [] tokens
          else none
        | [] => none
        | _ => if p.anchor.isSome || p.tag.isSome then scalar true [] tokens else none

/-- The items of a sequence by indentation, up to its end. -/
def readItems (items : List Node) (steps : Nat) (s : Scope) (tokens : List Token) :
    Option (Read Node) :=
  match steps with
  | 0 => none
  | steps + 1 =>
    match tokens with
    | .blockEnd :: rest => some ⟨.sequence items.reverse, s, rest⟩
    | .item :: rest =>
      if isLeftEmpty true rest then readItems (.null :: items) steps s rest
      else match readNode true false steps s rest with
        | none => none
        | some r => readItems (r.result :: items) steps r.scope r.rest
    | _ => none

/-- The items of a sequence at the column of its mapping. -/
def readItemsAtKey (items : List Node) (steps : Nat) (s : Scope) (tokens : List Token) :
    Option (Read Node) :=
  match steps with
  | 0 => none
  | steps + 1 =>
    match tokens with
    | .item :: rest =>
      if isItemLeftEmpty rest then readItemsAtKey (.null :: items) steps s rest
      else match readNode true false steps s rest with
        | none => none
        | some r => readItemsAtKey (r.result :: items) steps r.scope r.rest
    | [] => none
    | _ => some ⟨.sequence items.reverse, s, tokens⟩

/-- The entries of a mapping by indentation, up to its end. -/
def readEntries (entries : List (Node × Node)) (steps : Nat) (s : Scope) (tokens : List Token) :
    Option (Read Node) :=
  match steps with
  | 0 => none
  | steps + 1 =>
    match tokens with
    | .blockEnd :: rest => some ⟨.mapping entries.reverse, s, rest⟩
    | .key :: rest =>
      match readPart true (isLeftEmpty false rest) steps s rest with
      | none => none
      | some k =>
        match k.rest with
        | .value :: rest =>
          match readPart true (isLeftEmpty false rest) steps k.scope rest with
          | none => none
          | some v => readEntries ((k.result, v.result) :: entries) steps v.scope v.rest
        | [] => none
        | rest => readEntries ((k.result, .null) :: entries) steps k.scope rest
    | _ => none

/-- The key or value of an entry, unless its place is left empty. -/
def readPart (isBlock leftEmpty : Bool) (steps : Nat) (s : Scope) (tokens : List Token) :
    Option (Read Node) :=
  match steps with
  | 0 => none
  | steps + 1 =>
    if leftEmpty then some ⟨.null, s, tokens⟩ else readNode isBlock isBlock steps s tokens

/-- The items of a sequence between brackets. Between two of them stands a comma; a key begins a
    mapping of one entry. -/
def readFlowItems (isFirst : Bool) (items : List Node) (steps : Nat) (s : Scope)
    (tokens : List Token) : Option (Read Node) :=
  match steps with
  | 0 => none
  | steps + 1 =>
    let next : Option (List Token) := match isFirst, tokens with
      | true, _ => some tokens
      | false, .comma :: rest => some rest
      | false, .closeBracket :: _ => some tokens
      | false, _ => none
    match next with
    | none => none
    | some (.closeBracket :: rest) => some ⟨.sequence items.reverse, s, rest⟩
    | some (.key :: rest) =>
      match readPair steps s rest with
      | none => none
      | some r => readFlowItems false (r.result :: items) steps r.scope r.rest
    | some rest =>
      match readNode false false steps s rest with
      | none => none
      | some r => readFlowItems false (r.result :: items) steps r.scope r.rest

/-- A mapping of one entry as an item between brackets. A sign in the place of its key is passed
    over. -/
def readPair (steps : Nat) (s : Scope) (tokens : List Token) : Option (Read Node) :=
  match steps with
  | 0 => none
  | steps + 1 =>
    let key : Option (Read Node) := match tokens with
      | .value :: rest => some ⟨.null, s, rest⟩
      | .comma :: rest => some ⟨.null, s, rest⟩
      | .closeBracket :: rest => some ⟨.null, s, rest⟩
      | _ => readNode false false steps s tokens
    match key with
    | none => none
    | some k =>
      match k.rest with
      | .value :: rest =>
        match readPart false (isFlowLeftEmpty .closeBracket rest) steps k.scope rest with
        | none => none
        | some v => some ⟨.mapping [(k.result, v.result)], v.scope, v.rest⟩
      | [] => none
      | rest => some ⟨.mapping [(k.result, .null)], k.scope, rest⟩

/-- The entries of a mapping between braces. -/
def readFlowEntries (isFirst : Bool) (entries : List (Node × Node)) (steps : Nat) (s : Scope)
    (tokens : List Token) : Option (Read Node) :=
  match steps with
  | 0 => none
  | steps + 1 =>
    let next : Option (List Token) := match isFirst, tokens with
      | true, _ => some tokens
      | false, .comma :: rest => some rest
      | false, .closeBrace :: _ => some tokens
      | false, _ => none
    match next with
    | none => none
    | some (.closeBrace :: rest) => some ⟨.mapping entries.reverse, s, rest⟩
    | some (.key :: rest) =>
      let leftEmpty := rest.head? = some .value || isFlowLeftEmpty .closeBrace rest
      match readPart false leftEmpty steps s rest with
      | none => none
      | some k =>
        match k.rest with
        | .value :: rest =>
          match readPart false (isFlowLeftEmpty .closeBrace rest) steps k.scope rest with
          | none => none
          | some v => readFlowEntries false ((k.result, v.result) :: entries) steps v.scope v.rest
        | [] => none
        | rest => readFlowEntries false ((k.result, .null) :: entries) steps k.scope rest
    | some rest =>
      match readNode false false steps s rest with
      | none => none
      | some k => readFlowEntries false ((k.result, .null) :: entries) steps k.scope k.rest

end

/-! ## Documents -/

/-- Read the directives before a document. Only version 1.1 is known, and nothing may be said
    twice. -/
def readDirectives (versioned : Bool) (s : Scope) : List Token → Option (Scope × List Token)
  | .version major minor :: rest =>
    if versioned || major ≠ 1 || minor ≠ 1 then none else readDirectives true s rest
  | .tagHandle handle meaning :: rest =>
    if (s.handles.lookup handle).isSome then none
    else readDirectives versioned { s with handles := s.handles ++ [(handle, meaning)] } rest
  | tokens => some (s, tokens)

/-- Whether a document holds nothing. -/
def isDocumentEmpty : List Token → Bool
  | .version .. :: _ => true
  | .tagHandle .. :: _ => true
  | .documentStart :: _ => true
  | .documentEnd :: _ => true
  | .streamEnd :: _ => true
  | _ => false

/-- Read the value of a document; something must follow it, if only the end of the text. -/
def readContent (s : Scope) (tokens : List Token) : Option Node :=
  match readNode true false (3 * tokens.length + 3) s tokens with
  | some r => if r.rest.isEmpty then none else some r.result
  | none => none

/-- The first document of a list of tokens, which is empty where there is none. -/
def documentOf (tokens : List Token) : Option Node :=
  match tokens with
  | [] => none
  | .streamEnd :: _ => some .null
  | .version .. :: _ | .tagHandle .. :: _ | .documentStart :: _ =>
    match readDirectives false {} tokens with
    | some (s, .documentStart :: rest) =>
      if isDocumentEmpty rest then some .null else readContent s rest
    | _ => none
  | _ => readContent {} tokens

/-- Read the first document of a text. -/
def read (text : Bytes) : Option Node :=
  match marks? text with
  | some text => documentOf (tokens text)
  | none => none

end Preproc.Yaml
