import Preproc.Settings.Basic
import Preproc.Yaml.Reader
import Preproc.Yaml.Scalar

set_option autoImplicit false

/-! # Settings from YAML

A settings file is a mapping whose known keys replace the defaults; other keys are ignored. A value
of the wrong kind makes the whole file unreadable. A mapping may take over entries of others, which
give way to its own. -/

namespace Preproc.Settings

/-- Why a settings file cannot be used. -/
inductive LoadError where
  /-- The text is no document, or a value has the wrong kind. -/
  | unreadable
  | invalid (error : Error)
  deriving DecidableEq

/-- The wording of an error. -/
def LoadError.message : LoadError → Bytes
  | unreadable => ascii "parsing config"
  | invalid error => error.message

/-! ## Values -/

/-- A value itself in the place of its name; `none` for one that contains itself. -/
def target? : Yaml.Node → Option Yaml.Node
  | .alias _ target => target
  | node => some node

/-- The scalar that a value is, if it is one. -/
def scalar? (node : Yaml.Node) : Option Yaml.Scalar :=
  match target? node with
  | some (.scalar tag isPlain text) => Yaml.scalar? tag isPlain text
  | _ => none

/-- The strings of items, in which empty values are left out. -/
def strings? : List Yaml.Node → Option (List Bytes)
  | [] => some []
  | item :: rest =>
    match scalar? item, strings? rest with
    | some s, some more => some (if s.meaning = .null then more else s.text :: more)
    | _, _ => none

/-- The strings of a list. Nothing at all is the empty list. -/
def stringList? (node : Yaml.Node) : Option (List Bytes) :=
  match target? node with
  | some (.sequence items) => strings? items
  | _ =>
    match scalar? node with
    | some s => if s.meaning = .null then some [] else none
    | none => none

/-- A floating-point number as a whole number of 64 bits. The first one that is too large and those
    that are too small become the smallest whole number. -/
def wholeOfFloat? (n : Int) : Option Int :=
  if n < -signedBound ∨ n = signedBound then some (-signedBound)
  else if n < signedBound then some n
  else none

/-- A whole number in the place of `current`. Nothing at all changes nothing. -/
def int? (current : Int) (node : Yaml.Node) : Option Int :=
  match scalar? node with
  | none => none
  | some s =>
    match s.meaning with
    | .null => some current
    | .int n => if n < signedBound then some n else none
    | .float n => wholeOfFloat? n
    | .endless true => some (-signedBound)
    | _ => none

/-- A truth value in the place of `current`. The words of older readers are taken too, with or
    without quotes. -/
def bool? (current : Bool) (node : Yaml.Node) : Option Bool :=
  match scalar? node with
  | none => none
  | some s =>
    match s.meaning with
    | .null => some current
    | .bool b => some b
    | .text =>
      if Yaml.isOldTrue s.text then some true
      else if Yaml.isOldFalse s.text then some false
      else none
    | _ => none

/-! ## Entries -/

/-- The settings that a file can make. -/
inductive Field where
  | defines
  | undefines
  | includeDirs
  | warnings
  | vendorDirectives
  | strict
  | lineMarkers
  | maxDepth
  | maxParams
  | maxMacros
  | maxIncludeDepth

/-- The fields by their keys. -/
def fields : List (String × Field) :=
  [("defines", .defines), ("undefines", .undefines), ("include_dirs", .includeDirs),
    ("warnings", .warnings), ("vendor_directives", .vendorDirectives), ("strict", .strict),
    ("line_markers", .lineMarkers), ("max_depth", .maxDepth), ("max_params", .maxParams),
    ("max_macros", .maxMacros), ("max_include_depth", .maxIncludeDepth)]

/-- The field with a given key. -/
def field? (key : Bytes) : Option Field :=
  (fields.find? fun entry => ascii entry.1 = key).map Prod.snd

/-- Give a field its value. -/
def fill? (s : Settings) (value : Yaml.Node) : Field → Option Settings
  | .defines => (stringList? value).map ({ s with defines := · })
  | .undefines => (stringList? value).map ({ s with undefines := · })
  | .includeDirs => (stringList? value).map ({ s with includeDirs := · })
  | .warnings => (stringList? value).map ({ s with warningNames := · })
  | .vendorDirectives => (stringList? value).map ({ s with vendorDirectives := · })
  | .strict => (bool? s.strict value).map ({ s with strict := · })
  | .lineMarkers => (bool? s.lineMarkers value).map ({ s with lineMarkers := · })
  | .maxDepth => (int? s.maxDepth value).map ({ s with maxDepth := · })
  | .maxParams => (int? s.maxParams value).map ({ s with maxParams := · })
  | .maxMacros => (int? s.maxMacros value).map ({ s with maxMacros := · })
  | .maxIncludeDepth => (int? s.maxIncludeDepth value).map ({ s with maxIncludeDepth := · })

/-- Whether two keys are written alike. -/
def sameKey : Yaml.Node → Yaml.Node → Bool
  | .scalar _ _ a, .scalar _ _ b => a = b
  | .alias a _, .alias b _ => a = b
  | .sequence _, .sequence _ => true
  | .mapping _, .mapping _ => true
  | _, _ => false

/-- Whether a key is written twice. -/
def repeatsKey : List (Yaml.Node × Yaml.Node) → Bool
  | [] => false
  | (key, _) :: rest => rest.any (fun entry => sameKey key entry.1) || repeatsKey rest

/-- The key whose value is a mapping, or several, from which entries are taken over. -/
def isMergeKey : Yaml.Node → Bool
  | .scalar none isPlain text => isPlain && text = ascii "<<"
  | .scalar (some tag) _ text => Yaml.shortTag tag = ascii "!!merge" && text = ascii "<<"
  | _ => false

/-- Settings as far as they were read, with the keys that were seen. -/
structure Filled where
  settings : Settings := {}
  seen : List Bytes := []

/-- Apply the entries of a mapping in order. A key that was seen before is passed over in entries
    that are taken over; elsewhere no field may be set twice. Empty keys are ignored. -/
def applyEntries? (takenOver : Bool) (f : Filled) :
    List (Yaml.Node × Yaml.Node) → Option Filled
  | [] => some f
  | (key, value) :: rest =>
    if isMergeKey key then applyEntries? takenOver f rest
    else match scalar? key with
      | none => none
      | some k =>
        if k.meaning = .null then applyEntries? takenOver f rest
        else
          let again := f.seen.contains k.text
          match field? k.text with
          | none => applyEntries? takenOver { f with seen := k.text :: f.seen } rest
          | some field =>
            if again then
              if takenOver then applyEntries? takenOver f rest else none
            else match fill? f.settings value field with
              | none => none
              | some settings => applyEntries? takenOver ⟨settings, k.text :: f.seen⟩ rest

mutual

/-- Take over the entries of a mapping, and then what it takes over itself; of several mappings in
    turn, where that is allowed. -/
def takeOver? (several : Bool) (f : Filled) : Yaml.Node → Option Filled
  | .mapping entries =>
    if repeatsKey entries then none
    else match applyEntries? true f entries with
      | none => none
      | some f => takeOverEntries? f entries
  | .alias _ (some target) => takeOver? false f target
  | .sequence items => if several then takeOverItems? f items else none
  | _ => none
termination_by structural node => node

/-- Take over what the entries of a mapping ask for. -/
def takeOverEntries? (f : Filled) : List (Yaml.Node × Yaml.Node) → Option Filled
  | [] => some f
  | (key, value) :: rest =>
    if isMergeKey key then takeOver? true f value else takeOverEntries? f rest
termination_by structural entries => entries

/-- Take over the entries of several mappings. -/
def takeOverItems? (f : Filled) : List Yaml.Node → Option Filled
  | [] => some f
  | item :: rest =>
    match takeOver? false f item with
    | none => none
    | some f => takeOverItems? f rest
termination_by structural items => items

end

/-- The settings of a document over the defaults. -/
def ofNode? : Yaml.Node → Option Settings
  | .mapping entries =>
    if repeatsKey entries then none
    else match applyEntries? false {} entries with
      | none => none
      | some f => (takeOverEntries? f entries).map (·.settings)
  | node =>
    match scalar? node with
    | some s => if s.meaning = .null then some {} else none
    | none => none

/-- Read settings from a text. Warnings named there replace the default ones. -/
def ofYaml (text : Bytes) : Except LoadError Settings :=
  match (Yaml.read text).bind ofNode? with
  | none => .error .unreadable
  | some s =>
    let chosen : Except Error Settings :=
      if s.warningNames.isEmpty then .ok s
      else match WarningSet.ofNames s.warningNames with
        | .ok warnings => .ok { s with warnings }
        | .error name => .error (.unknownWarning name)
    match chosen with
    | .error e => .error (.invalid e)
    | .ok s =>
      match s.validate with
      | .ok () => .ok s
      | .error e => .error (.invalid e)

end Preproc.Settings
