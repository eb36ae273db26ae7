import Preproc.Text.Blank
import Preproc.Text.Quoted

set_option autoImplicit false

/-! # Warning classes

Warnings come in classes, each of which is one bit of a set. A set says which classes are wanted,
and every warning carries the set of its own classes. Sets are chosen by name: a list of names is
read from left to right, each adding a class, removing one (`no-` before its name) or setting the
whole set. -/

namespace Preproc

/-- A set of warning classes, one bit for each. -/
structure WarningSet where
  bits : UInt32
  deriving DecidableEq

namespace WarningSet

/-- No class at all; the set of a message that is no warning. -/
def none : WarningSet := ⟨0⟩

/-- A macro is defined again in another way. -/
def redefine : WarningSet := ⟨1⟩

/-- There are tokens left after a directive. -/
def trailing : WarningSet := ⟨2⟩

/-- The number of macros or the nesting comes close to a limit. -/
def limits : WarningSet := ⟨4⟩

/-- There are several `##` in one replacement list. -/
def paste : WarningSet := ⟨8⟩

/-- A directive in skipped text is malformed. -/
def skipped : WarningSet := ⟨16⟩

/-- The source itself asks for a warning. -/
def directive : WarningSet := ⟨32⟩

/-- The single classes with their names. -/
def classes : List (Bytes × WarningSet) :=
  [(ascii "redefine", redefine), (ascii "trailing", trailing), (ascii "limits", limits),
    (ascii "paste", paste), (ascii "skipped", skipped), (ascii "directive", directive)]

/-- The classes in either of two sets. -/
def union (a b : WarningSet) : WarningSet := ⟨a.bits ||| b.bits⟩

/-- The classes of the first set that are not in the second. -/
def diff (a b : WarningSet) : WarningSet := ⟨a.bits &&& ~~~b.bits⟩

/-- Whether two sets share a class. -/
def meets (a b : WarningSet) : Bool := a.bits &&& b.bits != 0

/-- Every named class. -/
def all : WarningSet := classes.foldl (fun set entry => set.union entry.2) none

/-- The classes that are wanted when nothing else is said. -/
def default : WarningSet := ((redefine.union trailing).union limits).union directive

/-- The names of the classes in a set. -/
def classNames (set : WarningSet) : List Bytes :=
  (classes.filter fun entry => set.meets entry.2).map (·.1)

/-- A set as text: its class names, or its bits when it has none of the named classes. -/
def name (set : WarningSet) : Bytes :=
  if set = none then ascii "none"
  else if set.classNames.isEmpty then
    ascii "warn(0x" ++ hex 1 set.bits.toNat ++ ascii ")"
  else joinWith (ascii "|") set.classNames

/-! ## Sets by name -/

/-- The lower-case form of a code point, where that is an ASCII letter. -/
def lowerAscii? (code : Nat) : Option UInt8 :=
  if 65 ≤ code ∧ code ≤ 90 then some (code + 32).toUInt8
  else if code = 0x130 then some (byte 'i')
  else if code = 0x212A then some (byte 'k')
  else Option.none

/-- A text with every letter whose lower-case form is ASCII in that form. Other letters stay: no
    class name holds them. -/
def foldCase (text : Bytes) : Bytes :=
  (runes text).flatMap fun
    | .scalar code bytes => ((lowerAscii? code).map ([·])).getD bytes
    | .stray b => [b]

/-- The single class with a given name. -/
def class? (name : Bytes) : Option WarningSet :=
  (classes.find? (·.1 = name)).map (·.2)

/-- The effect of one name on the set chosen so far; `none` when the name is not known. Case and
    surrounding blanks do not matter. -/
def withName? (set : WarningSet) (raw : Bytes) : Option WarningSet :=
  let name := foldCase (trimBlank raw)
  if name.isEmpty then some set
  else if name = ascii "all" then some all
  else if name = ascii "none" then some none
  else if name = ascii "default" then some (set.union default)
  else if (ascii "no-").isPrefixOf name then (class? (name.drop 3)).map set.diff
  else (class? name).map set.union

/-- The set that a list of names chooses, starting from `set`; an unknown name is the error. -/
def ofNamesFrom (set : WarningSet) : List Bytes → Except Bytes WarningSet
  | [] => .ok set
  | raw :: names =>
    match withName? set raw with
    | some set => ofNamesFrom set names
    | Option.none => .error raw

/-- The set that a list of names chooses. -/
def ofNames (names : List Bytes) : Except Bytes WarningSet :=
  ofNamesFrom none names

/-- The wording of the error for an unknown name. -/
def unknownMessage (raw : Bytes) : Bytes :=
  ascii "unknown warning class " ++ quoted raw

end WarningSet

end Preproc
