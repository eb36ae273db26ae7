import Preproc.Macro.Definition

set_option autoImplicit false

/-! # The macro table

Definitions are kept in buckets chosen by a hash of the name, each bucket in strictly increasing
order of names, so that halving a bucket again and again finds a name or the place where it belongs.
The table counts its definitions and says once when there are more than a given number. -/

namespace Preproc.Macro

/-- Number of buckets. -/
abbrev bucketCount : Nat := 64

/-- The bucket of a name: its length and its bytes, summed. -/
def bucketOf (name : Bytes) : Fin bucketCount :=
  Fin.ofNat bucketCount (name.foldl (fun sum b => sum + b.toNat) name.length)

/-- Where a name stands, or would stand. -/
structure Slot where
  bucket : Fin bucketCount
  index : Nat
  /-- Whether the definition there has the name. -/
  exact : Bool
  deriving DecidableEq

/-- The macros that are defined. -/
structure Table where
  buckets : Vector (List Definition) bucketCount := Vector.replicate bucketCount []
  count : Nat := 0
  /-- Whether extensions are hidden. -/
  strict : Bool := false
  /-- The number of definitions after which a notice is due; none is ever due when this is not
      positive. -/
  maxMacros : Int := 0
  /-- Whether that notice was given. -/
  warned : Bool := false

/-- The notice that a table holds more definitions than it should. -/
structure Ceiling where
  count : Nat
  limit : Int
  deriving DecidableEq

namespace Table

/-- A table as it is before anything is defined. -/
def empty (maxMacros : Int) (strict : Bool) : Table :=
  { maxMacros, strict }

/-- The first number from `lo` on and below `hi` that `p` accepts, or `hi` when there is none, found
    by halving. Once `p` accepts a number it has to accept all later ones. -/
def searchFirst (p : Nat → Bool) (lo hi : Nat) : Nat :=
  if lo < hi then
    let mid := (lo + hi) / 2
    if p mid then searchFirst p lo mid else searchFirst p (mid + 1) hi
  else lo
termination_by hi - lo

/-- Where a name stands: before the first definition that does not sort before it. -/
def findSlot (t : Table) (name : Bytes) : Slot :=
  let bucket := bucketOf name
  let list := t.buckets[bucket]
  let index := searchFirst (fun i => list[i]?.any fun d => !bytesLt d.name name) 0 list.length
  { bucket, index, exact := list[index]?.any (·.name = name) }

/-- The definition at a slot that has the name looked for. -/
def at? (t : Table) (slot : Slot) : Option Definition :=
  if slot.exact then t.buckets[slot.bucket][slot.index]? else none

/-- Whether a definition can be seen. -/
def visible (t : Table) (d : Definition) : Bool :=
  !(t.strict && d.origin = .extension)

/-- The visible definition of a name. -/
def lookup (t : Table) (name : Bytes) : Option Definition :=
  (t.at? (t.findSlot name)).filter t.visible

/-- Whether a name has a visible definition. -/
def defined (t : Table) (name : Bytes) : Bool :=
  (t.lookup name).isSome

/-- The table with another list in one bucket. -/
def setBucket (t : Table) (bucket : Fin bucketCount) (list : List Definition) : Table :=
  { t with buckets := t.buckets.set bucket.val list bucket.isLt }

/-- Put a definition in the place of the one at a slot. -/
def replace (t : Table) (slot : Slot) (d : Definition) : Table :=
  t.setBucket slot.bucket (t.buckets[slot.bucket].set slot.index d)

/-- Put a new definition at a slot. The first time that there are too many, a notice comes with
    the table. -/
def insert (t : Table) (slot : Slot) (d : Definition) : Table × Option Ceiling :=
  let list := t.buckets[slot.bucket]
  let longer := { t.setBucket slot.bucket (list.take slot.index ++ d :: list.drop slot.index) with
    count := t.count + 1 }
  if 0 < t.maxMacros ∧ t.maxMacros < longer.count ∧ ¬ t.warned then
    ({ longer with warned := true }, some ⟨longer.count, t.maxMacros⟩)
  else (longer, none)

/-- Store a definition at the slot of its name; `none` when the definition there is locked. -/
def install? (t : Table) (d : Definition) (slot : Slot) : Option (Table × Option Ceiling) :=
  match t.at? slot with
  | some current => if current.origin = .locked then none else some (t.replace slot d, none)
  | none => some (t.insert slot d)

/-- Store a definition whatever is there. -/
def definePrivileged (t : Table) (d : Definition) : Table × Option Ceiling :=
  let slot := t.findSlot d.name
  if slot.exact then (t.replace slot d, none) else t.insert slot d

/-- Drop the definition at a slot. -/
def remove (t : Table) (slot : Slot) : Table :=
  { t.setBucket slot.bucket (t.buckets[slot.bucket].eraseIdx slot.index) with count := t.count - 1 }

/-- Drop the definition of a name, unless there is none to be seen or it is locked. -/
def undefine? (t : Table) (name : Bytes) : Option Table :=
  let slot := t.findSlot name
  match t.at? slot with
  | some d => if d.origin = .locked || !t.visible d then none else some (t.remove slot)
  | none => none

/-- Drop the definition of a name whatever it is. -/
def undefinePrivileged? (t : Table) (name : Bytes) : Option Table :=
  let slot := t.findSlot name
  if slot.exact then some (t.remove slot) else none

/-- Drop every definition. -/
def clear (t : Table) : Table :=
  { t with buckets := Vector.replicate bucketCount [], count := 0, warned := false }

/-- The visible definitions in increasing order of their names. -/
def all (t : Table) : List Definition :=
  (t.buckets.toList.flatten.filter t.visible).mergeSort fun a b => !bytesLt b.name a.name

end Table

end Preproc.Macro
