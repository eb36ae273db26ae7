import Mathlib.Data.Set.Card
import Preproc.Macro.Parser
import Preproc.Proofs.Macro.Buckets

set_option autoImplicit false

/-! # The macro table is a finite map

A table is well formed when each bucket is strictly sorted by name, each definition is in the bucket
of its name, and the count is right. Every operation keeps this and does to the stored definitions
what the operation of the same name does to a map from names to definitions (`Represents.apply`).
So a table reached by any sequence of operations answers every question as that map does. -/

namespace Preproc.Macro

/-! ## Well-formed tables -/

namespace Table

/-- The definitions of a table, bucket by bucket. -/
def entries (t : Table) : List Definition :=
  t.buckets.toList.flatten

/-- The definition of a name, seen or hidden. -/
def stored (t : Table) (name : Bytes) : Option Definition :=
  t.at? (t.findSlot name)

/-- What holds of a table at all times. -/
structure Wf (t : Table) : Prop where
  /-- Each bucket is in strictly increasing order of names. -/
  sorted : ∀ b : Fin bucketCount, SortedByName t.buckets[b]
  /-- Each definition is in the bucket of its name. -/
  placed : ∀ b : Fin bucketCount, ∀ d ∈ t.buckets[b], bucketOf d.name = b
  /-- The count is the number of definitions. -/
  counted : t.count = t.entries.length

theorem wf_empty (maxMacros : Int) (strict : Bool) : (empty maxMacros strict).Wf where
  sorted b := by simp [empty, SortedByName]
  placed b := by simp [empty]
  counted := by simp [empty, entries]

/-- In a well-formed table, the slot of a name splits its bucket: the name is there, or it belongs
    between two parts of the bucket. -/
theorem locate {t : Table} (hwf : t.Wf) (name : Bytes) {b : Fin bucketCount}
    (hb : bucketOf name = b) :
    (∃ before current after, t.buckets[b] = before ++ current :: after ∧
      current.name = name ∧ t.findSlot name = ⟨b, before.length, true⟩) ∨
    (∃ before after, t.buckets[b] = before ++ after ∧
      (∀ d ∈ before, bytesLt d.name name = true) ∧ (∀ d ∈ after, bytesLt name d.name = true) ∧
      t.findSlot name = ⟨b, before.length, false⟩) := by
  subst hb
  have hstanding := standing_searchFirst (hwf.sorted (bucketOf name)) name
  have hslot : t.findSlot name = ⟨bucketOf name,
      searchFirst (notBefore t.buckets[bucketOf name] name) 0 t.buckets[bucketOf name].length,
      t.buckets[bucketOf name][searchFirst (notBefore t.buckets[bucketOf name] name) 0
        t.buckets[bucketOf name].length]?.any (·.name = name)⟩ := rfl
  rw [hslot]
  generalize t.buckets[bucketOf name] = list at hstanding
  generalize searchFirst (notBefore list name) 0 list.length = index at hstanding
  generalize list[index]?.any (·.name = name) = exact at hstanding
  cases hstanding with
  | found before current after hname => exact Or.inl ⟨before, current, after, rfl, hname, rfl⟩
  | absent before after hbefore hafter =>
    exact Or.inr ⟨before, after, rfl, hbefore, hafter, rfl⟩

/-- The definition of a name is the one in its bucket that has the name. -/
theorem stored_eq_some_iff {t : Table} (hwf : t.Wf) (name : Bytes) (d : Definition)
    {b : Fin bucketCount} (hb : bucketOf name = b) :
    t.stored name = some d ↔ d ∈ t.buckets[b] ∧ d.name = name := by
  rcases locate hwf name hb with ⟨before, current, after, hlist, hname, hslot⟩ |
    ⟨before, after, hlist, hbefore, hafter, hslot⟩
  · have hcurrent : current ∈ t.buckets[b] := by simp [hlist]
    have hstored : t.stored name = some current := by simp [stored, at?, hslot, hlist]
    rw [hstored, Option.some.injEq]
    constructor
    · rintro rfl
      exact ⟨hcurrent, hname⟩
    · rintro ⟨hd, hdname⟩
      exact (hwf.sorted _).unique hcurrent hd (hname.trans hdname.symm)
  · have hstored : t.stored name = none := by simp [stored, at?, hslot]
    rw [hstored]
    constructor
    · intro h
      exact absurd h (by simp)
    · rintro ⟨hd, rfl⟩
      rw [hlist, List.mem_append] at hd
      rcases hd with hd | hd
      · exact absurd (hbefore d hd) (by simp [bytesLt_irrefl])
      · exact absurd (hafter d hd) (by simp [bytesLt_irrefl])

theorem exact_eq_isSome {t : Table} (hwf : t.Wf) (name : Bytes) :
    (t.findSlot name).exact = (t.stored name).isSome := by
  rcases locate hwf name rfl with ⟨before, current, after, hlist, hname, hslot⟩ |
    ⟨before, after, hlist, hbefore, hafter, hslot⟩
  · simp [stored, at?, hslot, hlist]
  · simp [stored, at?, hslot]

/-! ## Changing one bucket -/

theorem getElem_setBucket (t : Table) (b c : Fin bucketCount) (list : List Definition) :
    (t.setBucket b list).buckets[c] = if b = c then list else t.buckets[c] := by
  simp [setBucket, Vector.getElem_set, Fin.ext_iff]

theorem length_flatten_set {α : Type} (lists : List (List α)) (i : Nat) (hi : i < lists.length)
    (list : List α) :
    (lists.set i list).flatten.length + lists[i].length = lists.flatten.length + list.length := by
  induction lists generalizing i with
  | nil => exact absurd hi (by simp)
  | cons head rest ih =>
    cases i with
    | zero => simp; omega
    | succ i =>
      have hrest := ih i (by simpa using hi)
      simp only [List.set_cons_succ, List.flatten_cons, List.length_append,
        List.getElem_cons_succ] at hrest ⊢
      omega

theorem length_entries_setBucket (t : Table) (b : Fin bucketCount) (list : List Definition) :
    (t.setBucket b list).entries.length + t.buckets[b].length = t.entries.length + list.length := by
  have h := length_flatten_set t.buckets.toList b.val (by simp) list
  simpa [entries, setBucket, Vector.toList_set] using h

/-- A table stays well formed when one bucket is changed into a sorted list of definitions that
    belong there, and the count follows. -/
theorem Wf.of_setBucket {t t' : Table} (hwf : t.Wf) {b : Fin bucketCount} {list : List Definition}
    (hbuckets : t'.buckets = (t.setBucket b list).buckets) (hsorted : SortedByName list)
    (hplaced : ∀ d ∈ list, bucketOf d.name = b)
    (hcount : t'.count + t.buckets[b].length = t.count + list.length) : t'.Wf where
  sorted c := by
    rw [hbuckets, getElem_setBucket]
    split
    · exact hsorted
    · exact hwf.sorted c
  placed c := by
    rw [hbuckets, getElem_setBucket]
    split
    · next hbc => exact hbc ▸ hplaced
    · exact hwf.placed c
  counted := by
    have hentries : t'.entries = (t.setBucket b list).entries := by rw [entries, entries, hbuckets]
    have hlength := length_entries_setBucket t b list
    have hcounted := hwf.counted
    rw [hentries]
    omega

/-- What a change of the bucket of `name` does to the stored definitions: those of other names stay
    when the change keeps them. -/
theorem stored_of_setBucket {t t' : Table} (hwf : t.Wf) (hwf' : t'.Wf) {name : Bytes}
    {b : Fin bucketCount} (hb : bucketOf name = b) {list : List Definition}
    (value : Option Definition) (hbuckets : t'.buckets = (t.setBucket b list).buckets)
    (hothers : ∀ d, d.name ≠ name → (d ∈ list ↔ d ∈ t.buckets[b]))
    (hvalue : ∀ d, d ∈ list ∧ d.name = name ↔ value = some d) (other : Bytes) :
    t'.stored other = if other = name then value else t.stored other := by
  subst hb
  ext d
  rw [stored_eq_some_iff hwf' other d rfl, hbuckets, getElem_setBucket]
  by_cases hother : other = name
  · subst hother
    simp [hvalue]
  · rw [if_neg hother, stored_eq_some_iff hwf other d rfl]
    split
    · next hbucket =>
      simp only [← hbucket]
      constructor
      · rintro ⟨hd, rfl⟩
        exact ⟨(hothers d hother).1 hd, rfl⟩
      · rintro ⟨hd, rfl⟩
        exact ⟨(hothers d hother).2 hd, rfl⟩
    · exact Iff.rfl

/-- A definition is put into its bucket between two parts that hold exactly what the bucket had
    under other names. -/
theorem put_stored {t t' : Table} (hwf : t.Wf) (d : Definition) {before after : List Definition}
    (hbuckets : t'.buckets = (t.setBucket (bucketOf d.name) (before ++ d :: after)).buckets)
    (hsorted : SortedByName (before ++ d :: after))
    (hkept : ∀ x ∈ before ++ after, x ∈ t.buckets[bucketOf d.name])
    (hothers : ∀ x ∈ t.buckets[bucketOf d.name], x.name ≠ d.name → x ∈ before ++ after)
    (hcount : t'.count + t.buckets[bucketOf d.name].length =
      t.count + (before ++ d :: after).length) :
    t'.Wf ∧ ∀ other, t'.stored other = if other = d.name then some d else t.stored other := by
  have hmem : ∀ x, x ∈ before ++ d :: after ↔ x = d ∨ x ∈ before ++ after := by
    intro x
    simp only [List.mem_append, List.mem_cons]
    tauto
  have hplaced : ∀ x ∈ before ++ d :: after, bucketOf x.name = bucketOf d.name := by
    intro x hx
    rcases (hmem x).1 hx with rfl | hx
    · rfl
    · exact hwf.placed _ x (hkept x hx)
  have hwf' : t'.Wf := hwf.of_setBucket hbuckets hsorted hplaced hcount
  refine ⟨hwf', fun other => ?_⟩
  refine stored_of_setBucket hwf hwf' rfl (some d) hbuckets (fun x hx => ?_) (fun x => ?_) other
  · have hxd : x ≠ d := fun h => hx (by rw [h])
    rw [hmem]
    constructor
    · intro h
      exact hkept x (h.resolve_left hxd)
    · intro h
      exact Or.inr (hothers x h hx)
  · constructor
    · rintro ⟨hx, hxname⟩
      rw [hsorted.unique hx (by simp) hxname]
    · rintro ⟨rfl⟩
      simp

/-! ## The three changes -/

/-- Put a definition where one of its name is. -/
theorem replace_stored {t : Table} (hwf : t.Wf) (d : Definition)
    (hexact : (t.findSlot d.name).exact = true) :
    (t.replace (t.findSlot d.name) d).Wf ∧ ∀ other,
      (t.replace (t.findSlot d.name) d).stored other =
        if other = d.name then some d else t.stored other := by
  rcases locate hwf d.name rfl with ⟨before, current, after, hlist, hname, hslot⟩ |
    ⟨before, after, hlist, hbefore, hafter, hslot⟩
  · have hset : t.replace (t.findSlot d.name) d =
        t.setBucket (bucketOf d.name) (before ++ d :: after) := by
      simp [replace, hslot, hlist]
    have hsorted : SortedByName (before ++ d :: after) := by
      have h := hwf.sorted (bucketOf d.name)
      rw [hlist] at h
      simpa [SortedByName, List.pairwise_append, List.pairwise_cons, hname] using h
    refine put_stored hwf d (by rw [hset]) hsorted (fun x hx => ?_) (fun x hx hne => ?_) ?_
    · rw [hlist]
      simp only [List.mem_append, List.mem_cons] at hx ⊢
      tauto
    · have hxc : x ≠ current := fun h => hne (by rw [h, hname])
      rw [hlist] at hx
      simpa [hxc] using hx
    · rw [hset, hlist]
      simp [setBucket]
  · rw [hslot] at hexact
    exact absurd hexact (by simp)

/-- Put in a definition where none of its name is. -/
theorem insert_stored {t : Table} (hwf : t.Wf) (d : Definition)
    (hexact : (t.findSlot d.name).exact = false) :
    (t.insert (t.findSlot d.name) d).1.Wf ∧ ∀ other,
      (t.insert (t.findSlot d.name) d).1.stored other =
        if other = d.name then some d else t.stored other := by
  rcases locate hwf d.name rfl with ⟨before, current, after, hlist, hname, hslot⟩ |
    ⟨before, after, hlist, hbefore, hafter, hslot⟩
  · rw [hslot] at hexact
    exact absurd hexact (by simp)
  · have hbuckets : (t.insert (t.findSlot d.name) d).1.buckets =
        (t.setBucket (bucketOf d.name) (before ++ d :: after)).buckets := by
      simp only [insert, hslot]
      split <;> simp [setBucket, hlist]
    have hcount : (t.insert (t.findSlot d.name) d).1.count = t.count + 1 := by
      simp only [insert]
      split <;> rfl
    have hsorted : SortedByName (before ++ d :: after) := by
      have h := hwf.sorted (bucketOf d.name)
      rw [hlist] at h
      obtain ⟨hb, ha, hba⟩ := List.pairwise_append.1 h
      refine List.pairwise_append.2 ⟨hb, List.pairwise_cons.2 ⟨hafter, ha⟩, fun x hx y hy => ?_⟩
      rcases List.mem_cons.1 hy with rfl | hy
      · exact hbefore x hx
      · exact hba x hx y hy
    refine put_stored hwf d hbuckets hsorted (fun x hx => ?_) (fun x hx _ => ?_) ?_
    · rw [hlist]
      exact hx
    · rw [hlist] at hx
      exact hx
    · rw [hcount, hlist]
      simp only [List.length_append, List.length_cons]
      omega

/-- Drop the definition of a name. -/
theorem remove_stored {t : Table} (hwf : t.Wf) (name : Bytes)
    (hexact : (t.findSlot name).exact = true) :
    (t.remove (t.findSlot name)).Wf ∧ ∀ other,
      (t.remove (t.findSlot name)).stored other =
        if other = name then none else t.stored other := by
  rcases locate hwf name rfl with ⟨before, current, after, hlist, hname, hslot⟩ |
    ⟨before, after, hlist, hbefore, hafter, hslot⟩
  · have hbuckets : (t.remove (t.findSlot name)).buckets =
        (t.setBucket (bucketOf name) (before ++ after)).buckets := by
      simp [remove, setBucket, hslot, hlist, List.eraseIdx_append_of_length_le]
    have hsub : (before ++ after).Sublist t.buckets[bucketOf name] := by
      rw [hlist]
      exact List.Sublist.append_left (List.sublist_cons_self _ _) _
    have hpos : 0 < t.count := by
      have hmem : current ∈ t.entries := by
        refine List.mem_flatten.2 ⟨t.buckets[bucketOf name], ?_, by simp [hlist]⟩
        simp
      rw [hwf.counted]
      exact List.length_pos_of_mem hmem
    have hwf' : (t.remove (t.findSlot name)).Wf := by
      refine hwf.of_setBucket hbuckets ((hwf.sorted _).sublist hsub)
        (fun d hd => hwf.placed _ d (hsub.subset hd)) ?_
      simp only [remove, hlist, List.length_append, List.length_cons]
      omega
    refine ⟨hwf', fun other => ?_⟩
    refine stored_of_setBucket hwf hwf' rfl none hbuckets (fun x hx => ?_) (fun x => ?_) other
    · have hxc : x ≠ current := fun h => hx (by rw [h, hname])
      simp [hlist, hxc]
    · -- the dropped definition was the only one of its name
      simp only [reduceCtorEq, iff_false, not_and]
      intro hx hxname
      have heq := (hwf.sorted _).unique (hsub.subset hx) (by simp [hlist]) (hxname.trans hname.symm)
      have hdistinct := hwf.sorted (bucketOf name)
      rw [hlist] at hdistinct
      obtain ⟨-, hc, hbc⟩ := List.pairwise_append.1 hdistinct
      subst heq
      rcases List.mem_append.1 hx with hx | hx
      · exact absurd (hbc x hx x (by simp)) (by simp [bytesLt_irrefl])
      · exact absurd ((List.pairwise_cons.1 hc).1 x hx) (by simp [bytesLt_irrefl])
  · rw [hslot] at hexact
    exact absurd hexact (by simp)

theorem wf_clear (t : Table) : t.clear.Wf where
  sorted b := by simp [clear, SortedByName]
  placed b := by simp [clear]
  counted := by simp [clear, entries]

/-- A table with empty buckets stores nothing. -/
theorem stored_eq_none {t : Table} (hwf : t.Wf) (hempty : ∀ b : Fin bucketCount, t.buckets[b] = [])
    (name : Bytes) : t.stored name = none := by
  cases hstored : t.stored name with
  | none => rfl
  | some d =>
    have hmem := ((stored_eq_some_iff hwf name d rfl).1 hstored).1
    rw [hempty] at hmem
    exact absurd hmem (by simp)

end Table

/-! ## Tables and maps -/

/-- The operations on a table. -/
inductive TableOp where
  /-- Store a definition at the slot that was just found for its name. -/
  | install (d : Definition)
  /-- Define a macro as a directive does. -/
  | define (d : Definition)
  | undefine (name : Bytes)
  | definePrivileged (d : Definition)
  | undefinePrivileged (name : Bytes)
  | clear
  /-- Hide extensions, or show them. -/
  | setStrict (on : Bool)

/-- Carry out an operation on a table. One that is refused leaves the table as it is. -/
def Table.apply (t : Table) : TableOp → Table
  | .install d => ((t.install? d (t.findSlot d.name)).map Prod.fst).getD t
  | .define d =>
    match Macro.define t d with
    | .ok r => r.table
    | .error _ => t
  | .undefine name => (t.undefine? name).getD t
  | .definePrivileged d => (t.definePrivileged d).1
  | .undefinePrivileged name => (t.undefinePrivileged? name).getD t
  | .clear => t.clear
  | .setStrict on => { t with strict := on }

/-- The definitions as a map from names, and whether extensions are hidden. -/
structure Contents where
  stored : Bytes → Option Definition := fun _ => none
  strict : Bool

namespace Contents

/-- The definition of a name, unless it is hidden. -/
def lookup (m : Contents) (name : Bytes) : Option Definition :=
  (m.stored name).filter fun d => !(m.strict && d.origin = .extension)

/-- The map with another value for one name. -/
def set (m : Contents) (name : Bytes) (value : Option Definition) : Contents :=
  { m with stored := fun other => if other = name then value else m.stored other }

/-- Carry out an operation on a map. -/
def apply (m : Contents) : TableOp → Contents
  | .install d =>
    if (m.stored d.name).any (·.origin = .locked) then m else m.set d.name (some d)
  | .define d =>
    if (m.lookup d.name).any (fun current => current.origin = .locked || current.sameAs d) then m
    else m.set d.name (some d)
  | .undefine name =>
    if (m.lookup name).any (·.origin ≠ .locked) then m.set name none else m
  | .definePrivileged d => m.set d.name (some d)
  | .undefinePrivileged name => m.set name none
  | .clear => { m with stored := fun _ => none }
  | .setStrict on => { m with strict := on }

end Contents

/-- A well-formed table holds what a map says. -/
structure Represents (t : Table) (m : Contents) : Prop where
  wf : t.Wf
  stored : ∀ name, t.stored name = m.stored name
  strict : t.strict = m.strict

namespace Represents

variable {t : Table} {m : Contents}

theorem visible (hr : Represents t m) (d : Definition) :
    t.visible d = !(m.strict && d.origin = .extension) := by
  rw [Table.visible, hr.strict]

theorem lookup (hr : Represents t m) (name : Bytes) : t.lookup name = m.lookup name := by
  have hvisible : t.visible = fun d => !(m.strict && d.origin = .extension) :=
    funext hr.visible
  rw [Contents.lookup, ← hr.stored, ← hvisible]
  rfl

theorem of_empty (maxMacros : Int) (strict : Bool) :
    Represents (.empty maxMacros strict) { strict } where
  wf := Table.wf_empty maxMacros strict
  stored := Table.stored_eq_none (Table.wf_empty maxMacros strict) (fun b => by simp [Table.empty])
  strict := rfl

/-- Putting a definition into its place, whether one of its name is there or not. -/
theorem put (hr : Represents t m) (d : Definition) (t' : Table)
    (ht' : t' = if (t.findSlot d.name).exact then t.replace (t.findSlot d.name) d
      else (t.insert (t.findSlot d.name) d).1) :
    Represents t' (m.set d.name (some d)) := by
  have hstrict : t'.strict = m.strict := by
    rw [ht', ← hr.strict]
    split
    · rfl
    · simp only [Table.insert]
      split <;> rfl
  cases hexact : (t.findSlot d.name).exact with
  | true =>
    obtain ⟨hwf, hstored⟩ := Table.replace_stored hr.wf d hexact
    simp only [hexact, if_true] at ht'
    subst ht'
    exact ⟨hwf, fun name => by rw [hstored, hr.stored]; rfl, hstrict⟩
  | false =>
    obtain ⟨hwf, hstored⟩ := Table.insert_stored hr.wf d hexact
    simp only [hexact, Bool.false_eq_true, if_false] at ht'
    subst ht'
    exact ⟨hwf, fun name => by rw [hstored, hr.stored]; rfl, hstrict⟩

theorem remove (hr : Represents t m) (name : Bytes) (hexact : (t.findSlot name).exact = true) :
    Represents (t.remove (t.findSlot name)) (m.set name none) := by
  obtain ⟨hwf, hstored⟩ := Table.remove_stored hr.wf name hexact
  exact ⟨hwf, fun other => by rw [hstored, hr.stored]; rfl, hr.strict⟩

theorem exact (hr : Represents t m) (name : Bytes) :
    (t.findSlot name).exact = (m.stored name).isSome := by
  rw [Table.exact_eq_isSome hr.wf, hr.stored]

theorem install (hr : Represents t m) (d : Definition) :
    Represents (t.apply (.install d)) (m.apply (.install d)) := by
  have hexact := hr.exact d.name
  have hat : t.at? (t.findSlot d.name) = m.stored d.name := hr.stored d.name
  simp only [Table.apply, Contents.apply, Table.install?, hat]
  cases hstored : m.stored d.name with
  | none => exact hr.put d _ (by simp [hexact, hstored])
  | some current =>
    by_cases hlocked : current.origin = .locked
    · simpa [hlocked] using hr
    · simpa [hlocked] using hr.put d _ (by simp [hexact, hstored])

/-- A hidden definition is no obstacle to a new one: what is hidden is never locked. -/
theorem define (hr : Represents t m) (d : Definition) :
    Represents (t.apply (.define d)) (m.apply (.define d)) := by
  have hlookup : (t.at? (t.findSlot d.name)).filter t.visible = m.lookup d.name :=
    hr.lookup d.name
  have hinstall := hr.install d
  simp only [Table.apply, Contents.apply] at hinstall ⊢
  simp only [Macro.define, hlookup]
  cases hseen : m.lookup d.name with
  | none =>
    have hfree : (m.stored d.name).any (·.origin = .locked) = false := by
      cases hstored : m.stored d.name with
      | none => rfl
      | some current =>
        rw [Contents.lookup, hstored] at hseen
        by_cases hlocked : current.origin = .locked
        · simp [Option.filter, hlocked] at hseen
        · simp [hlocked]
    rw [hfree] at hinstall
    cases htable : t.install? d (t.findSlot d.name) <;> simpa [htable] using hinstall
  | some current =>
    have hstored : m.stored d.name = some current := (Option.filter_eq_some_iff.1 hseen).1
    by_cases hlocked : current.origin = .locked
    · simpa [hlocked] using hr
    · by_cases hsame : current.sameAs d = true
      · simpa [hlocked, hsame] using hr
      · simp only [hstored, Option.any_some, hlocked, decide_false, Bool.false_eq_true,
          if_false] at hinstall
        cases htable : t.install? d (t.findSlot d.name) <;>
          simpa [hlocked, hsame, htable] using hinstall

theorem undefine (hr : Represents t m) (name : Bytes) :
    Represents (t.apply (.undefine name)) (m.apply (.undefine name)) := by
  simp only [Table.apply, Contents.apply, Table.undefine?_eq, hr.lookup]
  by_cases hseen : (m.lookup name).any (·.origin ≠ .locked) = true
  · obtain ⟨d, hd, -⟩ := (Option.any_eq_true _ _).1 hseen
    have hstored : m.stored name = some d := (Option.filter_eq_some_iff.1 hd).1
    rw [if_pos hseen, if_pos hseen]
    exact hr.remove name (by rw [hr.exact, hstored]; rfl)
  · rw [if_neg hseen, if_neg hseen]
    exact hr

/-- **Every operation does to a table what it does to the map that the table represents.** -/
theorem apply (hr : Represents t m) (op : TableOp) : Represents (t.apply op) (m.apply op) := by
  cases op with
  | install d => exact hr.install d
  | define d => exact hr.define d
  | undefine name => exact hr.undefine name
  | definePrivileged d =>
    refine hr.put d _ ?_
    simp only [Table.apply, Table.definePrivileged]
    split <;> rfl
  | undefinePrivileged name =>
    simp only [Table.apply, Contents.apply, Table.undefinePrivileged?]
    by_cases hexact : (t.findSlot name).exact = true
    · rw [if_pos hexact]
      exact hr.remove name hexact
    · -- a name that is not there is dropped from the map without effect
      have hnone : m.stored name = none := by simpa [hr.exact] using hexact
      have hsame : m.set name none = m := by
        simp only [Contents.set]
        congr 1
        funext other
        split
        · next hother => rw [hother, hnone]
        · rfl
      rw [if_neg hexact, hsame]
      exact hr
  | clear =>
    exact ⟨t.wf_clear,
      Table.stored_eq_none t.wf_clear (fun b => by simp [Table.apply, Table.clear]),
      hr.strict⟩
  | setStrict on => exact ⟨⟨hr.wf.sorted, hr.wf.placed, hr.wf.counted⟩, hr.stored, rfl⟩

theorem run (hr : Represents t m) (ops : List TableOp) :
    Represents (ops.foldl Table.apply t) (ops.foldl Contents.apply m) := by
  induction ops generalizing t m with
  | nil => exact hr
  | cons op rest ih => exact ih (hr.apply op)

/-! ## What a representing table answers -/

/-- The definitions of a table are those of the map. -/
theorem mem_entries (hr : Represents t m) (d : Definition) :
    d ∈ t.entries ↔ m.stored d.name = some d := by
  rw [← hr.stored, Table.stored_eq_some_iff hr.wf d.name d rfl]
  constructor
  · intro hd
    obtain ⟨list, hlist, hd⟩ := List.mem_flatten.1 hd
    obtain ⟨b, hb, rfl⟩ := List.getElem_of_mem hlist
    have hb' : b < bucketCount := by simpa using hb
    have hbucket := hr.wf.placed ⟨b, hb'⟩ d (by simpa using hd)
    refine ⟨?_, rfl⟩
    simpa [hbucket] using hd
  · rintro ⟨hd, -⟩
    exact List.mem_flatten.2 ⟨_, by simp, hd⟩

/-- No two definitions of a table have the same name: in one bucket because it is sorted, in two
    because each name has one bucket. -/
theorem entries_distinct (hr : Represents t m) :
    t.entries.Pairwise fun a b => a.name ≠ b.name := by
  refine List.pairwise_flatten.2 ⟨fun list hlist => ?_, ?_⟩
  · obtain ⟨b, hb, rfl⟩ := List.getElem_of_mem hlist
    have hb' : b < bucketCount := by simpa using hb
    have hsorted : SortedByName t.buckets.toList[b] := by simpa using hr.wf.sorted ⟨b, hb'⟩
    exact hsorted.distinct
  · refine List.pairwise_iff_getElem.2 (fun i j hi hj hij a ha c hc hname => ?_)
    have hi' : i < bucketCount := by simpa using hi
    have hj' : j < bucketCount := by simpa using hj
    have ha' := hr.wf.placed ⟨i, hi'⟩ a (by simpa using ha)
    have hc' := hr.wf.placed ⟨j, hj'⟩ c (by simpa using hc)
    rw [hname, hc', Fin.mk.injEq] at ha'
    omega

/-- The names that the map has a definition for are those of the definitions of the table. -/
theorem stored_isSome_iff (hr : Represents t m) (name : Bytes) :
    (m.stored name).isSome = true ↔ ∃ d ∈ t.entries, d.name = name := by
  rw [Option.isSome_iff_exists]
  constructor
  · rintro ⟨d, hd⟩
    have hname := ((Table.stored_eq_some_iff hr.wf name d rfl).1 ((hr.stored name).trans hd)).2
    subst hname
    exact ⟨d, (hr.mem_entries d).2 hd, rfl⟩
  · rintro ⟨d, hd, rfl⟩
    exact ⟨d, (hr.mem_entries d).1 hd⟩

/-- The count is the number of names that have a definition. -/
theorem count (hr : Represents t m) :
    {name | (m.stored name).isSome}.Finite ∧
      t.count = {name | (m.stored name).isSome}.ncard := by
  have hnames : {name | (m.stored name).isSome} = ↑(t.entries.map Definition.name).toFinset := by
    ext name
    simp only [Set.mem_ofPred_eq, List.coe_toFinset, List.mem_map, hr.stored_isSome_iff]
  have hnodup : (t.entries.map Definition.name).Nodup := List.pairwise_map.2 hr.entries_distinct
  rw [hnames]
  refine ⟨Finset.finite_toSet _, ?_⟩
  rw [Set.ncard_coe_finset, List.toFinset_card_of_nodup hnodup, List.length_map, hr.wf.counted]

/-- The listing holds the definitions that can be seen. -/
theorem mem_all (hr : Represents t m) (d : Definition) :
    d ∈ t.all ↔ m.lookup d.name = some d := by
  rw [Table.all, List.mem_mergeSort, List.mem_filter, Contents.lookup, Option.filter_eq_some_iff,
    hr.visible]
  exact and_congr_left (fun _ => hr.mem_entries d)

/-- The listing is in strictly increasing order of names. -/
theorem sorted_all (hr : Represents t m) : SortedByName t.all := by
  have hle : t.all.Pairwise fun a b => (!bytesLt b.name a.name) = true := by
    refine List.pairwise_mergeSort (fun a b c hab hbc => ?_) (fun a b => ?_) _
    · rw [Bool.not_eq_true'] at hab hbc ⊢
      exact bytesLt_false_trans hab hbc
    · simpa using bytesLt_false_total a.name b.name
  have hne : t.all.Pairwise fun a b => a.name ≠ b.name := by
    have hfiltered : (t.entries.filter t.visible).Pairwise fun a b => a.name ≠ b.name :=
      hr.entries_distinct.filter _
    exact (List.mergeSort_perm _ _).symm.pairwise hfiltered (fun h => h.symm)
  exact sortedByName_of_distinct (hle.imp fun h => by simpa using h) hne

end Represents

/-- **The macro table is a finite map.** After any sequence of operations on an empty table, its
    buckets are strictly sorted and hold the names that hash to them, its count is right, and all
    that can be asked of it has the answer of the map on which the same operations were done. -/
theorem table_is_finite_map (maxMacros : Int) (strict : Bool) (ops : List TableOp) :
    let t := ops.foldl Table.apply (.empty maxMacros strict)
    let m := ops.foldl Contents.apply { strict }
    (∀ b : Fin bucketCount, SortedByName t.buckets[b]) ∧
    (∀ b : Fin bucketCount, ∀ d ∈ t.buckets[b], bucketOf d.name = b) ∧
    t.count = t.entries.length ∧
    (∀ name, (t.findSlot name).exact = true ↔ ∃ d ∈ t.entries, d.name = name) ∧
    (∀ name, t.at? (t.findSlot name) = m.stored name) ∧
    (∀ name, t.lookup name = m.lookup name) ∧
    (∀ name, t.defined name = (m.lookup name).isSome) ∧
    {name | (m.stored name).isSome}.Finite ∧
    t.count = {name | (m.stored name).isSome}.ncard ∧
    (∀ d, d ∈ t.all ↔ m.lookup d.name = some d) ∧
    SortedByName t.all := by
  intro t m
  have hr : Represents t m := (Represents.of_empty maxMacros strict).run ops
  refine ⟨hr.wf.sorted, hr.wf.placed, hr.wf.counted, fun name => ?_, hr.stored, hr.lookup,
    fun name => ?_, hr.count.1, hr.count.2, hr.mem_all, hr.sorted_all⟩
  · rw [hr.exact, hr.stored_isSome_iff]
  · rw [Table.defined, hr.lookup]

end Preproc.Macro
