import Preproc.Macro.Table

set_option autoImplicit false

/-! # Sorted buckets

The order of names, the search by halving, and what the two give together: in a bucket that is
strictly sorted, the slot of a name splits the bucket into the definitions before it and those
after it (`standing_searchFirst`). Which definitions a directive can drop does not depend on any
order (`Table.undefine?_eq`). -/

namespace Preproc

/-! ## The order of texts -/

theorem bytesLt_irrefl (a : Bytes) : bytesLt a a = false := by
  induction a with
  | nil => rfl
  | cons x xs ih => simp [bytesLt, ih, UInt8.lt_irrefl]

theorem bytesLt_trans {a b c : Bytes} (hab : bytesLt a b = true) (hbc : bytesLt b c = true) :
    bytesLt a c = true := by
  induction a generalizing b c with
  | nil =>
    cases c with
    | nil => cases b <;> simp [bytesLt] at hbc
    | cons z zs => rfl
  | cons x xs ih =>
    cases b with
    | nil => simp [bytesLt] at hab
    | cons y ys =>
      cases c with
      | nil => simp [bytesLt] at hbc
      | cons z zs =>
        simp only [bytesLt, Bool.or_eq_true, Bool.and_eq_true, decide_eq_true_eq, beq_iff_eq] at *
        rcases hab with hxy | ⟨rfl, hab⟩
        · rcases hbc with hyz | ⟨rfl, -⟩
          · exact Or.inl (UInt8.lt_trans hxy hyz)
          · exact Or.inl hxy
        · rcases hbc with hyz | ⟨rfl, hbc⟩
          · exact Or.inl hyz
          · exact Or.inr ⟨rfl, ih hab hbc⟩

/-- Of two different texts, one comes first. -/
theorem bytesLt_connex {a b : Bytes} (hab : bytesLt a b = false) (hne : a ≠ b) :
    bytesLt b a = true := by
  induction a generalizing b with
  | nil =>
    cases b with
    | nil => exact absurd rfl hne
    | cons y ys => simp [bytesLt] at hab
  | cons x xs ih =>
    cases b with
    | nil => rfl
    | cons y ys =>
      simp only [bytesLt, Bool.or_eq_false_iff, Bool.and_eq_false_iff, decide_eq_false_iff_not,
        beq_eq_false_iff_ne] at hab
      simp only [bytesLt, Bool.or_eq_true, Bool.and_eq_true, decide_eq_true_eq, beq_iff_eq]
      by_cases hxy : x = y
      · subst hxy
        have htail : bytesLt xs ys = false := hab.2.resolve_left (by simp)
        exact Or.inr ⟨rfl, ih htail (fun h => hne (by rw [h]))⟩
      · refine Or.inl (UInt8.lt_of_le_of_ne (UInt8.not_lt.1 hab.1) (fun h => hxy h.symm))

theorem bytesLt_asymm {a b : Bytes} (hab : bytesLt a b = true) : bytesLt b a = false := by
  rcases hba : bytesLt b a with _ | _
  · rfl
  · exact absurd (bytesLt_trans hab hba) (by simp [bytesLt_irrefl])

theorem bytesLt_false_trans {a b c : Bytes} (hba : bytesLt b a = false)
    (hcb : bytesLt c b = false) : bytesLt c a = false := by
  rcases hca : bytesLt c a with _ | _
  · rfl
  · -- `c` before `a` would put `b` before `a` or `c` before `b`
    rcases hab : bytesLt a b with _ | _
    · by_cases heq : b = a
      · rw [heq, hca] at hcb
        exact absurd hcb (by simp)
      · exact absurd (bytesLt_connex hab (fun h => heq h.symm)) (by simp [hba])
    · exact absurd (bytesLt_trans hca hab) (by simp [hcb])

theorem bytesLt_false_total (a b : Bytes) : bytesLt b a = false ∨ bytesLt a b = false := by
  rcases hba : bytesLt b a with _ | _
  · exact Or.inl rfl
  · exact Or.inr (bytesLt_asymm hba)

namespace Macro

/-! ## Search by halving -/

/-- When `p` accepts every number after one that it accepts, the search gives the border: `p`
    refuses everything before it and accepts everything from it on. -/
theorem Table.searchFirst_border (p : Nat → Bool) (lo hi : Nat) (hle : lo ≤ hi)
    (hmono : ∀ i j, i ≤ j → j < hi → p i = true → p j = true) :
    lo ≤ searchFirst p lo hi ∧ searchFirst p lo hi ≤ hi ∧
      (∀ i, lo ≤ i → i < searchFirst p lo hi → p i = false) ∧
      ∀ i, searchFirst p lo hi ≤ i → i < hi → p i = true := by
  fun_induction searchFirst p lo hi with
  | case1 lo hi hlt mid hmid ih =>
    obtain ⟨hlo, hhi, hbefore, hafter⟩ :=
      ih (by omega) (fun i j hij hj => hmono i j hij (by omega))
    refine ⟨hlo, by omega, hbefore, fun i hi' hlt' => ?_⟩
    rcases Nat.lt_or_ge i mid with hi'' | hi''
    · exact hafter i hi' hi''
    · exact hmono mid i hi'' hlt' hmid
  | case2 lo hi hlt mid hmid ih =>
    obtain ⟨hlo, hhi, hbefore, hafter⟩ := ih (by omega) hmono
    refine ⟨by omega, hhi, fun i hi' hlt' => ?_, hafter⟩
    rcases Nat.lt_or_ge mid i with hi'' | hi''
    · exact hbefore i hi'' hlt'
    · -- a number up to `mid` that was accepted would make `p` accept `mid`
      rcases hpi : p i with _ | _
      · rfl
      · exact absurd (hmono i mid hi'' (by omega) hpi) hmid
  | case3 lo hi hlt =>
    refine ⟨Nat.le_refl _, hle, fun i hi' hlt' => ?_, fun i hi' hlt' => ?_⟩ <;> omega

/-! ## Where a name stands in a sorted bucket -/

/-- A list of definitions in strictly increasing order of names. -/
def SortedByName (list : List Definition) : Prop :=
  list.Pairwise fun a b => bytesLt a.name b.name = true

theorem sortedByName_of_distinct {list : List Definition}
    (hle : list.Pairwise fun a b => bytesLt b.name a.name = false)
    (hne : list.Pairwise fun a b => a.name ≠ b.name) : SortedByName list :=
  (hle.and hne).imp fun {_ _} h => bytesLt_connex h.1 (fun heq => h.2 heq.symm)

theorem SortedByName.distinct {list : List Definition} (hs : SortedByName list) :
    list.Pairwise fun a b => a.name ≠ b.name := by
  refine hs.imp fun {a b} hlt hname => ?_
  rw [hname, bytesLt_irrefl] at hlt
  exact absurd hlt (by simp)

theorem SortedByName.unique {list : List Definition} (hs : SortedByName list) {a b : Definition}
    (ha : a ∈ list) (hb : b ∈ list) (hname : a.name = b.name) : a = b := by
  induction list with
  | nil => exact absurd ha (by simp)
  | cons x xs ih =>
    obtain ⟨hx, hxs⟩ := List.pairwise_cons.1 hs
    rcases List.mem_cons.1 ha with rfl | ha' <;> rcases List.mem_cons.1 hb with rfl | hb'
    · rfl
    · have hlt := hx b hb'
      rw [hname, bytesLt_irrefl] at hlt
      exact absurd hlt (by simp)
    · have hlt := hx a ha'
      rw [hname, bytesLt_irrefl] at hlt
      exact absurd hlt (by simp)
    · exact ih hxs ha' hb'

/-- How a name stands in a list at an index: it is there, or it belongs between the definitions
    before the index and those from it on. The flag tells the two apart. -/
inductive Standing (name : Bytes) : List Definition → Nat → Bool → Prop where
  | found (before : List Definition) (current : Definition) (after : List Definition)
      (hname : current.name = name) :
      Standing name (before ++ current :: after) before.length true
  | absent (before after : List Definition)
      (hbefore : ∀ d ∈ before, bytesLt d.name name = true)
      (hafter : ∀ d ∈ after, bytesLt name d.name = true) :
      Standing name (before ++ after) before.length false

/-- The test by which a bucket is searched: the definition at `i` does not sort before `name`. -/
def notBefore (list : List Definition) (name : Bytes) (i : Nat) : Bool :=
  list[i]?.any fun d => !bytesLt d.name name

theorem notBefore_of_lt {list : List Definition} {name : Bytes} {i : Nat} (hi : i < list.length) :
    notBefore list name i = !bytesLt list[i].name name := by
  simp [notBefore, List.getElem?_eq_getElem hi]

theorem notBefore_mono {list : List Definition} (hs : SortedByName list) (name : Bytes)
    (i j : Nat) (hij : i ≤ j) (hj : j < list.length) (hp : notBefore list name i = true) :
    notBefore list name j = true := by
  rcases Nat.eq_or_lt_of_le hij with rfl | hlt
  · exact hp
  · have hi : i < list.length := by omega
    have hord := List.pairwise_iff_getElem.1 hs i j hi hj hlt
    rw [notBefore_of_lt hi, Bool.not_eq_true'] at hp
    rw [notBefore_of_lt hj, Bool.not_eq_true']
    rcases hjn : bytesLt list[j].name name with _ | _
    · rfl
    · rw [bytesLt_trans hord hjn] at hp
      exact absurd hp (by simp)

/-- In a sorted list, the search finds how a name stands. -/
theorem standing_searchFirst {list : List Definition} (hs : SortedByName list) (name : Bytes) :
    Standing name list (Table.searchFirst (notBefore list name) 0 list.length)
      (list[Table.searchFirst (notBefore list name) 0 list.length]?.any (·.name = name)) := by
  obtain ⟨-, hle, hrefused, haccepted⟩ :=
    Table.searchFirst_border (notBefore list name) 0 list.length (Nat.zero_le _)
      (notBefore_mono hs name)
  generalize Table.searchFirst (notBefore list name) 0 list.length = r at hle hrefused haccepted
  have hlen : (list.take r).length = r := by simp [hle]
  have hbefore : ∀ d ∈ list.take r, bytesLt d.name name = true := by
    intro d hd
    obtain ⟨i, hi, rfl⟩ := List.mem_take_iff_getElem.1 hd
    have hfalse := hrefused i (Nat.zero_le _) (by omega)
    rwa [notBefore_of_lt (by omega), Bool.not_eq_false'] at hfalse
  by_cases hexact : list[r]?.any (·.name = name) = true
  · -- the border is at the definition itself
    rw [hexact]
    obtain ⟨current, hcurrent, hname⟩ := (Option.any_eq_true _ _).1 hexact
    obtain ⟨hr, rfl⟩ := List.getElem?_eq_some_iff.1 hcurrent
    have hsplit : list = list.take r ++ list[r] :: list.drop (r + 1) := by
      rw [← List.drop_eq_getElem_cons hr, List.take_append_drop]
    have hfound := Standing.found (list.take r) list[r] (list.drop (r + 1))
      (of_decide_eq_true hname)
    rwa [hlen, ← hsplit] at hfound
  · have hafter : ∀ d ∈ list.drop r, bytesLt name d.name = true := by
      intro d hd
      obtain ⟨i, hi, rfl⟩ := List.mem_drop_iff_getElem.1 hd
      have htrue := haccepted (r + i) (by omega) (by omega)
      rw [notBefore_of_lt (by omega), Bool.not_eq_true'] at htrue
      refine bytesLt_connex htrue (fun hname => ?_)
      rcases Nat.eq_zero_or_pos i with rfl | hpos
      · exact hexact (by simp [List.getElem?_eq_getElem (show r < list.length by omega), ← hname])
      · -- the definition at the border would sort before the name
        have hr : r < list.length := by omega
        have hord := List.pairwise_iff_getElem.1 hs r (r + i) hr (by omega) (by omega)
        have hborder := haccepted r (Nat.le_refl _) hr
        rw [notBefore_of_lt hr, Bool.not_eq_true', ← hname, hord] at hborder
        exact absurd hborder (by simp)
    have habsent := Standing.absent (list.take r) (list.drop r) hbefore hafter
    rw [hlen, List.take_append_drop] at habsent
    rwa [Bool.not_eq_true _ |>.mp hexact]

/-! ## What is dropped -/

/-- What is dropped as a directive does it: a definition that can be seen and is not locked. -/
theorem Table.undefine?_eq (t : Table) (name : Bytes) :
    t.undefine? name = if (t.lookup name).any (·.origin ≠ .locked) then
      some (t.remove (t.findSlot name)) else none := by
  have hlookup : t.lookup name = (t.at? (t.findSlot name)).filter t.visible := rfl
  simp only [Table.undefine?]
  split
  · next d hat =>
    rw [hlookup, hat]
    by_cases hvisible : t.visible d = true
    · by_cases hlocked : d.origin = .locked
      · simp [Option.filter, hvisible, hlocked]
      · simp [Option.filter, hvisible, hlocked]
    · simp [Option.filter, hvisible]
  · next hat => simp [hlookup, hat]

end Macro

end Preproc
