import Preproc.Proofs.Macro.FiniteMap

set_option autoImplicit false

/-! # The notice about too many macros

An operation on a table can come with the notice that the table holds more definitions than it
should. The table remembers that the notice was given until it is cleared. So the notice comes with
the first operation after which there are too many, and then with no other before the next clearing
(`ceiling_noticed_once`). -/

namespace Preproc.Macro

/-! ## Notices -/

namespace Table

/-- The notice that comes with an operation. -/
def notice? (t : Table) : TableOp → Option Ceiling
  | .install d => (t.install? d (t.findSlot d.name)).bind Prod.snd
  | .define d =>
    match Macro.define t d with
    | .ok r => r.ceiling
    | .error _ => none
  | .definePrivileged d => (t.definePrivileged d).2
  | .undefine _ | .undefinePrivileged _ | .clear | .setStrict _ => none

/-- The notices that come with a sequence of operations. -/
def notices (t : Table) : List TableOp → List Ceiling
  | [] => []
  | op :: rest => (t.notice? op).toList ++ notices (t.apply op) rest

end Table

/-! ## One operation -/

/-- What an operation other than clearing does to the count of a table and to its memory of the
    notice, and when it comes with the notice. -/
structure Counts (t t' : Table) (notice : Option Ceiling) : Prop where
  limit : t'.maxMacros = t.maxMacros
  count : t'.count ≤ t.count + 1
  warned : t'.warned = (t.warned || notice.isSome)
  notice : ∀ c, notice = some c ↔
    0 < t.maxMacros ∧ t.maxMacros < t'.count ∧ t.count < t'.count ∧ t.warned = false ∧
      c = ⟨t'.count, t.maxMacros⟩

namespace Counts

/-- A change that adds no definition. -/
theorem of_not_added {t t' : Table} (hlimit : t'.maxMacros = t.maxMacros)
    (hwarned : t'.warned = t.warned) (hcount : t'.count ≤ t.count) : Counts t t' none where
  limit := hlimit
  count := Nat.le_succ_of_le hcount
  warned := by simp [hwarned]
  notice c := iff_of_false (by simp) fun h => absurd h.2.2.1 (Nat.not_lt.2 hcount)

theorem refl (t : Table) : Counts t t none :=
  of_not_added rfl rfl (Nat.le_refl _)

theorem replace (t : Table) (slot : Slot) (d : Definition) : Counts t (t.replace slot d) none :=
  of_not_added rfl rfl (Nat.le_refl _)

theorem remove (t : Table) (slot : Slot) : Counts t (t.remove slot) none :=
  of_not_added rfl rfl (Nat.sub_le _ _)

theorem insert (t : Table) (slot : Slot) (d : Definition) :
    Counts t (t.insert slot d).1 (t.insert slot d).2 := by
  unfold Table.insert
  dsimp only
  split
  · next hdue =>
    refine ⟨rfl, Nat.le_refl _, by simp, fun c => ?_⟩
    obtain ⟨hpos, hmany, hfirst⟩ := hdue
    simp only [Option.some.injEq]
    constructor
    · rintro rfl
      exact ⟨hpos, hmany, Nat.lt_succ_self _, by simpa using hfirst, rfl⟩
    · rintro ⟨-, -, -, -, rfl⟩
      rfl
  · next hnot =>
    refine ⟨rfl, Nat.le_refl _, by simp [Table.setBucket], fun c => iff_of_false (by simp) ?_⟩
    rintro ⟨hpos, hmany, -, hfirst, -⟩
    exact hnot ⟨hpos, hmany, by simp [hfirst]⟩

theorem install {t t' : Table} {d : Definition} {slot : Slot} {notice : Option Ceiling}
    (h : t.install? d slot = some (t', notice)) : Counts t t' notice := by
  unfold Table.install? at h
  split at h
  · split at h
    · exact absurd h (by simp)
    · obtain ⟨rfl, rfl⟩ := Prod.mk.inj (Option.some.inj h)
      exact replace t slot d
  · obtain ⟨rfl, rfl⟩ := Prod.mk.inj (Option.some.inj h)
    exact insert t slot d

/-- A definition that is not refused is the one that was there, or is stored. -/
theorem define {t : Table} {d : Definition} {r : Defined} (h : Macro.define t d = .ok r) :
    Counts t r.table r.ceiling := by
  unfold Macro.define at h
  dsimp only at h
  split at h
  · split at h
    · exact absurd h (by simp)
    · split at h
      · obtain rfl := Except.ok.inj h
        exact refl t
      · split at h
        · next hinstall =>
          obtain rfl := Except.ok.inj h
          exact install hinstall
        · exact absurd h (by simp)
  · split at h
    · next hinstall =>
      obtain rfl := Except.ok.inj h
      exact install hinstall
    · exact absurd h (by simp)

/-- **Every operation but clearing** counts what it adds, and comes with the notice when it adds one
    definition too many and the notice was not given before. -/
theorem apply (t : Table) {op : TableOp} (hop : op ≠ .clear) :
    Counts t (t.apply op) (t.notice? op) := by
  cases op with
  | install d =>
    simp only [Table.apply, Table.notice?]
    cases hinstall : t.install? d (t.findSlot d.name) with
    | none => exact refl t
    | some result => exact install hinstall
  | define d =>
    simp only [Table.apply, Table.notice?]
    cases hdefine : Macro.define t d with
    | error e => exact refl t
    | ok r => exact define hdefine
  | undefine name =>
    simp only [Table.apply, Table.notice?, Table.undefine?]
    split
    · split
      · exact refl t
      · exact remove t _
    · exact refl t
  | definePrivileged d =>
    simp only [Table.apply, Table.notice?, Table.definePrivileged]
    split
    · exact replace t _ d
    · exact insert t _ d
  | undefinePrivileged name =>
    simp only [Table.apply, Table.notice?, Table.undefinePrivileged?]
    split
    · exact remove t _
    · exact refl t
  | clear => exact absurd rfl hop
  | setStrict on => exact of_not_added rfl rfl (Nat.le_refl _)

end Counts

/-! ## Sequences of operations -/

/-- At some moment since a table was created, or cleared for the last time, it held more than
    `maxMacros` definitions. -/
def Exceeded (maxMacros : Int) (strict : Bool) (ops : List TableOp) : Prop :=
  ∃ earlier recent, ops = earlier ++ recent ∧ .clear ∉ recent ∧
    maxMacros < (earlier.foldl Table.apply (.empty maxMacros strict)).count

section Histories

variable {maxMacros : Int} {strict : Bool} {ops : List TableOp} {op : TableOp}

theorem exceeded_concat :
    Exceeded maxMacros strict (ops ++ [op]) ↔
      maxMacros < ((ops ++ [op]).foldl Table.apply (.empty maxMacros strict)).count ∨
        op ≠ .clear ∧ Exceeded maxMacros strict ops := by
  constructor
  · rintro ⟨earlier, recent, hsplit, hclear, hmany⟩
    rcases List.eq_nil_or_concat recent with rfl | ⟨recent, last, rfl⟩
    · rw [List.append_nil] at hsplit
      exact .inl (hsplit ▸ hmany)
    · rw [List.concat_eq_append, ← List.append_assoc] at hsplit
      obtain ⟨rfl, hlast⟩ := List.append_inj' hsplit rfl
      obtain rfl : op = last := by simpa using hlast
      simp only [List.concat_eq_append, List.mem_append, List.mem_singleton, not_or] at hclear
      exact .inr ⟨Ne.symm hclear.2, earlier, recent, rfl, hclear.1, hmany⟩
  · rintro (hmany | ⟨hop, earlier, recent, rfl, hclear, hmany⟩)
    · exact ⟨ops ++ [op], [], by simp, by simp, hmany⟩
    · refine ⟨earlier, recent ++ [op], by simp, ?_, hmany⟩
      simpa [hclear] using Ne.symm hop

/-- A table that never held too many since it was cleared does not hold too many now. -/
theorem count_le_of_not_exceeded (h : ¬ Exceeded maxMacros strict ops) :
    ((ops.foldl Table.apply (.empty maxMacros strict)).count : Int) ≤ maxMacros := by
  by_contra hmany
  exact h ⟨ops, [], by simp, by simp, Int.not_le.1 hmany⟩

theorem foldl_maxMacros :
    (ops.foldl Table.apply (.empty maxMacros strict)).maxMacros = maxMacros := by
  induction ops using List.reverseRecOn with
  | nil => rfl
  | append_singleton ops op ih =>
    rw [List.foldl_concat]
    by_cases hop : op = .clear
    · exact hop ▸ ih
    · exact (Counts.apply _ hop).limit.trans ih

/-- **The table remembers** whether it held too many definitions since it was cleared. -/
theorem warned_iff_exceeded (hpos : 0 < maxMacros) :
    (ops.foldl Table.apply (.empty maxMacros strict)).warned = true ↔
      Exceeded maxMacros strict ops := by
  induction ops using List.reverseRecOn with
  | nil =>
    refine iff_of_false (by simp [Table.empty]) ?_
    rintro ⟨earlier, recent, hsplit, -, hmany⟩
    obtain ⟨rfl, -⟩ := List.append_eq_nil_iff.1 hsplit.symm
    have hempty : maxMacros < (0 : Nat) := hmany
    omega
  | append_singleton ops op ih =>
    rw [exceeded_concat, List.foldl_concat]
    by_cases hop : op = .clear
    · subst hop
      refine iff_of_false (by simp [Table.apply, Table.clear]) ?_
      rintro (hmany | ⟨hop, -⟩)
      · have hempty : maxMacros < (0 : Nat) := hmany
        omega
      · exact hop rfl
    · have hcounts := Counts.apply (ops.foldl Table.apply (.empty maxMacros strict)) hop
      rw [hcounts.warned, Bool.or_eq_true, ih, Option.isSome_iff_exists]
      simp only [hcounts.notice, foldl_maxMacros]
      by_cases hbefore : Exceeded maxMacros strict ops
      · simp [hbefore, hop]
      · have hfew := count_le_of_not_exceeded hbefore
        have hfirst := Bool.eq_false_iff.2 (mt ih.1 hbefore)
        constructor
        · rintro (hexceeded | ⟨-, -, hmany, -⟩)
          · exact absurd hexceeded hbefore
          · exact .inl hmany
        · rintro (hmany | ⟨-, hexceeded⟩)
          · exact .inr ⟨_, hpos, hmany, by omega, hfirst, rfl⟩
          · exact absurd hexceeded hbefore

end Histories

/-- After a notice, there is no other before the table is cleared. -/
theorem notices_of_warned {t : Table} (ht : t.warned = true) {ops : List TableOp}
    (hclear : .clear ∉ ops) : t.notices ops = [] := by
  induction ops generalizing t with
  | nil => rfl
  | cons op rest ih =>
    simp only [List.mem_cons, not_or] at hclear
    have hcounts := Counts.apply t (Ne.symm hclear.1)
    have hnone : t.notice? op = none := by
      refine Option.eq_none_iff_forall_ne_some.2 fun c hc => ?_
      obtain ⟨-, -, -, hfirst, -⟩ := (hcounts.notice c).1 hc
      exact absurd (ht.symm.trans hfirst) (by simp)
    rw [Table.notices, hnone, ih (by rw [hcounts.warned, ht, Bool.true_or]) hclear.2]
    rfl

theorem notices_length_le_one (t : Table) {ops : List TableOp} (hclear : .clear ∉ ops) :
    (t.notices ops).length ≤ 1 := by
  induction ops generalizing t with
  | nil => exact Nat.zero_le _
  | cons op rest ih =>
    simp only [List.mem_cons, not_or] at hclear
    have hcounts := Counts.apply t (Ne.symm hclear.1)
    rw [Table.notices]
    cases hnotice : t.notice? op with
    | none => exact ih _ hclear.2
    | some c =>
      have hwarned : (t.apply op).warned = true := by rw [hcounts.warned, hnotice]; simp
      rw [notices_of_warned hwarned hclear.2]
      exact Nat.le_refl _

/-- The operations that store a definition. -/
def Stores (d : Definition) (op : TableOp) : Prop :=
  op = .install d ∨ op = .define d ∨ op = .definePrivileged d

theorem install?_count {t t' : Table} {d : Definition} {slot : Slot} {notice : Option Ceiling}
    (hd : (t.at? slot).isSome = true) (h : t.install? d slot = some (t', notice)) :
    t'.count = t.count := by
  obtain ⟨current, hcurrent⟩ := Option.isSome_iff_exists.1 hd
  simp only [Table.install?, hcurrent] at h
  split at h
  · exact absurd h (by simp)
  · obtain ⟨rfl, -⟩ := Prod.mk.inj (Option.some.inj h)
    rfl

/-- Storing a definition where one of its name is adds none. -/
theorem count_of_stored {t : Table} (hwf : t.Wf) {d : Definition} {op : TableOp}
    (hd : (t.stored d.name).isSome = true) (hop : Stores d op) : (t.apply op).count = t.count := by
  have hexact : (t.findSlot d.name).exact = true := (Table.exact_eq_isSome hwf _).trans hd
  have hinstall : ∀ t' notice, t.install? d (t.findSlot d.name) = some (t', notice) →
      t'.count = t.count := fun t' notice => install?_count hd
  rcases hop with rfl | rfl | rfl
  · simp only [Table.apply]
    cases hresult : t.install? d (t.findSlot d.name) with
    | none => rfl
    | some result => exact hinstall _ _ hresult
  · simp only [Table.apply]
    split
    · next r hdefine =>
      unfold Macro.define at hdefine
      grind
    · rfl
  · simp only [Table.apply, Table.definePrivileged, hexact, if_true]
    rfl

/-- **The notice about too many macros** comes with an operation exactly when the ceiling is
    positive, the table holds more definitions after the operation, and it never did since it was
    created or cleared for the last time. It names the first number above the ceiling, and the
    ceiling. From any moment to the next clearing there is one notice at most, and none ever comes
    with a definition that replaces another of its name. -/
theorem ceiling_noticed_once (maxMacros : Int) (strict : Bool) (ops : List TableOp) :
    let t := ops.foldl Table.apply (.empty maxMacros strict)
    (∀ op c, t.notice? op = some c ↔
      0 < maxMacros ∧ maxMacros < (t.apply op).count ∧ ¬ Exceeded maxMacros strict ops ∧
        (c.count : Int) = maxMacros + 1 ∧ c.limit = maxMacros) ∧
    (∀ more, .clear ∉ more → (t.notices more).length ≤ 1) ∧
    ∀ d op, (t.stored d.name).isSome = true → Stores d op → t.notice? op = none := by
  intro t
  have hlimit : t.maxMacros = maxMacros := foldl_maxMacros
  refine ⟨fun op c => ?_, fun more => notices_length_le_one t, fun d op hd hop => ?_⟩
  · by_cases hop : op = .clear
    · subst hop
      refine iff_of_false (by simp [Table.notice?]) ?_
      rintro ⟨hpos, hmany, -⟩
      have hempty : maxMacros < (0 : Nat) := hmany
      omega
    · have hcounts := Counts.apply t hop
      have hone := hcounts.count
      -- the ceiling is passed by one definition at a time
      have hfew : ¬ Exceeded maxMacros strict ops → (t.count : Int) ≤ maxMacros :=
        count_le_of_not_exceeded
      rw [hcounts.notice c, hlimit]
      constructor
      · rintro ⟨hpos, hmany, -, hfirst, rfl⟩
        have hbefore : ¬ Exceeded maxMacros strict ops := by
          rw [← warned_iff_exceeded hpos]
          exact Bool.eq_false_iff.1 hfirst
        have hle := hfew hbefore
        have hfirst : ((t.apply op).count : Int) = maxMacros + 1 := by omega
        exact ⟨hpos, hmany, hbefore, hfirst, rfl⟩
      · rintro ⟨hpos, hmany, hbefore, hcount, hceiling⟩
        have hle := hfew hbefore
        rw [← warned_iff_exceeded hpos] at hbefore
        obtain ⟨count, limit⟩ := c
        obtain rfl : limit = maxMacros := hceiling
        obtain rfl : count = (t.apply op).count := by dsimp only at hcount; omega
        exact ⟨hpos, hmany, by omega, Bool.eq_false_iff.2 hbefore, rfl⟩
  · have hwf : t.Wf := ((Represents.of_empty maxMacros strict).run ops).wf
    have hsame := count_of_stored hwf hd hop
    have hcounts : Counts t (t.apply op) (t.notice? op) := by
      refine Counts.apply t ?_
      rintro rfl
      rcases hop with hop | hop | hop <;> cases hop
    refine Option.eq_none_iff_forall_ne_some.2 fun c hc => ?_
    obtain ⟨-, -, hadded, -⟩ := (hcounts.notice c).1 hc
    omega

/-- A definition without a body. -/
def plainMacro (name : String) : Definition :=
  { name := ascii name, definedAt := {} }

/-- Two macros under a ceiling of two, a third one, and another one after it is dropped. -/
theorem ceiling_noticed_once_two :
    let t := [TableOp.install (plainMacro "A"), .define (plainMacro "B")].foldl Table.apply
      (.empty 2 false)
    (plainMacro "B").name = ascii "B" ∧ (t.stored (plainMacro "B").name).isSome = true ∧
    t.notice? (.definePrivileged (plainMacro "C")) = some ⟨3, 2⟩ ∧
    t.notice? (.define (plainMacro "B")) = none ∧
    (t.notices [.definePrivileged (plainMacro "C"), .undefine (ascii "C"),
      .install (plainMacro "D")]).length ≤ 1 := by
  intro t
  obtain ⟨hiff, honce, hstored⟩ := ceiling_noticed_once 2 false
    [.install (plainMacro "A"), .define (plainMacro "B")]
  have hB : (t.stored (plainMacro "B").name).isSome = true := by decide +kernel
  have hbefore : ¬ Exceeded 2 false [.install (plainMacro "A"), .define (plainMacro "B")] := by
    rw [← warned_iff_exceeded (by decide)]
    decide +kernel
  refine ⟨rfl, hB, ?_, hstored _ _ hB (Or.inr (Or.inl rfl)), honce _ (by simp)⟩
  exact (hiff _ _).2 ⟨by decide, by decide +kernel, hbefore, rfl, rfl⟩

end Preproc.Macro
