import Mathlib.Data.List.Sort
import Preproc.CommandLine.Program
import Preproc.Proofs.Engine.Origins

set_option autoImplicit false

/-! # The macro dump

The macros of a program's own can be printed as directives. A host that defines nothing else reads
these directives one by one, each as the definition that it was printed from (`reload_lines`), and
so comes to the same definitions, those apart that say what a built-in macro says
(`Reloaded.userMacros`). -/

namespace Preproc

/-! ## Tables -/

namespace Macro

/-- What a definition says, wherever it stands and whoever made it. -/
def Definition.content (d : Definition) : Definition :=
  { d with definedAt := {}, origin := .user }

/-- The macros of a program's own, in the order of the listing. -/
def Table.userMacros (t : Table) : List Definition :=
  t.all.filter (·.origin = .user)

section Tables

variable {t t' : Table} {d : Definition} {ds : List Definition}

theorem Table.mem_userMacros (hwf : t.Wf) (d : Definition) :
    d ∈ t.userMacros ↔ t.stored d.name = some d ∧ d.origin = .user := by
  rw [Table.userMacros, List.mem_filter, (Represents.of_wf hwf).mem_all, Contents.lookup,
    Option.filter_eq_some_iff, decide_eq_true_iff]
  constructor
  · rintro ⟨⟨hd, -⟩, horigin⟩
    exact ⟨hd, horigin⟩
  · rintro ⟨hd, horigin⟩
    exact ⟨⟨hd, by simp [horigin]⟩, horigin⟩

theorem Table.lookup_congr {name : Bytes} (hstored : t'.stored name = t.stored name)
    (hstrict : t'.strict = t.strict) : t'.lookup name = t.lookup name := by
  have hvisible : t'.visible = t.visible := by
    unfold Table.visible
    rw [hstrict]
  show (t'.stored name).filter t'.visible = (t.stored name).filter t.visible
  rw [hstored, hvisible]

theorem Table.sorted_userMacros (hwf : t.Wf) : SortedByName t.userMacros :=
  (Represents.of_wf hwf).sorted_all.filter _

/-- Sorted definitions are determined by what is among them. -/
theorem SortedByName.eq_of_mem_iff {ds' : List Definition} (hs : SortedByName ds)
    (hs' : SortedByName ds') (hmem : ∀ d, d ∈ ds ↔ d ∈ ds') : ds = ds' := by
  let before (a b : Definition) : Prop := bytesLt a.name b.name = true
  have hirrefl : Std.Irrefl before := ⟨fun a h => absurd h (by simp [before, bytesLt_irrefl])⟩
  have hantisymm : Std.Antisymm before :=
    ⟨fun a b hab hba => absurd hba (by simp [before, bytesLt_asymm hab])⟩
  exact List.Pairwise.eq_of_mem_iff (r := before) hs hs' hmem

theorem SortedByName.map_content (hs : SortedByName ds) :
    SortedByName (ds.map Definition.content) :=
  List.pairwise_map.2 hs

/-- The listing in a form that can be computed: all definitions are put in order one by one. -/
theorem Table.userMacros_eq (hwf : t.Wf) :
    t.userMacros = (t.entries.filter (·.origin = .user)).insertionSort
      fun a b => bytesLt b.name a.name = false := by
  let notAfter (a b : Definition) : Prop := bytesLt b.name a.name = false
  have htotal : Std.Total notAfter := ⟨fun a b => bytesLt_false_total a.name b.name⟩
  have htrans : IsTrans Definition notAfter := ⟨fun _ _ _ hab hbc => bytesLt_false_trans hab hbc⟩
  have hr := Represents.of_wf hwf
  refine (sorted_userMacros hwf).eq_of_mem_iff (sortedByName_of_distinct ?_ ?_) fun d => ?_
  · exact List.pairwise_insertionSort notAfter _
  · exact (List.perm_insertionSort notAfter _).symm.pairwise (hr.entries_distinct.filter _)
      fun h => h.symm
  · rw [mem_userMacros hwf, List.mem_insertionSort, List.mem_filter, hr.mem_entries,
      decide_eq_true_iff]

/-- A definition is not refused where nothing is locked. -/
theorem define_of_free (hfree : (t.stored d.name).any (·.origin = .locked) = false) :
    ∃ r, define t d = .ok r ∧ r.table = t.apply (.define d) := by
  have hat : t.at? (t.findSlot d.name) = t.stored d.name := rfl
  have hinstall : ∃ installed, t.install? d (t.findSlot d.name) = some installed := by
    unfold Table.install?
    rw [hat]
    cases hstored : t.stored d.name with
    | none => exact ⟨_, rfl⟩
    | some current =>
      rw [hstored] at hfree
      exact ⟨_, if_neg (by simpa using hfree)⟩
  obtain ⟨⟨table, ceiling⟩, hinstalled⟩ := hinstall
  have hdefine : ∃ r, define t d = .ok r := by
    unfold define
    dsimp only
    rw [hinstalled, hat]
    cases hseen : (t.stored d.name).filter t.visible with
    | none => exact ⟨_, rfl⟩
    | some current =>
      have hstored := (Option.filter_eq_some_iff.1 hseen).1
      rw [hstored] at hfree
      dsimp only
      rw [if_neg (by simpa using hfree)]
      split <;> exact ⟨_, rfl⟩
  obtain ⟨r, hr⟩ := hdefine
  refine ⟨r, hr, ?_⟩
  simp only [Table.apply, hr]

/-- What a definition does where nothing is locked: it is stored, unless what can be seen there says
    the same. -/
theorem Table.stored_define (hwf : t.Wf)
    (hfree : (t.stored d.name).any (·.origin = .locked) = false) (name : Bytes) :
    (t.apply (.define d)).stored name =
      if name = d.name ∧ (t.lookup d.name).any (·.sameAs d) = false then some d
      else t.stored name := by
  have hr := Represents.of_wf hwf
  rw [(hr.apply (.define d)).stored name, Contents.apply, ← hr.lookup]
  have hseen : (t.lookup d.name).any (fun current => current.origin = .locked || current.sameAs d) =
      (t.lookup d.name).any (·.sameAs d) := by
    cases hlookup : t.lookup d.name with
    | none => rfl
    | some current =>
      have hstored : t.stored d.name = some current := (Option.filter_eq_some_iff.1 hlookup).1
      rw [hstored] at hfree
      simp [show current.origin ≠ .locked by simpa using hfree]
  rw [hseen]
  cases hsame : (t.lookup d.name).any (·.sameAs d) with
  | true => simp
  | false => simp [Contents.stored_set]

/-- The table `t'` comes from `t` when definitions are made again, each at some place. -/
inductive Reloads : Table → List Definition → Table → Prop where
  | nil (t : Table) : Reloads t [] t
  | cons {t t' : Table} {d : Definition} {ds : List Definition} (pos : Position)
      (h : Reloads (t.apply (.define (d.placedAt pos))) ds t') : Reloads t (d :: ds) t'

/-- No definition has the name of a locked macro. -/
def Unlocked (t : Table) (ds : List Definition) : Prop :=
  ∀ d ∈ ds, (t.stored d.name).any (·.origin = .locked) = false

/-- A definition that is made again locks nothing. -/
theorem Unlocked.define (hwf : t.Wf) (hfree : Unlocked t (d :: ds)) (pos : Position) :
    Unlocked (t.apply (.define (d.placedAt pos))) ds := by
  obtain ⟨hd, hds⟩ := List.forall_mem_cons.1 hfree
  intro d' hd'
  rw [Table.stored_define (d := d.placedAt pos) hwf hd]
  split
  · rfl
  · exact hds d' hd'

theorem Table.strict_define (hwf : t.Wf) (d : Definition) :
    (t.apply (.define d)).strict = t.strict := by
  rw [((Represents.of_wf hwf).apply (.define d)).strict, Contents.apply]
  split <;> rfl

/-- What is left when definitions were made again: those that say what could be seen before have
    changed nothing, all others are stored. -/
structure Reloaded (t t' : Table) (ds : List Definition) : Prop where
  wf : t'.Wf
  strict : t'.strict = t.strict
  other : ∀ name, (∀ d ∈ ds, d.name ≠ name) → t'.stored name = t.stored name
  kept : ∀ d ∈ ds, (t.lookup d.name).any (·.sameAs d) = true → t'.stored d.name = t.stored d.name
  made : ∀ d ∈ ds, (t.lookup d.name).any (·.sameAs d) = false →
    ∃ pos, t'.stored d.name = some (d.placedAt pos)

/-- **Definitions of different names do not get into each other's way.** -/
theorem Reloads.reloaded (h : Reloads t ds t') (hwf : t.Wf) (hfree : Unlocked t ds)
    (hdistinct : ds.Pairwise fun d d' => d.name ≠ d'.name) : Reloaded t t' ds := by
  induction h with
  | nil t => exact ⟨hwf, rfl, fun _ _ => rfl, by simp, by simp⟩
  | @cons t t' d ds pos h ih =>
    obtain ⟨hd, hds⟩ := List.pairwise_cons.1 hdistinct
    obtain ⟨hwf', hstrict, hother, hkept, hmade⟩ := ih (hwf.apply _) (hfree.define hwf pos) hds
    have hstored := Table.stored_define (d := d.placedAt pos) hwf (hfree d (by simp))
    have hstrict' := Table.strict_define hwf (d.placedAt pos)
    have hself := hother d.name fun d' hd' => (hd d' hd').symm
    -- under another name the first definition changes nothing
    have hsame : ∀ name, name ≠ d.name →
        (t.apply (.define (d.placedAt pos))).stored name = t.stored name :=
      fun name hne => (hstored name).trans (if_neg fun h => hne h.1)
    have hseen : ∀ d' ∈ ds,
        (t.apply (.define (d.placedAt pos))).lookup d'.name = t.lookup d'.name := by
      intro d' hd'
      exact Table.lookup_congr (hsame _ (hd d' hd').symm) hstrict'
    refine ⟨hwf', hstrict.trans hstrict', fun name hname => ?_, ?_, ?_⟩
    · obtain ⟨hne, hnames⟩ := List.forall_mem_cons.1 hname
      exact (hother name hnames).trans (hsame name hne.symm)
    · refine List.forall_mem_cons.2 ⟨fun hany => ?_, fun d' hd' hany => ?_⟩
      · exact hself.trans ((hstored d.name).trans (if_neg fun h => absurd (hany.symm.trans h.2)
          (by simp)))
      · rw [← hseen d' hd'] at hany
        exact (hkept d' hd' hany).trans (hsame _ (hd d' hd').symm)
    · refine List.forall_mem_cons.2 ⟨fun hany => ⟨pos, ?_⟩, fun d' hd' hany => ?_⟩
      · exact hself.trans ((hstored d.name).trans (if_pos ⟨rfl, hany⟩))
      · rw [← hseen d' hd'] at hany
        exact hmade d' hd' hany

section Reloaded

variable (h : Reloaded t t' ds)

include h

/-- The macros of a program's own after definitions were made again in a table without any. -/
theorem Reloaded.content_mem (hnone : ∀ name d, t.stored name = some d → d.origin ≠ .user)
    (c : Definition) :
    c ∈ t'.userMacros.map Definition.content ↔
      c ∈ (ds.filter fun d => !(t.lookup d.name).any (·.sameAs d)).map Definition.content := by
  simp only [List.mem_map, List.mem_filter, Table.mem_userMacros h.wf, Bool.not_eq_true']
  constructor
  · rintro ⟨d', ⟨hd', horigin⟩, rfl⟩
    by_cases hname : ∃ d ∈ ds, d.name = d'.name
    · obtain ⟨d, hd, hname⟩ := hname
      rw [← hname] at hd'
      cases hany : (t.lookup d.name).any (·.sameAs d) with
      | true =>
        rw [h.kept d hd hany] at hd'
        exact absurd horigin (hnone _ _ hd')
      | false =>
        obtain ⟨pos, hpos⟩ := h.made d hd hany
        obtain rfl := Option.some.inj (hpos.symm.trans hd')
        exact ⟨d, ⟨hd, hany⟩, rfl⟩
    · rw [h.other d'.name fun d hd heq => hname ⟨d, hd, heq⟩] at hd'
      exact absurd horigin (hnone _ _ hd')
  · rintro ⟨d, ⟨hd, hany⟩, rfl⟩
    obtain ⟨pos, hpos⟩ := h.made d hd hany
    exact ⟨d.placedAt pos, ⟨hpos, rfl⟩, rfl⟩

theorem Reloaded.userMacros (hnone : ∀ name d, t.stored name = some d → d.origin ≠ .user)
    (hsorted : SortedByName ds) :
    t'.userMacros.map Definition.content =
      (ds.filter fun d => !(t.lookup d.name).any (·.sameAs d)).map Definition.content :=
  SortedByName.eq_of_mem_iff (Table.sorted_userMacros h.wf).map_content
    (SortedByName.map_content (hsorted.filter _)) (h.content_mem hnone)

/-- Each definition is in force again, if the ones that were kept say the same. -/
theorem Reloaded.lookup (hd : d ∈ ds)
    (hsame : ∀ b, t.lookup d.name = some b → b.sameAs d = true → b.content = d.content) :
    (t'.lookup d.name).map Definition.content = some d.content := by
  cases hany : (t.lookup d.name).any (·.sameAs d) with
  | true =>
    obtain ⟨b, hb, hagrees⟩ := (Option.any_eq_true _ _).1 hany
    rw [Table.lookup_congr (h.kept d hd hany) h.strict, hb, Option.map_some, hsame b hb hagrees]
  | false =>
    obtain ⟨pos, hpos⟩ := h.made d hd hany
    have hlookup : t'.lookup d.name = (t'.stored d.name).filter t'.visible := rfl
    rw [hlookup, hpos]
    simp [Table.visible, Definition.placedAt, Definition.content]

end Reloaded

end Tables

end Macro

namespace Engine

open Macro (Table Definition Written Reloads Unlocked)
open Source (Start simpleLine simpleLines)

/-! ## Directives -/

section Directives

variable {h : Host} {d : Definition} {ls : List (TokenKind × Bytes)}

/-- A directive that makes a definition again: there is no error, and the table alone changes. -/
structure Remade (s : State) (d : Definition) (out : Outcome) : Prop where
  failure : out.failure = none
  branches : out.state.branches = s.branches
  errors : out.state.reporter.errors = s.reporter.errors
  table : ∃ pos, out.state.table = s.table.apply (.define (d.placedAt pos))

/-- **A printed definition is read as the definition that it was printed from.** -/
theorem directive_remade (hd : Written h.limits d ls) (nested : Option Nested) {s : State}
    (hs : s.compiling = true) (hfree : (s.table.stored d.name).any (·.origin = .locked) = false)
    (pos : Position) :
    Remade s d (s.directiveWith h nested pos d.directive) := by
  obtain ⟨name, c, ha, -, hshapes⟩ := announces_of_lexemes .define hd.shapes pos
  obtain ⟨place, notice, hparse⟩ := hd.parse_operands hshapes
  obtain ⟨r, hr, htable⟩ := Macro.define_of_free (d := d.placedAt place) hfree
  obtain ⟨s', hdefine, hreported, herrors⟩ := define_of_ok hparse hr
  have hout : s.dispatch h nested (some .define) name c = { state := s' } := by
    show s.defineDirective h c = _
    rw [State.defineDirective, hdefine]
  obtain ⟨resync, hnote⟩ := noteSwitch_effect { state := s' } true
  rw [ha.directiveWith h nested hs, hout, hnote]
  exact ⟨rfl, hreported.branches, herrors, place, hreported.table.trans htable⟩

end Directives

/-! ## Runs -/

theorem startsDirective_directive (d : Definition) :
    Source.startsDirective d.directive = true := by
  have hindent : Source.isIndent (byte '#') = false := by decide
  have hcons : d.directive = byte '#' :: (ascii "define " ++ d.source) := rfl
  simp [Source.startsDirective, hcons, hindent]

/-- **A source of printed definitions makes them all again**, without an error. -/
theorem reload_lines {h : Host} {ds : List Definition}
    (hds : ∀ d ∈ ds, ∃ ls, Written h.limits d ls) (nested : Option Nested) (start : Start)
    (place : OutputPlace) {s : State} (hframes : s.branches.frames = []) (hs : s.compiling = true)
    (hwf : s.table.Wf) (hfree : Unlocked s.table ds) :
    let out := s.processLines h nested place (simpleLines start (ds.map Definition.directive))
    out.failure = none ∧ out.state.reporter.errors = s.reporter.errors ∧
      Reloads s.table ds out.state.table := by
  induction ds generalizing start place s with
  | nil =>
    have hclosed : s.closeGroups = s := closeGroups_of_nil hframes
    refine ⟨rfl, congrArg (·.reporter.errors) hclosed, ?_⟩
    show Reloads s.table [] s.closeGroups.table
    rw [hclosed]
    exact .nil s.table
  | cons d ds ih =>
    obtain ⟨hd, hds⟩ := List.forall_mem_cons.1 hds
    obtain ⟨ls, hd⟩ := hd
    let l := simpleLine start d.directive
    have hl : l.directive = true := startsDirective_directive d
    have htext : l.text = d.directive := hd.dropCarriageReturn
    have hout := directive_remade hd nested (s := s.track l) hs (hfree d (by simp))
      ((s.track l).linePosition l)
    rw [List.map_cons, simpleLines, processLines_directive h nested place s l _ hl, htext]
    dsimp only
    generalize (s.track l).directiveWith h nested _ d.directive = out at hout ⊢
    obtain ⟨hfailure, hbranches, herrors, pos, htable⟩ := hout
    obtain ⟨hdone, herrors', hreloads⟩ := ih hds (start.below d.directive)
      (place.after out.state) (s := { out.state with resync := false })
      (by rw [← hframes]; exact congrArg Branch.Stack.frames hbranches)
      (by rw [← hs]; exact congrArg Branch.Stack.compiling hbranches)
      (by rw [htable]; exact hwf.apply _)
      (by rw [htable]; exact hfree.define hwf pos)
    rw [hfailure]
    refine ⟨hdone, herrors'.trans herrors, .cons pos ?_⟩
    rw [htable] at hreloads
    exact hreloads

theorem run_reloads {h : Host} {ds : List Definition} (hds : ∀ d ∈ ds, ∃ ls, Written h.limits d ls)
    (hlines : ∀ d ∈ ds, Source.ClosedLine d.directive) {s : State} (hwf : s.table.Wf)
    (hfree : Unlocked s.table ds) (name : Bytes) :
    let again := s.run h name (Source.sourceOf (ds.map Definition.directive))
    again.2.errors = 0 ∧ again.2.aborted = false ∧ Reloads s.table ds again.1.state.table := by
  have hread : Source.logicalLines (Source.sourceOf (ds.map Definition.directive)) =
      simpleLines {} (ds.map Definition.directive) :=
    Source.logicalLines_closed fun line hline => by
      obtain ⟨d, hd, rfl⟩ := List.mem_map.1 hline
      exact hlines d hd
  obtain ⟨hfailure, herrors, hreloads⟩ := reload_lines hds
    (nestedProcess h ((s.entered name).levelsLeft h)) {} {} (s := s.entered name) rfl rfl hwf hfree
  rw [← hread] at hfailure herrors hreloads
  refine ⟨Nat.sub_eq_zero_of_le (Nat.le_of_eq herrors), ?_, hreloads⟩
  exact congrArg Option.isSome hfailure

/-! ## The dump -/

/-- The same host without definitions in its settings. -/
def Host.withoutDefines (h : Host) : Host :=
  { h with settings := { h.settings with defines := [], undefines := [] } }

theorem withoutDefines_start {h : Host} (hok : h.start.2 = none) :
    h.withoutDefines.start.2 = none ∧
      h.withoutDefines.start.1.table =
        builtinTable h.settings.maxMacros h.settings.strict := by
  have hvalid : h.withoutDefines.settings.validate = .ok () := by
    have hvalid := (start_of_ok hok).1
    unfold Settings.validate at hvalid ⊢
    simp only [Host.withoutDefines, Settings.checkDefines, List.find?_nil]
    grind
  have hstart : h.withoutDefines.start = (h.withoutDefines.builtinState, none) := by
    unfold Host.start
    rw [hvalid]
    rfl
  rw [hstart, builtinState_table]
  exact ⟨rfl, rfl⟩

theorem writeMacros_define (ds : List Definition) :
    CommandLine.writeMacros (ascii "define") ds =
      .ok (Source.sourceOf (ds.map Definition.directive)) := by
  have hformat : ascii "define" ≠ ascii "yaml" := by decide
  rw [CommandLine.writeMacros, if_neg hformat, if_pos rfl, Source.sourceOf, List.flatMap_map]
  rfl

/-- The listing after runs in a form that can be computed. -/
theorem userMacros_tableAfter (h : Host) (files : List (Bytes × Bytes)) :
    (h.tableAfter files).userMacros =
      ((h.tableAfter files).entries.filter (·.origin = .user)).insertionSort
        fun a b => bytesLt b.name a.name = false :=
  Table.userMacros_eq (wf_tableAfter h files)

section Dump

variable {h : Host} {t : Table} {d : Definition}

theorem Ascribed.written (ht : Ascribed h t) (hd : d ∈ t.userMacros)
    (hclosed : Source.endsInComment false d.source = false) : ∃ ls, Written h.limits d ls := by
  obtain ⟨hstored, horigin⟩ := (Table.mem_userMacros ht.wf d).1 hd
  obtain ⟨c, p, hc, hp, rfl⟩ := ht.user d.name d hstored horigin
  refine (Macro.parse_written_or_open hc hp).resolve_right fun hopen => ?_
  exact absurd (hopen.symm.trans hclosed) (by simp)

theorem Ascribed.not_locked (ht : Ascribed h t) (hd : d ∈ t.userMacros)
    (hkept : d.name ∈ lockedNames → d.name ∉ h.settings.undefines) : d.name ∉ lockedNames := by
  intro hlocked
  obtain ⟨hstored, horigin⟩ := (Table.mem_userMacros ht.wf d).1 hd
  obtain ⟨d', hd', hlocked'⟩ := ht.locked d.name hlocked (hkept hlocked)
  obtain rfl := Option.some.inj (hstored.symm.trans hd')
  exact absurd (horigin.symm.trans hlocked') (by simp)

theorem unlocked_builtin (maxMacros : Int) (strict : Bool) {ds : List Definition}
    (hds : ∀ d ∈ ds, d.name ∉ lockedNames) : Unlocked (builtinTable maxMacros strict) ds := by
  intro d hd
  by_contra hany
  obtain ⟨b, hb, hlocked⟩ := (Option.any_eq_true _ _).1 (Bool.eq_true_of_not_eq_false hany)
  obtain ⟨hmem, hname⟩ := mem_builtinMacros hb
  obtain ⟨-, -, -, hnames⟩ := builtin_facts b hmem
  exact hds d hd (hname ▸ hnames (by simpa using hlocked))

/-- A built-in macro that says the same as a definition that was read differs from it in nothing. -/
theorem content_of_sameAs {limits : Macro.Limits} {ls : List (TokenKind × Bytes)} {b : Definition}
    (hb : b ∈ builtinMacros) (hd : Written limits d ls) (hsame : b.sameAs d = true) :
    b.content = d.content := by
  obtain ⟨-, hlike, hparams, -⟩ := builtin_facts b hb
  simp only [Definition.sameAs, Bool.and_eq_true, decide_eq_true_eq] at hsame
  obtain ⟨⟨⟨⟨hname, hlike'⟩, hvariadic⟩, -⟩, hbody⟩ := hsame
  have hparams' := hd.params (hlike'.symm.trans hlike)
  simp only [Definition.content, hname, hlike', hvariadic, hbody, hparams, hparams']

end Dump

/-- **The macro dump reproduces the macros.** Take the macros of a program's own after any runs. If
    no definition in the settings has more than one line, no macro has a locked name that the
    settings drop, and no printed form says that the next line belongs to it, then the same host
    without definitions in its settings reads the dump without an error. All the macros are in force
    again, and all are a program's own but those that a visible built-in macro says already. -/
theorem macro_dump_reloads {h : Host} (hok : h.start.2 = none)
    (hdefines : ∀ text ∈ h.settings.defines, newline ∉ text) (files : List (Bytes × Bytes))
    (hlocked : ∀ d ∈ (h.tableAfter files).userMacros,
      d.name ∈ lockedNames → d.name ∉ h.settings.undefines)
    (hlines : ∀ d ∈ (h.tableAfter files).userMacros,
      d.source.getLast? ≠ some backslash ∧ Source.endsInComment false d.source = false)
    (name : Bytes) :
    let ds := (h.tableAfter files).userMacros
    let text := Source.sourceOf (ds.map Definition.directive)
    let fresh := h.withoutDefines
    let again := fresh.start.1.run fresh name text
    CommandLine.writeMacros (ascii "define") ds = .ok text ∧
      fresh.start.2 = none ∧ again.2.errors = 0 ∧ again.2.aborted = false ∧
      (∀ d ∈ ds, (again.1.state.table.lookup d.name).map Definition.content = some d.content) ∧
      again.1.state.table.userMacros.map Definition.content =
        (ds.filter fun d => !(fresh.start.1.table.lookup d.name).any (·.sameAs d)).map
          Definition.content := by
  intro ds text fresh again
  have hascribed := runs_ascribed hok hdefines files
  have hsorted : Macro.SortedByName ds := Table.sorted_userMacros hascribed.wf
  have hwritten : ∀ d ∈ ds, ∃ ls, Written h.limits d ls := fun d hd =>
    hascribed.written hd (hlines d hd).2
  have hclosed : ∀ d ∈ ds, Source.ClosedLine d.directive := by
    intro d hd
    obtain ⟨ls, hls⟩ := hwritten d hd
    exact hls.closedLine (hlines d hd).1 (hlines d hd).2
  -- the dump is read into the table of the built-in macros
  obtain ⟨hstart, htable⟩ := withoutDefines_start hok
  have hwf : fresh.start.1.table.Wf := wf_start fresh
  have hbuiltin : ∀ name b, fresh.start.1.table.stored name = some b → b ∈ builtinMacros :=
    fun _ _ hb => (mem_builtinMacros (htable ▸ hb)).1
  have hfree : Unlocked fresh.start.1.table ds := by
    rw [htable]
    exact unlocked_builtin _ _ fun d hd => hascribed.not_locked hd (hlocked d hd)
  obtain ⟨herrors, haborted, hreloads⟩ := run_reloads (h := fresh) hwritten hclosed hwf hfree name
  have hreloaded := hreloads.reloaded hwf hfree hsorted.distinct
  refine ⟨writeMacros_define ds, hstart, herrors, haborted, fun d hd => ?_, ?_⟩
  · obtain ⟨ls, hls⟩ := hwritten d hd
    refine hreloaded.lookup hd fun b hb hsame => ?_
    have hstored := (Option.filter_eq_some_iff.1 hb).1
    exact content_of_sameAs (hbuiltin d.name b hstored) hls hsame
  · refine hreloaded.userMacros (fun other b hb => ?_) hsorted
    exact (builtin_facts b (hbuiltin other b hb)).1

/-- A host with definitions in its settings, which drop one of the built-in macros. -/
def definingHost : Host where
  settings :=
    { defines := [ascii "LOG(fmt,args...)=fmt #args", ascii "DEBUG"]
      undefines := [ascii "DEBUG", ascii "__RPP_EXTENSIONS__"] }
  includer := none

/-- Definitions with a comment over two lines, a lone quote, quotes around the opening of a comment,
    and the names of built-in macros. -/
def definingSource : Bytes :=
  ascii "#define A(x,y) x /* 1\n2 */ # y ## 'b\n#undef __RPP__\n#define __RPP__ 1\n"
    ++ ascii "#define B \"/*\" // c\n#define __RPP_EXTENSIONS__ 2\n#define C\n"

/-- The macros after that source as they are printed. -/
def definingDump : Bytes :=
  ascii "#define A(x,y) x #y ## 'b\n#define B \"/*\"\n#define C\n"
    ++ ascii "#define LOG(fmt,args...) fmt #args\n#define __RPP_EXTENSIONS__ 2\n#define __RPP__ 1\n"

theorem macro_dump_reloads_settings :
    let ds := (definingHost.tableAfter [(ascii "main.c", definingSource)]).userMacros
    let fresh := definingHost.withoutDefines
    let again := fresh.start.1.run fresh (ascii "dump.h") definingDump
    CommandLine.writeMacros (ascii "define") ds = .ok definingDump ∧
      again.2.errors = 0 ∧
      (∀ d ∈ ds, (again.1.state.table.lookup d.name).map Definition.content = some d.content) ∧
      again.1.state.table.userMacros.map Definition.content =
        ds.dropLast.map Definition.content := by
  intro ds fresh again
  have hok : definingHost.start.2 = none := Option.isNone_iff_eq_none.1 (by decide +kernel)
  have hds : Source.sourceOf (ds.map Definition.directive) = definingDump ∧
      ds.filter (fun d => !(fresh.start.1.table.lookup d.name).any (·.sameAs d)) = ds.dropLast ∧
      (∀ d ∈ ds, d.name ∈ lockedNames → d.name ∉ definingHost.settings.undefines) ∧
      ∀ d ∈ ds, d.source.getLast? ≠ some backslash ∧
        Source.endsInComment false d.source = false := by
    rw [show ds = _ from userMacros_tableAfter definingHost _]
    decide +kernel
  obtain ⟨hdump, hnew, hlocked, hlines⟩ := hds
  obtain ⟨hprinted, -, herrors, -, hforce, hown⟩ := macro_dump_reloads hok (by decide +kernel)
    [(ascii "main.c", definingSource)] hlocked hlines (ascii "dump.h")
  rw [show Source.sourceOf _ = _ from hdump] at hprinted herrors hforce hown
  rw [show List.filter _ _ = _ from hnew] at hown
  exact ⟨hprinted, herrors, hforce, hown⟩

/-- Whether a host gets to the end of a source, but the dump after it is not read back, without an
    error, as the same macros of a program's own. -/
def Host.losesMacros (h : Host) (source : Bytes) : Bool :=
  let ds := (h.tableAfter [(ascii "main.c", source)]).userMacros
  let fresh := h.withoutDefines
  let text := Source.sourceOf (ds.map Definition.directive)
  let again := fresh.tableAfter [(ascii "dump.h", text)]
  h.start.2.isNone && !(h.start.1.run h (ascii "main.c") source).2.aborted &&
    ((fresh.start.1.run fresh (ascii "dump.h") text).2.errors ≠ 0 ||
      again.userMacros.map Definition.content ≠ ds.map Definition.content)

/-- A host with the default settings, but for definitions and names to be dropped. -/
def plainHost (defines undefines : List Bytes) : Host where
  settings := { defines, undefines }
  includer := none

/-- What a dump does not keep: a macro that says what a built-in macro says is the built-in macro
    afterwards, a printed form that ends with a backslash or inside a comment takes in the next line,
    a name that the settings drop is locked again, and quotes on two lines of a definition in the
    settings meet on one. -/
theorem macro_dump_loses :
    (plainHost [] []).losesMacros (ascii "#undef __RPP__\n#define __RPP__ 1\n") = true ∧
    (plainHost [] []).losesMacros (ascii "#define A \\ \n#define B 2\n") = true ∧
    (plainHost [] []).losesMacros (ascii "#define B 2\n#define A x /*") = true ∧
    (plainHost [] [ascii "__FILE__"]).losesMacros (ascii "#define __FILE__ 3\n") = true ∧
    (plainHost [ascii "A='a\nb'"] []).losesMacros [] = true := by
  simp only [Host.losesMacros, userMacros_tableAfter]
  decide +kernel

end Engine

end Preproc
