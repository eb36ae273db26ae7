import Preproc.Proofs.Engine.Accounting
import Preproc.Proofs.Engine.TableEdits

set_option autoImplicit false

/-! # Locked macros

A locked macro is changed by the privileged operations on the table and by nothing else. Programs
have only the edits that directives make, so a locked macro stays as it is through any sequence of
runs, files, directives and definitions from texts, and each attempt of a directive on it is one
error (`locked_macro_stays`). -/

namespace Preproc

/-! ## Operations on the table -/

namespace Macro

/-- Whether an operation is of the privileged kind that takes `d` out of the table. -/
def TableOp.Overrides (d : Definition) : TableOp → Prop
  | .definePrivileged d' => d'.name = d.name ∧ d' ≠ d
  | .undefinePrivileged name => name = d.name
  | .clear => True
  | _ => False

section Locked

variable {t : Table} {d : Definition}

/-- A locked definition is never hidden. -/
theorem Table.lookup_locked (hd : t.stored d.name = some d) (hlocked : d.origin = .locked) :
    t.lookup d.name = some d := by
  have hlookup : t.lookup d.name = (t.stored d.name).filter t.visible := rfl
  simp [hlookup, hd, Table.visible, hlocked]

theorem Contents.stored_set (m : Contents) (name other : Bytes) (value : Option Definition) :
    (m.set name value).stored other = if other = name then value else m.stored other := rfl

/-- **A locked definition stays exactly where no privileged operation overrides it.** -/
theorem Table.stored_apply_locked (hwf : t.Wf) (hd : t.stored d.name = some d)
    (hlocked : d.origin = .locked) (op : TableOp) :
    (t.apply op).stored d.name = some d ↔ ¬ op.Overrides d := by
  have hafter := ((Represents.of_wf hwf).apply op).stored d.name
  have hseen : Contents.lookup ⟨t.stored, t.strict⟩ d.name = some d := by
    rw [← (Represents.of_wf hwf).lookup]
    exact lookup_locked hd hlocked
  rw [hafter]
  cases op with
  | install d' =>
    by_cases hname : d.name = d'.name
    · simp [Contents.apply, TableOp.Overrides, ← hname, hd, hlocked]
    · by_cases hfree : (t.stored d'.name).any (·.origin = .locked) = true
      · simp [Contents.apply, TableOp.Overrides, hfree, hd]
      · simp [Contents.apply, TableOp.Overrides, hfree, Contents.stored_set, hname, hd]
  | define d' =>
    simp only [Contents.apply, TableOp.Overrides, not_false_eq_true, iff_true]
    split
    · exact hd
    · next hfree =>
      rw [Contents.stored_set, if_neg (fun hname => hfree (by simp [← hname, hseen, hlocked]))]
      exact hd
  | undefine name =>
    simp only [Contents.apply, TableOp.Overrides, not_false_eq_true, iff_true]
    split
    · next hfree =>
      rw [Contents.stored_set, if_neg]
      · exact hd
      · rintro rfl
        exact absurd hfree (by simp [hseen, hlocked])
    · exact hd
  | definePrivileged d' =>
    simp only [Contents.apply, TableOp.Overrides, Contents.stored_set]
    by_cases hname : d.name = d'.name
    · simp [hname]
    · simp [hname, Ne.symm hname, hd]
  | undefinePrivileged name =>
    simp only [Contents.apply, TableOp.Overrides, Contents.stored_set]
    by_cases hname : d.name = name
    · simp [hname]
    · simp [hname, Ne.symm hname, hd]
  | clear => simp [Contents.apply, TableOp.Overrides]
  | setStrict on => simp [Contents.apply, TableOp.Overrides, hd]

/-- A definition takes its name from the first operand. -/
theorem parse_name {limits : Limits} {c : Cursor} {p : Parsed} (hp : parse limits c = .ok p) :
    p.definition.name = c.nextNonSpace.1.text := by
  unfold parse at hp
  split at hp
  · exact absurd hp (by simp)
  · next head toks hhead =>
    have hname : head.name = c.nextNonSpace.1.text := by
      unfold readHead at hhead
      grind
    split at hp
    · exact absurd hp (by simp)
    · obtain rfl := Except.ok.inj hp
      exact hname

theorem define_locked (hd : t.stored d.name = some d) (hlocked : d.origin = .locked)
    {d' : Definition} (hname : d'.name = d.name) :
    define t d' = .error ⟨d'.definedAt, .locked d'.name⟩ := by
  have hseen : (t.at? (t.findSlot d'.name)).filter t.visible = some d := by
    rw [hname]
    exact Table.lookup_locked hd hlocked
  simp [define, hseen, hlocked]

end Locked

end Macro

namespace Engine

open Macro (Table TableOp Definition)

/-! ## Refused directives -/

/-- A failure that is reported as one error. -/
theorem delivers_error (r : Reporter) (pos : Position) (message : Bytes) :
    Delivers r [⟨pos, .error, .none, message⟩] (r.error pos message) :=
  ⟨rfl, rfl, rfl, rfl, by simp⟩

/-- A directive that is refused: one error, no change to the table, and the run goes on. -/
structure RefusedWith (s : State) (out : Outcome) : Prop where
  table : out.state.table = s.table
  failure : out.failure = none
  told : ∃ told, Delivers s.reporter told out.state.reporter ∧ told.countP countsAsError = 1

/-- A recoverable failure, after warnings at most, makes a refused directive. -/
theorem refusedWith_recoverable {s s' : State} (htable : s'.table = s.table)
    {told : List Diagnostic} (htold : Delivers s.reporter told s'.reporter)
    (hmild : told.countP countsAsError = 0) (place : Position) (message : Bytes)
    (wasCompiling : Bool) (pos : Position) :
    RefusedWith s ((Outcome.noteSwitch { state := s', failure := some (.recoverable place message) }
      wasCompiling).reported pos) := by
  obtain ⟨resync, hnote⟩ := noteSwitch_effect
    { state := s', failure := some (.recoverable place message) } wasCompiling
  rw [hnote]
  refine ⟨htable, rfl, told ++ [⟨place, .error, .none, message⟩],
    htold.append (delivers_error _ place message), ?_⟩
  rw [List.countP_append, hmild]
  rfl

/-- A recoverable failure alone makes a refused directive. -/
theorem refusedWith_at_once (s : State) (place : Position) (message : Bytes) (wasCompiling : Bool)
    (pos : Position) :
    RefusedWith s ((Outcome.noteSwitch { state := s, failure := some (.recoverable place message) }
      wasCompiling).reported pos) :=
  refusedWith_recoverable rfl (.nil _) rfl place message wasCompiling pos

/-- A warning is not counted as an error. -/
theorem warn_errors (r : Reporter) (classes : WarningSet) (pos : Position) (message : Bytes) :
    (r.warn classes pos message).errors = r.errors := by
  unfold Reporter.warn
  split <;> rfl

theorem notice_errors (s : State) (pos : Position) (n : Option Macro.Notice) :
    (s.notice pos n).reporter.errors = s.reporter.errors := by
  cases n with
  | none => rfl
  | some n => exact warn_errors _ _ _ _

theorem notice_delivers (s : State) (pos : Position) (n : Option Macro.Notice) :
    ∃ told, Delivers s.reporter told (s.notice pos n).reporter ∧
      told.countP countsAsError = 0 := by
  obtain ⟨told, hdelivers, -⟩ := Recovers.notice s pos n
  refine ⟨told, hdelivers, ?_⟩
  -- a notice is a warning, and the errors are counted apart
  have hcount := notice_errors s pos n
  have herrors := hdelivers.errors
  omega

theorem ceiling_errors (s : State) (c : Option Macro.Ceiling) :
    (s.ceiling c).reporter.errors = s.reporter.errors := by
  cases c with
  | none => rfl
  | some c => exact warn_errors _ _ _ _

/-- A definition that is not refused: the table is changed, and there are notices at most. -/
theorem define_of_ok {h : Host} {s : State} {c : Cursor} {p : Macro.Parsed} {r : Macro.Defined}
    (hp : Macro.parse h.limits c = .ok p) (hr : Macro.define s.table p.definition = .ok r) :
    ∃ s', s.define h c = (s', .ok r.definition) ∧ Reported { s with table := r.table } s' ∧
      s'.reporter.errors = s.reporter.errors := by
  have hreported := define_effect h s c
  have hnotice := Reported.notice s p.definition.definedAt p.notice
  have htable : tableAfterDefine h.limits s.table c = r.table := by
    simp only [tableAfterDefine, hp, hr]
  have hdefine : s.define h c =
      ({ (s.notice p.definition.definedAt p.notice).notice p.definition.definedAt r.notice with
        table := r.table }.ceiling r.ceiling, .ok r.definition) := by
    unfold State.define
    rw [hp]
    dsimp only
    rw [hnotice.table, hr]
  rw [htable, hdefine] at hreported
  refine ⟨_, hdefine, hreported, ?_⟩
  exact (ceiling_errors _ _).trans ((notice_errors _ _ _).trans (notice_errors _ _ _))

section Refused

variable {h : Host} {nested : Option Nested} {s : State} {pos : Position} {line : Bytes}
  {name : Token} {c : Cursor} {d : Definition}

theorem define_refused (ha : Announces .define pos line name c) (hs : s.compiling = true)
    (hd : s.table.stored d.name = some d) (hlocked : d.origin = .locked)
    (hname : c.nextNonSpace.1.text = d.name) :
    RefusedWith s (s.directiveWith h nested pos line) := by
  rw [ha.directiveWith h nested hs]
  show RefusedWith s (((s.defineDirective h c).noteSwitch true).reported name.pos)
  unfold State.defineDirective State.define
  cases hp : Macro.parse h.limits c with
  | error e =>
    exact refusedWith_at_once s _ _ _ _
  | ok p =>
    have hnotice := Reported.notice s p.definition.definedAt p.notice
    obtain ⟨told, htold, hmild⟩ := notice_delivers s p.definition.definedAt p.notice
    have hrefused := Macro.define_locked hd hlocked ((Macro.parse_name hp).trans hname)
    dsimp only
    rw [hnotice.table, hrefused]
    exact refusedWith_recoverable hnotice.table htold hmild _ _ _ _

theorem undef_refused (ha : Announces .undef pos line name c) (hs : s.compiling = true)
    (hd : s.table.stored d.name = some d) (hlocked : d.origin = .locked)
    (hname : c.nextNonSpace.1.text = d.name) :
    RefusedWith s (s.directiveWith h nested pos line) := by
  rw [ha.directiveWith h nested hs]
  show RefusedWith s (((s.undefDirective h c).noteSwitch true).reported name.pos)
  unfold State.undefDirective
  dsimp only
  split
  · exact refusedWith_at_once s _ _ _ _
  · have hany : (s.table.lookup c.nextNonSpace.1.text).any (·.origin = .locked) = true := by
      rw [hname, Table.lookup_locked hd hlocked]
      simpa using hlocked
    rw [if_pos hany]
    exact refusedWith_at_once s _ _ _ _

end Refused

/-! ## Sequences of calls -/

/-- What a program can ask of a host. -/
inductive Call where
  | run (name contents : Bytes)
  | process (name contents : Bytes)
  | directive (pos : Position) (line : Bytes)
  | define (text : Bytes)

/-- The state after a call. -/
def State.call (h : Host) (s : State) : Call → State
  | .run name contents => (s.run h name contents).1.state
  | .process name contents => (s.process h name contents).state
  | .directive pos line => (s.directive h pos line).state
  | .define text => (s.defineText h text).1

theorem call_edited (h : Host) (s : State) (call : Call) :
    Edited h.limits (fun _ => True) s.table (s.call h call).table := by
  have hany : ∀ contents, DefinesFrom (fun _ => True) (Source.logicalLines contents) :=
    fun _ _ _ _ _ _ _ _ => trivial
  cases call with
  | run name contents => exact run_edited hany h s name contents
  | process name contents =>
    exact processFile_edited hany (nestedProcess_edited hany h _) s name contents
  | directive pos line =>
    exact directiveWith_edited (nestedProcess_edited hany h _) s (fun _ _ _ => trivial)
  | define text =>
    show Edited _ _ _ (s.define h _).1.table
    rw [(define_effect h s _).table]
    exact edited_define trivial s.table

/-- The table is well formed and holds the definition `d`. -/
def Holds (t : Table) (d : Definition) : Prop :=
  t.Wf ∧ t.stored d.name = some d

/-- No edit overrides a locked definition. -/
theorem Edit.holds {limits : Macro.Limits} {Operands : Cursor → Prop} {op : TableOp}
    (hop : Edit limits Operands op) {t : Table} {d : Definition} (hlocked : d.origin = .locked)
    (ht : Holds t d) : Holds (t.apply op) d := by
  refine ⟨ht.1.apply op, (Table.stored_apply_locked ht.1 ht.2 hlocked op).2 ?_⟩
  cases hop with
  | define => exact id
  | undefine => exact id

theorem calls_hold (h : Host) {d : Definition} (hlocked : d.origin = .locked) (calls : List Call)
    {s : State} (hs : Holds s.table d) : Holds (calls.foldl (State.call h) s).table d := by
  induction calls generalizing s with
  | nil => exact hs
  | cons call rest ih =>
    exact ih ((call_edited h s call).induct (P := (Holds · d))
      (fun _ _ hop ht => hop.holds hlocked ht) hs)

/-- **Locked macros are not for programs to change.** The tables of all reachable states are well
    formed. Once a well-formed table holds a locked definition, the definition stays there and can
    be seen after any sequence of calls; only a privileged operation on its name and the clearing of
    the table take it out; and a `#define` or `#undef` of its name, where lines are compiled, is one
    error and leaves the whole table as it was. -/
theorem locked_macro_stays (h : Host) :
    (∀ s, Reachable h s → s.table.Wf) ∧
    ∀ (s : State) (d : Definition), s.table.Wf → s.table.stored d.name = some d →
      d.origin = .locked →
      (∀ calls : List Call,
        let t := (calls.foldl (State.call h) s).table
        t.Wf ∧ t.stored d.name = some d ∧ t.lookup d.name = some d) ∧
      (∀ op : TableOp, (s.table.apply op).stored d.name ≠ some d ↔ op.Overrides d) ∧
      ∀ (nested : Option Nested) (kw : Keyword) (pos : Position) (line : Bytes) (name : Token)
        (c : Cursor), s.compiling = true → kw = .define ∨ kw = .undef →
        Announces kw pos line name c → c.nextNonSpace.1.text = d.name →
        RefusedWith s (s.directiveWith h nested pos line) := by
  refine ⟨fun s hs => hs.wf, fun s d hwf hd hlocked => ⟨fun calls => ?_, fun op => ?_, ?_⟩⟩
  · obtain ⟨hwf', hd'⟩ := calls_hold h hlocked calls ⟨hwf, hd⟩
    exact ⟨hwf', hd', Table.lookup_locked hd' hlocked⟩
  · rw [Ne, Table.stored_apply_locked hwf hd hlocked op, Classical.not_not]
  · rintro nested kw pos line name c hs (rfl | rfl) ha hname
    · exact define_refused ha hs hd hlocked hname
    · exact undef_refused ha hs hd hlocked hname

/-- A strict host whose every included file defines `__FILE__` and drops it. -/
def tamperingHost : Host where
  settings := { strict := true, maxIncludeDepth := 3 }
  includer := some fun name _ _ =>
    .ok (name, ascii "#define __FILE__ 1\n#undef __FILE__\n#include <again>\n")

/-- The definition of `__FILE__`. -/
def fileMacro : Definition where
  name := ascii "__FILE__"
  definedAt := { file := ascii "<builtin>" }
  origin := .locked

theorem locked_macro_stays_file :
    let s := tamperingHost.start.1
    let calls := [Call.run (ascii "main.c") (ascii "#undef __FILE__\n#include <a>\n#ifdef X\n"),
      .define (ascii "__FILE__ 2"), .directive {} (ascii "#undef __FILE__")]
    s.table.stored (ascii "__FILE__") = some fileMacro ∧
      (calls.foldl (State.call tamperingHost) s).table.lookup (ascii "__FILE__") = some fileMacro ∧
      RefusedWith s (s.directiveWith tamperingHost none {} (ascii "#define __FILE__ 3")) := by
  have hd : tamperingHost.start.1.table.stored fileMacro.name = some fileMacro := by decide +kernel
  obtain ⟨hstays, -, hrefused⟩ := (locked_macro_stays tamperingHost).2 tamperingHost.start.1
    fileMacro (wf_start tamperingHost) hd rfl
  refine ⟨hd, (hstays _).2.2, ?_⟩
  exact hrefused none .define {} (ascii "#define __FILE__ 3") _ _ (by decide +kernel) (Or.inl rfl)
    ⟨by decide +kernel, rfl, by decide +kernel, by decide +kernel⟩ (by decide +kernel)

end Engine

end Preproc
