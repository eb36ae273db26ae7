import Mathlib.Data.List.Forall2
import Preproc.Proofs.Branch.Relabelling
import Preproc.Proofs.Engine.Accounting
import Preproc.Proofs.Engine.FileScope

set_option autoImplicit false

/-! # Runs do not depend on earlier runs

Two states of one host that have the same macros are compared while they process the same file. What
earlier runs left in them may differ: file numbers are moved by a constant, the reporters have
delivered other diagnostics before, and the one warning about deep nesting may be still to come in
only one of them. `Alike` says that they agree apart from this; every directive, file and run keeps
it, so that the runs write, define and report the same (`run_forgets_earlier_runs`). -/

namespace Preproc.Engine

open Source (LogicalLine)

/-! ## Diagnostics -/

/-- Whether a diagnostic is the warning about deep nesting. -/
def isDepthWarning (d : Diagnostic) : Bool :=
  d.severity = .warning && d.classes = .limits && (ascii "#if nesting depth ").isPrefixOf d.message

/-- The diagnostics other than warnings about deep nesting. -/
def withoutDepthWarnings (told : List Diagnostic) : List Diagnostic :=
  told.filter fun d => !isDepthWarning d

theorem withoutDepthWarnings_append (told told' : List Diagnostic) :
    withoutDepthWarnings (told ++ told') =
      withoutDepthWarnings told ++ withoutDepthWarnings told' :=
  List.filter_append ..

/-- The diagnostic that a caution is reported as. -/
def Caution.diagnostic (c : Caution) (pos : Position) : Diagnostic :=
  ⟨pos, .warning, c.classes, c.message⟩

theorem hash_notMem_decimal (n : Int) : byte '#' ∉ decimal n := by
  have hdigits : ∀ m : Nat, byte '#' ∉ decimalNat m := by
    intro m hm
    obtain ⟨c, hc, hbyte⟩ := List.mem_map.1 hm
    have hdigit := Nat.isDigit_of_mem_toDigits (by decide) (by decide) hc
    simp only [Char.isDigit, Bool.and_eq_true, decide_eq_true_eq] at hdigit
    have hval : c.toNat % 256 = 35 := congrArg UInt8.toNat hbyte
    have hlow : 48 ≤ c.toNat := hdigit.1
    have hhigh : c.toNat ≤ 57 := hdigit.2
    omega
  unfold decimal
  split
  · rw [List.mem_cons, not_or]
    exact ⟨by decide, hdigits _⟩
  · exact hdigits _

/-- No other caution is taken for the warning about deep nesting. -/
theorem isDepthWarning_caution (c : Caution) (pos : Position) :
    isDepthWarning (c.diagnostic pos) = true ↔ ∃ depth limit, c = .deepNesting depth limit := by
  unfold isDepthWarning Caution.diagnostic
  cases c with
  | skippedInvalid | extraTokens | requested =>
    simp [Caution.classes, WarningSet.skipped, WarningSet.trailing, WarningSet.directive,
      WarningSet.limits]
  | deepNesting depth limit =>
    have hstart : (ascii "#if nesting depth ").isPrefixOf
        (Caution.deepNesting depth limit).message = true := by
      rw [List.isPrefixOf_iff_prefix]
      simp only [Caution.message, List.append_assoc]
      exact List.prefix_append _ _
    simp [hstart, Caution.classes]
  | manyMacros count limit =>
    -- it is of the same class, but starts with a number
    have hstart : (ascii "#if nesting depth ").isPrefixOf
        (Caution.manyMacros count limit).message = false := by
      rw [Bool.eq_false_iff, Ne, List.isPrefixOf_iff_prefix]
      rintro ⟨rest, hrest⟩
      have hhash := hash_notMem_decimal count
      simp only [Caution.message, List.append_assoc] at hrest
      cases hdecimal : decimal count with
      | nil =>
        rw [hdecimal] at hrest
        exact absurd (List.cons.inj hrest).1 (by decide)
      | cons first more =>
        rw [hdecimal] at hrest hhash
        exact hhash (by rw [← (List.cons.inj hrest).1]; exact List.mem_cons_self)
    simp [hstart]

theorem countP_withoutDepthWarnings (told : List Diagnostic) :
    (withoutDepthWarnings told).countP countsAsError = told.countP countsAsError := by
  rw [withoutDepthWarnings, List.countP_filter]
  refine List.countP_congr (fun d _ => ?_)
  have hmild : countsAsError d = true → isDepthWarning d = false := by
    intro herror
    simp only [countsAsError, decide_eq_true_eq] at herror
    rcases herror with herror | herror <;> simp [isDepthWarning, herror]
  cases herror : countsAsError d with
  | false => simp
  | true => simp [hmild herror]

/-! ## Alike states -/

/-- The reporters `r` and `r'` have delivered the same since they had delivered `old` and `old'`,
    warnings about deep nesting apart. -/
structure SameReports (old old' : List Diagnostic) (r r' : Reporter) : Prop where
  mask : r'.mask = r.mask
  delivered : ∃ told told', r.delivered = old ++ told ∧ r'.delivered = old' ++ told' ∧
    withoutDepthWarnings told' = withoutDepthWarnings told

/-- The same file under a number that is moved by `δ`. -/
structure Relabelled (δ : Int) (f f' : OpenFile) : Prop where
  name : f'.name = f.name
  id : (f'.id : Int) = f.id + δ

/-- The states `s` and `s'` agree, apart from file numbers, which differ by `δ`, and from what
    directives do not look at. -/
structure Alike (δ : Int) (old old' : List Diagnostic) (s s' : State) : Prop where
  table : s'.table = s.table
  branches : s'.branches = s.branches.relabel δ
  tracker : s'.tracker = s.tracker
  files : List.Forall₂ (Relabelled δ) s.files s'.files
  opened : (s'.opened : Int) = s.opened + δ
  resync : s'.resync = s.resync
  reports : SameReports old old' s.reporter s'.reporter

/-- Two directives or files come to the same. -/
structure SameOutcome (δ : Int) (old old' : List Diagnostic) (out out' : Outcome) : Prop where
  state : Alike δ old old' out.state out'.state
  written : out'.written = out.written
  failure : out'.failure = out.failure

variable {δ : Int} {old old' : List Diagnostic}

namespace SameReports

variable {r r' : Reporter}

theorem deliver (hr : SameReports old old' r r') {R R' : Reporter} (d : Diagnostic)
    (hmask : R.mask = r.mask) (hmask' : R'.mask = r'.mask)
    (hR : R.delivered = r.delivered ++ [d]) (hR' : R'.delivered = r'.delivered ++ [d]) :
    SameReports old old' R R' := by
  obtain ⟨told, told', htold, htold', hsame⟩ := hr.delivered
  refine ⟨by rw [hmask, hmask', hr.mask], told ++ [d], told' ++ [d], ?_, ?_, ?_⟩
  · rw [hR, htold, List.append_assoc]
  · rw [hR', htold', List.append_assoc]
  · rw [withoutDepthWarnings_append, withoutDepthWarnings_append, hsame]

theorem error (hr : SameReports old old' r r') (pos : Position) (message : Bytes) :
    SameReports old old' (r.error pos message) (r'.error pos message) :=
  hr.deliver _ rfl rfl rfl rfl

theorem warn (hr : SameReports old old' r r') (classes : WarningSet) (pos : Position)
    (message : Bytes) :
    SameReports old old' (r.warn classes pos message) (r'.warn classes pos message) := by
  have henabled : r'.enabled classes = r.enabled classes := congrArg (·.meets classes) hr.mask
  unfold Reporter.warn
  rw [henabled]
  split
  · exact hr.deliver _ rfl rfl rfl rfl
  · exact hr

theorem fatal (hr : SameReports old old' r r') (f : Fatal) :
    SameReports old old' (r.fatal f) (r'.fatal f) := by
  unfold Reporter.fatal
  split
  · exact hr
  · exact hr.deliver _ rfl rfl rfl rfl

theorem report (hr : SameReports old old' r r') (pos : Position) (failure : Failure) :
    SameReports old old' (r.report pos failure).1 (r'.report pos failure).1 ∧
      (r'.report pos failure).2 = (r.report pos failure).2 := by
  unfold Reporter.report
  split
  · exact ⟨hr.fatal _, rfl⟩
  · exact ⟨hr.error _ _, rfl⟩
  · exact ⟨hr.error _ _, rfl⟩

theorem symm (hr : SameReports old old' r r') : SameReports old' old r' r := by
  obtain ⟨hmask, told, told', htold, htold', hsame⟩ := hr
  exact ⟨hmask.symm, told', told, htold', htold, hsame.symm⟩

/-- A warning about deep nesting on one side is left out of the comparison. -/
theorem deepNesting (hr : SameReports old old' r r') (depth limit : Int) (pos : Position) :
    let c := Caution.deepNesting depth limit
    SameReports old old' (r.warn c.classes pos c.message) r' := by
  intro c
  unfold Reporter.warn
  split
  · obtain ⟨hmask, told, told', htold, htold', hsame⟩ := hr
    refine ⟨hmask, told ++ [c.diagnostic pos], told', ?_, htold', ?_⟩
    · rw [← List.append_assoc, ← htold]
      rfl
    · have hdeep := (isDepthWarning_caution c pos).2 ⟨depth, limit, rfl⟩
      have hleft : withoutDepthWarnings [c.diagnostic pos] = [] := by
        simp [withoutDepthWarnings, hdeep]
      rw [withoutDepthWarnings_append, hleft, List.append_nil, hsame]
  · exact hr

end SameReports

namespace Alike

variable {s s' : State}

theorem compiling (ha : Alike δ old old' s s') : s'.compiling = s.compiling := by
  show s'.branches.compiling = s.branches.compiling
  rw [ha.branches]
  rfl

theorem file (ha : Alike δ old old' s s') : s'.file = s.file := by
  have hfiles := ha.files
  unfold State.file
  cases hs : s.files with
  | nil =>
    rw [hs, List.forall₂_nil_left_iff] at hfiles
    rw [hfiles]
  | cons f rest =>
    rw [hs, List.forall₂_cons_left_iff] at hfiles
    obtain ⟨f', rest', hf, -, hs'⟩ := hfiles
    rw [hs']
    exact hf.name

theorem fileId (ha : Alike δ old old' s s') (hopen : s.files ≠ []) :
    (s'.fileId : Int) = s.fileId + δ := by
  have hfiles := ha.files
  unfold State.fileId
  cases hs : s.files with
  | nil => exact absurd hs hopen
  | cons f rest =>
    rw [hs, List.forall₂_cons_left_iff] at hfiles
    obtain ⟨f', rest', hf, -, hs'⟩ := hfiles
    rw [hs']
    exact hf.id

theorem position (ha : Alike δ old old' s s') : s'.position = s.position := by
  unfold State.position
  rw [ha.file, ha.tracker]

theorem presentedFile (ha : Alike δ old old' s s') : s'.presentedFile = s.presentedFile := by
  unfold State.presentedFile
  rw [ha.tracker]

theorem presentedLine (ha : Alike δ old old' s s') : s'.presentedLine = s.presentedLine := by
  unfold State.presentedLine
  rw [ha.tracker]

theorem linePosition (ha : Alike δ old old' s s') (l : LogicalLine) :
    s'.linePosition l = s.linePosition l := by
  unfold State.linePosition
  rw [ha.presentedFile, ha.presentedLine]

theorem setTable (ha : Alike δ old old' s s') (table : Macro.Table) :
    Alike δ old old' { s with table } { s' with table } :=
  { ha with table := rfl }

theorem setResync (ha : Alike δ old old' s s') (resync : Bool) :
    Alike δ old old' { s with resync } { s' with resync } :=
  { ha with resync := rfl }

theorem setEvaluations (ha : Alike δ old old' s s') (evaluations evaluations' : List Evaluation) :
    Alike δ old old' { s with evaluations } { s' with evaluations := evaluations' } :=
  { ha with }

theorem setRequests (ha : Alike δ old old' s s') (requests requests' : List Request) :
    Alike δ old old' { s with requests } { s' with requests := requests' } :=
  { ha with }

/-! ### Reports -/

theorem complain (ha : Alike δ old old' s s') (pos : Position) (c : Complaint) :
    Alike δ old old' (s.complain pos c) (s'.complain pos c) :=
  { ha with reports := ha.reports.error _ _ }

theorem caution (ha : Alike δ old old' s s') (pos : Position) (c : Caution) :
    Alike δ old old' (s.caution pos c) (s'.caution pos c) :=
  { ha with reports := ha.reports.warn _ _ _ }

theorem refuse (ha : Alike δ old old' s s') (e : Located Macro.Refusal) :
    Alike δ old old' (s.refuse e) (s'.refuse e) :=
  { ha with reports := ha.reports.error _ _ }

theorem notice (ha : Alike δ old old' s s') (pos : Position) (n : Option Macro.Notice) :
    Alike δ old old' (s.notice pos n) (s'.notice pos n) := by
  cases n with
  | none => exact ha
  | some n => exact { ha with reports := ha.reports.warn _ _ _ }

theorem ceiling (ha : Alike δ old old' s s') (c : Option Macro.Ceiling) :
    Alike δ old old' (s.ceiling c) (s'.ceiling c) := by
  cases c with
  | none => exact ha
  | some c =>
    show Alike _ _ _ (s.caution s.position _) (s'.caution s'.position _)
    rw [ha.position]
    exact ha.caution _ _

theorem checkTrailing (ha : Alike δ old old' s s') (h : Host) (c : Cursor) (kw : Keyword) :
    Alike δ old old' (s.checkTrailing h c kw) (s'.checkTrailing h c kw) := by
  unfold State.checkTrailing
  split
  · exact ha
  · split
    · exact ha.complain _ _
    · exact ha.caution _ _

theorem checkLineRest (ha : Alike δ old old' s s') (h : Host) (name : Bytes) (c : Cursor) :
    Alike δ old old' (s.checkLineRest h name c) (s'.checkLineRest h name c) := by
  unfold State.checkLineRest
  split
  · split
    · exact ha.caution _ _
    · exact ha
  · exact ha.checkTrailing h c .line

/-- The check of the depth does nothing on either side but warn, perhaps on one side only. -/
theorem checkDepth (ha : Alike δ old old' s s') (pos : Position) :
    Alike δ old old' (s.checkDepth pos) (s'.checkDepth pos) := by
  have hleft : Alike δ old old' (s.checkDepth pos) s' := by
    unfold State.checkDepth
    dsimp only
    split
    · exact ha
    · exact { ha with reports := ha.reports.deepNesting _ _ pos }
  unfold State.checkDepth at hleft ⊢
  dsimp only at hleft ⊢
  generalize (if s.depthWarned || _ then s else _ : State) = t at hleft ⊢
  split
  · exact hleft
  · exact { hleft with reports := (hleft.reports.symm.deepNesting _ _ pos).symm }

end Alike

/-! ## Tests and groups -/

/-- A test that makes no difference between alike states. -/
def SameTest (δ : Int) (old old' : List Diagnostic) (test : State → State × Bool) : Prop :=
  ∀ s s', Alike δ old old' s s' →
    Alike δ old old' (test s).1 (test s').1 ∧ (test s').2 = (test s).2

theorem sameTest_test (pos : Position) (directive : Keyword) (toks : List Token) :
    SameTest δ old old' (·.test pos directive toks) := by
  intro s s' ha
  show Alike _ _ _ (s.test pos directive toks).1 (s'.test pos directive toks).1 ∧
    (s'.test pos directive toks).2 = (s.test pos directive toks).2
  have hresolved : resolveCondition s'.table toks = resolveCondition s.table toks := by
    rw [ha.table]
  unfold State.test
  rw [hresolved]
  split
  · exact ⟨ha.complain _ _, rfl⟩
  · split
    · exact ⟨ha.complain _ _, rfl⟩
    · dsimp only
      split
      · exact ⟨(ha.setEvaluations _ _).complain _ _, rfl⟩
      · exact ⟨ha.setEvaluations _ _, rfl⟩

theorem sameTest_testDefined (h : Host) (kw : Keyword) (c : Cursor) :
    SameTest δ old old' (·.testDefined h kw c) := by
  intro s s' ha
  show Alike _ _ _ (s.testDefined h kw c).1 (s'.testDefined h kw c).1 ∧
    (s'.testDefined h kw c).2 = (s.testDefined h kw c).2
  unfold State.testDefined
  dsimp only
  rw [ha.table]
  split
  · exact ⟨ha.refuse _, rfl⟩
  · exact ⟨ha.checkTrailing h _ _, rfl⟩

section Directives

variable {s s' : State}

theorem branch_same (ha : Alike δ old old' s s') (pos : Position) (step : Branch.Step)
    {test : State → State × Bool} (htest : SameTest δ old old' test) :
    SameOutcome δ old old' (s.branch pos step test) (s'.branch pos (step.relabel δ) test) := by
  cases step with
  | refused why => exact ⟨ha, rfl, rfl⟩
  | settled stack => exact ⟨{ ha with branches := rfl }, rfl, rfl⟩
  | asks resume =>
    obtain ⟨hafter, htaken⟩ := htest s s' ha
    refine ⟨{ hafter with branches := ?_ }, rfl, rfl⟩
    show (resume (test s').2).relabel δ = (resume (test s).2).relabel δ
    rw [htaken]

theorem close_same (ha : Alike δ old old' s s') (h : Host) (pos : Position) (kw : Keyword)
    (c : Cursor) (result : Except Branch.Refusal Branch.Stack) :
    SameOutcome δ old old' (s.close h pos kw c result)
      (s'.close h pos kw c (result.map (Branch.Stack.relabel δ))) := by
  cases result with
  | error why => exact ⟨ha, rfl, rfl⟩
  | ok branches =>
    have hafter : Alike δ old old' { s with branches }
        { s' with branches := branches.relabel δ } := { ha with branches := rfl }
    refine ⟨?_, rfl, rfl⟩
    show Alike _ _ _ (if s.compiling || _ then _ else _) (if s'.compiling || _ then _ else _)
    rw [ha.compiling, hafter.compiling]
    split
    · exact hafter.checkTrailing h c kw
    · exact hafter

theorem SameOutcome.checkDepth {out out' : Outcome} (hout : SameOutcome δ old old' out out')
    (pos : Position) :
    SameOutcome δ old old' { out with state := out.state.checkDepth pos }
      { out' with state := out'.state.checkDepth pos } :=
  { hout with state := hout.state.checkDepth pos }

theorem SameOutcome.lead {out out' : Outcome} (hout : SameOutcome δ old old' out out')
    (lead : Bytes) :
    SameOutcome δ old old' { out with written := lead ++ out.written }
      { out' with written := lead ++ out'.written } :=
  { hout with written := congrArg (lead ++ ·) hout.written }

/-! ## Definitions -/

theorem define_same (ha : Alike δ old old' s s') (h : Host) (c : Cursor) :
    Alike δ old old' (s.define h c).1 (s'.define h c).1 ∧ (s'.define h c).2 = (s.define h c).2 := by
  unfold State.define
  cases Macro.parse h.limits c with
  | error e => exact ⟨ha, rfl⟩
  | ok p =>
    have hnoticed := ha.notice p.definition.definedAt p.notice
    dsimp only
    rw [hnoticed.table]
    cases Macro.define (s.notice p.definition.definedAt p.notice).table p.definition with
    | error e => exact ⟨hnoticed, rfl⟩
    | ok r =>
      have hagain := hnoticed.notice p.definition.definedAt r.notice
      exact ⟨(hagain.setTable r.table).ceiling r.ceiling, rfl⟩

theorem defineDirective_same (ha : Alike δ old old' s s') (h : Host) (c : Cursor) :
    SameOutcome δ old old' (s.defineDirective h c) (s'.defineDirective h c) := by
  obtain ⟨hstate, hresult⟩ := define_same ha h c
  unfold State.defineDirective
  cases hdefine : s.define h c with
  | mk t result =>
    cases hdefine' : s'.define h c with
    | mk t' result' =>
      rw [hdefine, hdefine'] at hstate hresult
      obtain rfl : result' = result := hresult
      cases result' <;> exact ⟨hstate, rfl, rfl⟩

theorem undefDirective_same (ha : Alike δ old old' s s') (h : Host) (c : Cursor) :
    SameOutcome δ old old' (s.undefDirective h c) (s'.undefDirective h c) := by
  unfold State.undefDirective
  dsimp only
  rw [ha.table]
  split
  · exact ⟨ha, rfl, rfl⟩
  · split
    · exact ⟨ha, rfl, rfl⟩
    · exact ⟨(ha.setTable _).checkTrailing h _ _, rfl, rfl⟩

/-! ## Files and lines -/

theorem lineDirective_same (ha : Alike δ old old' s s') (h : Host) (name : Bytes) (pos : Position)
    (c : Cursor) :
    SameOutcome δ old old' (s.lineDirective h name pos c) (s'.lineDirective h name pos c) := by
  rw [lineDirective_eq, lineDirective_eq]
  cases lineOperands name c with
  | error e => exact ⟨ha, rfl, rfl⟩
  | ok asked =>
    obtain ⟨n, file, rest⟩ := asked
    have hchecked := ha.checkLineRest h name rest
    dsimp only
    rw [hchecked.tracker]
    cases (s.checkLineRest h name rest).tracker with
    | none => exact ⟨hchecked, rfl, rfl⟩
    | some tracker => exact ⟨{ hchecked with tracker := rfl }, rfl, rfl⟩

/-- Processing of included files that makes no difference between alike states. -/
def NestedSame (δ : Int) (old old' : List Diagnostic) (nested : Option Nested) : Prop :=
  ∀ process, nested = some process → ∀ s s' path contents, Alike δ old old' s s' →
    SameOutcome δ old old' (process s path contents) (process s' path contents)

variable {nested : Option Nested}

theorem include_same (hnested : NestedSame δ old old' nested) (ha : Alike δ old old' s s')
    (h : Host) (find : Includer) (pos : Position) (c : Cursor) :
    SameOutcome δ old old' (s.include h nested find pos c) (s'.include h nested find pos c) := by
  unfold State.include
  dsimp only
  rw [ha.file]
  split
  · exact ⟨ha, rfl, rfl⟩
  · split
    · exact ⟨ha, rfl, rfl⟩
    · next process =>
      split
      · exact ⟨ha.setRequests _ _, rfl, rfl⟩
      · next path contents _ =>
        have hinner (requests requests' : List Request) :=
          hnested process rfl _ _ path contents (ha.setRequests requests requests')
        exact ⟨(hinner _ _).state.setResync true, (hinner _ _).written, (hinner _ _).failure⟩

theorem external_same (hnested : NestedSame δ old old' nested) (ha : Alike δ old old' s s')
    (h : Host) (kw : Option Keyword) (name : Bytes) (pos : Position) (c : Cursor) :
    SameOutcome δ old old' (s.external h nested kw name pos c)
      (s'.external h nested kw name pos c) := by
  unfold State.external
  dsimp only
  split
  · exact ⟨ha, rfl, rfl⟩
  · split
    · exact include_same hnested ha h _ pos c
    · exact lineDirective_same ha h name pos c
    · exact ⟨ha, rfl, rfl⟩
    · exact ⟨ha, rfl, rfl⟩
    · exact ⟨ha.caution _ _, rfl, rfl⟩
    · split <;> exact ⟨ha, rfl, rfl⟩

/-! ## All directives -/

theorem dispatch_same (hnested : NestedSame δ old old' nested) (ha : Alike δ old old' s s')
    (hopen : s.files ≠ []) (h : Host) (kw : Option Keyword) (name : Token) (c : Cursor) :
    SameOutcome δ old old' (s.dispatch h nested kw name c) (s'.dispatch h nested kw name c) := by
  unfold State.dispatch
  dsimp only
  rw [ha.branches, ha.fileId hopen, Branch.Stack.enter_relabel, Branch.Stack.elif_relabel,
    Branch.Stack.otherwise_relabel, Branch.Stack.endif_relabel]
  split
  · exact (branch_same ha _ _ (sameTest_test _ _ _)).checkDepth _
  · exact (branch_same ha _ _ (sameTest_testDefined h _ _)).checkDepth _
  · exact (branch_same ha _ _ (sameTest_testDefined h _ _)).checkDepth _
  · exact branch_same ha _ _ (sameTest_test _ _ _)
  · exact close_same ha h _ _ _ _
  · exact close_same ha h _ _ _ _
  · exact defineDirective_same ha h c
  · exact undefDirective_same ha h c
  · exact external_same hnested ha h _ _ _ _

theorem SameOutcome.noteSwitch {out out' : Outcome} (hout : SameOutcome δ old old' out out')
    (wasCompiling : Bool) :
    SameOutcome δ old old' (out.noteSwitch wasCompiling) (out'.noteSwitch wasCompiling) := by
  unfold Outcome.noteSwitch
  rw [hout.state.compiling]
  split
  · exact hout
  · exact ⟨hout.state.setResync true, hout.written, hout.failure⟩

theorem SameOutcome.reported {out out' : Outcome} (hout : SameOutcome δ old old' out out')
    (pos : Position) : SameOutcome δ old old' (out.reported pos) (out'.reported pos) := by
  unfold Outcome.reported
  rw [hout.failure]
  cases hfailure : out.failure with
  | none => exact hout
  | some failure =>
    obtain ⟨hreports, hpassed⟩ := hout.state.reports.report pos failure
    exact ⟨{ hout.state with reports := hreports }, hout.written, hpassed⟩

/-- **One directive** comes to the same in alike states. -/
theorem directiveWith_same (hnested : NestedSame δ old old' nested) (ha : Alike δ old old' s s')
    (hopen : s.files ≠ []) (h : Host) (pos : Position) (line : Bytes) :
    SameOutcome δ old old' (s.directiveWith h nested pos line)
      (s'.directiveWith h nested pos line) := by
  unfold State.directiveWith
  dsimp only
  rw [ha.compiling]
  split
  · exact ⟨ha.complain _ _, rfl, rfl⟩
  · split
    · exact ⟨ha, rfl, rfl⟩
    · split
      · exact ⟨ha, rfl, rfl⟩
      · exact ((dispatch_same hnested ha hopen h _ _ _).noteSwitch _).reported _
    · split
      · exact (external_same hnested ha h _ _ _ _).reported _
      · exact ⟨ha, rfl, rfl⟩
    · split
      · exact ⟨ha.complain _ _, rfl, rfl⟩
      · exact ⟨ha.caution _ _, rfl, rfl⟩

/-! ## Files -/

theorem closeGroups_same (ha : Alike δ old old' s s') (hopen : s.files ≠ []) :
    Alike δ old old' s.closeGroups s'.closeGroups := by
  have hfold : ∀ (frames : List Branch.Frame) (s s' : State), Alike δ old old' s s' →
      Alike δ old old' (frames.foldl (fun s f => s.complain f.ifPos .unterminatedGroup) s)
        ((frames.map (Branch.Frame.relabel δ)).foldl
          (fun s f => s.complain f.ifPos .unterminatedGroup) s') := by
    intro frames
    induction frames with
    | nil => exact fun _ _ ha => ha
    | cons f rest ih => exact fun s s' ha => ih _ _ (ha.complain f.ifPos .unterminatedGroup)
  have hreported := hfold (s.branches.unterminated s.fileId).1 s s' ha
  unfold State.closeGroups
  rw [ha.branches, ha.fileId hopen, Branch.Stack.unterminated_relabel, ha.compiling, ha.resync]
  exact { hreported with branches := rfl, resync := rfl }

theorem processLines_same (hnested : NestedSame δ old old' nested) (hstable : NestedStable nested)
    (h : Host) (lines : List LogicalLine) (place : OutputPlace) (ha : Alike δ old old' s s')
    (hopen : s.files ≠ []) :
    SameOutcome δ old old' (s.processLines h nested place lines)
      (s'.processLines h nested place lines) := by
  induction lines generalizing place s s' with
  | nil => exact ⟨closeGroups_same ha hopen, rfl, rfl⟩
  | cons l rest ih =>
    have htrack : Alike δ old old' (s.track l) (s'.track l) :=
      { ha with tracker := congrArg (Option.map _) ha.tracker }
    cases hl : l.directive with
    | true =>
      have hline := directiveWith_same hnested htrack hopen h ((s.track l).linePosition l) l.text
      have hfiles := (directiveWith_stable (h := h) hstable (s.track l)
        ((s.track l).linePosition l) l.text).files
      rw [processLines_directive h nested place s l rest hl,
        processLines_directive h nested place s' l rest hl, htrack.linePosition]
      generalize (s.track l).directiveWith h nested _ l.text = out at hline hfiles ⊢
      generalize (s'.track l).directiveWith h nested _ l.text = out' at hline ⊢
      have hresumed := hline.state.setResync false
      have hplace : place.after out'.state = place.after out.state := by
        unfold OutputPlace.after
        rw [hline.state.resync]
      dsimp only
      rw [hline.failure, hline.written, hplace]
      cases out.failure with
      | some failure => exact ⟨hresumed, rfl, rfl⟩
      | none =>
        have hmore := ih (place.after out.state) hresumed (by rw [hfiles]; exact hopen)
        exact hmore.lead _
    | false =>
      cases hc : s.compiling with
      | true =>
        have hc' : s'.compiling = true := ha.compiling.trans hc
        rw [processLines_copied h nested place s l rest hl hc,
          processLines_copied h nested place s' l rest hl hc']
        dsimp only
        rw [htrack.presentedFile, htrack.presentedLine]
        have hmore := ih ⟨(s.track l).presentedFile, (s.track l).presentedLine + l.count⟩ htrack
          hopen
        exact hmore.lead _
      | false =>
        have hc' : s'.compiling = false := ha.compiling.trans hc
        rw [processLines_skipped h nested place s l rest hl hc,
          processLines_skipped h nested place s' l rest hl hc']
        have hmore := ih place htrack hopen
        exact hmore.lead _

theorem processFile_same (hnested : NestedSame δ old old' nested) (hstable : NestedStable nested)
    (h : Host) (ha : Alike δ old old' s s') (name contents : Bytes) :
    SameOutcome δ old old' (s.processFile h nested name contents)
      (s'.processFile h nested name contents) := by
  have hid : ((s'.opened + 1 : Nat) : Int) = (s.opened + 1 : Nat) + δ := by
    have hopened := ha.opened
    omega
  have hfile : Alike δ old old' (s.openFile name) (s'.openFile name) :=
    { ha with
      tracker := rfl
      files := .cons ⟨rfl, hid⟩ ha.files
      opened := hid }
  have hlines := processLines_same hnested hstable h (Source.logicalLines contents) {} hfile
    (List.cons_ne_nil _ _)
  have htail := List.forall₂_drop 1 hlines.state.files
  rw [List.drop_one, List.drop_one] at htail
  exact { hlines with state := { hlines.state with files := htail, tracker := ha.tracker } }

end Directives

theorem nestedProcess_same (h : Host) (levels : Nat) :
    NestedSame δ old old' (nestedProcess h levels) := by
  refine nestedProcess_induct ?_ levels
  intro levels hnested s s' path contents ha
  exact processFile_same hnested (nestedProcess_stable h levels) h ha path contents

/-! ## Reachable states -/

/-- The parts of a state that the settings decide and nothing changes. -/
structure Configured (h : Host) (s : State) : Prop where
  mask : s.reporter.mask = h.settings.warnings
  max : s.branches.max = h.settings.maxDepth

theorem Recovers.mask {r r' : Reporter} (hr : Recovers r r') : r'.mask = r.mask := by
  obtain ⟨told, hdelivers, -⟩ := hr
  exact hdelivers.mask

theorem Told.mask {r : Reporter} {out : Outcome} (hout : Told r out) :
    out.state.reporter.mask = r.mask := by
  rcases hout with ⟨-, hrecovers⟩ | ⟨-, -, -, told, last, hdelivers, -⟩
  · exact hrecovers.mask
  · exact hdelivers.mask

section Configured

variable {h : Host} {s s' : State}

theorem Configured.of_reported (hs : Configured h s) (hreported : Reported s s')
    (hrecovers : Recovers s.reporter s'.reporter) : Configured h s' :=
  ⟨hrecovers.mask.trans hs.mask, by rw [hreported.branches, hs.max]⟩

theorem Configured.setTable (hs : Configured h s) (table : Macro.Table) :
    Configured h { s with table } :=
  ⟨hs.mask, hs.max⟩

theorem Configured.of_told (hs : Configured h s) {out : Outcome} (htold : Told s.reporter out)
    (hstable : Stable s out.state) : Configured h out.state :=
  ⟨htold.mask.trans hs.mask, hstable.max.trans hs.max⟩

theorem configured_define (hs : Configured h s) (c : Cursor) : Configured h (s.define h c).1 :=
  ⟨(Recovers.define h s c).mask.trans hs.mask, by rw [(define_effect h s c).branches, ← hs.max]⟩

theorem configured_ceiling (hs : Configured h s) (c : Option Macro.Ceiling) :
    Configured h (s.ceiling c) :=
  hs.of_reported (Reported.ceiling s c) (Recovers.ceiling s c)

theorem configured_defineAs (hs : Configured h s) (origin : Macro.Origin) (c : Cursor) :
    Configured h (s.defineAs h origin c).1 := by
  unfold State.defineAs
  cases Macro.parse h.limits c with
  | error e => exact hs
  | ok p =>
    have hs' := hs.of_reported (Reported.notice s p.definition.definedAt p.notice)
      (Recovers.notice s p.definition.definedAt p.notice)
    exact configured_ceiling (hs'.setTable _) _

theorem configured_start (h : Host) : Configured h h.start.1 :=
  start_induct h ⟨rfl, rfl⟩ (fun _ _ hs => configured_ceiling (hs.setTable _) _)
    (fun _ origin c hs => configured_defineAs hs origin c) (fun _ c hs => configured_define hs c)
    (fun _ _ hs => hs.setTable _)

theorem configured_processFile (hs : Configured h s) (levels : Nat) (name contents : Bytes) :
    Configured h (s.processFile h (nestedProcess h levels) name contents).state :=
  hs.of_told (processFile_told (nestedProcess_told h levels) h s name contents)
    (processFile_stable (nestedProcess_stable h levels) s name contents)

theorem Reachable.configured (hs : Reachable h s) : Configured h s := by
  induction hs with
  | start => exact configured_start h
  | @run s _ name contents ih =>
    have hreset : Configured h
        { s with branches := s.branches.reset, files := [], resync := false } := ⟨ih.mask, ih.max⟩
    exact configured_processFile hreset _ name contents
  | process _ name contents ih => exact configured_processFile ih _ name contents
  | directive _ levels pos line ih =>
    exact ih.of_told (directiveWith_told (nestedProcess_told h levels) h _ pos line)
      (directiveWith_stable (nestedProcess_stable h levels) _ pos line)
  | define _ text ih => exact configured_define ih _
  | defineAs _ origin text ih => exact configured_defineAs ih origin _
  | takeResync _ ih | clear _ ih | openFile _ _ ih | track _ _ ih | request _ _ ih =>
    exact ⟨ih.mask, ih.max⟩

end Configured

/-! ## Runs -/

/-- Runs from two states with the same macros start alike. -/
theorem entered_alike {h : Host} {s s' : State} (hs : Configured h s) (hs' : Configured h s')
    (htable : s'.table = s.table) (name : Bytes) :
    Alike (s'.opened - s.opened) s.reporter.delivered s'.reporter.delivered (s.entered name)
      (s'.entered name) := by
  have hopened : ((s'.opened + 1 : Nat) : Int) = (s.opened + 1 : Nat) + (s'.opened - s.opened) := by
    omega
  have hreset : s'.branches.reset = s.branches.reset.relabel (s'.opened - s.opened) := by
    rw [Branch.Stack.relabel_reset]
    unfold Branch.Stack.reset
    rw [hs'.max, hs.max]
  exact
    { table := htable
      branches := hreset
      tracker := rfl
      files := .cons ⟨rfl, hopened⟩ .nil
      opened := hopened
      resync := rfl
      reports := ⟨hs'.mask.trans hs.mask.symm, [], [], by simp [State.entered, State.openFile],
        by simp [State.entered, State.openFile], rfl⟩ }

/-- The errors that a run counts are those among the diagnostics that it delivers. -/
theorem run_errors (h : Host) (s : State) (name contents : Bytes) {told : List Diagnostic}
    (htold : (s.run h name contents).1.state.reporter.delivered = s.reporter.delivered ++ told) :
    (s.run h name contents).2.errors = told.countP countsAsError := by
  have hcount {r : Reporter} {told' : List Diagnostic} (hr : Delivers s.reporter told' r)
      (hsame : r.delivered = s.reporter.delivered ++ told) :
      r.errors - s.reporter.errors = told.countP countsAsError := by
    obtain rfl : told' = told := List.append_cancel_left (hr.delivered.symm.trans hsame)
    rw [hr.errors, Nat.add_sub_cancel_left]
  rcases process_told h { s with branches := s.branches.reset, files := [], resync := false } name
    contents with ⟨-, _, hdelivers, -⟩ | ⟨-, -, -, _, _, hdelivers, -⟩
  · exact hcount hdelivers htold
  · exact hcount hdelivers htold

/-- **A run does not depend on earlier runs**, apart from the macros that they left: from any two
    reachable states of a host with the same macro table, it writes the same, ends with the same
    table, the same number of errors and in the same way, and reports the same, warnings about deep
    nesting apart. -/
theorem run_forgets_earlier_runs (h : Host) (s s' : State) (hs : Reachable h s)
    (hs' : Reachable h s') (htable : s'.table = s.table) (name contents : Bytes) :
    let a := s.run h name contents
    let b := s'.run h name contents
    b.1.written = a.1.written ∧ b.1.state.table = a.1.state.table ∧
      b.2.errors = a.2.errors ∧ b.2.aborted = a.2.aborted ∧
      ∃ told told', a.1.state.reporter.delivered = s.reporter.delivered ++ told ∧
        b.1.state.reporter.delivered = s'.reporter.delivered ++ told' ∧
        withoutDepthWarnings told' = withoutDepthWarnings told := by
  intro a b
  have hstart := entered_alike hs.configured hs'.configured htable name
  have hlines := processLines_same (nestedProcess_same h ((s.entered name).levelsLeft h))
    (nestedProcess_stable h _) h (Source.logicalLines contents) {} hstart (List.cons_ne_nil _ _)
  obtain ⟨told, told', htold, htold', hsame⟩ := hlines.state.reports.delivered
  have herrors : b.2.errors = a.2.errors := by
    rw [run_errors h s name contents htold, run_errors h s' name contents htold',
      ← countP_withoutDepthWarnings told', hsame, countP_withoutDepthWarnings]
  have haborted : b.2.aborted = a.2.aborted := congrArg Option.isSome hlines.failure
  exact ⟨hlines.written, hlines.state.table, herrors, haborted, told, told', htold, htold', hsame⟩

deriving instance DecidableEq for Macro.Table

/-- A host that allows one open group. -/
def oneGroupHost : Host where
  settings := { maxDepth := 1 }
  includer := some fun name _ _ => .ok (name, ascii "#ifndef A\n#endif\n")

/-- The state of that host after a run that ended inside a group and gave the warning about deep
    nesting. -/
def abortedState : State :=
  (oneGroupHost.start.1.run oneGroupHost (ascii "old.c") (ascii "#ifdef A\n#ifdef B\n")).1.state

theorem run_forgets_earlier_runs_aborted :
    let s := oneGroupHost.start.1
    let text := ascii "#include <a>\n#ifdef A\n#else\nx\n"
    abortedState.branches.depth = 1 ∧ abortedState.depthWarned = true ∧ s.depthWarned = false ∧
      (abortedState.run oneGroupHost (ascii "new.c") text).1.written =
        (s.run oneGroupHost (ascii "new.c") text).1.written ∧
      (abortedState.run oneGroupHost (ascii "new.c") text).2.errors =
        (s.run oneGroupHost (ascii "new.c") text).2.errors := by
  have hs : Reachable oneGroupHost oneGroupHost.start.1 := .start (by decide +kernel)
  have htable : abortedState.table = oneGroupHost.start.1.table := by decide +kernel
  obtain ⟨hwritten, -, herrors, -⟩ := run_forgets_earlier_runs oneGroupHost _ abortedState hs
    (hs.run _ _) htable (ascii "new.c") (ascii "#include <a>\n#ifdef A\n#else\nx\n")
  exact ⟨by decide +kernel, by decide +kernel, by decide +kernel, hwritten, herrors⟩

end Preproc.Engine
