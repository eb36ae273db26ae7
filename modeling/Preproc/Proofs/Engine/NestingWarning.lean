import Preproc.Proofs.Engine.IncludeStack
import Preproc.Proofs.Engine.Independence

set_option autoImplicit false

/-! # The warning about deep nesting

The warning is given when a directive opens a group and the open groups then fill more than three
quarters of what is allowed, and a latch keeps it from being given again. All other operations leave
both alone, so a run is followed by a small machine that knows the depth, the latch and the number
of warnings (`Nesting`). Nothing ever takes the latch back: of all runs on one state, only the first
one that comes so deep gives the warning (`nesting_warned_once`). -/

namespace Preproc.Engine

open Source (LogicalLine)

/-! ## What is followed -/

/-- How often a reporter has given the warning. -/
def depthWarnings (r : Reporter) : Nat :=
  r.delivered.countP isDepthWarning

/-- What the warning depends on, and how often it was given. -/
structure Nesting where
  mask : WarningSet
  /-- How often the warning was given. -/
  warnings : Nat
  /-- Whether it is not to be given again. -/
  warned : Bool
  /-- How many groups may be open. -/
  max : Int
  /-- How many groups are open. -/
  depth : Nat

/-- The part of a state that the warning depends on. -/
def State.nesting (s : State) : Nesting where
  mask := s.reporter.mask
  warnings := depthWarnings s.reporter
  warned := s.depthWarned
  max := s.branches.max
  depth := s.branches.depth

/-- Whether `depth` open groups are more than three quarters of `max`, compared as words. -/
def Crowds (max : Int) (depth : Nat) : Prop :=
  toWord (max * 3) < toWord (depth * 4)

instance (max : Int) (depth : Nat) : Decidable (Crowds max depth) :=
  inferInstanceAs (Decidable (_ < _))

/-- Give the warning if it is due. -/
def Nesting.check (n : Nesting) : Nesting :=
  if n.warned = false ∧ Crowds n.max n.depth then
    { n with warned := true, warnings := n.warnings + 1 }
  else n

/-! ## Reports -/

/-- The reporter `r'` wants the same warnings as `r`, and has given the one about deep nesting as
    often. -/
def SameWarnings (r r' : Reporter) : Prop :=
  r'.mask = r.mask ∧ depthWarnings r' = depthWarnings r

theorem sameWarnings_deliver (r : Reporter) {d : Diagnostic} (h : isDepthWarning d = false) :
    SameWarnings r (r.deliver d) := by
  refine ⟨rfl, ?_⟩
  rw [depthWarnings, Reporter.deliver, List.countP_append, List.countP_singleton, h]
  rfl

theorem sameWarnings_error (r : Reporter) (pos : Position) (message : Bytes) :
    SameWarnings r (r.error pos message) :=
  sameWarnings_deliver { r with errors := r.errors + 1 } (by simp [isDepthWarning])

/-- A warning that is not the one about deep nesting. -/
theorem sameWarnings_warn (r : Reporter) {classes : WarningSet} {pos : Position} {message : Bytes}
    (h : isDepthWarning ⟨pos, .warning, classes, message⟩ = false) :
    SameWarnings r (r.warn classes pos message) := by
  unfold Reporter.warn
  split
  · exact sameWarnings_deliver { r with warnings := r.warnings + 1 } h
  · exact ⟨rfl, rfl⟩

/-- The warning about deep nesting, where it is wanted. -/
theorem depthWarnings_warn (r : Reporter) {classes : WarningSet} {pos : Position} {message : Bytes}
    (hwanted : r.enabled classes = true)
    (h : isDepthWarning ⟨pos, .warning, classes, message⟩ = true) :
    (r.warn classes pos message).mask = r.mask ∧
      depthWarnings (r.warn classes pos message) = depthWarnings r + 1 := by
  rw [Reporter.warn, if_pos hwanted]
  refine ⟨rfl, ?_⟩
  rw [depthWarnings, Reporter.deliver, List.countP_append, List.countP_singleton, h]
  rfl

theorem sameWarnings_report (r : Reporter) (pos : Position) (failure : Failure) :
    SameWarnings r (r.report pos failure).1 := by
  unfold Reporter.report
  split
  · unfold Reporter.fatal
    split
    · exact ⟨rfl, rfl⟩
    · exact sameWarnings_deliver { r with errors := r.errors + 1 } (by simp [isDepthWarning])
  · exact sameWarnings_error r _ _
  · exact sameWarnings_error r _ _

theorem nesting_setReporter (s : State) {r : Reporter} (h : SameWarnings s.reporter r) :
    State.nesting { s with reporter := r } = s.nesting := by
  simp only [State.nesting, h.1, h.2]

@[simp] theorem complain_nesting (s : State) (pos : Position) (c : Complaint) :
    (s.complain pos c).nesting = s.nesting :=
  nesting_setReporter s (sameWarnings_error _ _ _)

@[simp] theorem refuse_nesting (s : State) (e : Located Macro.Refusal) :
    (s.refuse e).nesting = s.nesting :=
  nesting_setReporter s (sameWarnings_error _ _ _)

theorem caution_nesting (s : State) (pos : Position) {c : Caution}
    (hc : ∀ depth limit, c ≠ .deepNesting depth limit) : (s.caution pos c).nesting = s.nesting := by
  refine nesting_setReporter s (sameWarnings_warn _ ?_)
  rw [← Bool.not_eq_true]
  intro hdeep
  obtain ⟨depth, limit, hsame⟩ := (isDepthWarning_caution c pos).1 hdeep
  exact hc depth limit hsame

@[simp] theorem notice_nesting (s : State) (pos : Position) (n : Option Macro.Notice) :
    (s.notice pos n).nesting = s.nesting := by
  cases n with
  | none => rfl
  | some n =>
    refine nesting_setReporter s (sameWarnings_warn _ ?_)
    have hclass : n.classes ≠ .limits := by
      cases n with
      | redefined => exact show WarningSet.redefine ≠ .limits by decide
      | manyPastes => exact show WarningSet.paste ≠ .limits by decide
    simp [isDepthWarning, hclass]

@[simp] theorem ceiling_nesting (s : State) (c : Option Macro.Ceiling) :
    (s.ceiling c).nesting = s.nesting := by
  cases c with
  | none => rfl
  | some c => exact caution_nesting s _ (by simp)

@[simp] theorem checkTrailing_nesting (h : Host) (s : State) (c : Cursor) (kw : Keyword) :
    (s.checkTrailing h c kw).nesting = s.nesting := by
  unfold State.checkTrailing
  split
  · rfl
  · split
    · exact complain_nesting s _ _
    · exact caution_nesting s _ (by simp)

@[simp] theorem checkLineRest_nesting (h : Host) (s : State) (name : Bytes) (c : Cursor) :
    (s.checkLineRest h name c).nesting = s.nesting := by
  unfold State.checkLineRest
  split
  · split
    · exact caution_nesting s _ (by simp)
    · rfl
  · exact checkTrailing_nesting h s c .line

@[simp] theorem test_nesting (s : State) (pos : Position) (directive : Keyword)
    (toks : List Token) : (s.test pos directive toks).1.nesting = s.nesting := by
  unfold State.test
  split
  · exact complain_nesting s _ _
  · split
    · exact complain_nesting s _ _
    · dsimp only
      split
      · exact complain_nesting { s with evaluations := _ } _ _
      · rfl

@[simp] theorem testDefined_nesting (h : Host) (s : State) (kw : Keyword) (c : Cursor) :
    (s.testDefined h kw c).1.nesting = s.nesting := by
  unfold State.testDefined
  dsimp only
  split
  · exact refuse_nesting s _
  · exact checkTrailing_nesting h s _ _

theorem define_nesting (h : Host) (s : State) (c : Cursor) :
    (s.define h c).1.nesting = s.nesting := by
  unfold State.define
  split
  · rfl
  · next p _ =>
    have hparsed := notice_nesting s p.definition.definedAt p.notice
    dsimp only
    split
    · exact hparsed
    · next r _ =>
      rw [ceiling_nesting]
      exact (notice_nesting (s.notice p.definition.definedAt p.notice) p.definition.definedAt
        r.notice).trans hparsed

/-! ## The check -/

/-- The check of the depth is that of the small machine, where such warnings are wanted. -/
theorem checkDepth_nesting (s : State) (hlimits : s.nesting.mask.meets .limits = true)
    (pos : Position) : (s.checkDepth pos).nesting = s.nesting.check := by
  have hdue : (s.depthWarned || decide (toWord ((s.branches.depth : Int) * 4) ≤
      toWord (s.branches.max * 3))) = false ↔
      s.nesting.warned = false ∧ Crowds s.nesting.max s.nesting.depth := by
    rw [Bool.or_eq_false_iff, decide_eq_false_iff_not, Int.not_le]
    rfl
  unfold State.checkDepth Nesting.check
  dsimp only
  split
  · next hskip =>
    rw [if_neg]
    intro hboth
    rw [hdue.2 hboth] at hskip
    exact absurd hskip (by simp)
  · next hgive =>
    rw [if_pos (hdue.1 (by simpa using hgive))]
    obtain ⟨hmask, hgiven⟩ := depthWarnings_warn s.reporter hlimits
      ((isDepthWarning_caution (.deepNesting s.branches.depth s.branches.max) pos).2 ⟨_, _, rfl⟩)
    simp only [State.nesting, State.caution, Caution.classes, hmask, hgiven]

/-! ## Moves in the groups -/

section Groups

variable {s : State} {stack stack' : Branch.Stack} {pos : Position} {file : Int}

theorem enter_depth (h : (stack.enter pos file).LeadsTo stack') :
    stack'.max = stack.max ∧ stack'.depth = stack.depth + 1 := by
  obtain ⟨taken, rfl⟩ := Branch.Stack.pushed_of_enter h
  exact ⟨rfl, rfl⟩

theorem enter_full {why : Branch.Refusal} (h : stack.enter pos file = .refused why) :
    stack.max ≤ stack.depth := by
  unfold Branch.Stack.enter at h
  split at h
  · next hfull => exact hfull
  · split at h <;> exact absurd h (by simp)

theorem switched_depth (h : stack.Switched file stack') :
    stack'.max = stack.max ∧ stack'.depth ≤ stack.depth := by
  obtain ⟨frame, frame', outer, hframes, -, hs', -⟩ := h
  rw [hs']
  exact ⟨rfl, by simp [Branch.Stack.depth, hframes]⟩

theorem endif_depth (h : stack.endif file = .ok stack') :
    stack'.max = stack.max ∧ stack'.depth ≤ stack.depth := by
  obtain ⟨frame, outer, hframes, -, rfl⟩ := Branch.Stack.popped_of_endif h
  exact ⟨rfl, by simp [Branch.Stack.depth, hframes]⟩

theorem unterminated_depth (stack : Branch.Stack) (file : Int) :
    (stack.unterminated file).2.max = stack.max ∧
      (stack.unterminated file).2.depth ≤ stack.depth := by
  unfold Branch.Stack.unterminated
  dsimp only
  split
  · exact ⟨rfl, Nat.le_refl _⟩
  · exact ⟨rfl, (List.dropWhile_sublist _).length_le⟩

theorem nesting_setBranches (hmax : stack.max = s.branches.max) :
    State.nesting { s with branches := stack } = { s.nesting with depth := stack.depth } := by
  simp only [State.nesting, hmax]

end Groups

/-! ## Directives -/

/-- What one step of a run does, as the warning sees it. `Opening` says whether the step is at a
    directive that opens a group. -/
inductive Nesting.Step (Opening : Prop) (n : Nesting) : Nesting → Prop where
  | stays {depth : Nat} (h : depth ≤ n.depth) : Step Opening n { n with depth }
  | opens (h : Opening) : Step Opening n { n with depth := n.depth + 1 }.check
  /-- No more groups may be open, and the depth is checked all the same. -/
  | refused (h : n.max ≤ n.depth) : Step Opening n n.check

namespace Nesting

variable {n n' : Nesting} {Opening : Prop}

theorem Step.of_eq (h : n' = n) : Step Opening n n' := by
  rw [h]
  exact .stays (Nat.le_refl n.depth)

theorem check_frame (n : Nesting) :
    n.check.mask = n.mask ∧ n.check.max = n.max ∧ n.check.depth = n.depth := by
  unfold check
  split <;> exact ⟨rfl, rfl, rfl⟩

theorem check_warned (n : Nesting) :
    n.check.warned = true ↔ n.warned = true ∨ Crowds n.max n.depth := by
  unfold check
  split
  · next hdue => simp [hdue.2]
  · next hkeep =>
    refine ⟨Or.inl, fun h => h.elim id fun hcrowds => ?_⟩
    cases hwarned : n.warned with
    | true => rfl
    | false => exact absurd ⟨hwarned, hcrowds⟩ hkeep

/-- The warning is given when the latch is set. -/
theorem check_balance (n : Nesting) :
    n.check.warnings + n.warned.toNat = n.warnings + n.check.warned.toNat := by
  unfold check
  split
  · next hdue => simp [hdue.1]
  · rfl

theorem Step.frame (h : Step Opening n n') : n'.mask = n.mask ∧ n'.max = n.max := by
  cases h with
  | stays => exact ⟨rfl, rfl⟩
  | opens => exact ⟨(check_frame _).1, (check_frame _).2.1⟩
  | refused => exact ⟨(check_frame n).1, (check_frame n).2.1⟩

theorem Step.balance (h : Step Opening n n') :
    n'.warnings + n.warned.toNat = n.warnings + n'.warned.toNat := by
  cases h with
  | stays => rfl
  | opens => exact check_balance { n with depth := n.depth + 1 }
  | refused => exact check_balance n

/-- Groups may be open, and as long as the warning was not given, it was not due for any number of
    groups up to those that are open. -/
structure Aware (n : Nesting) : Prop where
  max : 0 < n.max
  quiet : n.warned = false → ∀ depth, 0 < depth → depth ≤ n.depth → ¬ Crowds n.max depth

/-- **One step** sets the latch exactly when it opens a group too many. A group that is refused does
    not count: where no more may be open, the latch is set already or never will be. -/
theorem Step.warned_iff (ha : n.Aware) (h : Step Opening n n') :
    n'.warned = true ↔
      n.warned = true ∨ (Opening ∧ n'.depth = n.depth + 1 ∧ Crowds n.max n'.depth) := by
  cases h with
  | stays hdepth =>
    refine ⟨Or.inl, fun h => h.elim id fun hopens => ?_⟩
    have hone := hopens.2.1
    dsimp only at hone
    omega
  | opens hopening =>
    rw [check_warned, (check_frame _).2.2]
    simp [hopening]
  | refused hfull =>
    rw [check_warned, (check_frame n).2.2]
    refine or_congr_right' fun hwarned => ?_
    have hmax := ha.max
    have hquiet := ha.quiet (by simpa using hwarned) n.depth (by omega) (Nat.le_refl _)
    simp [hquiet]

theorem Step.aware (ha : n.Aware) (h : Step Opening n n') : n'.Aware := by
  refine ⟨h.frame.2 ▸ ha.max, fun hwarned depth hpos hle => ?_⟩
  have hbefore : n.warned = false := by
    rw [← Bool.not_eq_true] at hwarned ⊢
    exact fun hset => hwarned ((h.warned_iff ha).2 (Or.inl hset))
  rw [h.frame.2]
  cases h with
  | stays hdepth => exact ha.quiet hbefore depth hpos (hle.trans hdepth)
  | opens hopening =>
    have hlast : ¬ Crowds n.max (n.depth + 1) := by
      rw [← Bool.not_eq_true, check_warned] at hwarned
      exact fun hcrowds => hwarned (Or.inr hcrowds)
    rw [(check_frame _).2.2] at hle
    rcases Nat.lt_or_eq_of_le hle with hlt | rfl
    · exact ha.quiet hbefore depth hpos (Nat.lt_succ_iff.1 hlt)
    · exact hlast
  | refused hfull =>
    rw [(check_frame n).2.2] at hle
    exact ha.quiet hbefore depth hpos hle

end Nesting

section Directives

variable {h : Host} {s : State} {pos : Position} {Opening : Prop}
  {test : State → State × Bool}

/-- A directive that opens a group, or finds no room for it. -/
theorem enter_step (hlimits : s.nesting.mask.meets .limits = true) (hopening : Opening)
    (htest : ∀ s, (test s).1.nesting = s.nesting) (file : Int) :
    Nesting.Step Opening s.nesting
      ((s.branch pos (s.branches.enter pos file) test).state.checkDepth pos).nesting := by
  have hleads {stack : Branch.Stack} (hstack : (s.branches.enter pos file).LeadsTo stack)
      {t : State} (ht : t.nesting = s.nesting) :
      Nesting.Step Opening s.nesting
        (({ t with branches := stack } : State).checkDepth pos).nesting := by
    obtain ⟨hmax, hdepth⟩ := enter_depth hstack
    have hsame : t.branches.max = s.branches.max := congrArg Nesting.max ht
    have hopened := nesting_setBranches (s := t) (hmax.trans hsame.symm)
    rw [ht, hdepth] at hopened
    rw [checkDepth_nesting _ (by rw [hopened]; exact hlimits), hopened]
    exact .opens hopening
  cases hstep : s.branches.enter pos file with
  | refused why =>
    have hfull := enter_full hstep
    show Nesting.Step Opening s.nesting (s.checkDepth pos).nesting
    rw [checkDepth_nesting s hlimits]
    exact .refused hfull
  | settled stack => exact hleads (hstep ▸ rfl) rfl
  | asks resume => exact hleads (hstep ▸ ⟨(test s).2, rfl⟩) (htest s)

theorem elif_step (htest : ∀ s, (test s).1.nesting = s.nesting) (file : Int) :
    Nesting.Step Opening s.nesting (s.branch pos (s.branches.elif file) test).state.nesting := by
  have hleads {stack : Branch.Stack} (hstack : (s.branches.elif file).LeadsTo stack)
      {t : State} (ht : t.nesting = s.nesting) :
      Nesting.Step Opening s.nesting (State.nesting { t with branches := stack }) := by
    obtain ⟨hmax, hdepth⟩ := switched_depth (Branch.Stack.switched_of_elif hstack)
    have hsame : t.branches.max = s.branches.max := congrArg Nesting.max ht
    rw [nesting_setBranches (s := t) (hmax.trans hsame.symm), ht]
    exact .stays hdepth
  cases hstep : s.branches.elif file with
  | refused why => exact .of_eq rfl
  | settled stack => exact hleads (hstep ▸ rfl) rfl
  | asks resume => exact hleads (hstep ▸ ⟨(test s).2, rfl⟩) (htest s)

theorem close_step (kw : Keyword) (c : Cursor) {result : Except Branch.Refusal Branch.Stack}
    (hresult : ∀ stack, result = .ok stack →
      stack.max = s.branches.max ∧ stack.depth ≤ s.branches.depth) :
    Nesting.Step Opening s.nesting (s.close h pos kw c result).state.nesting := by
  cases result with
  | error why => exact .of_eq rfl
  | ok stack =>
    obtain ⟨hmax, hdepth⟩ := hresult stack rfl
    have hclosed : (s.close h pos kw c (.ok stack)).state.nesting =
        { s.nesting with depth := stack.depth } := by
      rw [← nesting_setBranches hmax]
      unfold State.close
      dsimp only
      split
      · exact checkTrailing_nesting h _ c kw
      · rfl
    rw [hclosed]
    exact .stays hdepth

theorem defineDirective_nesting (c : Cursor) :
    (s.defineDirective h c).state.nesting = s.nesting := by
  have hdefine := define_nesting h s c
  unfold State.defineDirective
  split
  · next hresult => rwa [hresult] at hdefine
  · next hresult => rwa [hresult] at hdefine

theorem undefDirective_nesting (c : Cursor) :
    (s.undefDirective h c).state.nesting = s.nesting := by
  unfold State.undefDirective
  dsimp only
  split
  · rfl
  · split
    · rfl
    · exact checkTrailing_nesting h _ _ _

theorem lineDirective_nesting (name : Bytes) (c : Cursor) :
    (s.lineDirective h name pos c).state.nesting = s.nesting := by
  rw [lineDirective_eq]
  split
  · rfl
  · next n file rest _ =>
    have hrest := checkLineRest_nesting h s name rest
    dsimp only
    split
    · exact hrest
    · exact hrest

theorem include_idle_nesting (t : State) (find : Includer) (c : Cursor) :
    (s.include h (t.idle h) find pos c).state.nesting = s.nesting := by
  have hout := include_outcome h (t.idle h) find s pos c
  generalize s.include h (t.idle h) find pos c = out at hout ⊢
  cases hout with
  | unnamed | tooDeep | notFound => rfl
  | opened _ hprocess =>
    unfold State.idle at hprocess
    split at hprocess
    · obtain rfl := Option.some.inj hprocess
      rfl
    · exact absurd hprocess (by simp)

theorem external_idle_nesting (t : State) (kw : Option Keyword) (name : Bytes) (c : Cursor) :
    (s.external h (t.idle h) kw name pos c).state.nesting = s.nesting := by
  have hout := external_outcome h (t.idle h) s kw name pos c
  generalize s.external h (t.idle h) kw name pos c = out at hout ⊢
  cases hout with
  | included => exact include_idle_nesting t _ c
  | renumbered => exact lineDirective_nesting name c
  | ignored | failed => rfl
  | warned => exact caution_nesting s pos (by simp)

/-- Whether a directive opens a group. -/
def opensGroup : Keyword → Bool
  | .ifTrue | .ifdef | .ifndef => true
  | _ => false

theorem dispatch_idle_step (hlimits : s.nesting.mask.meets .limits = true) (t : State)
    {kw : Option Keyword} (hopening : kw.any opensGroup = true → Opening) (name : Token)
    (c : Cursor) :
    Nesting.Step Opening s.nesting (s.dispatch h (t.idle h) kw name c).state.nesting := by
  unfold State.dispatch
  dsimp only
  split
  · exact enter_step hlimits (hopening rfl) (fun s => test_nesting s _ _ _) _
  · exact enter_step hlimits (hopening rfl) (fun s => testDefined_nesting h s _ _) _
  · exact enter_step hlimits (hopening rfl) (fun s => testDefined_nesting h s _ _) _
  · exact elif_step (fun s => test_nesting s _ _ _) _
  · exact close_step _ c fun stack hstack =>
      switched_depth (Branch.Stack.switched_of_otherwise hstack)
  · exact close_step _ c fun stack => endif_depth
  · exact .of_eq (defineDirective_nesting c)
  · exact .of_eq (undefDirective_nesting c)
  · exact .of_eq (external_idle_nesting t _ _ c)

@[simp] theorem noteSwitch_nesting (out : Outcome) (wasCompiling : Bool) :
    (out.noteSwitch wasCompiling).state.nesting = out.state.nesting := by
  obtain ⟨resync, hnote⟩ := noteSwitch_effect out wasCompiling
  rw [hnote]
  rfl

@[simp] theorem reported_nesting (out : Outcome) (pos : Position) :
    (out.reported pos).state.nesting = out.state.nesting := by
  unfold Outcome.reported
  split
  · rfl
  · exact nesting_setReporter _ (sameWarnings_report _ _ _)

/-- **One directive** that includes no file. -/
theorem directiveWith_idle_step (hlimits : s.nesting.mask.meets .limits = true) (t : State)
    {line : Bytes} (hopening : ∀ kw name c, opensGroup kw = true → Announces kw pos line name c →
      Opening) :
    Nesting.Step Opening s.nesting (s.directiveWith h (t.idle h) pos line).state.nesting := by
  have hout := directiveWith_outcome h (t.idle h) s pos line
  generalize s.directiveWith h (t.idle h) pos line = out at hout ⊢
  cases hout with
  | unsigned | invalid => exact .of_eq (complain_nesting s _ _)
  | ignored => exact .of_eq rfl
  | named hsigned hident =>
    rw [reported_nesting, noteSwitch_nesting]
    refine dispatch_idle_step hlimits t (fun hany => ?_) _ _
    obtain ⟨kw, hkw, hopens⟩ := (Option.any_eq_true _ _).1 hany
    exact hopening kw _ _ hopens ⟨hsigned.sign, hsigned.read, hident, hkw⟩
  | numbered =>
    rw [reported_nesting]
    exact .of_eq (external_idle_nesting t _ _ _)
  | skipped => exact .of_eq (caution_nesting s _ (by simp))

end Directives

/-! ## The steps of a run -/

/-- The next line to be handled is a directive that opens a group. -/
def Config.AtOpening (c : Config) : Prop :=
  ∃ a below l rest kw name cursor, c.active = a :: below ∧ c.out.failure = none ∧
    a.rest = l :: rest ∧ l.directive = true ∧ opensGroup kw = true ∧
    Announces kw ((c.out.state.track l).linePosition l) l.text name cursor

/-- In the step from `c` to `c'` a directive opens a group. -/
structure Config.Opens (h : Host) (c c' : Config) : Prop where
  step : c.step h = some c'
  directive : c.AtOpening
  depth : c'.out.state.branches.depth = c.out.state.branches.depth + 1

section Machine

variable {h : Host} {c c' : Config} {Opening : Prop}

theorem leave_nesting (a : Activation) (below : List Activation) (out : Outcome) :
    (a.leave below out).out.state.nesting = out.state.nesting := by
  cases below with
  | nil => rfl
  | cons b below =>
    show (Outcome.reported (Outcome.noteSwitch _ true) a.pos).state.nesting = _
    rw [reported_nesting, noteSwitch_nesting]
    rfl

theorem closeGroups_step (s : State) : Nesting.Step Opening s.nesting s.closeGroups.nesting := by
  obtain ⟨hmax, hdepth⟩ := unterminated_depth s.branches s.fileId
  obtain ⟨t, ht, hclosed⟩ := closeGroups_complains (P := (·.nesting = s.nesting)) rfl
    fun t pos ht => (complain_nesting t pos _).trans ht
  have hsame : t.branches.max = s.branches.max := congrArg Nesting.max ht
  have hnesting : s.closeGroups.nesting =
      { s.nesting with depth := (s.branches.unterminated s.fileId).2.depth } := by
    rw [hclosed, ← ht]
    exact nesting_setBranches (hmax.trans hsame.symm)
  rw [hnesting]
  exact .stays hdepth

theorem handle_step (hlimits : c.out.state.nesting.mask.meets .limits = true)
    {a : Activation} {below : List Activation} {l : LogicalLine} {rest : List LogicalLine}
    (hactive : c.active = a :: below) (hfailure : c.out.failure = none) (hrest : a.rest = l :: rest)
    (b : Activation) (written : Bytes) :
    Nesting.Step c.AtOpening c.out.state.nesting
      (b.handle h below c.out.state written l).out.state.nesting := by
  cases hl : l.directive with
  | true =>
    cases ho : (c.out.state.track l).inclusion? h ((c.out.state.track l).linePosition l) l.text with
    | some o =>
      obtain ⟨requests, hstate⟩ := inclusion?_state ho
      refine .of_eq ?_
      rw [handle_opens hl ho, hstate]
      rfl
    | none =>
      rw [handle_directive hl ho]
      exact directiveWith_idle_step (s := c.out.state.track l) hlimits _
        fun kw name cursor hopens ha =>
          ⟨a, below, l, rest, kw, name, cursor, hactive, hfailure, hrest, hl, hopens, ha⟩
  | false =>
    cases hs : c.out.state.compiling with
    | true =>
      rw [handle_copied hl hs]
      exact .of_eq rfl
    | false =>
      rw [handle_skipped hl hs]
      exact .of_eq rfl

/-- **One step of a run.** -/
theorem step_nesting (hlimits : c.out.state.nesting.mask.meets .limits = true)
    (hstep : c.step h = some c') :
    Nesting.Step c.AtOpening c.out.state.nesting c'.out.state.nesting := by
  obtain ⟨a, below, hactive, ⟨failure, -, rfl⟩ | ⟨-, -, rfl⟩ | ⟨l, rest, hfailure, hrest, rfl⟩⟩ :=
    step_cases hstep
  · exact .of_eq (leave_nesting a below _)
  · rw [leave_nesting]
    exact closeGroups_step _
  · exact handle_step hlimits hactive hfailure hrest _ _

/-- From `c` on, a directive opens a group, after which too many are open. -/
def Config.Crowded (h : Host) (c : Config) : Prop :=
  ∃ d d', Config.Reaches h c d ∧ d.Opens h d' ∧
    Crowds c.out.state.branches.max d'.out.state.branches.depth

/-- What some steps of a run leave of the warning. -/
structure Follows (h : Host) (c c' : Config) : Prop where
  mask : c'.out.state.nesting.mask = c.out.state.nesting.mask
  max : c'.out.state.nesting.max = c.out.state.nesting.max
  aware : c'.out.state.nesting.Aware
  balance : c'.out.state.nesting.warnings + c.out.state.nesting.warned.toNat =
    c.out.state.nesting.warnings + c'.out.state.nesting.warned.toNat
  kept : c.out.state.nesting.warned = true → c'.out.state.nesting.warned = true
  crowded : c'.out.state.nesting.warned = true → c.out.state.nesting.warned = true ∨ c.Crowded h

/-- **Many steps of a run.** -/
theorem reaches_follows (hlimits : c.out.state.nesting.mask.meets .limits = true)
    (ha : c.out.state.nesting.Aware) (hreaches : Config.Reaches h c c') : Follows h c c' := by
  induction hreaches with
  | refl => exact ⟨rfl, rfl, ha, rfl, id, Or.inl⟩
  | @tail d d' hreaches hstep ih =>
    have hone := step_nesting (by rw [ih.mask]; exact hlimits) hstep
    refine ⟨hone.frame.1.trans ih.mask, hone.frame.2.trans ih.max, hone.aware ih.aware, ?_, ?_, ?_⟩
    · have hbalance := hone.balance
      have hbefore := ih.balance
      omega
    · exact fun hset => (hone.warned_iff ih.aware).2 (Or.inl (ih.kept hset))
    · intro hset
      rcases (hone.warned_iff ih.aware).1 hset with hbefore | ⟨hopening, hdepth, hcrowds⟩
      · exact ih.crowded hbefore
      · rw [ih.max] at hcrowds
        exact Or.inr ⟨d, d', hreaches, ⟨hstep, hopening, hdepth⟩, hcrowds⟩

/-- A run comes to its end from wherever it has come to. -/
theorem reaches_end {d e : Config} (hd : Config.Reaches h c d) (he : Config.Reaches h c e)
    (hend : e.step h = none) : Config.Reaches h d e := by
  have hunique : Relator.RightUnique fun c c' : Config => c.step h = some c' :=
    fun c d e hd he => Option.some.inj (hd.symm.trans he)
  rcases Relation.ReflTransGen.total_of_right_unique hunique hd he with hde | hed
  · exact hde
  · rcases hed.cases_head with rfl | ⟨f, hstep, -⟩
    · exact .refl
    · exact absurd (hend.symm.trans hstep) (by simp)

/-- At the end of a run the latch is set if it was before or a group too many was opened. -/
theorem warned_at_end (hlimits : c.out.state.nesting.mask.meets .limits = true)
    (ha : c.out.state.nesting.Aware) (hreaches : Config.Reaches h c c') (hend : c'.step h = none) :
    c'.out.state.depthWarned = true ↔ c.out.state.depthWarned = true ∨ c.Crowded h := by
  have hall := reaches_follows hlimits ha hreaches
  refine ⟨hall.crowded, fun h' => h'.elim hall.kept ?_⟩
  rintro ⟨d, d', hd, hopens, hcrowds⟩
  have hbefore := reaches_follows hlimits ha hd
  have hone := step_nesting (by rw [hbefore.mask]; exact hlimits) hopens.step
  have hset : d'.out.state.nesting.warned = true := by
    refine (hone.warned_iff hbefore.aware).2 (Or.inr ⟨hopens.directive, hopens.depth, ?_⟩)
    rw [hbefore.max]
    exact hcrowds
  have hreached : Config.Reaches h c d' := hd.tail hopens.step
  have hafter := reaches_follows hlimits ha hreached
  exact (reaches_follows (by rw [hafter.mask]; exact hlimits) hafter.aware
    (reaches_end hreached hreaches hend)).kept hset

end Machine

/-! ## Runs -/

/-- During the run on a file, `#if`, `#ifdef` or `#ifndef` opens a group, after which too many are
    open. -/
def State.CrowdsIn (h : Host) (s : State) (run : Bytes × Bytes) : Prop :=
  (Config.load s run.1 run.2).Crowded h

/-- The state after some runs, each given by the name and the contents of its file. -/
def State.afterRuns (h : Host) (s : State) (runs : List (Bytes × Bytes)) : State :=
  runs.foldl (fun s run => (s.run h run.1 run.2).1.state) s

@[simp] theorem afterRuns_nil (h : Host) (s : State) : s.afterRuns h [] = s := rfl

/-- One of some runs that follow each other opens a group too many. -/
def State.CrowdsBefore (h : Host) (s : State) (runs : List (Bytes × Bytes)) : Prop :=
  ∃ before run after, runs = before ++ run :: after ∧ (s.afterRuns h before).CrowdsIn h run

section Runs

variable {h : Host} {s : State}

/-- **One run** gives the warning when it sets the latch, which it does when it opens a group too
    many. -/
theorem run_nesting (hlimits : s.reporter.enabled .limits = true) (hmax : 0 < s.branches.max)
    (run : Bytes × Bytes) :
    let t := (s.run h run.1 run.2).1.state
    t.reporter.mask = s.reporter.mask ∧ t.branches.max = s.branches.max ∧
      depthWarnings t.reporter + s.depthWarned.toNat =
        depthWarnings s.reporter + t.depthWarned.toNat ∧
      (t.depthWarned = true ↔ s.depthWarned = true ∨ s.CrowdsIn h run) := by
  obtain ⟨name, contents⟩ := run
  intro t
  have hstart : (Config.load s name contents).out.state.nesting.Aware := by
    refine ⟨hmax, fun _ depth hpos hle => ?_⟩
    -- no group is open when a run starts
    have hnone : (Config.load s name contents).out.state.nesting.depth = 0 := rfl
    omega
  have hends := runsLines h ((s.entered name).levelsLeft h) (Source.logicalLines contents)
    ⟨{}, Source.logicalLines contents,
      { s with branches := s.branches.reset, files := [], resync := false }, {}⟩ []
    (s.entered name) [] rfl rfl
  have hmask : (Config.load s name contents).out.state.nesting.mask.meets .limits = true := hlimits
  have hall := reaches_follows hmask hstart hends
  exact ⟨hall.mask, hall.max, hall.balance, warned_at_end hmask hstart hends rfl⟩

/-- **Many runs.** -/
theorem afterRuns_nesting (hlimits : s.reporter.enabled .limits = true)
    (hmax : 0 < s.branches.max) (runs : List (Bytes × Bytes)) :
    let t := s.afterRuns h runs
    t.reporter.mask = s.reporter.mask ∧ t.branches.max = s.branches.max ∧
      (t.depthWarned = true ↔ s.depthWarned = true ∨ s.CrowdsBefore h runs) := by
  -- on the runs from the last one, which starts in the state that all others leave
  induction runs using List.reverseRecOn with
  | nil => exact ⟨rfl, rfl, by simp [State.CrowdsBefore]⟩
  | append_singleton runs last ih =>
    obtain ⟨hmask, hsame, hwarned⟩ := ih
    have hlast : s.afterRuns h (runs ++ [last]) =
        ((s.afterRuns h runs).run h last.1 last.2).1.state := by
      simp [State.afterRuns]
    obtain ⟨hmask', hsame', -, hwarned'⟩ := run_nesting (h := h) (s := s.afterRuns h runs)
      (by rw [Reporter.enabled, hmask]; exact hlimits) (hsame ▸ hmax) last
    intro t
    refine ⟨?_, ?_, ?_⟩
    · rw [← hmask, ← hmask', ← hlast]
    · rw [← hsame, ← hsame', ← hlast]
    · rw [show t = _ from hlast, hwarned', hwarned, or_assoc]
      refine or_congr_right ?_
      constructor
      · rintro (⟨before, run, after, rfl, hcrowds⟩ | hcrowds)
        · exact ⟨before, run, after ++ [last], by simp, hcrowds⟩
        · exact ⟨runs, last, [], rfl, hcrowds⟩
      · rintro ⟨before, run, after, hsplit, hcrowds⟩
        rcases List.eq_nil_or_concat after with rfl | ⟨after, run', rfl⟩
        · obtain ⟨rfl, hrun⟩ := List.append_inj' hsplit rfl
          obtain rfl : last = run := by simpa using hrun
          exact Or.inr hcrowds
        · refine Or.inl ⟨before, run, after, ?_, hcrowds⟩
          rw [List.concat_eq_append, ← List.cons_append, ← List.append_assoc] at hsplit
          exact (List.append_inj' hsplit rfl).1

end Runs

/-! ## Words -/

/-- A number that fits is the word. -/
theorem toWord_of_lt {n : Int} (hpos : 0 ≤ n) (hlt : n < 2 ^ 63) : toWord n = n := by
  refine Int.bmod_eq_of_le ?_ ?_ <;> simp only [wordCount] <;> omega

/-- A number that is one bit too long becomes negative. -/
theorem toWord_of_overflow {n : Int} (hle : 2 ^ 63 ≤ n) (hlt : n < 2 ^ 64) :
    toWord n = n - 2 ^ 64 := by
  rw [toWord, ← Int.sub_bmod_right]
  refine Int.bmod_eq_of_le ?_ ?_ <;> simp only [wordCount] <;> omega

/-- As long as both products fit, they are compared as integers. -/
theorem crowds_iff {max : Int} {depth : Nat} (hmax : 0 < max) (hlimit : max * 3 < 2 ^ 63)
    (hdepth : (depth : Int) * 4 < 2 ^ 63) : Crowds max depth ↔ max * 3 < depth * 4 := by
  rw [Crowds, toWord_of_lt (by omega) hlimit, toWord_of_lt (by omega) hdepth]

/-- Any number of groups is too many for a limit whose triple does not fit. -/
theorem crowds_of_overflow {max : Int} {depth : Nat} (hlimit : 2 ^ 63 ≤ max * 3)
    (hword : max * 3 < 2 ^ 64) (hdepth : (depth : Int) * 4 < 2 ^ 63) : Crowds max depth := by
  rw [Crowds, toWord_of_overflow hlimit hword, toWord_of_lt (by omega) hdepth]
  omega

/-! ## The warning -/

/-- **The warning about deep nesting is given once on a state, not once in a run.** Let the class of
    limits be wanted and groups be allowed, and let any files be run after each other. The run on
    the next file gives the warning at most once. It gives it exactly when one of its `#if`,
    `#ifdef` and `#ifndef` opens a group, after which too many are open, and neither did any of the
    earlier runs nor was the warning given before them. Whether there are too many is a question of
    words: it is that whether four times their number is more than three times the limit as long as
    both products fit, but where the triple of the limit is one bit too long, any number is too
    many. -/
theorem nesting_warned_once (h : Host) (s : State) (hlimits : s.reporter.enabled .limits = true)
    (hmax : 0 < s.branches.max) (earlier : List (Bytes × Bytes)) (run : Bytes × Bytes) :
    let t := s.afterRuns h earlier
    (∃ told, (t.run h run.1 run.2).1.state.reporter.delivered = t.reporter.delivered ++ told ∧
      told.countP isDepthWarning ≤ 1 ∧
      (told.countP isDepthWarning = 1 ↔
        t.CrowdsIn h run ∧ s.depthWarned = false ∧ ¬ s.CrowdsBefore h earlier)) ∧
    t.branches.max = s.branches.max ∧
    ∀ depth : Nat, (depth : Int) * 4 < 2 ^ 63 →
      (s.branches.max * 3 < 2 ^ 63 →
        (Crowds s.branches.max depth ↔ s.branches.max * 3 < depth * 4)) ∧
      (2 ^ 63 ≤ s.branches.max * 3 → s.branches.max * 3 < 2 ^ 64 →
        Crowds s.branches.max depth) := by
  intro t
  obtain ⟨hmask, hsame, hwarned⟩ := afterRuns_nesting (h := h) hlimits hmax earlier
  refine ⟨?_, hsame, fun depth hdepth => ⟨fun hlimit => crowds_iff hmax hlimit hdepth,
    fun hlimit hword => crowds_of_overflow hlimit hword hdepth⟩⟩
  obtain ⟨told, htold⟩ := (process_told h
    { t with branches := t.branches.reset, files := [], resync := false } run.1 run.2).delivers
  have hdelivered : (t.run h run.1 run.2).1.state.reporter.delivered =
      t.reporter.delivered ++ told := htold.delivered
  refine ⟨told, hdelivered, ?_⟩
  obtain ⟨-, -, hbalance, hset⟩ := run_nesting (h := h) (s := t)
    (by rw [Reporter.enabled, hmask]; exact hlimits) (hsame ▸ hmax) run
  have hcount : told.countP isDepthWarning + t.depthWarned.toNat =
      (t.run h run.1 run.2).1.state.depthWarned.toNat := by
    rw [depthWarnings, depthWarnings, hdelivered, List.countP_append] at hbalance
    omega
  have hquiet : t.depthWarned = false ↔ s.depthWarned = false ∧ ¬ s.CrowdsBefore h earlier := by
    rw [← Bool.not_eq_true, hwarned, not_or, Bool.not_eq_true]
  rw [← hquiet]
  cases hbefore : t.depthWarned with
  | true =>
    -- the latch was set and stays so
    rw [hbefore, hset.2 (Or.inl hbefore)] at hcount
    have hnone : told.countP isDepthWarning = 0 :=
      Nat.add_right_cancel (hcount.trans (Nat.zero_add _).symm)
    simp [hnone]
  | false =>
    rw [hbefore, Bool.toNat_false, Nat.add_zero] at hcount
    rw [hcount, Bool.toNat_eq_one, hset, hbefore]
    exact ⟨Bool.toNat_le _, by simp⟩

/-- A file with one group. -/
def oneGroup : Bytes × Bytes :=
  (ascii "main.c", ascii "#ifdef A\n#endif\n")

/-- A run on the file opens its group with the first line. -/
theorem oneGroup_crowds {h : Host} {s : State}
    (hopened : ((Config.load s oneGroup.1 oneGroup.2).step h).map
      (·.out.state.branches.depth) = some 1)
    (hcrowds : Crowds s.branches.max 1) : s.CrowdsIn h oneGroup := by
  obtain ⟨c', hstep, hdepth⟩ := Option.map_eq_some_iff.1 hopened
  have hfirst : (Source.logicalLines oneGroup.2).head?.map (fun l => (l.directive, l.text)) =
      some (true, ascii "#ifdef A") := by decide +kernel
  obtain ⟨l, hhead, hline⟩ := Option.map_eq_some_iff.1 hfirst
  obtain ⟨hdirective, htext⟩ := Prod.mk.inj hline
  obtain ⟨rest, hlines⟩ := List.head?_eq_some_iff.1 hhead
  have hcut : Lexer.mergeSpaces (Lexer.lexemes (ascii "#ifdef A")) = Macro.signLexeme .hash ::
      (.ident, Keyword.ifdef.name) :: [(.space, ascii " "), (.ident, ascii "A")] := by
    decide +kernel
  obtain ⟨name, cursor, ha, -⟩ := announces_of_lexemes .ifdef hcut
    (((Config.load s oneGroup.1 oneGroup.2).out.state.track l).linePosition l)
  have hopening : (Config.load s oneGroup.1 oneGroup.2).AtOpening :=
    ⟨_, [], l, rest, .ifdef, name, cursor, rfl, rfl, hlines, hdirective, rfl, htext ▸ ha⟩
  exact ⟨_, c', .refl, ⟨hstep, hopening, hdepth⟩, by rw [hdepth]; exact hcrowds⟩

theorem nesting_warned_once_oneGroup :
    let s := oneGroupHost.start.1
    let t := s.afterRuns oneGroupHost [oneGroup]
    s.CrowdsIn oneGroupHost oneGroup ∧ t.CrowdsIn oneGroupHost oneGroup ∧
    (∃ told, (s.run oneGroupHost oneGroup.1 oneGroup.2).1.state.reporter.delivered =
        s.reporter.delivered ++ told ∧ told.countP isDepthWarning = 1) ∧
    ∃ told, (t.run oneGroupHost oneGroup.1 oneGroup.2).1.state.reporter.delivered =
        t.reporter.delivered ++ told ∧ told.countP isDepthWarning = 0 := by
  intro s t
  have hfirst : s.CrowdsIn oneGroupHost oneGroup :=
    oneGroup_crowds (by decide +kernel) (by decide +kernel)
  have hsecond : t.CrowdsIn oneGroupHost oneGroup :=
    oneGroup_crowds (by decide +kernel) (by decide +kernel)
  have hlimits : s.reporter.enabled .limits = true := by decide +kernel
  have hmax : 0 < s.branches.max := by decide +kernel
  obtain ⟨⟨told, hdelivered, -, hcount⟩, -⟩ :=
    nesting_warned_once oneGroupHost s hlimits hmax [] oneGroup
  rw [afterRuns_nil] at hdelivered hcount
  obtain ⟨⟨told', hdelivered', hle, hcount'⟩, -⟩ :=
    nesting_warned_once oneGroupHost s hlimits hmax [oneGroup] oneGroup
  have hone : told.countP isDepthWarning = 1 := by
    refine hcount.2 ⟨hfirst, by decide +kernel, ?_⟩
    rintro ⟨before, run, after, hsplit, -⟩
    exact absurd hsplit (by simp)
  have hnone : told'.countP isDepthWarning = 0 := by
    have hbefore : s.CrowdsBefore oneGroupHost [oneGroup] := ⟨[], oneGroup, [], rfl, hfirst⟩
    have hnot : told'.countP isDepthWarning ≠ 1 := fun hagain => (hcount'.1 hagain).2.2 hbefore
    omega
  exact ⟨hfirst, hsecond, ⟨told, hdelivered, hone⟩, told', hdelivered', hnone⟩

end Preproc.Engine
