import Preproc.Proofs.Engine.Effect

set_option autoImplicit false

/-! # What a run tells and counts

Every report goes through the reporter, which counts what it delivers. A fatal failure is delivered
by the directive that raises it and passed on, marked as reported, through every file and include
directive around it. So the result of a run counts exactly what was delivered during the run, and a
fatal diagnostic is delivered once, as the last one (`run_accounts`). -/

namespace Preproc.Engine

/-! ## Reporters -/

/-- Whether a diagnostic counts as an error; a fatal one does. -/
def countsAsError (d : Diagnostic) : Bool :=
  d.severity = .error ∨ d.severity = .fatal

/-- Whether a diagnostic counts as a warning. -/
def countsAsWarning (d : Diagnostic) : Bool :=
  d.severity = .warning

/-- Whether a warning belongs to a single class that the mask asks for. -/
def Wanted (mask : WarningSet) (d : Diagnostic) : Prop :=
  d.classes ∈ WarningSet.classes.map Prod.snd ∧ mask.meets d.classes = true

/-- The reporter `r'` is `r` after it has delivered and counted `told`. -/
structure Delivers (r : Reporter) (told : List Diagnostic) (r' : Reporter) : Prop where
  mask : r'.mask = r.mask
  delivered : r'.delivered = r.delivered ++ told
  errors : r'.errors = r.errors + told.countP countsAsError
  warnings : r'.warnings = r.warnings + told.countP countsAsWarning
  wanted : ∀ d ∈ told, d.severity = .warning → Wanted r.mask d

theorem Delivers.nil (r : Reporter) : Delivers r [] r :=
  ⟨rfl, (List.append_nil _).symm, rfl, rfl, by simp⟩

theorem Delivers.append {r r' r'' : Reporter} {told told' : List Diagnostic}
    (h : Delivers r told r') (h' : Delivers r' told' r'') : Delivers r (told ++ told') r'' where
  mask := h'.mask.trans h.mask
  delivered := by rw [h'.delivered, h.delivered, List.append_assoc]
  errors := by rw [h'.errors, h.errors, List.countP_append, Nat.add_assoc]
  warnings := by rw [h'.warnings, h.warnings, List.countP_append, Nat.add_assoc]
  wanted d hd := by
    rcases List.mem_append.1 hd with hd | hd
    · exact h.wanted d hd
    · rw [← h.mask]
      exact h'.wanted d hd

/-- Reports after which the run goes on: none of them is fatal. -/
def Recovers (r r' : Reporter) : Prop :=
  ∃ told, Delivers r told r' ∧ ∀ d ∈ told, d.severity ≠ .fatal

/-- Reports that end the run: the last one is fatal, and no other is. -/
def Ends (r r' : Reporter) : Prop :=
  ∃ told last, Delivers r (told ++ [last]) r' ∧ last.severity = .fatal ∧
    ∀ d ∈ told, d.severity ≠ .fatal

theorem Recovers.refl (r : Reporter) : Recovers r r :=
  ⟨[], .nil r, by simp⟩

theorem Recovers.trans {r r' r'' : Reporter} (h : Recovers r r') (h' : Recovers r' r'') :
    Recovers r r'' := by
  obtain ⟨told, hdelivers, hmild⟩ := h
  obtain ⟨told', hdelivers', hmild'⟩ := h'
  exact ⟨told ++ told', hdelivers.append hdelivers',
    fun d hd => (List.mem_append.1 hd).elim (hmild d) (hmild' d)⟩

theorem Recovers.ends {r r' r'' : Reporter} (h : Recovers r r') (h' : Ends r' r'') :
    Ends r r'' := by
  obtain ⟨told, hdelivers, hmild⟩ := h
  obtain ⟨told', last, hdelivers', hlast, hmild'⟩ := h'
  refine ⟨told ++ told', last, ?_, hlast,
    fun d hd => (List.mem_append.1 hd).elim (hmild d) (hmild' d)⟩
  rw [List.append_assoc]
  exact hdelivers.append hdelivers'

theorem recovers_error (r : Reporter) (pos : Position) (message : Bytes) :
    Recovers r (r.error pos message) :=
  ⟨[⟨pos, .error, .none, message⟩], ⟨rfl, rfl, rfl, rfl, by simp⟩, by simp⟩

theorem recovers_warn (r : Reporter) {classes : WarningSet}
    (hclass : classes ∈ WarningSet.classes.map Prod.snd) (pos : Position) (message : Bytes) :
    Recovers r (r.warn classes pos message) := by
  unfold Reporter.warn
  split
  · next henabled =>
    refine ⟨[⟨pos, .warning, classes, message⟩], ⟨rfl, rfl, rfl, rfl, ?_⟩, by simp⟩
    intro d hd _
    rw [List.mem_singleton.1 hd]
    exact ⟨hclass, henabled⟩
  · exact .refl r

theorem ends_fatal (r : Reporter) {f : Fatal} (hf : f.reported = false) :
    Ends r (r.fatal f) := by
  refine ⟨[], ⟨f.pos, .fatal, .none, f.message⟩, ?_, rfl, by simp⟩
  simp only [Reporter.fatal, hf, Bool.false_eq_true, if_false]
  exact ⟨rfl, rfl, rfl, rfl, by simp⟩

/-! ## Reports on a state -/

namespace Recovers

theorem complain (s : State) (pos : Position) (c : Complaint) :
    Recovers s.reporter (s.complain pos c).reporter :=
  recovers_error _ _ _

theorem refuse (s : State) (e : Located Macro.Refusal) :
    Recovers s.reporter (s.refuse e).reporter :=
  recovers_error _ _ _

theorem caution (s : State) (pos : Position) (c : Caution) :
    Recovers s.reporter (s.caution pos c).reporter :=
  recovers_warn _ (by cases c <;> simp [Caution.classes, WarningSet.classes]) _ _

theorem notice (s : State) (pos : Position) (n : Option Macro.Notice) :
    Recovers s.reporter (s.notice pos n).reporter := by
  cases n with
  | none => exact refl _
  | some n =>
    exact recovers_warn _ (by cases n <;> simp [Macro.Notice.classes, WarningSet.classes]) _ _

theorem ceiling (s : State) (c : Option Macro.Ceiling) :
    Recovers s.reporter (s.ceiling c).reporter := by
  cases c with
  | none => exact refl _
  | some c => exact caution s _ _

theorem checkTrailing (h : Host) (s : State) (c : Cursor) (kw : Keyword) :
    Recovers s.reporter (s.checkTrailing h c kw).reporter := by
  unfold State.checkTrailing
  split
  · exact refl _
  · split
    · exact complain s _ _
    · exact caution s _ _

theorem checkLineRest (h : Host) (s : State) (name : Bytes) (c : Cursor) :
    Recovers s.reporter (s.checkLineRest h name c).reporter := by
  unfold State.checkLineRest
  split
  · split
    · exact caution s _ _
    · exact refl _
  · exact checkTrailing h s c .line

theorem checkDepth (s : State) (pos : Position) :
    Recovers s.reporter (s.checkDepth pos).reporter := by
  unfold State.checkDepth
  dsimp only
  split
  · exact refl _
  · exact caution { s with depthWarned := true } _ _

theorem test (s : State) (pos : Position) (directive : Keyword) (toks : List Token) :
    Recovers s.reporter (s.test pos directive toks).1.reporter := by
  unfold State.test
  split
  · exact complain s _ _
  · split
    · exact complain s _ _
    · dsimp only
      split
      · exact complain { s with evaluations := _ } _ _
      · exact refl _

theorem testDefined (h : Host) (s : State) (kw : Keyword) (c : Cursor) :
    Recovers s.reporter (s.testDefined h kw c).1.reporter := by
  unfold State.testDefined
  dsimp only
  split
  · exact refuse s _
  · exact checkTrailing h s _ _

theorem define (h : Host) (s : State) (c : Cursor) :
    Recovers s.reporter (s.define h c).1.reporter := by
  unfold State.define
  split
  · exact refl _
  · next p _ =>
    have hparsed := notice s p.definition.definedAt p.notice
    dsimp only
    split
    · exact hparsed
    · next r _ =>
      have hdefined := notice (s.notice p.definition.definedAt p.notice) p.definition.definedAt
        r.notice
      refine Recovers.trans ?_ (ceiling _ r.ceiling)
      exact hparsed.trans hdefined

theorem closeGroups (s : State) : Recovers s.reporter s.closeGroups.reporter := by
  obtain ⟨t, ht, hclosed⟩ := closeGroups_complains (refl s.reporter)
    fun t pos (ht : Recovers s.reporter t.reporter) => ht.trans (complain t pos _)
  rw [hclosed]
  exact ht

end Recovers

/-! ## Failures -/

/-- Whether a failure is a fatal one that was reported. -/
def isTold (failure : Failure) : Bool :=
  match failure.root with
  | .fatal f => f.reported
  | _ => false

/-- Marking a failure as reported does so for a fatal one. -/
theorem isTold_markReported (failure : Failure) :
    isTold failure.markReported = failure.isFatal := by
  induction failure with
  | plain | recoverable | fatal => rfl
  | wrapped label inner ih => exact ih

/-- A directive or a file after which the run goes on, or which ends it with a fatal failure that
    was reported last. -/
def Told (r : Reporter) (out : Outcome) : Prop :=
  (out.failure = none ∧ Recovers r out.state.reporter) ∨
    ∃ failure, out.failure = some failure ∧ isTold failure = true ∧ Ends r out.state.reporter

theorem Told.delivers {r : Reporter} {out : Outcome} (h : Told r out) :
    ∃ told, Delivers r told out.state.reporter := by
  rcases h with ⟨-, told, hdelivers, -⟩ | ⟨failure, -, -, told, last, hdelivers, -⟩
  · exact ⟨told, hdelivers⟩
  · exact ⟨told ++ [last], hdelivers⟩

/-- A directive before its failure is reported: it may also end with a failure that has still to be
    told. -/
def Raises (r : Reporter) (out : Outcome) : Prop :=
  Told r out ∨
    ∃ failure, out.failure = some failure ∧ isTold failure = false ∧
      Recovers r out.state.reporter

theorem Told.after {r r' : Reporter} {out : Outcome} (h : Recovers r r') (hout : Told r' out) :
    Told r out := by
  rcases hout with ⟨hnone, hmore⟩ | ⟨failure, hsome, htold, hmore⟩
  · exact Or.inl ⟨hnone, h.trans hmore⟩
  · exact Or.inr ⟨failure, hsome, htold, h.ends hmore⟩

theorem Told.of_state {r : Reporter} {s : State} (h : Recovers r s.reporter) :
    Told r { state := s } :=
  Or.inl ⟨rfl, h⟩

theorem Raises.of_state {r : Reporter} {s : State} (h : Recovers r s.reporter) :
    Raises r { state := s } :=
  Or.inl (.of_state h)

/-- A complaint is never fatal. -/
theorem Raises.of_complaint {r : Reporter} {s : State} (h : Recovers r s.reporter)
    (e : Located Complaint) : Raises r { state := s, failure := some (complaintFailure e) } :=
  Or.inr ⟨_, rfl, rfl, h⟩

/-- The refusal of a definition is never fatal. -/
theorem Raises.of_refusal {r : Reporter} {s : State} (h : Recovers r s.reporter)
    (e : Located Macro.Refusal) : Raises r { state := s, failure := some (refusalFailure e) } :=
  Or.inr ⟨_, rfl, rfl, h⟩

/-- A refusal of the groups may be fatal, and is then still to be told. -/
theorem Raises.of_branches {r : Reporter} {s : State} (h : Recovers r s.reporter)
    (why : Branch.Refusal) (pos : Position) :
    Raises r { state := s, failure := some (why.failure pos) } :=
  Or.inr ⟨_, rfl, by cases why <;> rfl, h⟩

/-- A failure that was told is fatal. -/
theorem isFatal_of_isTold {failure : Failure} (htold : isTold failure = true) :
    failure.isFatal = true := by
  unfold isTold at htold
  unfold Failure.isFatal
  cases hroot : failure.root <;> simp [hroot] at htold ⊢

/-- Reporting a failure that was told already says nothing. -/
theorem report_told (r : Reporter) (pos : Position) {failure : Failure}
    (htold : isTold failure = true) : (r.report pos failure).1 = r := by
  unfold isTold at htold
  unfold Reporter.report
  cases hroot : failure.root <;> simp [hroot, Reporter.fatal] at htold ⊢
  exact fun h => absurd htold (by simp [h])

/-- Reporting a failure that has still to be told tells it, and a fatal one ends the run. -/
theorem report_untold (r : Reporter) (pos : Position) {failure : Failure}
    (huntold : isTold failure = false) :
    if failure.isFatal then Ends r (r.report pos failure).1
    else Recovers r (r.report pos failure).1 := by
  unfold isTold at huntold
  unfold Reporter.report Failure.isFatal
  cases hroot : failure.root with
  | fatal f =>
    rw [hroot] at huntold
    exact ends_fatal r huntold
  | plain message => exact recovers_error r pos _
  | recoverable place message => exact recovers_error r place _
  | wrapped label inner => exact recovers_error r pos _

theorem reported_of_some {out : Outcome} {failure : Failure} (h : out.failure = some failure)
    (pos : Position) :
    (out.reported pos).state.reporter = (out.state.reporter.report pos failure).1 ∧
      (out.reported pos).failure =
        if failure.isFatal then some failure.markReported else none := by
  rw [← report_failure out.state.reporter pos failure]
  simp only [Outcome.reported, h, and_self]

theorem Raises.reported {r : Reporter} {out : Outcome} (hout : Raises r out) (pos : Position) :
    Told r (out.reported pos) := by
  rcases hout with (⟨hnone, hmore⟩ | ⟨failure, hsome, htold, hmore⟩) |
    ⟨failure, hsome, huntold, hmore⟩
  · have hsame : out.reported pos = out := by simp only [Outcome.reported, hnone]
    rw [hsame]
    exact Or.inl ⟨hnone, hmore⟩
  · obtain ⟨hreporter, hpassed⟩ := reported_of_some hsome pos
    have hfatal := isFatal_of_isTold htold
    refine Or.inr ⟨_, hpassed.trans (if_pos hfatal),
      (isTold_markReported failure).trans hfatal, ?_⟩
    rw [hreporter, report_told _ pos htold]
    exact hmore
  · obtain ⟨hreporter, hpassed⟩ := reported_of_some hsome pos
    have hreport := report_untold out.state.reporter pos huntold
    rw [← hreporter] at hreport
    split at hreport
    · next hfatal =>
      exact Or.inr ⟨_, hpassed.trans (if_pos hfatal),
        (isTold_markReported failure).trans hfatal, hmore.ends hreport⟩
    · next hmild => exact Or.inl ⟨hpassed.trans (if_neg hmild), hmore.trans hreport⟩

/-! ## Directives -/

theorem branch_raises {s : State} {test : State → State × Bool}
    (htest : ∀ s, Recovers s.reporter (test s).1.reporter) (pos : Position) (step : Branch.Step) :
    Raises s.reporter (s.branch pos step test) := by
  cases step with
  | refused why => exact .of_branches (.refl _) why pos
  | settled branches => exact .of_state (.refl _)
  | asks resume => exact .of_state (htest s)

/-- An opened group, after which the depth is checked. A group that is refused was not reported
    yet. -/
theorem enter_raises {s : State} {test : State → State × Bool}
    (htest : ∀ s, Recovers s.reporter (test s).1.reporter) (pos : Position) (step : Branch.Step) :
    Raises s.reporter { s.branch pos step test with
      state := (s.branch pos step test).state.checkDepth pos } := by
  have hdepth := Recovers.checkDepth (s.branch pos step test).state pos
  cases step with
  | refused why => exact .of_branches hdepth why pos
  | settled branches => exact .of_state hdepth
  | asks resume => exact .of_state ((htest s).trans hdepth)

theorem close_raises (h : Host) (s : State) (pos : Position) (kw : Keyword) (c : Cursor)
    (result : Except Branch.Refusal Branch.Stack) :
    Raises s.reporter (s.close h pos kw c result) := by
  cases result with
  | error why => exact .of_branches (.refl _) why pos
  | ok branches =>
    refine .of_state ?_
    split
    · exact .checkTrailing h { s with branches } c kw
    · exact .refl _

theorem defineDirective_raises (h : Host) (s : State) (c : Cursor) :
    Raises s.reporter (s.defineDirective h c) := by
  have hdefine := Recovers.define h s c
  unfold State.defineDirective
  split
  · next hresult => exact .of_state (by rwa [hresult] at hdefine)
  · next hresult => exact .of_refusal (by rwa [hresult] at hdefine) _

theorem undefDirective_raises (h : Host) (s : State) (c : Cursor) :
    Raises s.reporter (s.undefDirective h c) := by
  unfold State.undefDirective
  dsimp only
  split
  · exact .of_refusal (.refl _) _
  · split
    · exact .of_complaint (.refl _) _
    · exact .of_state (.checkTrailing h
        { s with table := (s.table.undefine? c.nextNonSpace.1.text).getD s.table } _ _)

theorem lineDirective_raises (h : Host) (s : State) (name : Bytes) (pos : Position) (c : Cursor) :
    Raises s.reporter (s.lineDirective h name pos c) := by
  rw [lineDirective_eq]
  cases lineOperands name c with
  | error e => exact .of_complaint (.refl _) e
  | ok asked =>
    obtain ⟨n, file, rest⟩ := asked
    -- what is left on the line is reported whether or not a file is open
    have hreports := Recovers.checkLineRest h s name rest
    dsimp only
    split
    · exact .of_complaint hreports _
    · exact .of_state hreports

/-- Included files report as files do. -/
def NestedTold (nested : Option Nested) : Prop :=
  ∀ process, nested = some process → ∀ s path contents,
    Told s.reporter (process s path contents)

theorem include_raises {nested : Option Nested} (hnested : NestedTold nested) (h : Host)
    (find : Includer) (s : State) (pos : Position) (c : Cursor) :
    Raises s.reporter (s.include h nested find pos c) := by
  have hout := include_outcome h nested find s pos c
  generalize s.include h nested find pos c = out at hout ⊢
  cases hout with
  | unnamed | tooDeep | notFound => exact .of_complaint (.refl _) _
  | opened _ hsome => exact Or.inl (hnested _ hsome _ _ _)

theorem external_raises {nested : Option Nested} (hnested : NestedTold nested) (h : Host)
    (s : State) (kw : Option Keyword) (name : Bytes) (pos : Position) (c : Cursor) :
    Raises s.reporter (s.external h nested kw name pos c) := by
  have hout := external_outcome h nested s kw name pos c
  generalize s.external h nested kw name pos c = out at hout ⊢
  cases hout with
  | included => exact include_raises hnested h _ s pos c
  | renumbered => exact lineDirective_raises h s name pos c
  | ignored => exact .of_state (.refl _)
  | warned => exact .of_state (.caution s _ _)
  | failed => exact .of_complaint (.refl _) _

theorem dispatch_raises {nested : Option Nested} (hnested : NestedTold nested) (h : Host)
    (s : State) (kw : Option Keyword) (name : Token) (c : Cursor) :
    Raises s.reporter (s.dispatch h nested kw name c) := by
  unfold State.dispatch
  dsimp only
  split
  · exact enter_raises (fun s => .test s _ _ _) _ _
  · exact enter_raises (fun s => .testDefined h s _ _) _ _
  · exact enter_raises (fun s => .testDefined h s _ _) _ _
  · exact branch_raises (fun s => .test s _ _ _) _ _
  · exact close_raises h s _ _ _ _
  · exact close_raises h s _ _ _ _
  · exact defineDirective_raises h s c
  · exact undefDirective_raises h s c
  · exact external_raises hnested h s _ _ _ _

theorem Raises.noteSwitch {r : Reporter} {out : Outcome} (hout : Raises r out)
    (wasCompiling : Bool) : Raises r (out.noteSwitch wasCompiling) := by
  obtain ⟨resync, hnote⟩ := noteSwitch_effect out wasCompiling
  rw [hnote]
  exact hout

/-- **One directive**: whatever it reports, its failure is told before it is passed on. -/
theorem directiveWith_told {nested : Option Nested} (hnested : NestedTold nested) (h : Host)
    (s : State) (pos : Position) (line : Bytes) :
    Told s.reporter (s.directiveWith h nested pos line) := by
  have hout := directiveWith_outcome h nested s pos line
  generalize s.directiveWith h nested pos line = out at hout ⊢
  cases hout with
  | unsigned | invalid => exact .of_state (.complain s _ _)
  | ignored => exact .of_state (.refl _)
  | named => exact ((dispatch_raises hnested h s _ _ _).noteSwitch s.compiling).reported _
  | numbered => exact (external_raises hnested h s _ _ _ _).reported _
  | skipped => exact .of_state (.caution s _ _)

/-! ## Files -/

theorem processLines_told {nested : Option Nested} (hnested : NestedTold nested) (h : Host)
    (lines : List Source.LogicalLine) (place : OutputPlace) (s : State) :
    Told s.reporter (s.processLines h nested place lines) := by
  have hline (s : State) (l : Source.LogicalLine) : Told s.reporter (s.directiveLine h nested l) :=
    directiveWith_told hnested h (s.track l) _ l.text
  refine processLines_induct (Q := fun s failure t => Told s.reporter { state := t, failure })
    (fun s => .of_state (.closeGroups s)) (fun s l failure t hmore => hmore) ?_ ?_ place s
  · intro s l _ _ failure hfailure
    rw [← hfailure]
    exact hline s l
  · intro s l _ _ hfailure failure t hmore
    exact hmore.after ((hline s l).resolve_right (by simp [hfailure])).2

theorem processFile_told {nested : Option Nested} (hnested : NestedTold nested) (h : Host)
    (s : State) (name contents : Bytes) :
    Told s.reporter (s.processFile h nested name contents) :=
  processLines_told hnested h (Source.logicalLines contents) {} (s.openFile name)

/-- A fatal failure passes through included files at any depth. -/
theorem nestedProcess_told (h : Host) (levels : Nat) : NestedTold (nestedProcess h levels) :=
  nestedProcess_induct (fun _ hnested => processFile_told hnested h) levels

/-! ## Runs -/

/-- The result of a run accounts for what the run told, under a mask of wanted warnings. -/
structure Accounts (mask : WarningSet) (told : List Diagnostic) (result : Result) : Prop where
  errors : result.errors = told.countP countsAsError
  warnings : result.warnings = told.countP countsAsWarning
  /-- Every warning is of one class, and that class is wanted. -/
  wanted : ∀ d ∈ told, d.severity = .warning → Wanted mask d
  /-- The run ends early exactly when something fatal was told. -/
  aborted : result.aborted = true ↔ ∃ d ∈ told, d.severity = .fatal
  once : result.aborted = true → told.countP (fun d => d.severity = .fatal) = 1
  last : result.aborted = true → ∃ d ∈ told.getLast?, d.severity = .fatal

/-- A run that goes on to the end of its file. -/
theorem Accounts.of_recovers {mask : WarningSet} {told : List Diagnostic} {errors warnings : Nat}
    (herrors : errors = told.countP countsAsError)
    (hwarnings : warnings = told.countP countsAsWarning)
    (hwanted : ∀ d ∈ told, d.severity = .warning → Wanted mask d)
    (hmild : ∀ d ∈ told, d.severity ≠ .fatal) : Accounts mask told ⟨errors, warnings, false⟩ where
  errors := herrors
  warnings := hwarnings
  wanted := hwanted
  aborted := by simpa using hmild
  once := by simp
  last := by simp

/-- A run that a fatal diagnostic ends. -/
theorem Accounts.of_ends {mask : WarningSet} {told : List Diagnostic} {d : Diagnostic}
    {errors warnings : Nat} (herrors : errors = (told ++ [d]).countP countsAsError)
    (hwarnings : warnings = (told ++ [d]).countP countsAsWarning)
    (hwanted : ∀ e ∈ told ++ [d], e.severity = .warning → Wanted mask e)
    (hfatal : d.severity = .fatal) (hmild : ∀ e ∈ told, e.severity ≠ .fatal) :
    Accounts mask (told ++ [d]) ⟨errors, warnings, true⟩ where
  errors := herrors
  warnings := hwarnings
  wanted := hwanted
  aborted := ⟨fun _ => ⟨d, by simp, hfatal⟩, fun _ => rfl⟩
  once _ := by
    have hnone : told.countP (fun e => e.severity = .fatal) = 0 :=
      List.countP_eq_zero.2 (by simpa using hmild)
    rw [List.countP_append, hnone]
    simp [hfatal]
  last _ := ⟨d, by simp, hfatal⟩

theorem process_told (h : Host) (s : State) (name contents : Bytes) :
    Told s.reporter (s.process h name contents) :=
  processFile_told (nestedProcess_told h _) h s name contents

/-- **A run accounts for its diagnostics**: its result counts exactly what it delivered, no
    delivered warning is of a class that is not wanted, and it ends early exactly when a fatal
    diagnostic was delivered, which is then the only one and the last. No directive passes on a
    failure that is not fatal. -/
theorem run_accounts (h : Host) (s : State) (name contents : Bytes) :
    (∃ told, (s.run h name contents).1.state.reporter.delivered = s.reporter.delivered ++ told ∧
      Accounts s.reporter.mask told (s.run h name contents).2) ∧
    ∀ (nested : Option Nested) (t : State) (pos : Position) (line : Bytes),
      (t.directiveWith h nested pos line).failure.all Failure.isFatal = true := by
  refine ⟨?_, fun nested t pos line => ?_⟩
  · have hstart := process_told h
      { s with branches := s.branches.reset, files := [], resync := false } name contents
    unfold State.run
    dsimp only
    rcases hstart with ⟨hnone, told, hdelivers, hmild⟩ |
      ⟨failure, hsome, -, told, last, hdelivers, hlast, hmild⟩
    · rw [hnone, hdelivers.errors, hdelivers.warnings]
      exact ⟨told, hdelivers.delivered,
        .of_recovers (Nat.add_sub_cancel_left ..) (Nat.add_sub_cancel_left ..) hdelivers.wanted
          hmild⟩
    · rw [hsome, hdelivers.errors, hdelivers.warnings]
      exact ⟨told ++ [last], hdelivers.delivered,
        .of_ends (Nat.add_sub_cancel_left ..) (Nat.add_sub_cancel_left ..) hdelivers.wanted hlast
          hmild⟩
  · have hsettled := (directiveWith_effect h nested t pos line).fatal
    cases hfailure : (t.directiveWith h nested pos line).failure with
    | none => rfl
    | some failure =>
      rw [Outcome.isFatal, hfailure] at hsettled
      exact hsettled.symm

end Preproc.Engine
