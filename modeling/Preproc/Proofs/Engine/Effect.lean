import Preproc.Proofs.Branch.Ownership
import Preproc.Proofs.Engine.Outcomes
import Preproc.Proofs.Macro.Buckets

set_option autoImplicit false

/-! # What a directive does

One statement for each function that handles a directive, saying what it does to the state apart
from what it reports. `directiveWith_effect` puts them together: a directive either stays in its
file and makes at most one move in the conditional groups, or it is an include directive and leaves
what the included file leaves. -/

namespace Preproc.Engine

/-! ## Reports -/

/-- The state `s'` is `s` after some reports. -/
def Reported (s s' : State) : Prop :=
  s' = { s with reporter := s'.reporter, depthWarned := s'.depthWarned }

namespace Reported

variable {s s' s'' : State}

theorem refl (s : State) : Reported s s := rfl

theorem trans (h : Reported s s') (h' : Reported s' s'') : Reported s s'' := by
  unfold Reported at *
  rw [h', h]

theorem table (h : Reported s s') : s'.table = s.table := by rw [h]

theorem branches (h : Reported s s') : s'.branches = s.branches := by rw [h]

theorem tracker (h : Reported s s') : s'.tracker = s.tracker := by rw [h]

theorem files (h : Reported s s') : s'.files = s.files := by rw [h]

theorem output (h : Reported s s') : s'.output = s.output := by rw [h]

theorem opened (h : Reported s s') : s'.opened = s.opened := by rw [h]

theorem requests (h : Reported s s') : s'.requests = s.requests := by rw [h]

theorem evaluations (h : Reported s s') : s'.evaluations = s.evaluations := by rw [h]

theorem complain (s : State) (pos : Position) (c : Complaint) : Reported s (s.complain pos c) := rfl

theorem caution (s : State) (pos : Position) (c : Caution) : Reported s (s.caution pos c) := rfl

theorem refuse (s : State) (e : Located Macro.Refusal) : Reported s (s.refuse e) := rfl

theorem notice (s : State) (pos : Position) (n : Option Macro.Notice) :
    Reported s (s.notice pos n) := by
  cases n <;> rfl

theorem ceiling (s : State) (c : Option Macro.Ceiling) : Reported s (s.ceiling c) := by
  cases c <;> rfl

theorem checkTrailing (h : Host) (s : State) (c : Cursor) (kw : Keyword) :
    Reported s (s.checkTrailing h c kw) := by
  unfold State.checkTrailing
  split
  · exact refl s
  · split
    · exact complain s _ _
    · exact caution s _ _

theorem checkDepth (s : State) (pos : Position) : Reported s (s.checkDepth pos) := by
  unfold State.checkDepth
  dsimp only
  split
  · exact refl s
  · rfl

end Reported

/-! ## Tests -/

/-- What comes of the condition of `#if` or `#elif`: the evaluation that is made, if it comes to
    one, and whether the condition is true. A broken condition is false. -/
def conditionOutcome (table : Macro.Table) (toks : List Token) : List Evaluation × Bool :=
  if toks.isEmpty then ([], false)
  else match resolveCondition table toks with
    | .error _ => ([], false)
    | .ok resolved =>
      let text := Token.textOf resolved
      match Condition.evaluate text with
      | .error e => ([⟨text, .error e⟩], false)
      | .ok value => ([⟨text, .ok value⟩], value != 0)

theorem test_effect (s : State) (pos : Position) (directive : Keyword) (toks : List Token) :
    Reported { s with evaluations := s.evaluations ++ (conditionOutcome s.table toks).1 }
        (s.test pos directive toks).1 ∧
      (s.test pos directive toks).2 = (conditionOutcome s.table toks).2 := by
  have hbroken : ∀ c at', Reported { s with evaluations := s.evaluations ++ [] }
      (s.complain at' c) := by
    intro c at'
    rw [List.append_nil]
    exact Reported.complain s at' c
  unfold State.test conditionOutcome
  split
  · exact ⟨hbroken _ _, rfl⟩
  · cases resolveCondition s.table toks with
    | error e => exact ⟨hbroken _ _, rfl⟩
    | ok resolved =>
      dsimp only
      cases Condition.evaluate (Token.textOf resolved) with
      | error e => exact ⟨Reported.complain _ _ _, rfl⟩
      | ok value => exact ⟨Reported.refl _, rfl⟩

/-- Whether `#ifdef` (or, for any other keyword, `#ifndef`) takes its branch. -/
def definedOutcome (table : Macro.Table) (kw : Keyword) (c : Cursor) : Bool :=
  match Macro.checkName c.nextNonSpace.1 kw.name with
  | .error _ => false
  | .ok () => table.defined c.nextNonSpace.1.text == (kw == .ifdef)

theorem testDefined_effect (h : Host) (s : State) (kw : Keyword) (c : Cursor) :
    Reported s (s.testDefined h kw c).1 ∧
      (s.testDefined h kw c).2 = definedOutcome s.table kw c := by
  unfold State.testDefined definedOutcome
  dsimp only
  cases Macro.checkName c.nextNonSpace.1 kw.name with
  | error e => exact ⟨Reported.refuse s e, rfl⟩
  | ok => exact ⟨Reported.checkTrailing h s _ _, rfl⟩

/-! ## Definitions -/

/-- The table after `#define` with the operands at `c`. -/
def tableAfterDefine (limits : Macro.Limits) (table : Macro.Table) (c : Cursor) : Macro.Table :=
  match Macro.parse limits c with
  | .error _ => table
  | .ok p =>
    match Macro.define table p.definition with
    | .error _ => table
    | .ok r => r.table

theorem define_effect (h : Host) (s : State) (c : Cursor) :
    Reported { s with table := tableAfterDefine h.limits s.table c } (s.define h c).1 := by
  unfold State.define tableAfterDefine
  cases Macro.parse h.limits c with
  | error e => exact Reported.refl s
  | ok p =>
    have hnotice := Reported.notice s p.definition.definedAt p.notice
    dsimp only
    rw [hnotice.table]
    cases Macro.define s.table p.definition with
    | error e => exact hnotice
    | ok r =>
      have hagain := Reported.notice (s.notice p.definition.definedAt p.notice)
        p.definition.definedAt r.notice
      have hboth := hnotice.trans hagain
      refine Reported.trans ?_ (Reported.ceiling _ r.ceiling)
      unfold Reported at hboth ⊢
      rw [hboth]

theorem defineDirective_effect (h : Host) (s : State) (c : Cursor) :
    Reported { s with table := tableAfterDefine h.limits s.table c } (s.defineDirective h c).state ∧
      (s.defineDirective h c).written = [] := by
  have heffect := define_effect h s c
  unfold State.defineDirective
  cases hdefine : s.define h c with
  | mk s' result =>
    rw [hdefine] at heffect
    cases result <;> exact ⟨heffect, rfl⟩

/-- The table after `#undef` with the operand at `c`. -/
def tableAfterUndef (table : Macro.Table) (c : Cursor) : Macro.Table :=
  match Macro.checkName c.nextNonSpace.1 Keyword.undef.name with
  | .error _ => table
  | .ok () => (table.undefine? c.nextNonSpace.1.text).getD table

theorem undefDirective_effect (h : Host) (s : State) (c : Cursor) :
    Reported { s with table := tableAfterUndef s.table c } (s.undefDirective h c).state ∧
      (s.undefDirective h c).written = [] := by
  unfold State.undefDirective tableAfterUndef
  dsimp only
  cases Macro.checkName c.nextNonSpace.1 Keyword.undef.name with
  | error e => exact ⟨Reported.refl s, rfl⟩
  | ok =>
    dsimp only
    split
    · next hlocked =>
      -- a locked macro is kept by the table itself, too
      obtain ⟨d, hd, horigin⟩ := (Option.any_eq_true _ _).1 hlocked
      have hkept : s.table.undefine? c.nextNonSpace.1.text = none := by
        rw [Macro.Table.undefine?_eq, hd]
        simpa using horigin
      rw [hkept]
      exact ⟨Reported.refl s, rfl⟩
    · exact ⟨Reported.checkTrailing h _ _ _, rfl⟩

/-! ## Conditional directives -/

/-- A test that only reports and evaluates. -/
def Harmless (test : State → State × Bool) : Prop :=
  ∀ s, ∃ evaluations, Reported { s with evaluations } (test s).1

theorem harmless_test (pos : Position) (directive : Keyword) (toks : List Token) :
    Harmless (·.test pos directive toks) :=
  fun s => ⟨_, (test_effect s pos directive toks).1⟩

theorem harmless_testDefined (h : Host) (kw : Keyword) (c : Cursor) :
    Harmless (·.testDefined h kw c) :=
  fun s => ⟨_, (testDefined_effect h s kw c).1⟩

/-- A step of the groups changes them, and its test evaluates. -/
theorem branch_reported {s : State} {test : State → State × Bool} (htest : Harmless test)
    (pos : Position) (step : Branch.Step) :
    ∃ branches evaluations,
      Reported { s with branches, evaluations } (s.branch pos step test).state := by
  cases step with
  | refused why => exact ⟨s.branches, s.evaluations, rfl⟩
  | settled branches => exact ⟨branches, s.evaluations, rfl⟩
  | asks resume =>
    obtain ⟨evaluations, hreported⟩ := htest s
    refine ⟨resume (test s).2, evaluations, ?_⟩
    unfold Reported at hreported
    show { (test s).1 with branches := resume (test s).2 } = _
    rw [hreported]
    rfl

theorem close_ok_reported (h : Host) (s : State) (pos : Position) (kw : Keyword) (c : Cursor)
    (branches : Branch.Stack) :
    Reported { s with branches } (s.close h pos kw c (.ok branches)).state := by
  unfold State.close
  dsimp only
  split
  · exact Reported.checkTrailing h _ _ _
  · exact Reported.refl _

theorem close_reported (h : Host) (s : State) (pos : Position) (kw : Keyword) (c : Cursor)
    (result : Except Branch.Refusal Branch.Stack) :
    ∃ branches, Reported { s with branches } (s.close h pos kw c result).state := by
  cases result with
  | error why => exact ⟨s.branches, rfl⟩
  | ok branches => exact ⟨branches, close_ok_reported h s pos kw c branches⟩

/-! ## The place of a state -/

/-- The state `s'` stands where `s` stands: the same files are open, and text goes to the same
    output. -/
structure SamePlace (s s' : State) : Prop where
  files : s'.files = s.files
  output : s'.output = s.output
  opened : s'.opened = s.opened

theorem Reported.samePlace {s s' : State} (h : Reported s s') : SamePlace s s' :=
  ⟨h.files, h.output, h.opened⟩

/-- The line numbers of a file after a directive: the same, or those that a line directive sets. -/
inductive Renumbered : Option Tracker → Option Tracker → Prop where
  | same (t : Option Tracker) : Renumbered t t
  | set (t : Tracker) (line : Int) (file : Bytes) :
      Renumbered (some t) (some (t.setLine line file))

/-- A directive that opens no file: it makes at most one move in the groups, and none when it
    fails. It writes nothing, and may set the line numbers. -/
structure StaysInFile (s : State) (out : Outcome) : Prop where
  place : SamePlace s out.state
  moves : Branch.Moves s.fileId s.branches out.state.branches
  failed : ∀ failure, out.failure = some failure → out.state.branches = s.branches
  written : out.written = []
  numbers : Renumbered s.tracker out.state.tracker

/-- A directive that leaves the groups alone. -/
theorem StaysInFile.of_branches {s : State} {out : Outcome} (hplace : SamePlace s out.state)
    (hbranches : out.state.branches = s.branches) (hwritten : out.written = [])
    (hnumbers : Renumbered s.tracker out.state.tracker) : StaysInFile s out where
  place := hplace
  moves := hbranches ▸ .stay
  failed _ _ := hbranches
  written := hwritten
  numbers := hnumbers

theorem StaysInFile.of_reported {s t : State} {out : Outcome} (h : Reported t out.state)
    (hplace : SamePlace s t) (hbranches : t.branches = s.branches)
    (htracker : t.tracker = s.tracker) (hwritten : out.written = []) : StaysInFile s out :=
  .of_branches ⟨h.files.trans hplace.files, h.output.trans hplace.output,
    h.opened.trans hplace.opened⟩ (h.branches.trans hbranches) hwritten
    (by rw [h.tracker, htracker]; exact .same _)

theorem branch_stays {s : State} {pos : Position} {step : Branch.Step}
    {test : State → State × Bool} (htest : Harmless test)
    (hmoves : ∀ stack, step.LeadsTo stack → Branch.Moves s.fileId s.branches stack) :
    StaysInFile s (s.branch pos step test) := by
  cases step with
  | refused why => exact .of_branches ⟨rfl, rfl, rfl⟩ rfl rfl (.same _)
  | settled branches =>
    exact ⟨⟨rfl, rfl, rfl⟩, hmoves branches rfl, fun failure h => by simp [State.branch] at h, rfl,
      .same _⟩
  | asks resume =>
    obtain ⟨evaluations, hreported⟩ := htest s
    have htracker : (test s).1.tracker = s.tracker := hreported.tracker
    exact ⟨⟨hreported.files, hreported.output, hreported.opened⟩, hmoves _ ⟨(test s).2, rfl⟩,
      fun failure h => by simp [State.branch] at h, rfl, htracker ▸ .same _⟩

theorem close_stays {h : Host} {s : State} {pos : Position} {kw : Keyword} {c : Cursor}
    {result : Except Branch.Refusal Branch.Stack}
    (hmoves : ∀ stack, result = .ok stack → Branch.Moves s.fileId s.branches stack) :
    StaysInFile s (s.close h pos kw c result) := by
  cases result with
  | error why => exact .of_branches ⟨rfl, rfl, rfl⟩ rfl rfl (.same _)
  | ok branches =>
    have hreported := close_ok_reported h s pos kw c branches
    refine ⟨⟨hreported.files, hreported.output, hreported.opened⟩, ?_, ?_, rfl, ?_⟩
    · rw [hreported.branches]
      exact hmoves branches rfl
    · intro failure hfailure
      simp [State.close] at hfailure
    · rw [hreported.tracker]
      exact .same _

/-- A report after a directive changes nothing else. -/
theorem StaysInFile.checkDepth {s : State} {out : Outcome} (hs : StaysInFile s out)
    (pos : Position) : StaysInFile s { out with state := out.state.checkDepth pos } := by
  have hreported := Reported.checkDepth out.state pos
  refine ⟨⟨?_, ?_, ?_⟩, ?_, ?_, hs.written, ?_⟩
  · exact hreported.files.trans hs.place.files
  · exact hreported.output.trans hs.place.output
  · exact hreported.opened.trans hs.place.opened
  · rw [hreported.branches]
    exact hs.moves
  · intro failure hfailure
    exact hreported.branches.trans (hs.failed failure hfailure)
  · rw [hreported.tracker]
    exact hs.numbers

/-! ## Other directives -/

/-- Whether a directive or a file ends the run. -/
def Outcome.isFatal (out : Outcome) : Bool :=
  out.failure.any Failure.isFatal

/-- What an include directive leaves when the file that it opens leaves `inner`: all of it, but of
    the failures only a fatal one has to stay. -/
structure Passes (inner out : Outcome) : Prop where
  place : SamePlace inner.state out.state
  branches : out.state.branches = inner.state.branches
  fatal : out.isFatal = inner.isFatal

/-- An include directive that opens a file. -/
def Includes (nested : Option Nested) (s : State) (out : Outcome) : Prop :=
  ∃ process path contents requests, nested = some process ∧
    Passes (process { s with requests } path contents) out

theorem include_effect (h : Host) (nested : Option Nested) (find : Includer) (s : State)
    (pos : Position) (c : Cursor) :
    StaysInFile s (s.include h nested find pos c) ∨
      Includes nested s (s.include h nested find pos c) := by
  have hout := include_outcome h nested find s pos c
  generalize s.include h nested find pos c = out at hout ⊢
  cases hout with
  | unnamed | tooDeep | notFound => exact Or.inl (.of_branches ⟨rfl, rfl, rfl⟩ rfl rfl (.same _))
  | opened _ hnested => exact Or.inr ⟨_, _, _, _, hnested, ⟨rfl, rfl, rfl⟩, rfl, rfl⟩

theorem Reported.checkLineRest (h : Host) (s : State) (name : Bytes) (c : Cursor) :
    Reported s (s.checkLineRest h name c) := by
  unfold State.checkLineRest
  split
  · split
    · exact caution s _ _
    · exact refl s
  · exact checkTrailing h s c .line

theorem lineDirective_reported (h : Host) (s : State) (name : Bytes) (pos : Position)
    (c : Cursor) : ∃ tracker, Reported { s with tracker } (s.lineDirective h name pos c).state := by
  rw [lineDirective_eq]
  cases lineOperands name c with
  | error e => exact ⟨s.tracker, rfl⟩
  | ok asked =>
    have hleft := Reported.checkLineRest h s name asked.2.2
    dsimp only
    split
    · exact ⟨s.tracker, hleft⟩
    · unfold Reported at hleft
      rw [hleft]
      exact ⟨_, rfl⟩

theorem lineDirective_stays (h : Host) (s : State) (name : Bytes) (pos : Position) (c : Cursor) :
    StaysInFile s (s.lineDirective h name pos c) := by
  rw [lineDirective_eq]
  cases lineOperands name c with
  | error e => exact .of_branches ⟨rfl, rfl, rfl⟩ rfl rfl (.same _)
  | ok asked =>
    obtain ⟨n, file, rest⟩ := asked
    have hleft := Reported.checkLineRest h s name rest
    dsimp only
    cases htracker : (s.checkLineRest h name rest).tracker with
    | none => exact .of_reported hleft ⟨rfl, rfl, rfl⟩ rfl rfl rfl
    | some t =>
      refine .of_branches ⟨hleft.files, hleft.output, hleft.opened⟩ hleft.branches rfl ?_
      rw [← hleft.tracker, htracker]
      exact .set t n file

theorem external_effect (h : Host) (nested : Option Nested) (s : State) (kw : Option Keyword)
    (name : Bytes) (pos : Position) (c : Cursor) :
    StaysInFile s (s.external h nested kw name pos c) ∨
      Includes nested s (s.external h nested kw name pos c) := by
  have hout := external_outcome h nested s kw name pos c
  generalize s.external h nested kw name pos c = out at hout ⊢
  cases hout with
  | included => exact include_effect h nested _ s pos c
  | renumbered => exact Or.inl (lineDirective_stays h s name pos c)
  | ignored | warned | failed => exact Or.inl (.of_branches ⟨rfl, rfl, rfl⟩ rfl rfl (.same _))

/-! ## All directives -/

theorem dispatch_effect (h : Host) (nested : Option Nested) (s : State) (kw : Option Keyword)
    (name : Token) (c : Cursor) :
    StaysInFile s (s.dispatch h nested kw name c) ∨
      Includes nested s (s.dispatch h nested kw name c) := by
  unfold State.dispatch
  dsimp only
  split
  · exact Or.inl ((branch_stays (harmless_test _ _ _) (fun _ => .enter name.pos)).checkDepth _)
  · exact Or.inl
      ((branch_stays (harmless_testDefined h _ _) (fun _ => .enter name.pos)).checkDepth _)
  · exact Or.inl
      ((branch_stays (harmless_testDefined h _ _) (fun _ => .enter name.pos)).checkDepth _)
  · exact Or.inl (branch_stays (harmless_test _ _ _) (fun _ => .elif))
  · exact Or.inl (close_stays (fun _ => .otherwise name.pos))
  · exact Or.inl (close_stays (fun _ => .endif))
  · obtain ⟨hreported, hwritten⟩ := defineDirective_effect h s c
    exact Or.inl (.of_reported hreported ⟨rfl, rfl, rfl⟩ rfl rfl hwritten)
  · obtain ⟨hreported, hwritten⟩ := undefDirective_effect h s c
    exact Or.inl (.of_reported hreported ⟨rfl, rfl, rfl⟩ rfl rfl hwritten)
  · exact external_effect h nested s _ name.text name.pos c

/-- Marking a failure as reported does not change whether it is fatal. -/
theorem isFatal_markReported (f : Failure) : f.markReported.isFatal = f.isFatal := by
  induction f with
  | plain | recoverable | fatal => rfl
  | wrapped label inner ih => exact ih

/-- Reporting a failure hands on a fatal one and no other. -/
theorem report_failure (r : Reporter) (pos : Position) (failure : Failure) :
    (r.report pos failure).2 = if failure.isFatal then some failure.markReported else none := by
  unfold Reporter.report Failure.isFatal
  cases failure.root <;> rfl

theorem reported_effect (out : Outcome) (pos : Position) :
    Reported out.state (out.reported pos).state ∧ (out.reported pos).written = out.written ∧
      (out.reported pos).failure =
        (out.failure.filter Failure.isFatal).map Failure.markReported := by
  unfold Outcome.reported
  cases hfailure : out.failure with
  | none => exact ⟨Reported.refl _, rfl, hfailure⟩
  | some failure =>
    refine ⟨rfl, rfl, ?_⟩
    simp only [report_failure, Option.filter]
    split <;> rfl

theorem isFatal_reported (out : Outcome) (pos : Position) :
    (out.reported pos).isFatal = out.isFatal := by
  unfold Outcome.isFatal
  rw [(reported_effect out pos).2.2]
  cases out.failure with
  | none => rfl
  | some failure =>
    rcases hfatal : failure.isFatal with _ | _ <;>
      simp [Option.filter, hfatal, isFatal_markReported]

theorem noteSwitch_effect (out : Outcome) (wasCompiling : Bool) :
    ∃ resync, out.noteSwitch wasCompiling = { out with state := { out.state with resync } } := by
  unfold Outcome.noteSwitch
  split
  · exact ⟨out.state.resync, rfl⟩
  · exact ⟨true, rfl⟩

theorem effect_noteSwitch {nested : Option Nested} {s : State} {out : Outcome}
    (heffect : StaysInFile s out ∨ Includes nested s out) (wasCompiling : Bool) :
    StaysInFile s (out.noteSwitch wasCompiling) ∨
      Includes nested s (out.noteSwitch wasCompiling) := by
  obtain ⟨resync, hnote⟩ := noteSwitch_effect out wasCompiling
  rw [hnote]
  rcases heffect with ⟨hin, hmoves, hfailed, hwritten, hnumbers⟩ |
    ⟨process, path, contents, requests, hnested, hin, hbranches, hfatal⟩
  · exact Or.inl ⟨⟨hin.files, hin.output, hin.opened⟩, hmoves, hfailed, hwritten, hnumbers⟩
  · exact Or.inr ⟨process, path, contents, requests, hnested,
      ⟨hin.files, hin.output, hin.opened⟩, hbranches, hfatal⟩

/-- A directive whose only failure is a fatal one. -/
structure Settled (nested : Option Nested) (s : State) (out : Outcome) : Prop where
  effect : StaysInFile s out ∨ Includes nested s out
  fatal : out.failure.isSome = out.isFatal

theorem Settled.of_state {nested : Option Nested} {s : State} {out : Outcome}
    (hreported : Reported s out.state) (hfailure : out.failure = none)
    (hwritten : out.written = []) : Settled nested s out where
  effect := Or.inl (.of_reported hreported ⟨rfl, rfl, rfl⟩ rfl rfl hwritten)
  fatal := by rw [Outcome.isFatal, hfailure]; rfl

theorem Settled.reported {nested : Option Nested} {s : State} {out : Outcome}
    (heffect : StaysInFile s out ∨ Includes nested s out) (pos : Position) :
    Settled nested s (out.reported pos) := by
  obtain ⟨hreported, hsame, hfailure⟩ := reported_effect out pos
  have hplace := hreported.samePlace
  refine ⟨?_, ?_⟩
  · rcases heffect with ⟨hin, hmoves, hfailed, hwritten, hnumbers⟩ |
      ⟨process, path, contents, requests, hnested, hin, hbranches, hfatal⟩
    · refine Or.inl ⟨⟨hplace.files.trans hin.files, hplace.output.trans hin.output,
        hplace.opened.trans hin.opened⟩, hreported.branches ▸ hmoves, fun failure hf => ?_,
        hsame.trans hwritten, hreported.tracker ▸ hnumbers⟩
      rw [hfailure, Option.map_eq_some_iff] at hf
      obtain ⟨inner, hinner, -⟩ := hf
      rw [hreported.branches]
      exact hfailed inner (Option.filter_eq_some_iff.1 hinner).1
    · exact Or.inr ⟨process, path, contents, requests, hnested, ⟨hplace.files.trans hin.files,
        hplace.output.trans hin.output, hplace.opened.trans hin.opened⟩,
        hreported.branches.trans hbranches, (isFatal_reported out pos).trans hfatal⟩
  · rw [isFatal_reported, hfailure, Outcome.isFatal, Option.isSome_map]
    cases out.failure with
    | none => rfl
    | some failure => rcases hf : failure.isFatal with _ | _ <;> simp [Option.filter, hf]

/-- **What a directive can do**: stay in its file, making at most one move in the groups, or include
    another file. It hands on no failure but a fatal one. -/
theorem directiveWith_effect (h : Host) (nested : Option Nested) (s : State) (pos : Position)
    (line : Bytes) : Settled nested s (s.directiveWith h nested pos line) := by
  have hout := directiveWith_outcome h nested s pos line
  generalize s.directiveWith h nested pos line = out at hout ⊢
  cases hout with
  | unsigned | invalid => exact .of_state (Reported.complain s _ _) rfl rfl
  | ignored => exact .of_state (Reported.refl s) rfl rfl
  | named =>
    exact .reported (effect_noteSwitch (dispatch_effect h nested s _ _ _) s.compiling) _
  | numbered => exact .reported (external_effect h nested s _ _ _ _) _
  | skipped => exact .of_state (Reported.caution s _ _) rfl rfl

/-! ## Lines of a file -/

/-- The place of a line that is being handled. -/
def State.linePosition (s : State) (l : Source.LogicalLine) : Position :=
  { file := s.presentedFile, offset := l.offset, line := s.presentedLine, column := 1 }

/-- What is written for a line that is not copied. -/
def placeholder (h : Host) (l : Source.LogicalLine) : Bytes :=
  if h.settings.lineMarkers then [] else blankLines l

/-- The place of the output after a directive. -/
def OutputPlace.after (place : OutputPlace) (s : State) : OutputPlace :=
  if s.resync then { place with file := [] } else place

/-- The state in which a run handles its first line. -/
def State.entered (s : State) (name : Bytes) : State :=
  { s with branches := s.branches.reset, files := [], resync := false }.openFile name

/-- What comes of a line that is a directive. -/
def State.directiveLine (h : Host) (nested : Option Nested) (s : State) (l : Source.LogicalLine) :
    Outcome :=
  (s.track l).directiveWith h nested ((s.track l).linePosition l) l.text

/-- The state in which the line after a directive is handled. -/
def Outcome.resumed (out : Outcome) : State :=
  { out.state with resync := false }

section Lines

variable (h : Host) (nested : Option Nested) (place : OutputPlace) (s : State)
  (l : Source.LogicalLine) (rest : List Source.LogicalLine)

theorem processLines_directive (hl : l.directive = true) :
    s.processLines h nested place (l :: rest) =
      let out := (s.track l).directiveWith h nested ((s.track l).linePosition l) l.text
      match out.failure with
      | some failure =>
        { state := { out.state with resync := false }
          written := placeholder h l ++ out.written
          failure := some failure }
      | none =>
        let more := State.processLines h nested (place.after out.state)
          { out.state with resync := false } rest
        { more with written := placeholder h l ++ out.written ++ more.written } := by
  rw [State.processLines, if_pos hl]
  rfl

theorem processLines_skipped (hl : l.directive = false) (hs : s.compiling = false) :
    s.processLines h nested place (l :: rest) =
      let more := (s.track l).processLines h nested place rest
      { more with written := placeholder h l ++ more.written } := by
  have hs' : (s.track l).compiling = false := hs
  simp only [State.processLines, hl, hs', Bool.false_eq_true, if_false, Bool.not_false, if_true]
  rfl

theorem processLines_copied (hl : l.directive = false) (hs : s.compiling = true) :
    s.processLines h nested place (l :: rest) =
      let file := (s.track l).presentedFile
      let line := (s.track l).presentedLine
      let lead := if h.settings.lineMarkers then bridge place line file else []
      let more := (s.track l).processLines h nested ⟨file, line + l.count⟩ rest
      { more with written := lead ++ copied l ++ more.written } := by
  have hs' : (s.track l).compiling = true := hs
  simp only [State.processLines, hl, hs', Bool.false_eq_true, if_false, Bool.not_true]

variable {h nested place s l rest}

theorem processLines_ended (hl : l.directive = true) {failure : Failure}
    (hfailure : (s.directiveLine h nested l).failure = some failure) :
    s.processLines h nested place (l :: rest) =
      { state := (s.directiveLine h nested l).resumed
        written := placeholder h l ++ (s.directiveLine h nested l).written
        failure := some failure } := by
  rw [processLines_directive h nested place s l rest hl]
  unfold State.directiveLine at hfailure
  dsimp only
  rw [hfailure]
  rfl

theorem processLines_resumed (hl : l.directive = true)
    (hfailure : (s.directiveLine h nested l).failure = none) :
    s.processLines h nested place (l :: rest) =
      let out := s.directiveLine h nested l
      let more := out.resumed.processLines h nested (place.after out.state) rest
      { more with written := placeholder h l ++ out.written ++ more.written } := by
  rw [processLines_directive h nested place s l rest hl]
  unfold State.directiveLine at hfailure ⊢
  dsimp only
  rw [hfailure]
  rfl

/-- **The lines of a file, one after the other**: what holds at the end of a file, of a directive
    that ends it, and of any line before lines of which it holds, holds of all lines together. -/
theorem processLines_induct {Q : State → Option Failure → State → Prop}
    {lines : List Source.LogicalLine} (hend : ∀ s, Q s none s.closeGroups)
    (htext : ∀ s l failure t, Q (s.track l) failure t → Q s failure t)
    (hended : ∀ s, ∀ l ∈ lines, l.directive = true → ∀ failure,
      (s.directiveLine h nested l).failure = some failure →
        Q s (some failure) (s.directiveLine h nested l).resumed)
    (hresumed : ∀ s, ∀ l ∈ lines, l.directive = true →
      (s.directiveLine h nested l).failure = none →
        ∀ failure t, Q (s.directiveLine h nested l).resumed failure t → Q s failure t)
    (place : OutputPlace) (s : State) :
    let out := s.processLines h nested place lines
    Q s out.failure out.state := by
  induction lines generalizing place s with
  | nil => exact hend s
  | cons l rest ih =>
    have ih := ih (fun s l' hl' => hended s l' (List.mem_cons_of_mem l hl'))
      (fun s l' hl' => hresumed s l' (List.mem_cons_of_mem l hl'))
    cases hl : l.directive with
    | true =>
      cases hfailure : (s.directiveLine h nested l).failure with
      | some failure =>
        rw [processLines_ended hl hfailure]
        exact hended s l List.mem_cons_self hl failure hfailure
      | none =>
        rw [processLines_resumed hl hfailure]
        exact hresumed s l List.mem_cons_self hl hfailure _ _ (ih _ _)
    | false =>
      cases hc : s.compiling with
      | true =>
        rw [processLines_copied h nested place s l rest hl hc]
        exact htext s l _ _ (ih _ _)
      | false =>
        rw [processLines_skipped h nested place s l rest hl hc]
        exact htext s l _ _ (ih _ _)

/-- A transitive relation that holds over the end of a file and over each of its lines holds over
    all of them, whether or not a directive ends them. -/
theorem processLines_trans {R : State → State → Prop} {lines : List Source.LogicalLine}
    (htrans : ∀ s t u, R s t → R t u → R s u) (hend : ∀ s, R s s.closeGroups)
    (htext : ∀ s l, R s (s.track l))
    (hdirective : ∀ s, ∀ l ∈ lines, l.directive = true → R s (s.directiveLine h nested l).resumed)
    (place : OutputPlace) (s : State) : R s (s.processLines h nested place lines).state := by
  refine processLines_induct (Q := fun s _ t => R s t) hend ?_ ?_ ?_ place s
  · intro s l _ t hmore
    exact htrans s (s.track l) t (htext s l) hmore
  · intro s l hmem hl _ _
    exact hdirective s l hmem hl
  · intro s l hmem hl _ _ t hmore
    exact htrans s _ t (hdirective s l hmem hl) hmore

end Lines

/-- **Included files**: what a file does when the files that it includes do it, they all do. -/
theorem nestedProcess_induct {P : Nested → Prop} {h : Host}
    (hfile : ∀ levels, (∀ process, nestedProcess h levels = some process → P process) →
      P fun s name contents => s.processFile h (nestedProcess h levels) name contents)
    (levels : Nat) : ∀ process, nestedProcess h levels = some process → P process := by
  induction levels with
  | zero => exact fun process hprocess => absurd hprocess (by simp [nestedProcess])
  | succ levels ih =>
    intro process hprocess
    obtain rfl := Option.some.inj hprocess
    exact hfile levels ih

/-- With no group open, nothing is left to close. -/
theorem closeGroups_of_nil {s : State} (hframes : s.branches.frames = []) :
    s.closeGroups = s := by
  simp [State.closeGroups, Branch.Stack.unterminated, hframes, State.compiling]

/-- The groups that a file left open are reported one after the other, and then dropped. -/
theorem closeGroups_complains {P : State → Prop} {s : State} (hs : P s)
    (hcomplain : ∀ s pos, P s → P (s.complain pos .unterminatedGroup)) :
    ∃ t, P t ∧ s.closeGroups =
      { t with
        branches := (s.branches.unterminated s.fileId).2
        resync := s.resync || (s.branches.unterminated s.fileId).2.compiling != s.compiling } := by
  have hfold : ∀ (frames : List Branch.Frame) (s : State), P s →
      P (frames.foldl (fun s f => s.complain f.ifPos .unterminatedGroup) s) := by
    intro frames
    induction frames with
    | nil => exact fun s hs => hs
    | cons f rest ih => exact fun s hs => ih _ (hcomplain s f.ifPos hs)
  exact ⟨_, hfold (s.branches.unterminated s.fileId).1 s hs, rfl⟩

theorem closeGroups_reported (s : State) :
    ∃ t, Reported s t ∧ s.closeGroups =
      { t with
        branches := (s.branches.unterminated s.fileId).2
        resync := s.resync || (s.branches.unterminated s.fileId).2.compiling != s.compiling } :=
  closeGroups_complains (Reported.refl s) fun t pos ht => ht.trans (.complain t pos _)

/-! ## What no file changes -/

/-- The state `s'` has the same files open as `s` and the same limit on groups. -/
structure Stable (s s' : State) : Prop where
  files : s'.files = s.files
  max : s'.branches.max = s.branches.max

theorem Stable.trans {s s' s'' : State} (h : Stable s s') (h' : Stable s' s'') : Stable s s'' :=
  ⟨h'.files.trans h.files, h'.max.trans h.max⟩

/-- Processing of included files that is stable. -/
def NestedStable (nested : Option Nested) : Prop :=
  ∀ process, nested = some process → ∀ s path contents,
    Stable s (process s path contents).state

section Stable

variable {h : Host} {nested : Option Nested}

theorem directiveWith_stable (hnested : NestedStable nested) (s : State) (pos : Position)
    (line : Bytes) : Stable s (s.directiveWith h nested pos line).state := by
  rcases (directiveWith_effect h nested s pos line).effect with hstays | ⟨process, path, contents,
    requests, hsome, hplace, hbranches, -⟩
  · exact ⟨hstays.place.files, hstays.moves.shape.1⟩
  · have hinner := hnested process hsome { s with requests } path contents
    exact ⟨hplace.files.trans hinner.files, by rw [hbranches]; exact hinner.max⟩

theorem closeGroups_stable (s : State) : Stable s s.closeGroups := by
  obtain ⟨t, hreported, hclosed⟩ := closeGroups_reported s
  rw [hclosed]
  refine ⟨hreported.files, ?_⟩
  unfold Branch.Stack.unterminated
  dsimp only
  split <;> rfl

theorem processLines_stable (hnested : NestedStable nested) (lines : List Source.LogicalLine)
    (place : OutputPlace) (s : State) :
    Stable s (s.processLines h nested place lines).state := by
  refine processLines_trans (R := Stable) (fun _ _ _ => .trans) closeGroups_stable ?_ ?_ place s
  · intro s l
    exact ⟨rfl, rfl⟩
  · intro s l _ _
    have hline := directiveWith_stable (h := h) hnested (s.track l) ((s.track l).linePosition l)
      l.text
    exact ⟨hline.files, hline.max⟩

theorem processFile_stable (hnested : NestedStable nested) (s : State) (name contents : Bytes) :
    Stable s (s.processFile h nested name contents).state := by
  obtain ⟨hfiles, hmax⟩ := processLines_stable (h := h) hnested (Source.logicalLines contents) {}
    (s.openFile name)
  exact ⟨congrArg List.tail hfiles, hmax⟩

end Stable

theorem nestedProcess_stable (h : Host) (levels : Nat) : NestedStable (nestedProcess h levels) :=
  nestedProcess_induct (fun _ hnested => processFile_stable hnested) levels

end Preproc.Engine
