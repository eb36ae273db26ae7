import Preproc.Proofs.Engine.IncludeStack

set_option autoImplicit false

/-! # Text that is not compiled

Lines that are not compiled still have to be looked at, since a conditional directive among them may
end the gap. What such a line does is decided by its first two tokens alone (`skippedLine`): most
lines are dropped, and only conditional directives are carried out. None of them touches the macros,
the files or the line numbers, and what is written for them is line breaks
(`skipped_text_is_inert`). -/

namespace Preproc.Engine

open Source (LogicalLine logicalLines)

/-! ## One line -/

/-- What a line with a directive is where lines are not compiled. -/
inductive SkippedLine where
  /-- The first token is not `#`. -/
  | unsigned (pos : Position)
  /-- There is nothing to do. -/
  | dropped
  /-- The `#` is followed by neither a name nor a number. -/
  | invalid (pos : Position)
  | conditional (kw : Keyword) (name : Token) (c : Cursor)

/-- What the line that starts at `pos` is where lines are not compiled. -/
def skippedLine (pos : Position) (line : Bytes) : SkippedLine :=
  let (hash, c) := (Cursor.ofText pos line).nextNonSpace
  if !hash.is .hash then .unsigned hash.pos
  else
    let (name, c) := c.nextNonSpace
    match name.kind with
    | .endOfLine | .number => .dropped
    | .ident =>
      match Keyword.ofName? name.text with
      | some kw => if kw.isConditional then .conditional kw name c else .dropped
      | none => .dropped
    | _ => .invalid name.pos

/-- Handle a line where lines are not compiled. -/
def State.skipLine (h : Host) (s : State) : SkippedLine → Outcome
  | .unsigned pos => { state := s.complain pos .expectedHash }
  | .dropped => { state := s }
  | .invalid pos => { state := s.caution pos .skippedInvalid }
  | .conditional kw name c =>
    ((s.dispatch h none (some kw) name c).noteSwitch false).reported name.pos

section Line

variable {h : Host} {nested : Option Nested} {s : State} {pos : Position} {line : Bytes}

theorem announces_of_conditional {kw : Keyword} {name : Token} {c : Cursor}
    (hline : skippedLine pos line = .conditional kw name c) :
    Announces kw pos line name c ∧ kw.isConditional = true := by
  unfold skippedLine at hline
  dsimp only at hline
  split at hline
  · cases hline
  · next hsign =>
    split at hline
    case h_3 hident =>
      split at hline
      · next kw' hkeyword =>
        split at hline
        · next hkw =>
          cases hline
          exact ⟨⟨by simpa using hsign, rfl, hident, hkeyword⟩, hkw⟩
        · cases hline
      · cases hline
    all_goals cases hline

/-- **What a line does where lines are not compiled** is decided by what the line is, not by the
    macros or the files. -/
theorem directiveWith_skipped (hs : s.compiling = false) (nested : Option Nested) (pos : Position)
    (line : Bytes) :
    s.directiveWith h nested pos line = s.skipLine h (skippedLine pos line) := by
  unfold State.directiveWith skippedLine
  dsimp only
  split
  · rfl
  · generalize (Cursor.ofText pos line).nextNonSpace.2.nextNonSpace.1 = name
    generalize (Cursor.ofText pos line).nextNonSpace.2.nextNonSpace.2 = c
    cases hkind : name.kind with
    | ident =>
      dsimp only
      cases hkeyword : Keyword.ofName? name.text with
      | none => rw [hs]; rfl
      | some kw =>
        cases hkw : kw.isConditional with
        | false => simp [hs, hkw, State.skipLine]
        | true =>
          have hother : some kw ≠ some Keyword.includeFile := by
            rintro ⟨⟩
            cases hkw
          simp [hs, hkw, State.skipLine, dispatch_nested hother nested none]
    | number => simp [hs, State.skipLine]
    | endOfLine => rfl
    | _ => simp [hs, State.skipLine]

end Line

/-! ## Conditional directives -/

/-- The state `s'` is `s`, but for the groups, the reports and the conditions that were
    evaluated. -/
def Inert (s s' : State) : Prop :=
  s' = { s with
    branches := s'.branches
    reporter := s'.reporter
    resync := s'.resync
    depthWarned := s'.depthWarned
    evaluations := s'.evaluations }

namespace Inert

variable {s s' s'' : State}

theorem trans (h : Inert s s') (h' : Inert s' s'') : Inert s s'' := by
  unfold Inert at *
  rw [h', h]

theorem of_reported (h : Reported s s') : Inert s s' := by
  unfold Inert
  rw [h]

theorem table (h : Inert s s') : s'.table = s.table := by rw [h]

theorem files (h : Inert s s') : s'.files = s.files := by rw [h]

theorem output (h : Inert s s') : s'.output = s.output := by rw [h]

theorem tracker (h : Inert s s') : s'.tracker = s.tracker := by rw [h]

theorem requests (h : Inert s s') : s'.requests = s.requests := by rw [h]

end Inert

/-- What came of a directive, but with another macro table. -/
def Outcome.retabled (out : Outcome) (table : Macro.Table) : Outcome :=
  { out with state := { out.state with table } }

/-- The innermost group asks an `#elif` for its condition: it belongs to the file, has not reached
    its `#else`, starts where lines are compiled, and none of its branches was taken. -/
def AsksElif (s : State) : Prop :=
  ∃ frame outer, s.branches.frames = frame :: outer ∧ frame.file = s.fileId ∧
    frame.elseSeen = false ∧ frame.wasCompiling = true ∧ frame.trueSeen = false

section Conditional

variable {h : Host} {s : State} {pos : Position} {c : Cursor} {kw : Keyword} {name : Token}

theorem branch_inert {test : State → State × Bool} (htest : Harmless test) (step : Branch.Step) :
    Inert s (s.branch pos step test).state ∧ (s.branch pos step test).written = [] := by
  cases step with
  | refused why => exact ⟨rfl, rfl⟩
  | settled branches => exact ⟨rfl, rfl⟩
  | asks resume =>
    obtain ⟨evaluations, hreported⟩ := htest s
    have hevaluated : Inert s { s with evaluations } := rfl
    exact ⟨(hevaluated.trans (.of_reported hreported)).trans rfl, rfl⟩

theorem close_inert (result : Except Branch.Refusal Branch.Stack) :
    Inert s (s.close h pos kw c result).state ∧ (s.close h pos kw c result).written = [] := by
  cases result with
  | error why => exact ⟨rfl, rfl⟩
  | ok branches =>
    have hmoved : Inert s { s with branches } := rfl
    exact ⟨hmoved.trans (.of_reported (close_ok_reported h s pos kw c branches)), rfl⟩

/-- Conditional directives touch nothing but the groups. -/
theorem conditional_inert (hkw : kw.isConditional = true) (name : Token) (c : Cursor) :
    Inert s (s.dispatch h none (some kw) name c).state ∧
      (s.dispatch h none (some kw) name c).written = [] := by
  have hdeep {out : Outcome} (hout : Inert s out.state ∧ out.written = []) :
      Inert s (out.state.checkDepth name.pos) ∧ out.written = [] :=
    ⟨hout.1.trans (.of_reported (Reported.checkDepth _ _)), hout.2⟩
  cases kw with
  | ifTrue => exact hdeep (branch_inert (harmless_test _ _ _) _)
  | ifdef => exact hdeep (branch_inert (harmless_testDefined h _ _) _)
  | ifndef => exact hdeep (branch_inert (harmless_testDefined h _ _) _)
  | elif => exact branch_inert (harmless_test _ _ _) _
  | otherwise => exact close_inert _
  | endif => exact close_inert _
  | _ => cases hkw

theorem asksElif_of_asks {resume : Bool → Branch.Stack}
    (hasks : s.branches.elif s.fileId = .asks resume) : AsksElif s := by
  unfold Branch.Stack.elif Branch.Stack.owned at hasks
  cases hframes : s.branches.frames with
  | nil => simp [hframes] at hasks
  | cons frame outer =>
    by_cases hfile : frame.file = s.fileId
    · refine ⟨frame, outer, hframes, hfile, ?_⟩
      simp only [hframes, hfile, if_true] at hasks
      grind
    · simp [hframes, hfile] at hasks

/-- An outcome for which no condition was evaluated and no macro looked up. -/
def Untested (s : State) (carryOut : State → Outcome) : Prop :=
  (carryOut s).state.evaluations = s.evaluations ∧
    ∀ table, carryOut { s with table } = (carryOut s).retabled table

theorem checkTrailing_retabled (s : State) (table : Macro.Table) :
    State.checkTrailing h { s with table } c kw = { s.checkTrailing h c kw with table } := by
  unfold State.checkTrailing
  split
  · rfl
  · split <;> rfl

theorem checkDepth_retabled (s : State) (table : Macro.Table) :
    State.checkDepth { s with table } pos = { s.checkDepth pos with table } := by
  unfold State.checkDepth
  dsimp only
  split <;> rfl

theorem branch_untested {step : Branch.Step} (hstep : ∀ resume, step ≠ .asks resume)
    (pos : Position) (test : State → State × Bool) :
    (s.branch pos step test).state.evaluations = s.evaluations ∧
      ∀ table, State.branch { s with table } pos step test =
        (s.branch pos step test).retabled table := by
  cases step with
  | refused why => exact ⟨rfl, fun table => rfl⟩
  | settled branches => exact ⟨rfl, fun table => rfl⟩
  | asks resume => exact absurd rfl (hstep resume)

/-- Opening a group where lines are not compiled makes no test, whatever the test would be. -/
theorem enter_untested (hs : s.compiling = false) (pos : Position) (test : State → State × Bool) :
    let carryOut (s : State) : Outcome :=
      let out := s.branch pos (s.branches.enter pos s.fileId) test
      { out with state := out.state.checkDepth pos }
    Untested s carryOut ∧ (carryOut s).state.compiling = false := by
  intro carryOut
  have hskip : s.branches.compiling = false := hs
  have hreported (s : State) := Reported.checkDepth s pos
  have hstep : ∀ resume, s.branches.enter pos s.fileId ≠ .asks resume := by
    intro resume
    unfold Branch.Stack.enter
    rw [hskip]
    split <;> simp
  obtain ⟨hevaluations, hretabled⟩ := branch_untested hstep pos test
  refine ⟨⟨(hreported _).evaluations.trans hevaluations, fun table => ?_⟩, ?_⟩
  · have hchecked := congrArg
      (fun out : Outcome => { out with state := out.state.checkDepth pos }) (hretabled table)
    refine hchecked.trans ?_
    simp only [Outcome.retabled, checkDepth_retabled, carryOut]
  · have hbranches : (carryOut s).state.compiling =
        (s.branch pos (s.branches.enter pos s.fileId) test).state.compiling :=
      congrArg Branch.Stack.compiling (hreported _).branches
    rw [hbranches]
    unfold Branch.Stack.enter
    rw [hskip]
    split
    · exact hs
    · rfl

theorem close_untested (result : Except Branch.Refusal Branch.Stack) :
    Untested s (fun s => s.close h pos kw c result) := by
  cases result with
  | error why => exact ⟨rfl, fun table => rfl⟩
  | ok branches =>
    unfold Untested
    dsimp only
    by_cases hshown : s.branches.compiling = true ∨ branches.compiling = true
    · have hclose (t : State) (ht : t.branches = s.branches) :
          t.close h pos kw c (.ok branches) =
            { state := State.checkTrailing h { t with branches } c kw } := by
        simp only [State.close, State.compiling, ht, Bool.or_eq_true, if_pos hshown]
      rw [hclose s rfl]
      refine ⟨(Reported.checkTrailing h _ _ _).evaluations, fun table => ?_⟩
      rw [hclose { s with table } rfl, Outcome.retabled, ← checkTrailing_retabled]
    · have hclose (t : State) (ht : t.branches = s.branches) :
          t.close h pos kw c (.ok branches) = { state := { t with branches } } := by
        simp only [State.close, State.compiling, ht, Bool.or_eq_true, if_neg hshown]
      rw [hclose s rfl]
      exact ⟨rfl, fun table => hclose { s with table } rfl⟩

/-- Where lines are not compiled, only an `#elif` that its group asks for its condition makes a
    test. -/
theorem conditional_tests (hs : s.compiling = false) (hkw : kw.isConditional = true) (name : Token)
    (c : Cursor) :
    Untested s (·.dispatch h none (some kw) name c) ∨
      kw = .elif ∧ AsksElif s ∧ (s.dispatch h none (some kw) name c).state.evaluations =
        s.evaluations ++ (conditionOutcome s.table c.remaining).1 := by
  cases kw with
  | ifTrue => exact Or.inl (enter_untested hs name.pos _).1
  | ifdef => exact Or.inl (enter_untested hs name.pos _).1
  | ifndef => exact Or.inl (enter_untested hs name.pos _).1
  | elif =>
    by_cases hasks : ∃ resume, s.branches.elif s.fileId = .asks resume
    · obtain ⟨resume, hresume⟩ := hasks
      refine Or.inr ⟨rfl, asksElif_of_asks hresume, ?_⟩
      have htest := (test_effect s name.pos .elif c.remaining).1
      simp only [State.dispatch, hresume, State.branch]
      exact htest.evaluations
    · exact Or.inl (branch_untested (fun resume hresume => hasks ⟨resume, hresume⟩) _ _)
  | otherwise => exact Or.inl (close_untested _)
  | endif => exact Or.inl (close_untested _)
  | _ => cases hkw

/-- Lines that are not compiled are so until an `#elif`, an `#else` or an `#endif`. -/
theorem conditional_compiling (hs : s.compiling = false) (hkw : kw.isConditional = true)
    (hon : (s.dispatch h none (some kw) name c).state.compiling = true) :
    kw = .elif ∨ kw = .otherwise ∨ kw = .endif := by
  have hopened (test : State → State × Bool) :=
    (enter_untested (s := s) hs name.pos test).2
  cases kw with
  | ifTrue => exact absurd hon (Bool.eq_false_iff.1 (hopened _))
  | ifdef => exact absurd hon (Bool.eq_false_iff.1 (hopened _))
  | ifndef => exact absurd hon (Bool.eq_false_iff.1 (hopened _))
  | elif => exact Or.inl rfl
  | otherwise => exact Or.inr (Or.inl rfl)
  | endif => exact Or.inr (Or.inr rfl)
  | _ => cases hkw

end Conditional

/-! ## What a line leaves alone -/

section Skip

variable {h : Host} {s : State}

/-- The report at the end of a directive touches nothing else. -/
theorem finished_effect (out : Outcome) (pos : Position) :
    let done := (out.noteSwitch false).reported pos
    Inert out.state done.state ∧ done.written = out.written ∧
      done.state.branches = out.state.branches ∧
      done.state.evaluations = out.state.evaluations := by
  intro done
  obtain ⟨resync, hnote⟩ := noteSwitch_effect out false
  obtain ⟨hreported, hwritten, -⟩ := reported_effect (out.noteSwitch false) pos
  have hnoted : Inert out.state (out.noteSwitch false).state := by
    rw [hnote]
    rfl
  refine ⟨hnoted.trans (.of_reported hreported), hwritten.trans ?_, hreported.branches.trans ?_,
    hreported.evaluations.trans ?_⟩
  all_goals rw [hnote]

theorem finished_retabled (out : Outcome) (pos : Position) (table : Macro.Table) :
    ((out.retabled table).noteSwitch false).reported pos =
      ((out.noteSwitch false).reported pos).retabled table := by
  have hnote : (out.retabled table).noteSwitch false = (out.noteSwitch false).retabled table := by
    have hsame : (out.retabled table).state.compiling = out.state.compiling := rfl
    unfold Outcome.noteSwitch
    rw [hsame]
    by_cases hoff : out.state.compiling = false
    · rw [if_pos hoff, if_pos hoff]
    · rw [if_neg hoff, if_neg hoff]
      rfl
  rw [hnote]
  generalize out.noteSwitch false = out
  obtain ⟨state, written, failure⟩ := out
  cases failure <;> rfl

/-- A line that is not compiled touches nothing but the groups. -/
theorem skipLine_inert (pos : Position) (line : Bytes) :
    Inert s (s.skipLine h (skippedLine pos line)).state ∧
      (s.skipLine h (skippedLine pos line)).written = [] := by
  cases hline : skippedLine pos line with
  | unsigned _ | dropped | invalid _ => exact ⟨rfl, rfl⟩
  | conditional kw name c =>
    obtain ⟨-, hkw⟩ := announces_of_conditional hline
    obtain ⟨hinert, hwritten⟩ := conditional_inert (h := h) (s := s) hkw name c
    obtain ⟨hdone, hsame, -⟩ :=
      finished_effect (s.dispatch h none (some kw) name c) name.pos
    exact ⟨hinert.trans hdone, hsame.trans hwritten⟩

/-- A line that is not compiled makes a test only when it is an `#elif` whose group asks for it. -/
theorem skipLine_tests (hs : s.compiling = false) (pos : Position) (line : Bytes) :
    Untested s (·.skipLine h (skippedLine pos line)) ∨
      ∃ name c, Announces .elif pos line name c ∧ AsksElif s ∧
        (s.skipLine h (skippedLine pos line)).state.evaluations =
          s.evaluations ++ (conditionOutcome s.table c.remaining).1 := by
  cases hline : skippedLine pos line with
  | unsigned _ | dropped | invalid _ => exact Or.inl ⟨rfl, fun table => rfl⟩
  | conditional kw name c =>
    obtain ⟨ha, hkw⟩ := announces_of_conditional hline
    obtain ⟨-, -, -, hevaluations⟩ :=
      finished_effect (s.dispatch h none (some kw) name c) name.pos
    rcases conditional_tests (h := h) hs hkw name c with ⟨hsame, hretabled⟩ | ⟨rfl, hasks, htested⟩
    · refine Or.inl ⟨hevaluations.trans hsame, fun table => ?_⟩
      have htable := hretabled table
      dsimp only at htable
      simp only [State.skipLine, htable, finished_retabled]
    · exact Or.inr ⟨name, c, ha, hasks, hevaluations.trans htested⟩

theorem skipLine_compiling (hs : s.compiling = false) {pos : Position} {line : Bytes}
    (hon : (s.skipLine h (skippedLine pos line)).state.compiling = true) :
    ∃ kw name c, Announces kw pos line name c ∧ (kw = .elif ∨ kw = .otherwise ∨ kw = .endif) := by
  have hoff : ¬ s.compiling = true := by simp [hs]
  cases hline : skippedLine pos line with
  | unsigned _ | dropped | invalid _ =>
    rw [hline] at hon
    exact absurd hon hoff
  | conditional kw name c =>
    rw [hline] at hon
    obtain ⟨ha, hkw⟩ := announces_of_conditional hline
    obtain ⟨-, -, hbranches, -⟩ :=
      finished_effect (s.dispatch h none (some kw) name c) name.pos
    have hon' : (s.dispatch h none (some kw) name c).state.branches.compiling = true :=
      hbranches ▸ hon
    exact ⟨kw, name, c, ha, conditional_compiling hs hkw hon'⟩

/-- The files that can be found have no part in a line that is not compiled. -/
theorem skipLine_includer (includer : Option Includer) (pos : Position) (line : Bytes) :
    s.skipLine { h with includer } (skippedLine pos line) =
      s.skipLine h (skippedLine pos line) := by
  cases hline : skippedLine pos line with
  | conditional kw name c =>
    obtain ⟨-, hkw⟩ := announces_of_conditional hline
    cases kw <;> first | rfl | cases hkw
  | _ => rfl

end Skip

/-! ## Lines one after the other -/

/-- What came of the first lines of a file, and where the output stands after them. -/
structure Progress where
  out : Outcome
  place : OutputPlace := {}

namespace Progress

variable {h : Host} {nested : Option Nested} {p : Progress} {l : LogicalLine}

/-- Handle one more line, unless the run has ended. -/
def line (h : Host) (nested : Option Nested) (p : Progress) (l : LogicalLine) : Progress :=
  match p.out with
  | ⟨_, _, some _⟩ => p
  | ⟨s, written, none⟩ =>
    if l.directive then
      let out := s.directiveLine h nested l
      { out := { out with
          state := out.resumed
          written := written ++ (placeholder h l ++ out.written) }
        place := p.place.after out.state }
    else
      let s := s.track l
      if s.compiling then
        let file := s.presentedFile
        let line := s.presentedLine
        let lead := if h.settings.lineMarkers then bridge p.place line file else []
        { out := { state := s, written := written ++ (lead ++ copied l) }
          place := ⟨file, line + l.count⟩ }
      else { p with out := { state := s, written := written ++ placeholder h l } }

/-- Handle the lines that are left. -/
def finish (h : Host) (nested : Option Nested) (p : Progress) (lines : List LogicalLine) :
    Outcome :=
  match p.out with
  | ⟨_, _, some _⟩ => p.out
  | ⟨s, written, none⟩ =>
    let more := s.processLines h nested p.place lines
    { more with written := written ++ more.written }

theorem finish_cons (rest : List LogicalLine) :
    p.finish h nested (l :: rest) = (p.line h nested l).finish h nested rest := by
  obtain ⟨⟨s, written, failure⟩, place⟩ := p
  cases failure with
  | some failure => rfl
  | none =>
    cases hl : l.directive with
    | true =>
      cases hfailure : (s.directiveLine h nested l).failure with
      | some failure =>
        simp only [finish, line, hl, if_true, processLines_ended hl hfailure, hfailure]
      | none =>
        simp only [finish, line, hl, if_true, processLines_resumed hl hfailure, hfailure,
          List.append_assoc]
    | false =>
      cases hc : s.compiling with
      | true =>
        have hc' : (s.track l).compiling = true := hc
        simp only [finish, line, hl, Bool.false_eq_true, if_false, if_pos hc',
          processLines_copied h nested place s l rest hl hc, List.append_assoc]
      | false =>
        have hc' : ¬ (s.track l).compiling = true := by
          show ¬ s.compiling = true
          simp [hc]
        simp only [finish, line, hl, Bool.false_eq_true, if_false, if_neg hc',
          processLines_skipped h nested place s l rest hl hc, List.append_assoc]

/-- The lines of a file are handled one after the other. -/
theorem finish_append (front back : List LogicalLine) :
    p.finish h nested (front ++ back) =
      (front.foldl (line h nested) p).finish h nested back := by
  induction front generalizing p with
  | nil => rfl
  | cons l rest ih => rw [List.cons_append, finish_cons, ih, List.foldl_cons]

end Progress

/-- Processing of the files that a file includes which is processed from the state `s`. -/
def State.inner (h : Host) (s : State) (name : Bytes) : Option Nested :=
  nestedProcess h ((s.openFile name).levelsLeft h)

/-- What came of the first lines of a file that is processed from the state `s`. -/
def State.progress (h : Host) (s : State) (name : Bytes) (lines : List LogicalLine) : Progress :=
  lines.foldl (Progress.line h (s.inner h name)) { out := { state := s.openFile name } }

theorem progress_append (h : Host) (s : State) (name : Bytes) (front back : List LogicalLine) :
    s.progress h name (front ++ back) =
      back.foldl (Progress.line h (s.inner h name)) (s.progress h name front) :=
  List.foldl_append

/-- Processing a file handles its first lines, then the others, and closes the file. -/
theorem process_eq_finish (h : Host) (s : State) (name contents : Bytes)
    {front back : List LogicalLine} (hlines : logicalLines contents = front ++ back) :
    s.process h name contents =
      let out := (s.progress h name front).finish h (s.inner h name) back
      { out with state := out.state.closeFile s } := by
  unfold State.progress
  rw [← Progress.finish_append]
  simp only [State.process, State.processFile, State.inner, hlines, Progress.finish,
    List.nil_append]

/-! ## Stretches that are not compiled -/

/-- The state `s'` has the macros, the files, the output and the requests of `s`, and presents lines
    by the same name and numbers. -/
structure Untouched (s s' : State) : Prop where
  table : s'.table = s.table
  files : s'.files = s.files
  output : s'.output = s.output
  requests : s'.requests = s.requests
  numbering : s'.tracker.map (fun t => (t.name, t.delta)) =
    s.tracker.map (fun t => (t.name, t.delta))

theorem Untouched.refl (s : State) : Untouched s s :=
  ⟨rfl, rfl, rfl, rfl, rfl⟩

theorem Untouched.trans {s s' s'' : State} (h : Untouched s s') (h' : Untouched s' s'') :
    Untouched s s'' :=
  ⟨h'.table.trans h.table, h'.files.trans h.files, h'.output.trans h.output,
    h'.requests.trans h.requests, h'.numbering.trans h.numbering⟩

theorem Inert.untouched {s s' : State} (h : Inert s s') : Untouched s s' :=
  ⟨h.table, h.files, h.output, h.requests, by rw [h.tracker]⟩

theorem track_untouched (s : State) (l : LogicalLine) : Untouched s (s.track l) := by
  refine ⟨rfl, rfl, rfl, rfl, ?_⟩
  show (s.tracker.map _).map _ = _
  rw [Option.map_map]
  rfl

/-- The outcome `out'` comes from `out` by handling lines that touch nothing and leave line breaks
    only. -/
def AddsBreaks (out out' : Outcome) : Prop :=
  Untouched out.state out'.state ∧
    ∃ gap, out'.written = out.written ++ gap ∧ ∀ b ∈ gap, b = newline

theorem placeholder_breaks (h : Host) (l : LogicalLine) : ∀ b ∈ placeholder h l, b = newline := by
  intro b hb
  unfold placeholder at hb
  split at hb
  · cases hb
  · exact List.eq_of_mem_replicate hb

section Stretch

variable {h : Host} {nested : Option Nested} {p : Progress}

/-- **One line** that is not compiled adds line breaks only. -/
theorem line_addsBreaks (hp : p.out.state.compiling = false) (l : LogicalLine) :
    AddsBreaks p.out (p.line h nested l).out := by
  obtain ⟨⟨s, written, failure⟩, place⟩ := p
  have hs : s.compiling = false := hp
  have hs' : (s.track l).compiling = false := hp
  have htrack := track_untouched s l
  cases failure with
  | some failure => exact ⟨.refl s, [], by simp [Progress.line], by simp⟩
  | none =>
    cases hl : l.directive with
    | true =>
      obtain ⟨hinert, hwritten⟩ := skipLine_inert (h := h) (s := s.track l)
        ((s.track l).linePosition l) l.text
      rw [← directiveWith_skipped hs' nested] at hinert hwritten
      simp only [Progress.line, hl, if_true, State.directiveLine]
      generalize (s.track l).directiveWith h nested _ l.text = out at hinert hwritten ⊢
      have hresumed : Inert out.state out.resumed := rfl
      refine ⟨htrack.trans (hinert.trans hresumed).untouched, placeholder h l, ?_,
        placeholder_breaks h l⟩
      rw [hwritten, List.append_nil]
    | false =>
      have hskip : ¬ (s.track l).compiling = true := by simp [hs']
      simp only [Progress.line, hl, Bool.false_eq_true, if_false, if_neg hskip]
      exact ⟨htrack, placeholder h l, rfl, placeholder_breaks h l⟩

/-- **A stretch** of lines that are not compiled adds line breaks only. -/
theorem stretch_addsBreaks {stretch : List LogicalLine}
    (hskipped : ∀ front l back, stretch = front ++ l :: back →
      (front.foldl (Progress.line h nested) p).out.state.compiling = false) :
    AddsBreaks p.out (stretch.foldl (Progress.line h nested) p).out := by
  induction stretch generalizing p with
  | nil => exact ⟨.refl _, [], by simp, by simp⟩
  | cons l rest ih =>
    have hp : p.out.state.compiling = false := hskipped [] l rest rfl
    have hline : AddsBreaks p.out (p.line h nested l).out := line_addsBreaks hp l
    obtain ⟨hfirst, gap, hgap, hbreaks⟩ := hline
    obtain ⟨hmore, gap', hgap', hbreaks'⟩ := ih (p := p.line h nested l)
      fun front l' back hrest => hskipped (l :: front) l' back (by rw [hrest]; rfl)
    refine ⟨hfirst.trans hmore, gap ++ gap', ?_, List.forall_mem_append.2 ⟨hbreaks, hbreaks'⟩⟩
    rw [List.foldl_cons, hgap', hgap, List.append_assoc]

end Stretch

/-- **Text that is not compiled has no effect.** A directive that is handled where lines are not
    compiled leaves the macros, the open files, the output and the line numbers as they are, writes
    nothing and asks for no file: what comes of it does not even depend on what files there are. No
    condition is evaluated and no macro is looked up, unless the line is an `#elif` and the
    innermost group belongs to the file, has had no `#else`, starts where lines are compiled and has
    had no branch taken. Lines are compiled again only after an `#elif`, an `#else` or an `#endif`.
    So when a stretch of the lines of a file is not compiled, processing the file writes only line
    breaks for it, and goes on after it with the macros, files and line numbers that it had
    before it. -/
theorem skipped_text_is_inert (h : Host) :
    (∀ (nested : Option Nested) (s : State) (pos : Position) (line : Bytes), s.compiling = false →
      let out := s.directiveWith h nested pos line
      (out.state.table = s.table ∧ out.state.files = s.files ∧ out.state.output = s.output ∧
        out.state.tracker = s.tracker ∧ out.written = []) ∧
      (out.state.requests = s.requests ∧ ∀ includer nested',
        s.directiveWith { h with includer } nested' pos line = out) ∧
      ((out.state.evaluations = s.evaluations ∧
          ∀ table, State.directiveWith h nested { s with table } pos line =
            { out with state := { out.state with table } }) ∨
        ∃ name c, Announces .elif pos line name c ∧ AsksElif s ∧
          out.state.evaluations = s.evaluations ++ (conditionOutcome s.table c.remaining).1) ∧
      (out.state.compiling = true → ∃ kw name c, Announces kw pos line name c ∧
        (kw = .elif ∨ kw = .otherwise ∨ kw = .endif))) ∧
    ∀ (s : State) (name contents : Bytes) (before stretch after : List LogicalLine),
      logicalLines contents = before ++ stretch ++ after →
      (∀ front l back, stretch = front ++ l :: back →
        (s.progress h name (before ++ front)).out.state.compiling = false) →
      let first := (s.progress h name before).out
      let last := s.progress h name (before ++ stretch)
      (∃ gap, last.out.written = first.written ++ gap ∧ ∀ b ∈ gap, b = newline) ∧
      Untouched first.state last.out.state ∧
      s.process h name contents =
        let out := last.finish h (s.inner h name) after
        { out with state := out.state.closeFile s } := by
  constructor
  · intro nested s pos line hs out
    have hout : out = s.skipLine h (skippedLine pos line) :=
      directiveWith_skipped hs nested pos line
    obtain ⟨hinert, hwritten⟩ := skipLine_inert (h := h) (s := s) pos line
    rw [← hout] at hinert hwritten
    refine ⟨⟨hinert.table, hinert.files, hinert.output, hinert.tracker, hwritten⟩,
      ⟨hinert.requests, fun includer nested' => ?_⟩, ?_, fun hon => ?_⟩
    · rw [directiveWith_skipped hs nested', skipLine_includer includer, hout]
    · rw [hout]
      refine (skipLine_tests (h := h) hs pos line).imp_left ?_
      rintro ⟨hsame, hretabled⟩
      refine ⟨hsame, fun table => ?_⟩
      have hs' : State.compiling { s with table } = false := hs
      exact (directiveWith_skipped hs' nested pos line).trans (hretabled table)
    · exact skipLine_compiling hs (hout ▸ hon)
  · intro s name contents before stretch after hlines hskipped first last
    have hbreaks : AddsBreaks first last.out := by
      simp only [last, progress_append]
      refine stretch_addsBreaks fun front l back hstretch => ?_
      rw [← progress_append]
      exact hskipped front l back hstretch
    exact ⟨hbreaks.2, hbreaks.1, process_eq_finish h s name contents hlines⟩

/-- A group of `A` that is skipped, with a definition in it. -/
def skippedDefinition : Bytes :=
  ascii "#ifdef A\n#define A 1\n#endif\n"

theorem skipped_text_is_inert_definition :
    let lines := logicalLines skippedDefinition
    let start : State :=
      { table := .empty 0 false, branches := { max := 4 }, reporter := { mask := .none } }
    let first := (start.progress echoHost (ascii "main.c") (lines.take 1)).out
    let last := (start.progress echoHost (ascii "main.c") (lines.take 2)).out
    lines[1]?.map LogicalLine.text = some (ascii "#define A 1") ∧ first.state.compiling = false ∧
      (∃ gap, last.written = first.written ++ gap ∧ ∀ b ∈ gap, b = newline) ∧
      last.state.table = first.state.table := by
  intro lines start first last
  have hoff : first.state.compiling = false := by decide +kernel
  have hlines : lines = lines.take 1 ++ (lines.drop 1).take 1 ++ lines.drop 2 := by decide +kernel
  have hlast : lines.take 2 = lines.take 1 ++ (lines.drop 1).take 1 := by decide +kernel
  have hskipped : ∀ front l back, (lines.drop 1).take 1 = front ++ l :: back →
      (start.progress echoHost (ascii "main.c") (lines.take 1 ++ front)).out.state.compiling =
        false := by
    intro front l back hstretch
    have hlength := List.length_take_le 1 (lines.drop 1)
    rw [hstretch, List.length_append, List.length_cons] at hlength
    obtain rfl : front = [] := List.length_eq_zero_iff.1 (by omega)
    rw [List.append_nil]
    exact hoff
  obtain ⟨hgap, htouched, -⟩ := (skipped_text_is_inert echoHost).2 start (ascii "main.c")
    skippedDefinition _ _ _ hlines hskipped
  rw [← hlast] at hgap htouched
  exact ⟨by decide +kernel, hoff, hgap, htouched.table⟩

end Preproc.Engine
