import Preproc.Engine.Start
import Preproc.Proofs.Engine.Structured

set_option autoImplicit false

/-! # Line by line and by structure

Handling the lines of a structured source one by one, with a stack of open groups, comes to the
meaning of the source. What the lines of one tree do is said by `Runs`, which leaves open what
follows them, so that trees can be put together. Trees in skipped text come first (`skip_items`),
then trees in compiled text (`run_items`). -/

namespace Preproc.Engine

open Source (Start simpleLine simpleLines)

/-! ## States inside a file -/

/-- What directives of a structured source read and change. -/
structure Core where
  branches : Branch.Stack
  table : Macro.Table
  evaluations : List Evaluation

/-- A file that is being handled. -/
structure FileRun where
  host : Host
  nested : Option Nested
  name : Bytes
  id : Nat

namespace FileRun

variable (f : FileRun)

/-- What the meaning of the lines of the file depends on. -/
def reading : Reading :=
  ⟨f.host.limits, f.name⟩

/-- The state stands in the file, whose lines are counted as they are, and has a given core. -/
structure Inside (c : Core) (s : State) : Prop where
  tracker : ∃ t, s.tracker = some t ∧ t.name = f.name ∧ t.delta = 0
  fileId : s.fileId = f.id
  branches : s.branches = c.branches
  table : s.table = c.table
  evaluations : s.evaluations = c.evaluations

variable {f} {c c' c'' : Core} {s s' : State}

theorem Inside.of_reported (hs : f.Inside c s)
    (hreported : Reported { s with
      branches := c'.branches, table := c'.table, evaluations := c'.evaluations } s') :
    f.Inside c' s' where
  tracker := by rw [hreported.tracker]; exact hs.tracker
  fileId := by
    rw [← hs.fileId, State.fileId, State.fileId, hreported.files]
  branches := hreported.branches
  table := hreported.table
  evaluations := hreported.evaluations

/-- Reports change nothing that directives read. -/
theorem Inside.reported (hs : f.Inside c s) (hreported : Reported s s') : f.Inside c s' := by
  refine hs.of_reported ?_
  rwa [← hs.branches, ← hs.table, ← hs.evaluations]

theorem Inside.resync (hs : f.Inside c s) (resync : Bool) : f.Inside c { s with resync } :=
  ⟨hs.tracker, hs.fileId, hs.branches, hs.table, hs.evaluations⟩

theorem Inside.track (hs : f.Inside c s) (l : Source.LogicalLine) : f.Inside c (s.track l) := by
  obtain ⟨t, ht, hname, hdelta⟩ := hs.tracker
  refine ⟨⟨{ t with current := l.line, next := l.line + l.count }, ?_, hname, hdelta⟩, hs.fileId,
    hs.branches, hs.table, hs.evaluations⟩
  rw [State.track, ht]
  rfl

theorem Inside.linePosition (hs : f.Inside c s) (start : Start) (line : Bytes) :
    (s.track (simpleLine start line)).linePosition (simpleLine start line) =
      f.reading.position start := by
  obtain ⟨t, ht, hname, hdelta⟩ := hs.tracker
  simp [State.linePosition, State.presentedFile, State.presentedLine, State.track, ht, Tracker.line,
    hname, hdelta, simpleLine, Reading.position, reading]

/-! ## Runs -/

variable (f)

/-- The lines from `start` on take one core to another and write `written`, whatever follows. -/
def Runs (start : Start) (c : Core) (lines : List Bytes) (written : Bytes) (c' : Core) : Prop :=
  ∀ place s, f.Inside c s → ∀ more, ∃ place' s', f.Inside c' s' ∧
    let following := s'.processLines f.host f.nested place' more
    s.processLines f.host f.nested place (simpleLines start lines ++ more) =
      { following with written := written ++ following.written }

variable {f} {start : Start} {line : Bytes} {lines lines' : List Bytes} {written written' : Bytes}

theorem Runs.nil : f.Runs start c [] [] c := by
  intro place s hs more
  exact ⟨place, s, hs, rfl⟩

theorem Runs.append (hruns : f.Runs start c lines written c')
    (hruns' : f.Runs (start.belowAll lines) c' lines' written' c'') :
    f.Runs start c (lines ++ lines') (written ++ written') c'' := by
  intro place s hs more
  rw [Source.simpleLines_append, List.append_assoc]
  obtain ⟨place', s', hs', hfirst⟩ :=
    hruns place s hs (simpleLines (start.belowAll lines) lines' ++ more)
  obtain ⟨place'', s'', hs'', hsecond⟩ := hruns' place' s' hs' more
  refine ⟨place'', s'', hs'', ?_⟩
  rw [hfirst, hsecond]
  simp only [List.append_assoc]

theorem Runs.cons (hruns : f.Runs start c [line] written c')
    (hruns' : f.Runs (start.below line) c' lines written' c'') :
    f.Runs start c (line :: lines) (written ++ written') c'' :=
  hruns.append hruns'

/-! ## Single lines -/

theorem runs_text (hmarkers : f.host.settings.lineMarkers = false)
    (hcompiling : c.branches.compiling = true) (text : TextLine) :
    f.Runs start c [text.bytes] (text.bytes ++ [newline]) c := by
  intro place s hs more
  have hstate : s.compiling = true := by rw [State.compiling, hs.branches, hcompiling]
  rw [simpleLines, simpleLines, List.singleton_append,
    processLines_copied _ _ _ _ _ _ text.plain hstate]
  simp only [hmarkers, Bool.false_eq_true, if_false, List.nil_append]
  exact ⟨_, _, hs.track (simpleLine start text.bytes), rfl⟩

theorem skip_text (hmarkers : f.host.settings.lineMarkers = false)
    (hcompiling : c.branches.compiling = false) (text : TextLine) :
    f.Runs start c [text.bytes] [newline] c := by
  intro place s hs more
  have hstate : s.compiling = false := by rw [State.compiling, hs.branches, hcompiling]
  rw [simpleLines, simpleLines, List.singleton_append,
    processLines_skipped _ _ _ _ _ _ text.plain hstate]
  simp only [placeholder, hmarkers, Bool.false_eq_true, if_false]
  exact ⟨place, _, hs.track (simpleLine start text.bytes), rfl⟩

/-- A directive that changes the core to `c'`, writes nothing and does not end the run. -/
structure Performs (f : FileRun) (c' : Core) (out : Outcome) : Prop where
  inside : f.Inside c' out.state
  written : out.written = []
  fatal : out.isFatal = false

theorem Performs.reported {out : Outcome} (hout : f.Performs c' out) (wasCompiling : Bool)
    (pos : Position) : f.Performs c' ((out.noteSwitch wasCompiling).reported pos) := by
  obtain ⟨resync, hnote⟩ := noteSwitch_effect out wasCompiling
  obtain ⟨hreported, hwritten, -⟩ := reported_effect (out.noteSwitch wasCompiling) pos
  rw [hnote] at hreported hwritten ⊢
  exact ⟨(hout.inside.resync resync).reported hreported, hwritten.trans hout.written,
    (isFatal_reported _ pos).trans hout.fatal⟩

variable {kw : Keyword}

theorem directiveWith_line (h : Host) (nested : Option Nested) (s : State) {pos : Position}
    (hpos : 0 < pos.column) (line : DirectiveLine kw) :
    ∃ cursor, Cursor.SameAhead cursor (line.cursor pos) ∧
      s.directiveWith h nested pos (Source.dropCarriageReturn line.bytes) =
        if !s.compiling && !kw.isConditional then { state := s }
        else
          ((s.dispatch h nested (some kw) ⟨.ident, kw.name, line.keywordPos pos⟩ cursor).noteSwitch
            s.compiling).reported (line.keywordPos pos) := by
  obtain ⟨hsign, hkeyword, hahead⟩ := line.read hpos
  refine ⟨_, hahead, ?_⟩
  unfold State.directiveWith
  dsimp only
  rw [hsign, hkeyword]
  simp only [Bool.not_true, Bool.false_eq_true, if_false, DirectiveLine.ofName?_name,
    Option.any_some]

theorem runs_of_performs (hmarkers : f.host.settings.lineMarkers = false) (line : DirectiveLine kw)
    (hline : ∀ s, f.Inside c s → f.Performs c' (s.directiveWith f.host f.nested
      (f.reading.position start) (Source.dropCarriageReturn line.bytes))) :
    f.Runs start c [line.bytes] [newline] c' := by
  intro place s hs more
  have hout := hline _ (hs.track (simpleLine start line.bytes))
  have hfailure := (directiveWith_effect f.host f.nested (s.track (simpleLine start line.bytes))
    (f.reading.position start) (Source.dropCarriageReturn line.bytes)).fatal
  rw [hout.fatal, Option.isSome_eq_false_iff, Option.isNone_iff_eq_none] at hfailure
  rw [simpleLines, simpleLines, List.singleton_append,
    processLines_directive _ _ _ _ _ _ line.startsDirective_bytes, hs.linePosition]
  have htext : (simpleLine start line.bytes).text = Source.dropCarriageReturn line.bytes := rfl
  dsimp only
  rw [htext, hfailure]
  simp only [hout.written, placeholder, hmarkers, Bool.false_eq_true, if_false, List.append_nil]
  exact ⟨_, _, hout.inside.resync false, rfl⟩

/-- A directive that is carried out. -/
theorem runs_directive (hmarkers : f.host.settings.lineMarkers = false) (line : DirectiveLine kw)
    (hobeyed : c.branches.compiling = true ∨ kw.isConditional = true)
    (hdispatch : ∀ s cursor, f.Inside c s →
      Cursor.SameAhead cursor (f.reading.operands line start) →
      f.Performs c' (s.dispatch f.host f.nested (some kw)
        ⟨.ident, kw.name, line.keywordPos (f.reading.position start)⟩ cursor)) :
    f.Runs start c [line.bytes] [newline] c' := by
  refine runs_of_performs hmarkers line (fun s hs => ?_)
  obtain ⟨cursor, hahead, heq⟩ := directiveWith_line f.host f.nested s
    (f.reading.column_pos start) line
  have hstate : s.compiling = c.branches.compiling := by rw [State.compiling, hs.branches]
  rw [heq, if_neg (by rw [hstate]; rcases hobeyed with h | h <;> simp [h])]
  exact (hdispatch s cursor hs hahead).reported _ _

/-- A directive in skipped text that is not carried out. -/
theorem skip_directive (hmarkers : f.host.settings.lineMarkers = false) (line : DirectiveLine kw)
    (hcompiling : c.branches.compiling = false) (hkw : kw.isConditional = false) :
    f.Runs start c [line.bytes] [newline] c := by
  refine runs_of_performs hmarkers line (fun s hs => ?_)
  obtain ⟨cursor, -, heq⟩ := directiveWith_line f.host f.nested s
    (f.reading.column_pos start) line
  have hstate : s.compiling = false := by rw [State.compiling, hs.branches, hcompiling]
  rw [heq, if_pos (by simp [hstate, hkw])]
  exact ⟨hs, rfl, rfl⟩

/-! ## Definitions -/

theorem parse_sameAhead {cursor cursor' : Cursor} (hahead : cursor.SameAhead cursor')
    (limits : Macro.Limits) : Macro.parse limits cursor = Macro.parse limits cursor' := by
  obtain ⟨hname, hafter, heol⟩ := hahead.nextNonSpace
  unfold Macro.parse Macro.readHead
  dsimp only
  rw [hname, hafter, heol]

theorem runs_define (hmarkers : f.host.settings.lineMarkers = false)
    (hcompiling : c.branches.compiling = true) (line : DirectiveLine .define) :
    f.Runs start c [line.bytes] [newline]
      { c with table := f.reading.defined line start c.table } := by
  refine runs_directive hmarkers line (Or.inl hcompiling) (fun s cursor hs hahead => ?_)
  obtain ⟨hreported, hwritten⟩ := defineDirective_effect f.host s cursor
  have htable : tableAfterDefine f.host.limits s.table cursor =
      f.reading.defined line start c.table := by
    rw [Reading.defined, hs.table, tableAfterDefine, tableAfterDefine, parse_sameAhead hahead]
    rfl
  rw [htable] at hreported
  refine ⟨hs.of_reported ?_, hwritten, ?_⟩
  · rw [← hs.branches, ← hs.evaluations]
    exact hreported
  · show (s.defineDirective f.host cursor).isFatal = false
    unfold State.defineDirective
    rcases s.define f.host cursor with ⟨s', _ | _⟩ <;> rfl

theorem runs_undef (hmarkers : f.host.settings.lineMarkers = false)
    (hcompiling : c.branches.compiling = true) (line : DirectiveLine .undef) :
    f.Runs start c [line.bytes] [newline]
      { c with table := f.reading.undefined line start c.table } := by
  refine runs_directive hmarkers line (Or.inl hcompiling) (fun s cursor hs hahead => ?_)
  obtain ⟨hreported, hwritten⟩ := undefDirective_effect f.host s cursor
  have htable : tableAfterUndef s.table cursor = f.reading.undefined line start c.table := by
    rw [Reading.undefined, hs.table, tableAfterUndef, tableAfterUndef, hahead.nextNonSpace.1]
  rw [htable] at hreported
  refine ⟨hs.of_reported ?_, hwritten, ?_⟩
  · rw [← hs.branches, ← hs.evaluations]
    exact hreported
  · show (s.undefDirective f.host cursor).isFatal = false
    unfold State.undefDirective
    dsimp only
    split
    · rfl
    · split <;> rfl

/-! ## Tests -/

/-- A test that comes to `result` in every state with a given core. -/
def Tests (f : FileRun) (c : Core) (test : State → State × Bool)
    (result : List Evaluation × Bool) : Prop :=
  ∀ s, f.Inside c s →
    f.Inside { c with evaluations := c.evaluations ++ result.1 } (test s).1 ∧
      (test s).2 = result.2

theorem tests_condition {line : DirectiveLine kw} {cursor : Cursor}
    (hahead : cursor.SameAhead (f.reading.operands line start)) (pos : Position)
    (directive : Keyword) :
    f.Tests c (·.test pos directive cursor.remaining) (f.reading.condition line start c.table) := by
  intro s hs
  obtain ⟨hreported, hresult⟩ := test_effect s pos directive cursor.remaining
  have hcondition : f.reading.condition line start c.table =
      conditionOutcome s.table cursor.remaining := by
    rw [Reading.condition, hs.table, hahead.remaining]
  rw [hcondition]
  refine ⟨hs.of_reported ?_, hresult⟩
  rw [← hs.branches, ← hs.table, ← hs.evaluations]
  exact hreported

theorem tests_defined {line : DirectiveLine kw} {cursor : Cursor}
    (hahead : cursor.SameAhead (f.reading.operands line start)) (directive : Keyword) :
    f.Tests c (·.testDefined f.host directive cursor)
      ([], definedOutcome c.table directive (f.reading.operands line start)) := by
  intro s hs
  obtain ⟨hreported, hresult⟩ := testDefined_effect f.host s directive cursor
  rw [hs.table, definedOutcome, hahead.nextNonSpace.1] at hresult
  exact ⟨by rw [List.append_nil]; exact hs.reported hreported, hresult⟩

/-! ## Conditional directives -/

theorem Performs.checkDepth {out : Outcome} (hout : f.Performs c' out) (pos : Position) :
    f.Performs c' { out with state := out.state.checkDepth pos } :=
  ⟨hout.inside.reported (Reported.checkDepth _ pos), hout.written, hout.fatal⟩

theorem performs_settled (hs : f.Inside c s) (pos : Position) (branches : Branch.Stack)
    (test : State → State × Bool) :
    f.Performs { c with branches } (s.branch pos (.settled branches) test) :=
  ⟨⟨hs.tracker, hs.fileId, rfl, hs.table, hs.evaluations⟩, rfl, rfl⟩

theorem performs_asks (hs : f.Inside c s) (pos : Position) (resume : Bool → Branch.Stack)
    {test : State → State × Bool} {result : List Evaluation × Bool}
    (htest : f.Tests c test result) :
    f.Performs ⟨resume result.2, c.table, c.evaluations ++ result.1⟩
      (s.branch pos (.asks resume) test) := by
  obtain ⟨hafter, hresult⟩ := htest s hs
  refine ⟨⟨hafter.tracker, hafter.fileId, ?_, hafter.table, hafter.evaluations⟩, rfl, rfl⟩
  rw [← hresult]
  rfl

theorem performs_close (hs : f.Inside c s) (pos : Position) (kw : Keyword) (cursor : Cursor)
    (branches : Branch.Stack) :
    f.Performs { c with branches } (s.close f.host pos kw cursor (.ok branches)) := by
  have hswitched : f.Inside { c with branches } { s with branches } :=
    ⟨hs.tracker, hs.fileId, rfl, hs.table, hs.evaluations⟩
  exact ⟨hswitched.reported (close_ok_reported f.host s pos kw cursor branches), rfl, rfl⟩

theorem performs_enter (hs : f.Inside c s) (hcompiling : c.branches.compiling = true)
    (hdepth : (c.branches.depth : Int) < c.branches.max) (pos : Position)
    {test : State → State × Bool} {result : List Evaluation × Bool}
    (htest : f.Tests c test result) :
    f.Performs ⟨c.branches.push pos f.id result.2, c.table, c.evaluations ++ result.1⟩
      (s.branch pos (s.branches.enter pos s.fileId) test) := by
  rw [hs.branches, hs.fileId, Branch.Stack.enter, if_neg (Int.not_le.2 hdepth), if_pos hcompiling]
  exact performs_asks hs pos _ htest

theorem performs_enter_skipped (hs : f.Inside c s) (hcompiling : c.branches.compiling = false)
    (hdepth : (c.branches.depth : Int) < c.branches.max) (pos : Position)
    (test : State → State × Bool) :
    f.Performs { c with branches := c.branches.push pos f.id false }
      (s.branch pos (s.branches.enter pos s.fileId) test) := by
  rw [hs.branches, hs.fileId, Branch.Stack.enter, if_neg (Int.not_le.2 hdepth), hcompiling]
  exact performs_settled hs pos _ test

theorem runs_opening (hmarkers : f.host.settings.lineMarkers = false)
    (hcompiling : c.branches.compiling = true)
    (hdepth : (c.branches.depth : Int) < c.branches.max) (opening : Opening)
    (start : Start) :
    let result := f.reading.test opening start c.table
    let pos := opening.keywordPos (f.reading.position start)
    f.Runs start c [opening.bytes] [newline]
      ⟨c.branches.push pos f.id result.2, c.table, c.evaluations ++ result.1⟩ := by
  cases opening with
  | ifTrue line =>
    refine runs_directive hmarkers line (Or.inr rfl) (fun s cursor hs hahead => ?_)
    exact (performs_enter hs hcompiling hdepth _ (tests_condition hahead _ _)).checkDepth _
  | ifdef line =>
    refine runs_directive hmarkers line (Or.inr rfl) (fun s cursor hs hahead => ?_)
    exact (performs_enter hs hcompiling hdepth _ (tests_defined hahead _)).checkDepth _
  | ifndef line =>
    refine runs_directive hmarkers line (Or.inr rfl) (fun s cursor hs hahead => ?_)
    exact (performs_enter hs hcompiling hdepth _ (tests_defined hahead _)).checkDepth _

theorem skip_opening (hmarkers : f.host.settings.lineMarkers = false)
    (hcompiling : c.branches.compiling = false)
    (hdepth : (c.branches.depth : Int) < c.branches.max) (opening : Opening)
    (start : Start) :
    let pos := opening.keywordPos (f.reading.position start)
    f.Runs start c [opening.bytes] [newline]
      { c with branches := c.branches.push pos f.id false } := by
  cases opening with
  | ifTrue line | ifdef line | ifndef line =>
    refine runs_directive hmarkers line (Or.inr rfl) (fun s cursor hs hahead => ?_)
    exact (performs_enter_skipped hs hcompiling hdepth _ _).checkDepth _

variable {frame : Branch.Frame} {outer : List Branch.Frame}

theorem runs_elif (hmarkers : f.host.settings.lineMarkers = false)
    (hgroup : c.branches.InGroup f.id frame outer)
    (hneeded : (frame.wasCompiling && !frame.trueSeen) = true) (line : DirectiveLine .elif)
    (start : Start) :
    let result := f.reading.condition line start c.table
    f.Runs start c [line.bytes] [newline]
      ⟨c.branches.switch { frame with trueSeen := result.2 } outer result.2, c.table,
        c.evaluations ++ result.1⟩ := by
  refine runs_directive hmarkers line (Or.inr rfl) (fun s cursor hs hahead => ?_)
  rw [State.dispatch, hs.branches, hs.fileId, hgroup.elif_asks hneeded]
  exact performs_asks hs _
    (fun taken => c.branches.switch { frame with trueSeen := taken } outer taken)
    (tests_condition hahead _ _)

theorem skip_elif (hmarkers : f.host.settings.lineMarkers = false)
    (hgroup : c.branches.InGroup f.id frame outer)
    (hneeded : (frame.wasCompiling && !frame.trueSeen) = false) (line : DirectiveLine .elif)
    (start : Start) :
    f.Runs start c [line.bytes] [newline]
      { c with branches := c.branches.switch frame outer false } := by
  refine runs_directive hmarkers line (Or.inr rfl) (fun s cursor hs hahead => ?_)
  rw [State.dispatch, hs.branches, hs.fileId, hgroup.elif_settled hneeded]
  exact performs_settled hs _ _ _

theorem runs_otherwise (hmarkers : f.host.settings.lineMarkers = false)
    (hgroup : c.branches.InGroup f.id frame outer) (line : DirectiveLine .otherwise)
    (start : Start) :
    let last := frame.atElse (line.keywordPos (f.reading.position start))
    f.Runs start c [line.bytes] [newline]
      { c with branches :=
        c.branches.switch last outer (frame.wasCompiling && !frame.trueSeen) } := by
  refine runs_directive hmarkers line (Or.inr rfl) (fun s cursor hs hahead => ?_)
  rw [State.dispatch, hs.branches, hs.fileId, hgroup.otherwise_ok]
  exact performs_close hs _ _ _ _

theorem runs_endif (hmarkers : f.host.settings.lineMarkers = false)
    (hframes : c.branches.frames = frame :: outer) (hfile : frame.file = f.id)
    (line : DirectiveLine .endif) (start : Start) :
    f.Runs start c [line.bytes] [newline]
      { c with branches := c.branches.leave frame outer } := by
  refine runs_directive hmarkers line (Or.inr rfl) (fun s cursor hs hahead => ?_)
  rw [State.dispatch, hs.branches, hs.fileId, Branch.Stack.endif_ok hframes hfile]
  exact performs_close hs _ _ _ _

/-! ## Skipped text -/

mutual

/-- In skipped text, every line leaves an empty line, and nothing changes. -/
theorem skip_items (hmarkers : f.host.settings.lineMarkers = false) (items : Items) {c : Core}
    (hcompiling : c.branches.compiling = false)
    (hdepth : (c.branches.depth + items.depth : Int) ≤ c.branches.max) (start : Start) :
    f.Runs start c items.lines (emptyLines items.lines) c := by
  cases items with
  | nil => exact .nil
  | text line rest =>
    exact (skip_text hmarkers hcompiling line).cons (skip_items hmarkers rest hcompiling hdepth _)
  | define line rest =>
    exact (skip_directive hmarkers line hcompiling rfl).cons
      (skip_items hmarkers rest hcompiling hdepth _)
  | undef line rest =>
    exact (skip_directive hmarkers line hcompiling rfl).cons
      (skip_items hmarkers rest hcompiling hdepth _)
  | group opening body branches rest =>
    simp only [Items.depth] at hdepth
    have hopening := skip_opening hmarkers hcompiling (by omega) opening start
    generalize opening.keywordPos (f.reading.position start) = pos at hopening
    have hbody := skip_items hmarkers body
      (c := { c with branches := c.branches.push pos f.id false }) rfl
      (by show (c.branches.depth + 1 + _ : Int) ≤ c.branches.max; omega) (start.below opening.bytes)
    have hbranches := skip_branches hmarkers branches
      (c := { c with branches := c.branches.push pos f.id false }) ⟨rfl, rfl, rfl⟩
      (by simp [hcompiling]) (by show (c.branches.depth + 1 + _ : Int) ≤ c.branches.max; omega)
      ((start.below opening.bytes).belowAll body.lines)
    have hrest := skip_items hmarkers rest hcompiling (by omega)
      (((start.below opening.bytes).belowAll body.lines).belowAll branches.lines)
    rw [Items.lines, emptyLines_cons, emptyLines_append, emptyLines_append]
    exact hopening.cons (hbody.append (hbranches.append hrest))

/-- In a group in which no more branch is taken, every line leaves an empty line. -/
theorem skip_branches (hmarkers : f.host.settings.lineMarkers = false) (branches : Branches)
    {c : Core} {frame : Branch.Frame} {outer : List Branch.Frame}
    (hgroup : c.branches.InGroup f.id frame outer)
    (hclosed : (frame.wasCompiling && !frame.trueSeen) = false)
    (hdepth : (outer.length + 1 + branches.depth : Int) ≤ c.branches.max) (start : Start) :
    f.Runs start c branches.lines (emptyLines branches.lines)
      { c with branches := c.branches.leave frame outer } := by
  cases branches with
  | endif line => exact runs_endif hmarkers hgroup.frames hgroup.file line start
  | otherwise line body close =>
    have hline := runs_otherwise hmarkers hgroup line start
    rw [hclosed] at hline
    generalize line.keywordPos (f.reading.position start) = pos at hline
    have hbody := skip_items hmarkers body
      (c := { c with branches := c.branches.switch (frame.atElse pos) outer false }) rfl hdepth
      (start.below line.bytes)
    have hclose := runs_endif
      (c := { c with branches := c.branches.switch (frame.atElse pos) outer false }) hmarkers rfl
      hgroup.file close ((start.below line.bytes).belowAll body.lines)
    rw [Branches.lines, emptyLines_cons, emptyLines_append]
    exact hline.cons (hbody.append hclose)
  | elif line body rest =>
    simp only [Branches.depth] at hdepth
    have hline := skip_elif hmarkers hgroup hclosed line start
    have hbody := skip_items hmarkers body
      (c := { c with branches := c.branches.switch frame outer false }) rfl
      (by show (outer.length + 1 + _ : Int) ≤ c.branches.max; omega) (start.below line.bytes)
    have hrest := skip_branches hmarkers rest
      (c := { c with branches := c.branches.switch frame outer false })
      ⟨rfl, hgroup.file, hgroup.undecided⟩ hclosed (by show _ ≤ c.branches.max; omega)
      ((start.below line.bytes).belowAll body.lines)
    rw [Branches.lines, emptyLines_cons, emptyLines_append]
    exact hline.cons (hbody.append hrest)

end

/-! ## Compiled text -/

variable {stack stack' stack'' : Branch.Stack} {frame : Branch.Frame} {outer : List Branch.Frame}
  {table : Macro.Table} {m : Meaning}

/-- The lines from `start` on mean `m`, and take the groups from `stack` to `stack'`. -/
def Means (f : FileRun) (start : Start) (stack : Branch.Stack) (table : Macro.Table)
    (lines : List Bytes) (m : Meaning) (stack' : Branch.Stack) : Prop :=
  ∀ evaluations, f.Runs start ⟨stack, table, evaluations⟩ lines m.written
    ⟨stack', m.table, evaluations ++ m.evaluations⟩

/-- Lines that evaluate no condition. -/
theorem means_of_runs {table' : Macro.Table}
    (hruns : ∀ evaluations, f.Runs start ⟨stack, table, evaluations⟩ lines written
      ⟨stack', table', evaluations⟩) :
    f.Means start stack table lines ⟨written, table', []⟩ stack' := by
  intro evaluations
  rw [List.append_nil]
  exact hruns evaluations

theorem Means.andThen (hm : f.Means start stack table lines m stack') (next : Macro.Table → Meaning)
    (hnext : f.Means (start.belowAll lines) stack' m.table lines' (next m.table) stack'') :
    f.Means start stack table (lines ++ lines') (m.andThen next) stack'' := by
  intro evaluations
  have hboth := (hm evaluations).append (hnext (evaluations ++ m.evaluations))
  rw [List.append_assoc] at hboth
  exact hboth

theorem Means.cons (hm : f.Means start stack table [line] m stack') {next : Macro.Table → Meaning}
    (hnext : f.Means (start.below line) stack' m.table lines' (next m.table) stack'') :
    f.Means start stack table (line :: lines') (m.andThen next) stack'' :=
  hm.andThen next hnext

theorem dropped_items (hmarkers : f.host.settings.lineMarkers = false) (items : Items)
    (hcompiling : stack.compiling = false)
    (hdepth : (stack.depth + items.depth : Int) ≤ stack.max) (start : Start) (table : Macro.Table) :
    f.Means start stack table items.lines (.dropped table items.lines) stack :=
  means_of_runs fun evaluations =>
    skip_items hmarkers items (c := ⟨stack, table, evaluations⟩) hcompiling hdepth start

theorem dropped_branches (hmarkers : f.host.settings.lineMarkers = false) (branches : Branches)
    (hgroup : stack.InGroup f.id frame outer)
    (hclosed : (frame.wasCompiling && !frame.trueSeen) = false)
    (hdepth : (outer.length + 1 + branches.depth : Int) ≤ stack.max) (start : Start)
    (table : Macro.Table) :
    f.Means start stack table branches.lines (.dropped table branches.lines)
      (stack.leave frame outer) :=
  means_of_runs fun evaluations =>
    skip_branches hmarkers branches (c := ⟨stack, table, evaluations⟩) hgroup hclosed hdepth start

/-- A branch whose test is made: if it is taken, the rest of the group is skipped, else the branch
    is. -/
theorem run_choice (hmarkers : f.host.settings.lineMarkers = false) {body : Items} {rest : Branches}
    {taken : Bool} (hgroup : stack.InGroup f.id frame outer) (htaken : stack.compiling = taken)
    (hseen : frame.trueSeen = taken)
    (hdepth : (outer.length + 1 + max body.depth rest.depth : Int) ≤ stack.max)
    (hbody : taken = true →
      f.Means start stack table body.lines (f.reading.items start table body) stack)
    (hrest : taken = false →
      f.Means (start.belowAll body.lines) stack table rest.lines
        (f.reading.branches (start.belowAll body.lines) table rest) (stack.leave frame outer)) :
    f.Means start stack table (body.lines ++ rest.lines)
      (.choose taken table (fun table => f.reading.items start table body)
        (fun table => f.reading.branches (start.belowAll body.lines) table rest)
        body.lines rest.lines)
      (stack.leave frame outer) := by
  have hstack : stack.depth = outer.length + 1 := by
    rw [Branch.Stack.depth, hgroup.frames]
    rfl
  unfold Meaning.choose
  cases taken with
  | true =>
    rw [if_pos rfl]
    refine (hbody rfl).andThen _ ?_
    exact dropped_branches hmarkers rest hgroup (by simp [hseen]) (by omega) _ _
  | false =>
    rw [if_neg Bool.false_ne_true]
    exact (dropped_items hmarkers body htaken (by omega) start table).andThen _ (hrest rfl)

mutual

/-- Compiled lines do what the tree means and leave the groups as they were. -/
theorem run_items (hmarkers : f.host.settings.lineMarkers = false) (items : Items)
    (stack : Branch.Stack) (hcompiling : stack.compiling = true)
    (hdepth : (stack.depth + items.depth : Int) ≤ stack.max) (start : Start) (table : Macro.Table) :
    f.Means start stack table items.lines (f.reading.items start table items) stack := by
  cases items with
  | nil => exact means_of_runs fun _ => .nil
  | text line rest =>
    rw [Items.lines, Reading.items]
    exact .cons (means_of_runs fun _ => runs_text hmarkers hcompiling line)
      (run_items hmarkers rest stack hcompiling hdepth _ _)
  | define line rest =>
    rw [Items.lines, Reading.items]
    exact .cons (means_of_runs fun _ => runs_define hmarkers hcompiling line)
      (run_items hmarkers rest stack hcompiling hdepth _ _)
  | undef line rest =>
    rw [Items.lines, Reading.items]
    exact .cons (means_of_runs fun _ => runs_undef hmarkers hcompiling line)
      (run_items hmarkers rest stack hcompiling hdepth _ _)
  | group opening body branches rest =>
    simp only [Items.depth] at hdepth
    have hopening : f.Means start stack table [opening.bytes]
        ⟨[newline], table, (f.reading.test opening start table).1⟩
        (stack.push (opening.keywordPos (f.reading.position start)) f.id
          (f.reading.test opening start table).2) := fun evaluations =>
      runs_opening (c := ⟨stack, table, evaluations⟩) hmarkers hcompiling
        (by show (stack.depth : Int) < stack.max; omega) opening start
    rw [Items.lines, Reading.items, ← List.append_assoc, ← List.cons_append]
    -- from here on only the outcome of the test matters
    generalize opening.keywordPos (f.reading.position start) = pos at hopening
    generalize f.reading.test opening start table = test at hopening ⊢
    have hgroup : (stack.push pos f.id test.2).InGroup f.id
        { wasCompiling := stack.compiling, trueSeen := test.2, ifPos := pos, file := f.id }
        stack.frames := ⟨rfl, rfl, rfl⟩
    have hchoice := run_choice hmarkers hgroup rfl rfl
      (by show (stack.depth + 1 + _ : Int) ≤ stack.max; omega)
      (fun htaken => run_items hmarkers body _ htaken
        (by show (stack.depth + 1 + _ : Int) ≤ stack.max; omega) (start.below opening.bytes) table)
      (fun htaken => run_branches hmarkers branches hgroup
        (by rw [hcompiling, show test.2 = false from htaken]; rfl)
        (by show (stack.depth + 1 + _ : Int) ≤ stack.max; omega) _ table)
    refine (hopening.cons hchoice).andThen _ ?_
    rw [Start.belowAll_cons, Start.belowAll_append]
    exact run_items hmarkers rest stack hcompiling (by omega) _ _

/-- The branches of a group in which none was taken do what they mean and close the group. -/
theorem run_branches (hmarkers : f.host.settings.lineMarkers = false) (branches : Branches)
    {stack : Branch.Stack} {frame : Branch.Frame} {outer : List Branch.Frame}
    (hgroup : stack.InGroup f.id frame outer)
    (hneeded : (frame.wasCompiling && !frame.trueSeen) = true)
    (hdepth : (outer.length + 1 + branches.depth : Int) ≤ stack.max) (start : Start)
    (table : Macro.Table) :
    f.Means start stack table branches.lines (f.reading.branches start table branches)
      (stack.leave frame outer) := by
  cases branches with
  | endif line =>
    exact means_of_runs fun _ => runs_endif hmarkers hgroup.frames hgroup.file line start
  | otherwise line body close =>
    have hline : f.Means start stack table [line.bytes] ⟨[newline], table, []⟩
        (stack.switch (frame.atElse (line.keywordPos (f.reading.position start))) outer true) := by
      refine means_of_runs fun evaluations => ?_
      rw [← hneeded]
      exact runs_otherwise (c := ⟨stack, table, evaluations⟩) hmarkers hgroup line start
    generalize line.keywordPos (f.reading.position start) = pos at hline
    have hclose : ∀ table start, f.Means start (stack.switch (frame.atElse pos) outer true) table
        [close.bytes] ⟨[newline], table, []⟩ (stack.leave frame outer) := fun table start =>
      means_of_runs fun evaluations => runs_endif
        (c := ⟨stack.switch (frame.atElse pos) outer true, table, evaluations⟩) hmarkers rfl
        hgroup.file close start
    have hbody : ∀ start, f.Means start (stack.switch (frame.atElse pos) outer true) table
        body.lines
        (f.reading.items start table body) (stack.switch (frame.atElse pos) outer true) :=
      fun start => run_items hmarkers body (stack.switch _ _ _) rfl hdepth start table
    rw [Branches.lines, Reading.branches]
    exact hline.cons ((hbody _).andThen _ (hclose _ _))
  | elif line body rest =>
    rw [Branches.depth] at hdepth
    have hline : f.Means start stack table [line.bytes]
        ⟨[newline], table, (f.reading.condition line start table).1⟩
        (stack.switch { frame with trueSeen := (f.reading.condition line start table).2 } outer
          (f.reading.condition line start table).2) := fun evaluations =>
      runs_elif (c := ⟨stack, table, evaluations⟩) hmarkers hgroup hneeded line start
    rw [Branches.lines, Reading.branches]
    generalize f.reading.condition line start table = test at hline ⊢
    have hgroup' : (stack.switch { frame with trueSeen := test.2 } outer test.2).InGroup f.id
        { frame with trueSeen := test.2 } outer := ⟨rfl, hgroup.file, hgroup.undecided⟩
    rw [Bool.and_eq_true] at hneeded
    have hchoice := run_choice hmarkers hgroup' rfl rfl (by show _ ≤ stack.max; omega)
      (fun htaken => run_items hmarkers body _ htaken
        (by show (outer.length + 1 + _ : Int) ≤ stack.max; omega) (start.below line.bytes) table)
      (fun htaken => run_branches hmarkers rest hgroup'
        (by rw [hneeded.1, show test.2 = false from htaken]; rfl)
        (by show _ ≤ stack.max; omega) _ table)
    exact hline.cons hchoice

end

end FileRun

/-! ## Runs of structured sources -/

theorem Opening.simple (opening : Opening) : Source.SimpleLine opening.bytes := by
  cases opening with
  | ifTrue line | ifdef line | ifndef line => exact line.simple

mutual

theorem Items.simple (items : Items) : ∀ line ∈ items.lines, Source.SimpleLine line := by
  cases items with
  | nil => simp [Items.lines]
  | text line rest => exact List.forall_mem_cons.2 ⟨line.simple, rest.simple⟩
  | define line rest | undef line rest =>
    exact List.forall_mem_cons.2 ⟨line.simple, rest.simple⟩
  | group opening body branches rest =>
    refine List.forall_mem_cons.2 ⟨opening.simple, List.forall_mem_append.2 ⟨body.simple, ?_⟩⟩
    exact List.forall_mem_append.2 ⟨branches.simple, rest.simple⟩

theorem Branches.simple (branches : Branches) :
    ∀ line ∈ branches.lines, Source.SimpleLine line := by
  cases branches with
  | endif line => exact List.forall_mem_singleton.2 line.simple
  | otherwise line body close =>
    refine List.forall_mem_cons.2 ⟨line.simple, List.forall_mem_append.2 ⟨body.simple, ?_⟩⟩
    exact List.forall_mem_singleton.2 close.simple
  | elif line body rest =>
    exact List.forall_mem_cons.2 ⟨line.simple, List.forall_mem_append.2 ⟨body.simple, rest.simple⟩⟩

end

/-- **Handling a structured source line by line comes to its meaning**: the same text is written,
    the same macros are there in the end, and the same conditions are evaluated in the same
    order. -/
theorem run_eq_meaning (h : Host) (s : State) (name : Bytes) (items : Items)
    (hmarkers : h.settings.lineMarkers = false) (hdepth : (items.depth : Int) ≤ s.branches.max) :
    let run := s.run h name items.source
    let meaning := (Reading.mk h.limits name).items {} s.table items
    run.1.written = meaning.written ∧ run.1.state.table = meaning.table ∧
      run.1.state.evaluations = s.evaluations ++ meaning.evaluations ∧ run.2.aborted = false := by
  intro run meaning
  let opened := { s with branches := s.branches.reset, files := [], resync := false }.openFile name
  let f : FileRun := ⟨h, nestedProcess h (opened.levelsLeft h), name, s.opened + 1⟩
  have hinside : f.Inside ⟨s.branches.reset, s.table, s.evaluations⟩ opened :=
    ⟨⟨{ name }, rfl, rfl, rfl⟩, rfl, rfl, rfl, rfl⟩
  have hmeans := FileRun.run_items (f := f) hmarkers items s.branches.reset rfl
    (by show ((0 : Nat) + _ : Int) ≤ s.branches.max; omega) {} s.table s.evaluations
  obtain ⟨place, final, hfinal, hlines⟩ := hmeans {} opened hinside []
  have hgroups : final.closeGroups = final := closeGroups_of_nil (by rw [hfinal.branches]; rfl)
  have hout : opened.processLines h f.nested {} (Source.logicalLines items.source) =
      { state := final, written := meaning.written } := by
    rw [Items.source, Source.logicalLines_sourceOf items.simple,
      ← List.append_nil (simpleLines _ _),
      hlines, State.processLines, hgroups, List.append_nil]
    rfl
  exact ⟨congrArg Outcome.written hout, (congrArg (·.state.table) hout).trans hfinal.table,
    (congrArg (·.state.evaluations) hout).trans hfinal.evaluations,
    congrArg (·.failure.isSome) hout⟩

/-- A group in the second branch of another one: only its last branch is read. -/
def nestedSource : Items :=
  .define (.ofOperands .define (ascii " A 1") (by decide)) <|
  .group (.ifndef (.ofOperands .ifndef (ascii " A") (by decide)))
    (.define (.ofOperands .define (ascii " B") (by decide)) .nil)
    (.otherwise (.ofOperands .otherwise [] (by decide))
      (.group (.ifdef (.ofOperands .ifdef (ascii " B") (by decide)))
        (.text ⟨ascii "first", by decide, by decide⟩ .nil)
        (.otherwise (.ofOperands .otherwise [] (by decide))
          (.undef (.ofOperands .undef (ascii " A") (by decide))
            (.text ⟨ascii "second", by decide, by decide⟩ .nil))
          (.ofOperands .endif [] (by decide)))
        .nil)
      (.ofOperands .endif [] (by decide))) <|
  .group (.ifdef (.ofOperands .ifdef (ascii " A") (by decide)))
    (.text ⟨ascii "third", by decide, by decide⟩ .nil)
    (.endif (.ofOperands .endif [] (by decide)))
    (.text ⟨ascii "fourth", by decide, by decide⟩ .nil)

theorem run_eq_meaning_nested :
    let h : Host := ⟨{}, none⟩
    h.settings.lineMarkers = false ∧ (nestedSource.depth : Int) ≤ h.emptyState.branches.max ∧
      (h.emptyState.run h (ascii "a.c") nestedSource.source).1.written =
        ascii "\n\n\n\n\n\n\n\nsecond\n\n\n\n\n\nfourth\n" := by
  intro h
  obtain ⟨hwritten, -⟩ := run_eq_meaning h h.emptyState (ascii "a.c") nestedSource rfl (by decide)
  exact ⟨rfl, by decide, hwritten.trans (by decide +kernel)⟩

end Preproc.Engine
