import Mathlib.Logic.Relation
import Preproc.Proofs.Engine.SingleFile
import Preproc.Proofs.Engine.TableEdits
import Preproc.Proofs.Source.Reading

set_option autoImplicit false

/-! # The stack of included files

Here a run is a machine that handles one line after the other and keeps the files that wait for an
included one on a stack. No number of levels bounds it: an include directive opens a file whenever
the open files leave room for one. Whatever files there are, the machine comes to its end, with what
`State.run` gives, and never has more files open than it may (`run_ends_within_depth`). -/

namespace Preproc.Engine

open Source (LogicalLine logicalLines)

/-! ## Include directives -/

/-- Whether one more file may be opened. -/
def State.hasRoom (h : Host) (s : State) : Bool :=
  s.files.length < h.settings.maxIncludeDepth

/-- A file that an include directive opens. -/
structure Inclusion where
  /-- The state with the request noted. -/
  state : State
  path : Bytes
  contents : Bytes
  /-- The place of the directive. -/
  pos : Position

/-- The file that the operands at `c` name, if it is found. -/
def State.found? (find : Includer) (s : State) (pos : Position) (c : Cursor) : Option Inclusion :=
  match includeName pos c.remaining with
  | .error _ => none
  | .ok (name, system) =>
    match find name s.file system with
    | .error _ => none
    | .ok (path, contents) =>
      some ⟨{ s with requests := s.requests ++ [⟨name, s.file, system⟩] }, path, contents, pos⟩

/-- The file that a line opens, if it is an include directive that opens one. -/
def State.inclusion? (h : Host) (s : State) (pos : Position) (line : Bytes) : Option Inclusion :=
  let (hash, c) := (Cursor.ofText pos line).nextNonSpace
  let (name, c) := c.nextNonSpace
  if hash.is .hash = true ∧ name.kind = .ident ∧ Keyword.ofName? name.text = some .includeFile ∧
      s.compiling = true ∧ s.hasRoom h = true then
    h.includer.bind (s.found? · name.pos c)
  else none

/-- What an include directive leaves when included files are processed by `process`. -/
def Inclusion.through (o : Inclusion) (process : Nested) : Outcome :=
  let out := process o.state o.path o.contents
  { out with state := { out.state with resync := true } }

section Inclusion

variable {h : Host} {s : State} {o : Inclusion} {pos : Position} {c : Cursor} {line : Bytes}

theorem found?_state {find : Includer} (ho : s.found? find pos c = some o) :
    ∃ requests, o.state = { s with requests } := by
  unfold State.found? at ho
  grind

theorem include_of_found {find : Includer} (ho : s.found? find pos c = some o) (process : Nested) :
    s.include h (some process) find pos c = o.through process ∧ o.pos = pos := by
  unfold State.found? at ho
  unfold State.include
  grind [Inclusion.through]

theorem include_of_not_found {find : Includer} (ho : s.found? find pos c = none)
    (process process' : Nested) :
    s.include h (some process) find pos c = s.include h (some process') find pos c := by
  unfold State.found? at ho
  unfold State.include
  grind

/-- Only include directives process files. -/
theorem external_nested {kw : Option Keyword} (hkw : kw ≠ some .includeFile)
    (nested nested' : Option Nested) (name : Bytes) :
    s.external h nested kw name pos c = s.external h nested' kw name pos c := by
  unfold State.external
  cases h.includer with
  | none => rfl
  | some find =>
    dsimp only
    split
    · exact absurd rfl hkw
    all_goals rfl

theorem dispatch_nested {kw : Option Keyword} (hkw : kw ≠ some .includeFile)
    (nested nested' : Option Nested) (name : Token) :
    s.dispatch h nested kw name c = s.dispatch h nested' kw name c := by
  unfold State.dispatch
  dsimp only
  split
  case h_9 => exact external_nested hkw nested nested' name.text
  all_goals rfl

/-- A line that opens a file does so by its operands. -/
theorem inclusion?_eq_some (ho : s.inclusion? h pos line = some o) :
    ∃ name c find, Announces .includeFile pos line name c ∧ s.compiling = true ∧
      s.hasRoom h = true ∧ h.includer = some find ∧ s.found? find name.pos c = some o := by
  unfold State.inclusion? at ho
  dsimp only at ho
  split at ho
  · next hline =>
    obtain ⟨hsign, hident, hkeyword, hcompiling, hroom⟩ := hline
    obtain ⟨find, hfind, hfound⟩ := Option.bind_eq_some_iff.1 ho
    exact ⟨_, _, find, ⟨hsign, rfl, hident, hkeyword⟩, hcompiling, hroom, hfind, hfound⟩
  · exact absurd ho (by simp)

/-- A file is opened in the state of its directive, but for the request. -/
theorem inclusion?_state (ho : s.inclusion? h pos line = some o) :
    ∃ requests, o.state = { s with requests } := by
  obtain ⟨name, c, find, -, -, -, -, hfound⟩ := inclusion?_eq_some ho
  exact found?_state hfound

theorem hasRoom_of_inclusion? (ho : s.inclusion? h pos line = some o) : s.hasRoom h = true := by
  obtain ⟨name, c, find, -, -, hroom, -⟩ := inclusion?_eq_some ho
  exact hroom

theorem directiveWith_inclusion (ho : s.inclusion? h pos line = some o) (process : Nested) :
    s.directiveWith h (some process) pos line =
      ((o.through process).noteSwitch true).reported o.pos := by
  obtain ⟨name, c, find, ha, hcompiling, -, hfind, hfound⟩ := inclusion?_eq_some ho
  obtain ⟨hthrough, hpos⟩ := include_of_found (h := h) hfound process
  rw [ha.directiveWith h _ hcompiling, hpos, ← hthrough]
  simp only [State.dispatch, State.external, hfind]

/-- A line that opens no file does not depend on how files are processed. -/
theorem directiveWith_no_inclusion (ho : s.inclusion? h pos line = none)
    (hroom : s.hasRoom h = true) (process process' : Nested) :
    s.directiveWith h (some process) pos line = s.directiveWith h (some process') pos line := by
  unfold State.inclusion? at ho
  unfold State.directiveWith
  dsimp only at ho ⊢
  split
  · rfl
  · next hsign =>
    split
    · rfl
    · next hident =>
      split
      · rfl
      · next hskipped =>
        by_cases hkw : Keyword.ofName?
            (Cursor.ofText pos line).nextNonSpace.2.nextNonSpace.1.text = some .includeFile
        · have hcompiling : s.compiling = true := by
            rw [hkw] at hskipped
            simpa [Keyword.isConditional] using hskipped
          rw [if_pos ⟨by simpa using hsign, hident, hkw, hcompiling, hroom⟩] at ho
          rw [hkw]
          simp only [State.dispatch, State.external]
          cases hfind : h.includer with
          | none => rfl
          | some find =>
            rw [hfind] at ho
            dsimp only
            rw [include_of_not_found ho process process']
        · rw [dispatch_nested hkw (some process) (some process')]
    · rw [external_nested (by simp) (some process) (some process')]
    · rfl

end Inclusion

/-! ## The machine -/

/-- A file whose lines are being handled. -/
structure Activation where
  /-- Where its output stands. -/
  place : OutputPlace
  /-- The lines that are still to be handled. -/
  rest : List LogicalLine
  /-- The state in which it was opened. -/
  outer : State
  /-- The place of the directive that opened it. -/
  pos : Position

/-- What came of a run so far, and the open files, innermost first. -/
structure Config where
  out : Outcome
  active : List Activation

/-- The configuration in which a run handles its first line. -/
def Config.load (s : State) (name contents : Bytes) : Config where
  out := { state := s.entered name }
  active := [⟨{}, logicalLines contents,
    { s with branches := s.branches.reset, files := [], resync := false }, {}⟩]

/-- Close a file. The include directive that opened it ends with it. -/
def Activation.leave (a : Activation) (below : List Activation) (out : Outcome) : Config :=
  match below with
  | [] => ⟨{ out with state := out.state.closeFile a.outer }, []⟩
  | b :: below =>
    let state := { out.state.closeFile a.outer with resync := true }
    let out := (Outcome.noteSwitch { out with state } true).reported a.pos
    ⟨{ out with state := out.resumed }, { b with place := b.place.after out.state } :: below⟩

/-- Processing of included files for directives that open none. -/
def State.idle (h : Host) (s : State) : Option Nested :=
  if s.hasRoom h then some fun s _ _ => { state := s } else none

/-- Handle a line of the file `a`, after which the lines in `a` are left. -/
def Activation.handle (h : Host) (a : Activation) (below : List Activation) (s : State)
    (written : Bytes) (l : LogicalLine) : Config :=
  if l.directive then
    let s := s.track l
    match s.inclusion? h (s.linePosition l) l.text with
    | some o =>
      ⟨{ state := o.state.openFile o.path, written := written ++ placeholder h l },
        ⟨{}, logicalLines o.contents, o.state, o.pos⟩ :: a :: below⟩
    | none =>
      let out := s.directiveWith h (s.idle h) (s.linePosition l) l.text
      ⟨{ out with state := out.resumed, written := written ++ placeholder h l ++ out.written },
        { a with place := a.place.after out.state } :: below⟩
  else
    let s := s.track l
    if s.compiling then
      let file := s.presentedFile
      let line := s.presentedLine
      let lead := if h.settings.lineMarkers then bridge a.place line file else []
      ⟨{ state := s, written := written ++ (lead ++ copied l) },
        { a with place := ⟨file, line + l.count⟩ } :: below⟩
    else ⟨{ state := s, written := written ++ placeholder h l }, a :: below⟩

/-- One step of a run: handle a line, or close a file at its end or after a failure. -/
def Config.step (h : Host) (c : Config) : Option Config :=
  match c.active with
  | [] => none
  | a :: below =>
    match c.out.failure, a.rest with
    | some _, _ => some (a.leave below c.out)
    | none, [] => some (a.leave below { c.out with state := c.out.state.closeGroups })
    | none, l :: rest => some ({ a with rest }.handle h below c.out.state c.out.written l)

/-- The configurations that a run comes to. -/
def Config.Reaches (h : Host) : Config → Config → Prop :=
  Relation.ReflTransGen fun c c' => c.step h = some c'

section Handle

variable {h : Host} {a : Activation} {below : List Activation} {s : State} {written : Bytes}
  {l : LogicalLine}

theorem handle_opens {o : Inclusion} (hl : l.directive = true)
    (ho : (s.track l).inclusion? h ((s.track l).linePosition l) l.text = some o) :
    a.handle h below s written l =
      ⟨{ state := o.state.openFile o.path, written := written ++ placeholder h l },
        ⟨{}, logicalLines o.contents, o.state, o.pos⟩ :: a :: below⟩ := by
  unfold Activation.handle
  rw [if_pos hl]
  dsimp only
  rw [ho]

theorem handle_directive (hl : l.directive = true)
    (ho : (s.track l).inclusion? h ((s.track l).linePosition l) l.text = none) :
    a.handle h below s written l =
      let out := s.directiveLine h ((s.track l).idle h) l
      ⟨{ out with state := out.resumed, written := written ++ placeholder h l ++ out.written },
        { a with place := a.place.after out.state } :: below⟩ := by
  unfold Activation.handle
  rw [if_pos hl]
  dsimp only
  rw [ho]
  rfl

theorem handle_copied (hl : l.directive = false) (hs : s.compiling = true) :
    a.handle h below s written l =
      let file := (s.track l).presentedFile
      let line := (s.track l).presentedLine
      let lead := if h.settings.lineMarkers then bridge a.place line file else []
      ⟨{ state := s.track l, written := written ++ (lead ++ copied l) },
        { a with place := ⟨file, line + l.count⟩ } :: below⟩ := by
  have hs' : (s.track l).compiling = true := hs
  simp only [Activation.handle, hl, hs', Bool.false_eq_true, if_false, if_true]

theorem handle_skipped (hl : l.directive = false) (hs : s.compiling = false) :
    a.handle h below s written l =
      ⟨{ state := s.track l, written := written ++ placeholder h l }, a :: below⟩ := by
  have hs' : (s.track l).compiling = false := hs
  simp only [Activation.handle, hl, hs', Bool.false_eq_true, if_false]

end Handle

theorem step_line {h : Host} {out : Outcome} {a : Activation} {l : LogicalLine}
    {rest : List LogicalLine} (hfailure : out.failure = none) (hrest : a.rest = l :: rest)
    (below : List Activation) :
    Config.step h ⟨out, a :: below⟩ =
      some ({ a with rest }.handle h below out.state out.written l) := by
  simp only [Config.step, hfailure, hrest]

/-- **What a step does**: it leaves the innermost file, after a failure or at its end, or it handles
    the next line of it. -/
theorem step_cases {h : Host} {c c' : Config} (hstep : c.step h = some c') :
    ∃ a below, c.active = a :: below ∧
      ((∃ failure, c.out.failure = some failure ∧ c' = a.leave below c.out) ∨
        (c.out.failure = none ∧ a.rest = [] ∧
          c' = a.leave below { c.out with state := c.out.state.closeGroups }) ∨
        ∃ l rest, c.out.failure = none ∧ a.rest = l :: rest ∧
          c' = { a with rest }.handle h below c.out.state c.out.written l) := by
  unfold Config.step at hstep
  split at hstep
  · exact absurd hstep (by simp)
  · next a below hactive =>
    refine ⟨a, below, hactive, ?_⟩
    split at hstep
    · next failure hfailure => exact .inl ⟨failure, hfailure, (Option.some.inj hstep).symm⟩
    · next hfailure hrest => exact .inr (.inl ⟨hfailure, hrest, (Option.some.inj hstep).symm⟩)
    · next l rest hfailure hrest =>
      exact .inr (.inr ⟨l, rest, hfailure, hrest, (Option.some.inj hstep).symm⟩)

/-! ## The machine runs files to their end -/

/-- What was written before has no part in how a directive ends. -/
theorem reported_setWritten (out : Outcome) (written : Bytes) (pos : Position) :
    (Outcome.noteSwitch { out with written } true).reported pos =
      { (out.noteSwitch true).reported pos with written } := by
  have hnote : Outcome.noteSwitch { out with written } true =
      { out.noteSwitch true with written } := by
    unfold Outcome.noteSwitch
    dsimp only
    split <;> rfl
  rw [hnote]
  generalize out.noteSwitch true = out
  obtain ⟨state, _, failure⟩ := out
  cases failure <;> rfl

section Machine

variable {h : Host} {s : State} {pos : Position} {l : LogicalLine} {rest : List LogicalLine}

theorem hasRoom_of_levelsLeft {levels : Nat} (hlevels : s.levelsLeft h = levels + 1) :
    s.hasRoom h = true := by
  unfold State.levelsLeft at hlevels
  simp only [State.hasRoom, decide_eq_true_eq]
  omega

theorem levelsLeft_of_hasRoom (hroom : s.hasRoom h = true) :
    ∃ levels, s.levelsLeft h = levels + 1 := by
  simp only [State.hasRoom, decide_eq_true_eq] at hroom
  refine ⟨s.levelsLeft h - 1, ?_⟩
  unfold State.levelsLeft
  omega

theorem levelsLeft_openFile (hroom : s.hasRoom h = true) (name : Bytes) :
    (s.openFile name).levelsLeft h + 1 = s.levelsLeft h := by
  simp only [State.hasRoom, decide_eq_true_eq] at hroom
  simp only [State.levelsLeft, State.openFile, List.length_cons]
  omega

/-- A line that opens no file is carried out in the same way by the machine. -/
theorem directiveWith_idle {line : Bytes} (ho : s.inclusion? h pos line = none) :
    s.directiveWith h (s.idle h) pos line =
      s.directiveWith h (nestedProcess h (s.levelsLeft h)) pos line := by
  unfold State.idle
  split
  · next hroom =>
    obtain ⟨levels, hlevels⟩ := levelsLeft_of_hasRoom hroom
    rw [hlevels]
    exact directiveWith_no_inclusion ho hroom _ _
  · next hfull =>
    cases hlevels : s.levelsLeft h with
    | zero => rfl
    | succ levels => exact absurd (hasRoom_of_levelsLeft hlevels) hfull

/-- The lines of a file are run to their end when `levels` more files may be opened. -/
def RunsLines (h : Host) (levels : Nat) : Prop :=
  ∀ (lines : List LogicalLine) (a : Activation) (below : List Activation) (s : State)
    (written : Bytes), s.levelsLeft h = levels → a.rest = lines →
    let out := s.processLines h (nestedProcess h levels) a.place lines
    Config.Reaches h ⟨{ state := s, written }, a :: below⟩
      (a.leave below { out with written := written ++ out.written })

/-- An include directive ends when the file that it opened is left. -/
theorem leave_included (o : Inclusion) (levels : Nat) (lines : List LogicalLine) (b : Activation)
    (below : List Activation) (written : Bytes) :
    let inner := State.processLines h (nestedProcess h levels) {} (o.state.openFile o.path)
      (logicalLines o.contents)
    let out := ((o.through fun s name contents =>
      s.processFile h (nestedProcess h levels) name contents).noteSwitch true).reported o.pos
    Activation.leave ⟨{}, lines, o.state, o.pos⟩ (b :: below)
        { inner with written := written ++ inner.written } =
      ⟨{ out with state := out.resumed, written := written ++ out.written },
        { b with place := b.place.after out.state } :: below⟩ := by
  intro inner out
  have hwritten : out.written = inner.written := by
    obtain ⟨resync, hnote⟩ := noteSwitch_effect (o.through fun s name contents =>
      s.processFile h (nestedProcess h levels) name contents) true
    show ((Outcome.noteSwitch _ true).reported o.pos).written = _
    rw [(reported_effect _ o.pos).2.1, hnote]
    rfl
  have hout := reported_setWritten (o.through fun s name contents =>
    s.processFile h (nestedProcess h levels) name contents) (written ++ inner.written) o.pos
  rw [hwritten]
  exact congrArg (fun out : Outcome => (⟨{ out with state := out.resumed },
    { b with place := b.place.after out.state } :: below⟩ : Config)) hout

/-- A directive, with the file that it may include, is run to its end. -/
theorem directive_reaches (hinner : ∀ levels, levels + 1 = s.levelsLeft h → RunsLines h levels)
    (hl : l.directive = true) (a : Activation) (hrest : a.rest = l :: rest)
    (below : List Activation) (written : Bytes) :
    let out := s.directiveLine h (nestedProcess h (s.levelsLeft h)) l
    Config.Reaches h ⟨{ state := s, written }, a :: below⟩
      ⟨{ out with state := out.resumed, written := written ++ placeholder h l ++ out.written },
        { a with rest, place := a.place.after out.state } :: below⟩ := by
  intro out
  have hstep : Config.step h ⟨{ state := s, written }, a :: below⟩ = _ := step_line rfl hrest below
  cases ho : (s.track l).inclusion? h ((s.track l).linePosition l) l.text with
  | none =>
    rw [handle_directive hl ho, State.directiveLine, directiveWith_idle ho] at hstep
    exact .single hstep
  | some o =>
    rw [handle_opens hl ho] at hstep
    have hroom := hasRoom_of_inclusion? ho
    obtain ⟨levels, hlevels⟩ : ∃ levels, s.levelsLeft h = levels + 1 := levelsLeft_of_hasRoom hroom
    have hout : out = ((o.through fun s path contents =>
        s.processFile h (nestedProcess h levels) path contents).noteSwitch true).reported
          o.pos := by
      show (s.track l).directiveWith h (nestedProcess h (s.levelsLeft h)) _ l.text = _
      rw [hlevels]
      exact directiveWith_inclusion ho _
    obtain ⟨requests, hstate⟩ := inclusion?_state ho
    have hopened : (o.state.openFile o.path).levelsLeft h = levels := by
      rw [hstate, ← Nat.add_right_cancel_iff (n := 1), ← hlevels]
      exact levelsLeft_openFile hroom o.path
    have hfile := hinner levels hlevels.symm (logicalLines o.contents)
      ⟨{}, logicalLines o.contents, o.state, o.pos⟩ ({ a with rest } :: below)
      (o.state.openFile o.path) (written ++ placeholder h l) hopened rfl
    dsimp only at hfile
    rw [leave_included, ← hout] at hfile
    exact .head hstep hfile

/-- **The machine runs the lines of a file to their end**, whatever files they include. -/
theorem runsLines (h : Host) (levels : Nat) : RunsLines h levels := by
  -- on the levels, and for each of them on the lines: an included file has one level less
  induction levels using Nat.strongRecOn with
  | ind levels ihLevels =>
    intro lines
    induction lines with
    | nil =>
      intro a below s written hlevels hrest out
      refine .single ?_
      simp only [Config.step, hrest, out, State.processLines, List.append_nil]
    | cons l rest ih =>
      intro a below s written hlevels hrest out
      cases hl : l.directive with
      | true =>
        have hline := directive_reaches (s := s)
          (fun inner hinner => ihLevels inner (by omega)) hl a hrest below written
        rw [hlevels] at hline
        refine hline.trans ?_
        have hfiles : (s.directiveLine h (nestedProcess h levels) l).resumed.files = s.files :=
          (directiveWith_stable (nestedProcess_stable h levels) (s.track l) _ l.text).files
        cases hfailure : (s.directiveLine h (nestedProcess h levels) l).failure with
        | some failure =>
          refine .single ?_
          simp only [out, processLines_ended hl hfailure, ← List.append_assoc]
          rfl
        | none =>
          simp only [out, processLines_resumed hl hfailure, ← List.append_assoc]
          generalize s.directiveLine h (nestedProcess h levels) l = done at hfiles ⊢
          have hdone : done.resumed.levelsLeft h = levels := by
            rw [State.levelsLeft, hfiles]
            exact hlevels
          exact ih { a with rest, place := a.place.after done.state } below _ _ hdone rfl
      | false =>
        refine .head (step_line rfl hrest below) ?_
        cases hc : s.compiling with
        | true =>
          rw [handle_copied hl hc]
          simp only [out, processLines_copied h _ _ s l rest hl hc, ← List.append_assoc]
          exact ih _ below (s.track l) _ hlevels rfl
        | false =>
          rw [handle_skipped hl hc]
          simp only [out, processLines_skipped h _ _ s l rest hl hc, ← List.append_assoc]
          exact ih { a with rest } below (s.track l) _ hlevels rfl

end Machine

/-! ## The number of open files -/

/-- Each file that is being handled is open, and there are no more of them than there may be. -/
structure Config.Bounded (h : Host) (c : Config) : Prop where
  files : c.out.state.files.length = c.active.length
  depth : c.active.length ≤ h.settings.maxIncludeDepth

section Bounded

variable {h : Host} {c c' : Config} {a : Activation} {below : List Activation}

theorem leave_bounded {out : Outcome} (hfiles : out.state.files.length = below.length + 1)
    (hdepth : (below.length + 1 : Nat) ≤ h.settings.maxIncludeDepth) :
    (a.leave below out).Bounded h := by
  have hclosed : (out.state.closeFile a.outer).files.length = below.length := by
    show out.state.files.tail.length = below.length
    rw [List.length_tail, hfiles, Nat.add_sub_cancel]
  unfold Activation.leave
  cases below with
  | nil => exact ⟨hclosed, by simp only [List.length_nil] at hdepth ⊢; omega⟩
  | cons b rest =>
    refine ⟨?_, by simp only [List.length_cons] at hdepth ⊢; omega⟩
    -- reports leave the files alone
    dsimp only [Outcome.resumed]
    rw [(reported_effect _ _).1.files]
    obtain ⟨resync, hnote⟩ := noteSwitch_effect
      { out with state := { out.state.closeFile a.outer with resync := true } } true
    rw [hnote]
    exact hclosed

theorem idle_stable (h : Host) (s : State) : NestedStable (s.idle h) := by
  intro process hprocess s' path contents
  unfold State.idle at hprocess
  split at hprocess
  · obtain rfl := Option.some.inj hprocess
    exact ⟨rfl, rfl⟩
  · exact absurd hprocess (by simp)

theorem handle_bounded {s : State} (hfiles : s.files.length = below.length + 1)
    (hdepth : (below.length + 1 : Nat) ≤ h.settings.maxIncludeDepth) (written : Bytes)
    (l : LogicalLine) : (a.handle h below s written l).Bounded h := by
  cases hl : l.directive with
  | true =>
    cases ho : (s.track l).inclusion? h ((s.track l).linePosition l) l.text with
    | some o =>
      -- there is room for the file that is opened
      have hroom := hasRoom_of_inclusion? ho
      have hsame : (s.track l).files = s.files := rfl
      simp only [State.hasRoom, hsame, hfiles, decide_eq_true_eq] at hroom
      obtain ⟨requests, hstate⟩ := inclusion?_state ho
      rw [handle_opens hl ho]
      refine ⟨?_, ?_⟩
      · dsimp only [State.openFile]
        rw [hstate]
        exact congrArg Nat.succ hfiles
      · simp only [List.length_cons]
        omega
    | none =>
      have hstable := directiveWith_stable (h := h) (idle_stable h (s.track l)) (s.track l)
        ((s.track l).linePosition l) l.text
      rw [handle_directive hl ho]
      exact ⟨(congrArg List.length hstable.files).trans hfiles, hdepth⟩
  | false =>
    cases hs : s.compiling with
    | true =>
      rw [handle_copied hl hs]
      exact ⟨hfiles, hdepth⟩
    | false =>
      rw [handle_skipped hl hs]
      exact ⟨hfiles, hdepth⟩

/-- **One step** opens a file only where there is room for it. -/
theorem step_bounded (hc : c.Bounded h) (hstep : c.step h = some c') : c'.Bounded h := by
  obtain ⟨hfiles, hdepth⟩ := hc
  obtain ⟨a, below, hactive, hcases⟩ := step_cases hstep
  rw [hactive, List.length_cons] at hfiles hdepth
  rcases hcases with ⟨failure, -, rfl⟩ | ⟨-, -, rfl⟩ | ⟨l, rest, -, -, rfl⟩
  · exact leave_bounded hfiles hdepth
  · refine leave_bounded ?_ hdepth
    dsimp only
    rw [(closeGroups_stable c.out.state).files]
    exact hfiles
  · exact handle_bounded hfiles hdepth _ _

theorem reaches_bounded (hc : c.Bounded h) (hreaches : Config.Reaches h c c') : c'.Bounded h := by
  induction hreaches with
  | refl => exact hc
  | tail _ hstep ih => exact step_bounded ih hstep

end Bounded

/-! ## Include directives without room -/

/-- An include directive that finds no room is one error. -/
theorem include_without_room {h : Host} {s : State} {pos : Position} {line : Bytes} {name : Token}
    {c : Cursor} (ha : Announces .includeFile pos line name c) (hs : s.compiling = true) :
    ∃ e : Located Complaint,
      s.directiveWith h none pos line = { state := s.complain e.pos e.cause } := by
  have hrefused : ∃ e, s.dispatch h none (some .includeFile) name c =
      { state := s, failure := some (complaintFailure e) } := by
    simp only [State.dispatch, State.external]
    cases h.includer with
    | none => exact ⟨_, rfl⟩
    | some find =>
      simp only [State.include]
      split
      · exact ⟨_, rfl⟩
      · exact ⟨_, rfl⟩
  obtain ⟨e, he⟩ := hrefused
  refine ⟨e, ?_⟩
  rw [ha.directiveWith h none hs, he, Outcome.noteSwitch, if_pos hs]
  rfl

/-- The step at an include directive that finds no room. -/
theorem step_without_room {h : Host} {out : Outcome} {a : Activation} {below : List Activation}
    {l : LogicalLine} {rest : List LogicalLine} {name : Token} {cursor : Cursor}
    (hfailure : out.failure = none) (hrest : a.rest = l :: rest) (hl : l.directive = true)
    (hcompiling : out.state.compiling = true)
    (hfull : (out.state.files.length : Int) = h.settings.maxIncludeDepth)
    (ha : Announces .includeFile ((out.state.track l).linePosition l) l.text name cursor) :
    ∃ e : Located Complaint, Config.step h ⟨out, a :: below⟩ =
      some ⟨{ state := { (out.state.track l).complain e.pos e.cause with resync := false }
              written := out.written ++ placeholder h l },
        { a with rest, place := a.place.after out.state } :: below⟩ := by
  have hroom : (out.state.track l).hasRoom h = false := by
    have hsame : (out.state.track l).files = out.state.files := rfl
    simp only [State.hasRoom, hsame, hfull, Int.lt_irrefl, decide_false]
  have hno :
      (out.state.track l).inclusion? h ((out.state.track l).linePosition l) l.text = none := by
    cases ho : (out.state.track l).inclusion? h ((out.state.track l).linePosition l) l.text with
    | none => rfl
    | some o =>
      obtain ⟨-, -, -, -, -, hsome, -⟩ := inclusion?_eq_some ho
      exact absurd hsome (by simp [hroom])
  obtain ⟨e, he⟩ := include_without_room (h := h) (s := out.state.track l) ha hcompiling
  refine ⟨e, ?_⟩
  rw [step_line hfailure hrest below, handle_directive hl hno]
  simp only [State.directiveLine, State.idle, hroom, Bool.false_eq_true, if_false, he,
    List.append_nil]
  rfl

/-! ## Runs -/

theorem maxIncludeDepth_pos {settings : Settings} (hvalid : settings.validate = .ok ()) :
    0 < settings.maxIncludeDepth := by
  unfold Settings.validate at hvalid
  grind

/-- **Every run ends, and keeps to the limit on open files.** From the first line of any file, the
    machine reaches a configuration in which no file is open and no step is left, with the state and
    the text that `State.run` gives. Every file has at most as many lines as bytes. In every
    configuration on the way the files that are being handled are the open ones, and there are no
    more of them than the settings allow. An include directive that is met when so many files are
    open is one error: no file is asked for, the macros and the groups stay, and nothing is written
    but what stands for the line. -/
theorem run_ends_within_depth (h : Host) (hvalid : h.settings.validate = .ok ()) (s : State)
    (name contents : Bytes) :
    (∃ c, Config.Reaches h (.load s name contents) c ∧ c.step h = none ∧
      c.out.state = (s.run h name contents).1.state ∧
      c.out.written = (s.run h name contents).1.written ∧
      c.out.failure.isSome = (s.run h name contents).2.aborted) ∧
    (∀ source, (logicalLines source).length ≤ source.length) ∧
    ∀ c, Config.Reaches h (.load s name contents) c →
      c.out.state.files.length = c.active.length ∧
      c.out.state.files.length ≤ h.settings.maxIncludeDepth ∧
      ∀ a below l rest token cursor, c.active = a :: below → c.out.failure = none →
        a.rest = l :: rest → l.directive = true → c.out.state.compiling = true →
        c.out.state.files.length = h.settings.maxIncludeDepth →
        Announces .includeFile ((c.out.state.track l).linePosition l) l.text token cursor →
        ∃ c' pos message, c.step h = some c' ∧
          c'.out.state.reporter = c.out.state.reporter.error pos message ∧
          c'.out.state.requests = c.out.state.requests ∧
          c'.out.state.table = c.out.state.table ∧
          c'.out.state.branches = c.out.state.branches ∧
          c'.out.written = c.out.written ++ placeholder h l ∧
          c'.out.failure = none := by
  refine ⟨?_, Source.logicalLines_length_le, fun c hreaches => ?_⟩
  · have hends := runsLines h ((s.entered name).levelsLeft h) (logicalLines contents)
      ⟨{}, logicalLines contents,
        { s with branches := s.branches.reset, files := [], resync := false }, {}⟩ []
      (s.entered name) [] rfl rfl
    exact ⟨_, hends, rfl, rfl, rfl, rfl⟩
  · have hstart : (Config.load s name contents).Bounded h :=
      ⟨rfl, Int.add_one_le_iff.2 (maxIncludeDepth_pos hvalid)⟩
    obtain ⟨hfiles, hdepth⟩ := reaches_bounded hstart hreaches
    refine ⟨hfiles, hfiles ▸ hdepth, ?_⟩
    intro a below l rest token cursor hactive hfailure hrest hl hcompiling hfull ha
    obtain ⟨out, active⟩ := c
    obtain rfl : active = a :: below := hactive
    obtain ⟨e, hstep⟩ := step_without_room hfailure hrest hl hcompiling hfull ha
    exact ⟨_, e.pos, e.cause.message, hstep, rfl, rfl, rfl, rfl, rfl, rfl⟩

/-- A host that allows one open file, where every file includes itself. -/
def echoHost : Host where
  settings := { maxIncludeDepth := 1 }
  includer := some fun name _ _ => .ok (name, ascii "#include <again>\n")

theorem run_ends_within_depth_echo :
    let start := Config.load echoHost.start.1 (ascii "main.c") (ascii "#include <again>\n")
    (∃ c, Config.Reaches echoHost start c ∧ c.step echoHost = none) ∧
    ∃ c' pos message, start.step echoHost = some c' ∧
      c'.out.state.reporter = start.out.state.reporter.error pos message ∧
      c'.out.state.requests = start.out.state.requests := by
  intro start
  obtain ⟨⟨c, hends, hnone, -⟩, -, hbound⟩ := run_ends_within_depth echoHost (by decide +kernel)
    echoHost.start.1 (ascii "main.c") (ascii "#include <again>\n")
  obtain ⟨-, -, hfull⟩ := hbound start .refl
  obtain ⟨c', pos, message, hstep, hreporter, hrequests, -⟩ := hfull _ _ _ _ _ _ rfl rfl rfl
    (by decide +kernel) (by decide +kernel) rfl
    ⟨by decide +kernel, rfl, by decide +kernel, by decide +kernel⟩
  exact ⟨⟨c, hends, hnone⟩, c', pos, message, hstep, hreporter, hrequests⟩

end Preproc.Engine
