import Preproc.Proofs.Engine.ReportPlaces
import Preproc.Proofs.Engine.SkippedText

set_option autoImplicit false

/-! # Reports at presented places

A line directive changes the name and the numbers under which the lines after it are presented. In a
run that opens no other file, every report on a line is made at the presented number of one of its
physical lines, and under the presented name, but for the warning that there are too many macros,
which is made under the name that the file was opened with (`reports_presented`). Groups that are
left open are reported at the presented place of the line that opened them. -/

namespace Preproc.Engine

open Source (LogicalLine logicalLines)

/-! ## Presented names and numbers -/

/-- A change of how lines are presented: the physical line `next` gets the number `number`, and the
    file gets the name `file`, unless that is empty. -/
structure Renumbering where
  next : Nat
  number : Nat
  file : Bytes
  deriving DecidableEq

/-- The presented name of a file after some changes. -/
def presentedName (name : Bytes) (changes : List Renumbering) : Bytes :=
  changes.foldl (fun name change => if change.file.isEmpty then name else change.file) name

/-- The presented number of a physical line after some changes: the last one counts. -/
def presentedNumber (changes : List Renumbering) (line : Nat) : Int :=
  match changes.getLast? with
  | none => line
  | some change => change.number + (line - change.next : Int)

/-- What the operands of a line directive ask for: a number, and a file name, which may be empty. -/
def operandsAsk (name : Bytes) (c : Cursor) : Option (Nat × Bytes) :=
  (lineOperands name c).toOption.map fun (n, file, _) => (n, file)

/-- What a line asks for when it holds a line directive. -/
def lineAsks (pos : Position) (line : Bytes) : Option (Nat × Bytes) :=
  let (hash, c) := (Cursor.ofText pos line).nextNonSpace
  if !hash.is .hash then none
  else
    let (name, operands) := c.nextNonSpace
    match name.kind with
    | .ident =>
      if Keyword.ofName? name.text = some Keyword.line then operandsAsk name.text operands else none
    | .number => operandsAsk [] c
    | _ => none

/-- The change that a line makes when it is handled in the state `s`: only line directives make one,
    where lines are compiled and such directives are supported. -/
def State.renumbering (h : Host) (s : State) (l : LogicalLine) : Option Renumbering :=
  if l.directive && s.compiling && h.includer.isSome then
    (lineAsks ((s.track l).linePosition l) l.text).map fun (n, file) =>
      ⟨l.line + l.count, n, file⟩
  else none

/-- The changes that lines make which are handled after `p`. -/
def Progress.renumberings (h : Host) (nested : Option Nested) :
    Progress → List LogicalLine → List Renumbering
  | _, [] => []
  | p, l :: rest =>
    let change := if p.out.failure.isSome then none else p.out.state.renumbering h l
    change.toList ++ renumberings h nested (p.line h nested l) rest

/-- The changes that the first lines of a file make. -/
def State.renumberings (h : Host) (s : State) (name : Bytes) (lines : List LogicalLine) :
    List Renumbering :=
  Progress.renumberings h (s.inner h name) { out := { state := s.openFile name } } lines

theorem Progress.renumberings_concat (h : Host) (nested : Option Nested) (p : Progress)
    (front : List LogicalLine) (l : LogicalLine)
    (hruns : (front.foldl (Progress.line h nested) p).out.failure = none) :
    p.renumberings h nested (front ++ [l]) = p.renumberings h nested front ++
      ((front.foldl (Progress.line h nested) p).out.state.renumbering h l).toList := by
  induction front generalizing p with
  | nil =>
    have hnone : p.out.failure = none := hruns
    simp [renumberings, hnone]
  | cons first rest ih =>
    rw [List.cons_append, renumberings, ih _ hruns, renumberings, List.append_assoc]
    rfl

/-! ## Line directives -/

/-- The line numbers of a file after a directive that asks for others, or for none. -/
def renumbered (asked : Option (Nat × Bytes)) (t : Option Tracker) : Option Tracker :=
  match asked with
  | none => t
  | some (n, file) => t.map (·.setLine n file)

section Directives

variable {h : Host} {nested : Option Nested} {s : State} {pos : Position} {c : Cursor}

/-- A directive that asks for these line numbers, or opens a file. -/
def RenumbersOrOpens (s : State) (asked : Option (Nat × Bytes)) (out : Outcome) : Prop :=
  out.state.tracker = renumbered asked s.tracker ∨ s.opened < out.state.opened

theorem RenumbersOrOpens.reported {asked : Option (Nat × Bytes)} {out : Outcome}
    (hout : RenumbersOrOpens s asked out) (pos : Position) :
    RenumbersOrOpens s asked (out.reported pos) := by
  have hreported := (reported_effect out pos).1
  exact hout.imp hreported.tracker.trans fun hopens => hreported.opened.symm ▸ hopens

theorem RenumbersOrOpens.noteSwitch {asked : Option (Nat × Bytes)} {out : Outcome}
    (hout : RenumbersOrOpens s asked out) (wasCompiling : Bool) :
    RenumbersOrOpens s asked (out.noteSwitch wasCompiling) := by
  obtain ⟨resync, hnote⟩ := noteSwitch_effect out wasCompiling
  rw [hnote]
  exact hout

theorem lineDirective_tracker (name : Bytes) (pos : Position) (c : Cursor) :
    (s.lineDirective h name pos c).state.tracker = renumbered (operandsAsk name c) s.tracker := by
  rw [lineDirective_eq]
  unfold operandsAsk
  cases lineOperands name c with
  | error e => rfl
  | ok asked =>
    obtain ⟨n, file, rest⟩ := asked
    have hleft := Reported.checkLineRest h s name rest
    dsimp only
    rw [hleft.tracker]
    cases htracker : s.tracker with
    | none => exact hleft.tracker.trans htracker
    | some t => rfl

theorem include_renumbers (hnested : NestedOpens nested) (find : Includer) :
    RenumbersOrOpens s none (s.include h nested find pos c) := by
  have hout := include_outcome h nested find s pos c
  generalize s.include h nested find pos c = out at hout ⊢
  cases hout with
  | unnamed | tooDeep | notFound => exact .inl rfl
  | @opened name path contents system process _ hsome =>
    let asked : State := { s with requests := s.requests ++ [⟨name, s.file, system⟩] }
    exact .inr (hnested process hsome asked path contents)

theorem external_renumbers (hnested : NestedOpens nested) (kw : Option Keyword) (name : Bytes)
    (pos : Position) (c : Cursor) :
    RenumbersOrOpens s
      (if h.includer.isSome ∧ kw = some .line then operandsAsk name c else none)
      (s.external h nested kw name pos c) := by
  by_cases hkw : kw = some .line
  · subst hkw
    cases hfind : h.includer with
    | none =>
      rw [if_neg (by simp), State.external, hfind]
      exact .inl rfl
    | some find =>
      rw [if_pos (by simp), State.external, hfind]
      exact .inl (lineDirective_tracker name pos c)
  · rw [if_neg fun hasks => hkw hasks.2]
    have hout := external_outcome h nested s kw name pos c
    generalize s.external h nested kw name pos c = out at hout ⊢
    cases hout with
    | included => exact include_renumbers hnested _
    | renumbered _ hline => exact absurd hline hkw
    | ignored | warned | failed => exact .inl rfl

theorem dispatch_renumbers (hnested : NestedOpens nested) (kw : Option Keyword) (name : Token) :
    RenumbersOrOpens s
      (if h.includer.isSome ∧ kw = some .line then operandsAsk name.text c else none)
      (s.dispatch h nested kw name c) := by
  have hconditional : ∀ kw : Keyword, kw.isConditional = true →
      (s.dispatch h nested (some kw) name c).state.tracker = s.tracker := by
    intro kw hkw
    have hother : some kw ≠ some Keyword.includeFile := by
      rintro ⟨⟩
      cases hkw
    rw [dispatch_nested hother nested none]
    exact (conditional_inert hkw name c).1.tracker
  cases kw with
  | none => exact external_renumbers hnested none name.text name.pos c
  | some kw =>
    cases kw with
    | ifTrue | ifdef | ifndef | elif | otherwise | endif =>
      rw [if_neg (by simp)]
      exact .inl (hconditional _ rfl)
    | define =>
      rw [if_neg (by simp)]
      exact .inl (defineDirective_effect h s c).1.tracker
    | undef =>
      rw [if_neg (by simp)]
      exact .inl (undefDirective_effect h s c).1.tracker
    | _ => exact external_renumbers hnested _ name.text name.pos c

/-- **What a directive does to the line numbers**, unless it opens a file: it makes the change that
    its line asks for, where lines are compiled. -/
theorem directiveWith_renumbers (hnested : NestedOpens nested) (pos : Position) (line : Bytes) :
    RenumbersOrOpens s
      (if s.compiling && h.includer.isSome then lineAsks pos line else none)
      (s.directiveWith h nested pos line) := by
  cases hs : s.compiling with
  | false =>
    rw [directiveWith_skipped hs]
    exact .inl (skipLine_inert pos line).1.tracker
  | true =>
    unfold State.directiveWith lineAsks
    dsimp only
    generalize (Cursor.ofText pos line).nextNonSpace = first
    obtain ⟨hash, c⟩ := first
    dsimp only
    generalize c.nextNonSpace = second
    obtain ⟨name, operands⟩ := second
    cases hhash : hash.is .hash with
    | false =>
      refine .inl ?_
      simp [renumbered, State.complain]
    | true =>
      simp only [hs, Bool.not_true, Bool.false_and, Bool.false_eq_true, if_false, if_true,
        Bool.true_and]
      cases hkind : name.kind with
      | ident =>
        dsimp only
        rw [← ite_and]
        exact ((dispatch_renumbers hnested _ name).noteSwitch true).reported name.pos
      | number =>
        have hexternal := external_renumbers (h := h) (s := s) hnested (some .line) [] name.pos c
        simp only [and_true] at hexternal
        exact hexternal.reported name.pos
      | _ =>
        refine .inl ?_
        simp [renumbered, State.complain]

end Directives

/-! ## Lines -/

/-- The line numbers `t` present lines under the name and with the numbers that come of some changes
    in the file that was opened as `name`. -/
structure Tracker.Presents (name : Bytes) (changes : List Renumbering) (t : Tracker) : Prop where
  name : t.name = presentedName name changes
  number : ∀ line : Nat, line + t.delta = presentedNumber changes line

theorem Tracker.Presents.setLine {name : Bytes} {changes : List Renumbering} {t : Tracker}
    (ht : t.Presents name changes) {next : Nat} (hnext : t.next = next) (number : Nat)
    (file : Bytes) :
    (t.setLine number file).Presents name (changes ++ [⟨next, number, file⟩]) := by
  refine ⟨?_, fun line => ?_⟩
  · simp only [Tracker.setLine, presentedName, List.foldl_append, List.foldl_cons, List.foldl_nil,
      ht.name]
  · simp only [Tracker.setLine, presentedNumber, List.getLast?_append, List.getLast?_singleton,
      Option.some_or, hnext]
    omega

/-- The state presents lines in this way. -/
structure Presents (name : Bytes) (changes : List Renumbering) (s : State) : Prop where
  file : s.file = name
  tracked : ∃ t, s.tracker = some t ∧ t.Presents name changes

theorem track_tracker {s : State} {t : Tracker} (htracker : s.tracker = some t) (l : LogicalLine) :
    (s.track l).tracker = some { t with current := l.line, next := l.line + l.count } := by
  simp only [State.track, htracker, Option.map_some]

namespace Presents

variable {h : Host} {nested : Option Nested} {name : Bytes} {changes : List Renumbering}
  {s : State} {l : LogicalLine}

theorem openFile (s : State) (name : Bytes) : Presents name [] (s.openFile name) :=
  ⟨rfl, _, rfl, rfl, fun _ => Int.add_zero _⟩

theorem track (hs : Presents name changes s) (l : LogicalLine) :
    Presents name changes (s.track l) := by
  obtain ⟨t, htracker, ht⟩ := hs.tracked
  exact ⟨hs.file, _, track_tracker htracker l, ht.name, ht.number⟩

theorem linePosition (hs : Presents name changes s) (l : LogicalLine) :
    ((s.track l).linePosition l).file = presentedName name changes ∧
      ((s.track l).linePosition l).line = presentedNumber changes l.line := by
  obtain ⟨t, htracker, ht⟩ := hs.tracked
  unfold State.linePosition State.presentedFile State.presentedLine
  rw [track_tracker htracker l]
  exact ⟨ht.name, ht.number l.line⟩

theorem position (hs : Presents name changes s) (l : LogicalLine) :
    (s.track l).position = { file := name, line := presentedNumber changes l.line } := by
  have hline := (hs.linePosition l).2
  have hfile : (s.track l).file = name := hs.file
  unfold State.position
  rw [hfile, ← hline]
  rfl

/-- **One directive** that opens no file: its line makes the change that it asks for. -/
theorem directiveLine (hnested : NestedOpens nested) (hs : Presents name changes s)
    (hl : l.directive = true) (halone : (s.directiveLine h nested l).state.opened = s.opened) :
    Presents name (changes ++ (s.renumbering h l).toList) (s.directiveLine h nested l).state := by
  have hopens : ¬ s.opened < (s.directiveLine h nested l).state.opened :=
    Nat.not_lt.2 (Nat.le_of_eq halone)
  have hfiles := ((directiveLine_effect hnested s l).resolve_right hopens).place.files
  have htracker := (directiveWith_renumbers (h := h) (s := s.track l) hnested
    ((s.track l).linePosition l) l.text).resolve_right hopens
  obtain ⟨t, ht, hpresents⟩ := (hs.track l).tracked
  refine ⟨?_, ?_⟩
  · have hfile := (hs.track l).file
    unfold State.file at hfile ⊢
    rw [hfiles]
    exact hfile
  · have hnext : t.next = (l.line + l.count : Nat) := by
      obtain ⟨t₀, ht₀, -⟩ := hs.tracked
      obtain rfl := Option.some.inj ((track_tracker ht₀ l).symm.trans ht)
      simp
    have hsame : (s.track l).compiling = s.compiling := rfl
    rw [ht, hsame] at htracker
    unfold State.directiveLine State.renumbering
    rw [hl, Bool.true_and, htracker]
    cases hasked : s.compiling && h.includer.isSome with
    | false => exact ⟨t, by simp [renumbered], by simpa using hpresents⟩
    | true =>
      cases hline : lineAsks ((s.track l).linePosition l) l.text with
      | none => exact ⟨t, by simp [renumbered], by simpa using hpresents⟩
      | some asked =>
        obtain ⟨n, file⟩ := asked
        exact ⟨_, rfl, hpresents.setLine hnext n file⟩

end Presents

/-- A report on a line: its number is the presented number of one of the physical lines, and it is
    made under the presented name, but for the warning that there are too many macros, which is made
    under the name that the file was opened with. -/
structure PresentedOn (name : Bytes) (changes : List Renumbering) (l : LogicalLine)
    (d : Diagnostic) : Prop where
  first_le : presentedNumber changes l.line ≤ d.pos.line
  le_last : d.pos.line ≤ presentedNumber changes (l.line + l.count - 1)
  file : d.pos.file = presentedName name changes ∨
    (∃ count limit, d.message = (Caution.manyMacros count limit).message) ∧
      d.severity = .warning ∧ d.pos.file = name

/-- The lines on which a line is presented. -/
def presentedLines (name : Bytes) (changes : List Renumbering) (l : LogicalLine) :
    Position → Prop :=
  Position.Inside (presentedName name changes) (presentedNumber changes l.line) l.count

theorem presentedNumber_last (changes : List Renumbering) {l : LogicalLine} (hl : 0 < l.count) :
    presentedNumber changes (l.line + l.count - 1) =
      presentedNumber changes l.line + l.count - 1 := by
  unfold presentedNumber
  split <;> omega

section Handled

variable {h : Host} {nested : Option Nested} {name source : Bytes} {changes : List Renumbering}
  {s : State} {l : LogicalLine}

theorem count_pos_of_mem (hmem : l ∈ logicalLines source) : 0 < l.count := by
  rcases Source.logicalLines_fewBreaks source l hmem with hfew | ⟨t, -, hfew⟩ <;> omega

/-- **One directive** that opens no file reports on its own line. -/
theorem directiveLine_placed (hnested : NestedOpens nested) (hs : Presents name changes s)
    (hmem : l ∈ logicalLines source) (hl : l.directive = true)
    (halone : (s.directiveLine h nested l).state.opened = s.opened) :
    Placed (presentedLines name changes l) (s.track l) (s.directiveLine h nested l) := by
  have hline := within_line hmem hl ((s.track l).linePosition l)
  rw [(hs.linePosition l).1, (hs.linePosition l).2] at hline
  exact (directiveWith_placed hnested hline).resolve_right (Nat.not_lt.2 (Nat.le_of_eq halone))

theorem presentedOn_of_reportedIn (hs : Presents name changes s) (hmem : l ∈ logicalLines source)
    {d : Diagnostic}
    (hd : ReportedIn (presentedLines name changes l) (s.track l).position d) :
    PresentedOn name changes l d := by
  have hcount := count_pos_of_mem hmem
  have hlast := presentedNumber_last changes hcount
  rcases hd with ⟨hfile, hfirst, hend⟩ | ⟨hpos, hwarning, hmessage⟩
  · exact ⟨hfirst, by omega, .inl hfile⟩
  · rw [hs.position l] at hpos
    have hnumber : d.pos.line = presentedNumber changes l.line := by rw [hpos]
    have hfile : d.pos.file = name := by rw [hpos]
    exact ⟨by omega, by omega, .inr ⟨hmessage, hwarning, hfile⟩⟩

end Handled

/-! ## Groups that are left open -/

/-- The report of a group that is left open. -/
def unterminatedAt (pos : Position) : Diagnostic :=
  ⟨pos, .error, .none, Complaint.unterminatedGroup.message⟩

/-- At the end of a file its groups are reported where they start, outermost first. -/
theorem closeGroups_delivered {s : State}
    (howned : ∀ f ∈ s.branches.frames, f.file = s.fileId) :
    s.closeGroups.reporter.delivered =
      s.reporter.delivered ++ (groupPlaces s.branches).reverse.map unterminatedAt := by
  have hfold : ∀ (frames : List Branch.Frame) (s : State),
      (frames.foldl (fun s f => s.complain f.ifPos .unterminatedGroup) s).reporter.delivered =
        s.reporter.delivered ++ frames.map (unterminatedAt ·.ifPos) := by
    intro frames
    induction frames with
    | nil => simp
    | cons f rest ih =>
      intro s
      rw [List.foldl_cons, ih]
      simp [State.complain, Reporter.error, Reporter.deliver, unterminatedAt]
  have hall : s.branches.frames.takeWhile (·.file = (s.fileId : Int)) = s.branches.frames :=
    List.takeWhile_eq_self_iff.2 (by simpa using howned)
  have hframes : (s.branches.unterminated s.fileId).1 = s.branches.frames.reverse := by
    unfold Branch.Stack.unterminated
    dsimp only
    rw [hall]
    split
    · next hnone => simp [List.getLast?_eq_none_iff.1 hnone]
    · rfl
  have hclosed : s.closeGroups.reporter.delivered = s.reporter.delivered ++
      (s.branches.unterminated s.fileId).1.map (unterminatedAt ·.ifPos) := hfold _ s
  rw [hclosed, hframes, groupPlaces, ← List.map_reverse, List.map_map]
  rfl

/-! ## One line after the other -/

/-- The state presents lines in this way, and all groups are of the file. -/
structure InOneFile (name : Bytes) (changes : List Renumbering) (s : State) : Prop where
  presents : Presents name changes s
  owned : ∀ f ∈ s.branches.frames, f.file = s.fileId

/-- What a line does between two states: it reports on its own lines, and not at all when it is no
    directive, and opens groups at its own lines. -/
structure Handles (name : Bytes) (changes : List Renumbering) (l : LogicalLine) (s s' : State) :
    Prop where
  told : Tells (PresentedOn name changes l) s.reporter s'.reporter
  quiet : l.directive = false → s'.reporter = s.reporter
  groups : Regroups (presentedLines name changes l) s.branches s'.branches

namespace Progress

variable {h : Host} {nested : Option Nested} {p : Progress} {l : LogicalLine}

theorem line_ended (hended : p.out.failure ≠ none) : p.line h nested l = p := by
  obtain ⟨⟨s, written, failure⟩, place⟩ := p
  cases failure with
  | none => exact absurd rfl hended
  | some failure => rfl

theorem line_directive (hruns : p.out.failure = none) (hl : l.directive = true) :
    (p.line h nested l).out.state = (p.out.state.directiveLine h nested l).resumed := by
  obtain ⟨⟨s, written, failure⟩, place⟩ := p
  obtain rfl : failure = none := hruns
  simp only [line, hl, if_true]

theorem line_text (hruns : p.out.failure = none) (hl : l.directive = false) :
    (p.line h nested l).out.state = p.out.state.track l := by
  obtain ⟨⟨s, written, failure⟩, place⟩ := p
  obtain rfl : failure = none := hruns
  simp only [line, hl, Bool.false_eq_true, if_false]
  split <;> rfl

theorem line_opened_le (hnested : NestedOpens nested) :
    p.out.state.opened ≤ (p.line h nested l).out.state.opened := by
  by_cases hruns : p.out.failure = none
  · cases hl : l.directive with
    | true =>
      rw [line_directive hruns hl]
      exact directiveLine_opened_le hnested p.out.state l
    | false =>
      rw [line_text hruns hl]
      exact Nat.le_refl _
  · rw [line_ended hruns]

theorem lines_opened_le (hnested : NestedOpens nested) (p : Progress) (lines : List LogicalLine) :
    p.out.state.opened ≤ (lines.foldl (line h nested) p).out.state.opened := by
  induction lines generalizing p with
  | nil => exact Nat.le_refl _
  | cons l rest ih => exact Nat.le_trans (line_opened_le hnested) (ih _)

theorem finish_opened_le (hnested : NestedOpens nested) (p : Progress) (lines : List LogicalLine) :
    p.out.state.opened ≤ (p.finish h nested lines).state.opened := by
  obtain ⟨⟨s, written, failure⟩, place⟩ := p
  cases failure with
  | none => exact processLines_opened_le hnested lines place s
  | some failure => exact Nat.le_refl _

theorem finish_ended {lines : List LogicalLine} (hended : p.out.failure ≠ none) :
    p.finish h nested lines = p.out := by
  obtain ⟨⟨s, written, failure⟩, place⟩ := p
  cases failure with
  | none => exact absurd rfl hended
  | some failure => rfl

theorem finish_nil (hruns : p.out.failure = none) :
    (p.finish h nested []).state = p.out.state.closeGroups := by
  obtain ⟨⟨s, written, failure⟩, place⟩ := p
  obtain rfl : failure = none := hruns
  rfl

/-- **One line** of a file that opens no other file: it reports on its own lines, and makes the
    change that it asks for. -/
theorem line_handles (hnested : NestedOpens nested) {name source : Bytes}
    {changes : List Renumbering} (hp : InOneFile name changes p.out.state)
    (hruns : p.out.failure = none) (hmem : l ∈ logicalLines source)
    (halone : (p.line h nested l).out.state.opened = p.out.state.opened) :
    Handles name changes l p.out.state (p.line h nested l).out.state ∧
      InOneFile name (changes ++ (p.out.state.renumbering h l).toList)
        (p.line h nested l).out.state := by
  cases hl : l.directive with
  | true =>
    rw [line_directive hruns hl] at halone ⊢
    have hplaced := directiveLine_placed (h := h) hnested hp.presents hmem hl halone
    have hpresents := hp.presents.directiveLine hnested hl halone
    have hstays := (directiveLine_effect (h := h) hnested p.out.state l).resolve_right
      (Nat.not_lt.2 (Nat.le_of_eq halone))
    refine ⟨⟨?_, fun htext => absurd htext (by simp [hl]), hplaced.groups⟩,
      ⟨hpresents.file, hpresents.tracked⟩, fun f hf => ?_⟩
    · exact hplaced.told.mono fun d => presentedOn_of_reportedIn hp.presents hmem
    · have hsame : (p.out.state.directiveLine h nested l).resumed.fileId = p.out.state.fileId := by
        unfold State.fileId Outcome.resumed
        rw [hstays.place.files]
        rfl
      rw [hsame]
      exact (hstays.moves.files hf).elim id (hp.owned f)
  | false =>
    rw [line_text hruns hl]
    have hnone : p.out.state.renumbering h l = none := by simp [State.renumbering, hl]
    rw [hnone]
    refine ⟨⟨.refl _, fun _ => rfl, .kept rfl⟩, ?_, hp.owned⟩
    simpa using hp.presents.track l

end Progress

section Run

variable {h : Host} {s : State} {name contents : Bytes} {front back lines : List LogicalLine}
  {l : LogicalLine}

theorem progress_concat (h : Host) (s : State) (name : Bytes) (front : List LogicalLine)
    (l : LogicalLine) :
    s.progress h name (front ++ [l]) =
      (s.progress h name front).line h (s.inner h name) l :=
  progress_append h s name front [l]

theorem progress_runs_of_concat (hruns : (s.progress h name (front ++ [l])).out.failure = none) :
    (s.progress h name front).out.failure = none := by
  by_contra hended
  rw [progress_concat, Progress.line_ended hended] at hruns
  exact hended hruns

theorem progress_runs_of_prefix (hruns : (s.progress h name lines).out.failure = none)
    (hfront : front <+: lines) : (s.progress h name front).out.failure = none := by
  obtain ⟨back, rfl⟩ := hfront
  induction back using List.reverseRecOn with
  | nil => simpa using hruns
  | append_singleton back l ih =>
    rw [← List.append_assoc] at hruns
    exact ih (progress_runs_of_concat hruns)

/-- When processing a file opens one file, its first lines open no other. -/
theorem progress_alone (halone : (s.process h name contents).state.opened = s.opened + 1)
    (hfront : front <+: logicalLines contents) :
    (s.progress h name front).out.state.opened = s.opened + 1 := by
  obtain ⟨back, hlines⟩ := hfront
  have hnested : NestedOpens (s.inner h name) := nestedProcess_opens h _
  have hmore := Progress.finish_opened_le (h := h) hnested (s.progress h name front) back
  have hless : s.opened + 1 ≤ (s.progress h name front).out.state.opened :=
    Progress.lines_opened_le (h := h) hnested { out := { state := s.openFile name } } front
  rw [process_eq_finish h s name contents hlines.symm] at halone
  exact Nat.le_antisymm (hmore.trans (Nat.le_of_eq halone)) hless

/-- **The next line** of a file that opens no other file. -/
theorem progress_handles (halone : (s.process h name contents).state.opened = s.opened + 1)
    (hfront : front ++ [l] <+: logicalLines contents)
    (hruns : (s.progress h name front).out.failure = none)
    (hstands : InOneFile name (s.renumberings h name front) (s.progress h name front).out.state) :
    Handles name (s.renumberings h name front) l (s.progress h name front).out.state
        (s.progress h name (front ++ [l])).out.state ∧
      InOneFile name (s.renumberings h name (front ++ [l]))
        (s.progress h name (front ++ [l])).out.state := by
  have hmem : l ∈ logicalLines contents := hfront.subset (by simp)
  have hbefore := progress_alone halone ((List.prefix_append front [l]).trans hfront)
  have hafter := progress_alone halone hfront
  have hchanges : s.renumberings h name (front ++ [l]) = s.renumberings h name front ++
      ((s.progress h name front).out.state.renumbering h l).toList :=
    Progress.renumberings_concat h (s.inner h name) _ front l hruns
  rw [progress_concat] at hafter ⊢
  rw [hchanges]
  exact Progress.line_handles (nestedProcess_opens h _) hstands hruns hmem
    (hafter.trans hbefore.symm)

/-- **The first lines** of a file that opens no other file make the changes that they ask for. -/
theorem progress_inOneFile (hgroups : s.branches.frames = [])
    (halone : (s.process h name contents).state.opened = s.opened + 1)
    (hfront : front <+: logicalLines contents)
    (hruns : (s.progress h name front).out.failure = none) :
    InOneFile name (s.renumberings h name front) (s.progress h name front).out.state := by
  induction front using List.reverseRecOn with
  | nil =>
    refine ⟨.openFile s name, fun f hf => ?_⟩
    have hnone : f ∈ s.branches.frames := hf
    simp [hgroups] at hnone
  | append_singleton front l ih =>
    have hruns' := progress_runs_of_concat hruns
    have hstands := ih ((List.prefix_append front [l]).trans hfront) hruns'
    exact (progress_handles halone hfront hruns' hstands).2

end Run

/-! ## The lines of open groups -/

/-- The line `l` after `front` opens the group that starts at `pos` inside those that start at
    `outer`, and the group stays open to the end of `lines`. -/
structure OpensGroup (groups : List LogicalLine → Branch.Stack) (lines front : List LogicalLine)
    (l : LogicalLine) (pos : Position) (outer : List Position) : Prop where
  within : front ++ [l] <+: lines
  before : groupPlaces (groups front) = outer
  opened : groupPlaces (groups (front ++ [l])) = pos :: outer
  stays : ∀ more, front ++ l :: more <+: lines →
    pos :: outer <:+ groupPlaces (groups (front ++ l :: more))

theorem OpensGroup.concat {groups : List LogicalLine → Branch.Stack}
    {lines front : List LogicalLine} {l next : LogicalLine} {pos : Position}
    {outer : List Position} (hopens : OpensGroup groups lines front l pos outer)
    (hopen : pos :: outer <:+ groupPlaces (groups (lines ++ [next]))) :
    OpensGroup groups (lines ++ [next]) front l pos outer := by
  refine ⟨hopens.within.trans (List.prefix_append _ _), hopens.before, hopens.opened,
    fun more hmore => ?_⟩
  rcases List.prefix_concat_iff.1 hmore with hall | hless
  · rw [hall]
    exact hopen
  · exact hopens.stays more hless

/-- **Every open group was opened by a line**, at a place of that line. -/
theorem exists_opensGroup (groups : List LogicalLine → Branch.Stack)
    {Q : List LogicalLine → LogicalLine → Position → Prop} {lines : List LogicalLine}
    (hempty : groupPlaces (groups []) = [])
    (hsteps : ∀ front l, front ++ [l] <+: lines →
      Regroups (Q front l) (groups front) (groups (front ++ [l])))
    {pos : Position} {outer : List Position} (hopen : pos :: outer <:+ groupPlaces (groups lines)) :
    ∃ front l, OpensGroup groups lines front l pos outer ∧ Q front l pos := by
  induction lines using List.reverseRecOn with
  | nil =>
    rw [hempty] at hopen
    exact absurd (List.suffix_nil.1 hopen) (by simp)
  | append_singleton lines next ih =>
    -- a group that was open before the last line is one of the shorter list
    have hearlier (hbefore : pos :: outer <:+ groupPlaces (groups lines)) :
        ∃ front l, OpensGroup groups (lines ++ [next]) front l pos outer ∧ Q front l pos := by
      obtain ⟨front, l, hopens, hQ⟩ := ih
        (fun front l hfront => hsteps front l (hfront.trans (List.prefix_append _ _))) hbefore
      exact ⟨front, l, hopens.concat hopen, hQ⟩
    cases hsteps lines next (List.prefix_refl _) with
    | kept hkept => exact hearlier (hkept ▸ hopen)
    | closed hclosed => exact hearlier ((hclosed ▸ hopen).trans (List.tail_suffix _))
    | opened q hq hopened =>
      rw [hopened] at hopen
      rcases List.suffix_cons_iff.1 hopen with hnew | hbefore
      · obtain ⟨rfl, rfl⟩ := List.cons.inj hnew
        refine ⟨lines, next, ⟨List.prefix_refl _, rfl, hopened, fun more hmore => ?_⟩, hq⟩
        obtain rfl : more = [] := by
          have hlength := hmore.length_le
          simp at hlength
          exact hlength
        rw [hopened]
      · exact hearlier hbefore

/-! ## Runs -/

theorem process_reporter (h : Host) (s : State) (name contents : Bytes) :
    let last := s.progress h name (logicalLines contents)
    (s.process h name contents).state.reporter =
      (last.finish h (s.inner h name) []).state.reporter := by
  intro last
  rw [process_eq_finish h s name contents (List.append_nil _).symm]
  rfl

/-- **Reports are made at presented places.** When a run opens no file but its own, the name and the
    numbers of a line are presented as the line directives before it ask for. Every report on the
    line is made at the presented number of one of its physical lines and under its presented name,
    but for the warning that there are too many macros: that one is made under the name that the
    file was opened with. Lines that are no directives are not reported on. Unless the run ends
    early, the groups that are left open are reported at the end, each at a presented place of the
    line that opened it. -/
theorem reports_presented (h : Host) (s : State) (name contents : Bytes)
    (halone : (s.run h name contents).1.state.opened = s.opened + 1) :
    let start : State := { s with branches := s.branches.reset, files := [], resync := false }
    let lines := logicalLines contents
    let after (front : List LogicalLine) : Outcome := (start.progress h name front).out
    let groups (front : List LogicalLine) : Branch.Stack := (after front).state.branches
    let reported := (s.run h name contents).1.state.reporter
    (∀ front l, front ++ [l] <+: lines → (after front).failure = none →
      Tells (PresentedOn name (start.renumberings h name front) l)
          (after front).state.reporter (after (front ++ [l])).state.reporter ∧
        (l.directive = false →
          (after (front ++ [l])).state.reporter = (after front).state.reporter)) ∧
    ((after lines).failure ≠ none → reported = (after lines).state.reporter) ∧
    ((after lines).failure = none →
      reported.delivered = (after lines).state.reporter.delivered ++
          (groupPlaces (groups lines)).reverse.map unterminatedAt ∧
        ∀ pos outer, pos :: outer <:+ groupPlaces (groups lines) →
          ∃ front l, OpensGroup groups lines front l pos outer ∧
            presentedLines name (start.renumberings h name front) l pos) := by
  intro start lines after groups reported
  have hgroups : start.branches.frames = [] := rfl
  have hopened : (start.process h name contents).state.opened = start.opened + 1 := halone
  have hhandles : ∀ front l, front ++ [l] <+: lines → (after front).failure = none →
      Handles name (start.renumberings h name front) l (after front).state
        (after (front ++ [l])).state := by
    intro front l hfront hruns
    have hstands := progress_inOneFile hgroups hopened
      ((List.prefix_append front [l]).trans hfront) hruns
    exact (progress_handles hopened hfront hruns hstands).1
  have hreported : reported =
      ((start.progress h name lines).finish h (start.inner h name) []).state.reporter :=
    process_reporter h start name contents
  refine ⟨fun front l hfront hruns => ?_, fun hended => ?_, fun hruns => ⟨?_, ?_⟩⟩
  · have hline := hhandles front l hfront hruns
    exact ⟨hline.told, hline.quiet⟩
  · rw [hreported, Progress.finish_ended hended]
  · have hstands := progress_inOneFile hgroups hopened (List.prefix_refl _) hruns
    rw [hreported, Progress.finish_nil hruns]
    exact closeGroups_delivered hstands.owned
  · intro pos outer hopen
    refine exists_opensGroup groups
      (Q := fun front l => presentedLines name (start.renumberings h name front) l) ?_ ?_ hopen
    · rfl
    · intro front l hfront
      have hfrontRuns := progress_runs_of_prefix hruns ((List.prefix_append front [l]).trans hfront)
      exact (hhandles front l hfront hfrontRuns).groups

/-- A host with room for the macros that are always there. -/
def crowdedHost : Host where
  settings := { maxMacros := 4 }
  includer := some fun _ _ _ => .error (ascii "no such file")

/-- A file that gets another name before it defines a macro. -/
def renamedFile : Bytes :=
  ascii "#line 10 \"foo.c\"\n#define A 1\n"

/-- There, the line that defines the macro is presented as line 10 of `foo.c`, and the warning about
    it is made at line 10 of `main.c`. -/
theorem reports_presented_renamed :
    let s := crowdedHost.start.1
    let name := ascii "main.c"
    let start : State := { s with branches := s.branches.reset, files := [], resync := false }
    let front := (logicalLines renamedFile).take 1
    let changes := start.renumberings crowdedHost name front
    ∃ l, logicalLines renamedFile = front ++ [l] ∧
      presentedName name changes = ascii "foo.c" ∧ presentedNumber changes l.line = 10 ∧
      ∃ d, (start.progress crowdedHost name (front ++ [l])).out.state.reporter.delivered =
          (start.progress crowdedHost name front).out.state.reporter.delivered ++ [d] ∧
        d.pos = { file := name, line := 10 } ∧ PresentedOn name changes l d := by
  intro s name start front changes
  let l := (logicalLines renamedFile).getLast (by decide +kernel)
  have hlines : logicalLines renamedFile = front ++ [l] := by decide +kernel
  have hpresented : presentedName name changes = ascii "foo.c" ∧
      presentedNumber changes l.line = 10 := by decide +kernel
  have halone : (s.run crowdedHost name renamedFile).1.state.opened = s.opened + 1 := by
    decide +kernel
  have hplaces : (start.progress crowdedHost name front).out.state.reporter.delivered = [] ∧
      (start.progress crowdedHost name (front ++ [l])).out.state.reporter.delivered.map
        Diagnostic.pos = [{ file := name, line := 10 }] := by decide +kernel
  obtain ⟨told, hdelivered, hall⟩ := ((reports_presented crowdedHost s name renamedFile halone).1
    front l (hlines ▸ List.prefix_refl _) (by decide +kernel)).1
  have hpos := hplaces.2
  rw [hdelivered, hplaces.1, List.nil_append] at hpos
  obtain ⟨d, rfl, hd⟩ : ∃ d, told = [d] ∧ d.pos = { file := name, line := 10 } := by
    obtain ⟨d, rest, rfl, hd, hrest⟩ := List.map_eq_cons_iff.1 hpos
    exact ⟨d, by rw [List.map_eq_nil_iff.1 hrest], hd⟩
  exact ⟨l, hlines, hpresented.1, hpresented.2, d, hdelivered, hd, hall d (by simp)⟩

end Preproc.Engine
