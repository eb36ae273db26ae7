import Preproc.Engine.Start
import Preproc.Proofs.Engine.Effect

set_option autoImplicit false

/-! # Conditional groups are local to their file

A file gets a number that no open file and no open group has. From this and from what one directive
can do it follows that processing a file, with everything it includes, gives back the files, the
output, the line numbers and, unless the run ends, the groups as they were
(`process_restores_outer`). -/

namespace Preproc.Engine

open Source (LogicalLine)

/-! ## Numbers of files -/

/-- No file or group has a number that is still to be given out. -/
structure Numbered (s : State) : Prop where
  files : ∀ f ∈ s.files, f.id ≤ s.opened
  frames : ∀ f ∈ s.branches.frames, f.file ≤ s.opened

namespace Numbered

variable {s s' : State}

theorem fileId_le (hn : Numbered s) : s.fileId ≤ s.opened := by
  unfold State.fileId
  split
  · next f _ hfiles => exact hn.files f (by simp [hfiles])
  · exact Nat.zero_le _

theorem of_samePlace (hn : Numbered s) (hplace : SamePlace s s')
    (hframes : ∀ f ∈ s'.branches.frames, f.file ≤ s.opened) : Numbered s' where
  files f hf := by
    rw [hplace.files] at hf
    rw [hplace.opened]
    exact hn.files f hf
  frames f hf := by
    rw [hplace.opened]
    exact hframes f hf

theorem of_branches (hn : Numbered s) (hplace : SamePlace s s')
    (hbranches : s'.branches = s.branches) : Numbered s' :=
  hn.of_samePlace hplace (hbranches ▸ hn.frames)

theorem of_reported (hn : Numbered s) (h : Reported s s') : Numbered s' :=
  hn.of_branches h.samePlace h.branches

theorem setTable (hn : Numbered s) (table : Macro.Table) : Numbered { s with table } :=
  ⟨hn.files, hn.frames⟩

theorem openFile (hn : Numbered s) (name : Bytes) : Numbered (s.openFile name) where
  files f hf := by
    rcases List.mem_cons.1 hf with rfl | hf
    · exact Nat.le_refl _
    · exact Nat.le_succ_of_le (hn.files f hf)
  frames f hf := Int.le_trans (hn.frames f hf) (Int.ofNat_le.2 (Nat.le_succ s.opened))

end Numbered

/-! ## Processing one file -/

/-- What is left when a file, or the rest of it, was processed from the state `s`, the file having
    been opened on the groups `base`. -/
structure Confined (base : Branch.Stack) (s : State) (out : Outcome) : Prop where
  numbered : Numbered out.state
  opened : s.opened ≤ out.state.opened
  files : out.state.files = s.files
  output : out.state.output = s.output
  branches : out.isFatal = false → out.state.branches = base
  frames : base.frames <:+ out.state.branches.frames

/-- Processing of included files that leaves everything in its place. -/
def NestedConfined (nested : Option Nested) : Prop :=
  ∀ process, nested = some process → ∀ s path contents, Numbered s →
    Confined s.branches s (process s path contents)

/-- What holds after one directive of a file that was opened on the groups `base`: the groups of
    the file lie above them, unless the run ends. -/
structure Within (base : Branch.Stack) (s : State) (out : Outcome) : Prop where
  numbered : Numbered out.state
  opened : s.opened ≤ out.state.opened
  files : out.state.files = s.files
  output : out.state.output = s.output
  above : out.isFatal = false → Branch.Above base s.fileId out.state.branches
  frames : base.frames <:+ out.state.branches.frames

section Lines

variable {h : Host} {nested : Option Nested} {base : Branch.Stack}

theorem directive_numbered (hnested : NestedConfined nested) {s : State} (hn : Numbered s)
    (pos : Position) (line : Bytes) : Numbered (s.directiveWith h nested pos line).state := by
  obtain ⟨⟨hplace, hmoves, -⟩ | ⟨process, path, contents, requests, hsome, hplace, hbranches, -⟩,
    -⟩ := directiveWith_effect h nested s pos line
  · refine hn.of_samePlace hplace (fun f hf => ?_)
    rcases hmoves.files hf with hfile | hf
    · rw [hfile]
      exact Int.ofNat_le.2 hn.fileId_le
    · exact hn.frames f hf
  · have hinner := hnested process hsome { s with requests } path contents ⟨hn.files, hn.frames⟩
    exact hinner.numbered.of_branches hplace hbranches

/-- One directive of a file keeps its groups above those of others. -/
theorem directive_within (hnested : NestedConfined nested)
    {s : State} (hn : Numbered s) (hbase : ∀ f ∈ base.frames, f.file ≠ s.fileId)
    (ha : Branch.Above base s.fileId s.branches) (pos : Position) (line : Bytes) :
    Within base s (s.directiveWith h nested pos line) := by
  have hnum := directive_numbered (h := h) hnested hn pos line
  obtain ⟨⟨hplace, hmoves, -⟩ | ⟨process, path, contents, requests, hsome, hplace, hbranches,
    hfatal⟩, -⟩ := directiveWith_effect h nested s pos line
  · have habove := ha.moves hbase hmoves
    exact ⟨hnum, Nat.le_of_eq hplace.opened.symm, hplace.files, hplace.output, fun _ => habove,
      habove.suffix⟩
  · have hinner := hnested process hsome { s with requests } path contents ⟨hn.files, hn.frames⟩
    refine ⟨hnum, ?_, hplace.files.trans hinner.files, hplace.output.trans hinner.output,
      fun hnot => ?_, ?_⟩
    · rw [hplace.opened]
      exact hinner.opened
    · rw [hbranches, hinner.branches (hfatal ▸ hnot)]
      exact ha
    · rw [hbranches]
      exact ha.suffix.trans hinner.frames

/-- A directive that is left with a failure ends the run. -/
theorem isFatal_of_failure {s : State} {l : LogicalLine} {failure : Failure}
    (hfailure : (s.directiveLine h nested l).failure = some failure) :
    (s.directiveLine h nested l).isFatal = true := by
  have hsettled : (s.directiveLine h nested l).failure.isSome =
      (s.directiveLine h nested l).isFatal :=
    (directiveWith_effect h nested (s.track l) ((s.track l).linePosition l) l.text).fatal
  rw [← hsettled, hfailure]
  rfl

/-- Reporting the groups that are left open drops exactly the groups of the file. -/
theorem closeGroups_effect (s : State) (hbase : ∀ f ∈ base.frames, f.file ≠ s.fileId)
    (ha : Branch.Above base s.fileId s.branches) :
    SamePlace s s.closeGroups ∧ s.closeGroups.branches = base := by
  obtain ⟨t, hreported, hclosed⟩ := closeGroups_reported s
  rw [hclosed]
  exact ⟨⟨hreported.files, hreported.output, hreported.opened⟩, ha.unterminated hbase⟩

/-- The rest of a file is confined when it is confined after its next line. -/
theorem Confined.cons {s t : State} {more : Outcome} {written : Bytes}
    (hmore : Confined base t more)
    (hopened : s.opened ≤ t.opened) (hfiles : t.files = s.files) (houtput : t.output = s.output) :
    Confined base s { more with written } where
  numbered := hmore.numbered
  opened := Nat.le_trans hopened hmore.opened
  files := hmore.files.trans hfiles
  output := hmore.output.trans houtput
  branches := hmore.branches
  frames := hmore.frames

/-- The lines of a file keep what was there before it, and leave nothing open when they come to
    their end. -/
theorem processLines_confined (hnested : NestedConfined nested) (lines : List LogicalLine)
    (place : OutputPlace) (s : State) (hn : Numbered s)
    (hbase : ∀ f ∈ base.frames, f.file ≠ s.fileId)
    (ha : Branch.Above base s.fileId s.branches) :
    Confined base s (s.processLines h nested place lines) := by
  induction lines generalizing place s with
  | nil =>
    -- what is still open above `base` is closed, and its oldest group knew the flag of `base`
    obtain ⟨hplace, hclosed⟩ := closeGroups_effect s hbase ha
    have hframes : ∀ f ∈ s.closeGroups.branches.frames, f.file ≤ s.opened := by
      rw [hclosed]
      exact fun f hf => hn.frames f (ha.suffix.mem hf)
    exact ⟨hn.of_samePlace hplace hframes, Nat.le_of_eq hplace.opened.symm, hplace.files,
      hplace.output, fun _ => hclosed, hclosed ▸ List.suffix_refl _⟩
  | cons l rest ih =>
    have hn' : Numbered (s.track l) := ⟨hn.files, hn.frames⟩
    cases hl : l.directive with
    | true =>
      -- the file goes on above `base`, or the run ends
      obtain ⟨hnum, hopened, hfiles, houtput, habove, hframes⟩ :
          Within base (s.track l) (s.directiveLine h nested l) :=
        directive_within hnested hn' hbase ha _ l.text
      cases hfailure : (s.directiveLine h nested l).failure with
      | some failure =>
        have hfatal := isFatal_of_failure hfailure
        rw [Outcome.isFatal, hfailure] at hfatal
        rw [processLines_ended hl hfailure]
        refine ⟨⟨hnum.files, hnum.frames⟩, hopened, hfiles, houtput, fun hnot => ?_, hframes⟩
        exact absurd (hfatal.symm.trans hnot) (by simp)
      | none =>
        rw [processLines_resumed hl hfailure]
        have hgoesOn : (s.directiveLine h nested l).isFatal = false := by
          rw [Outcome.isFatal, hfailure]
          rfl
        have hid : (s.directiveLine h nested l).resumed.fileId = s.fileId := by
          have hsame : (s.directiveLine h nested l).resumed.files = s.files := hfiles
          unfold State.fileId
          rw [hsame]
        refine Confined.cons (ih _ _ ⟨hnum.files, hnum.frames⟩ ?_ ?_) hopened hfiles houtput
        · rw [hid]
          exact hbase
        · rw [hid]
          exact habove hgoesOn
    | false =>
      cases hc : s.compiling with
      | true =>
        rw [processLines_copied h nested place s l rest hl hc]
        exact Confined.cons (ih _ (s.track l) hn' hbase ha) (Nat.le_refl _) rfl rfl
      | false =>
        rw [processLines_skipped h nested place s l rest hl hc]
        exact Confined.cons (ih _ (s.track l) hn' hbase ha) (Nat.le_refl _) rfl rfl

/-- A file is confined, because its number is new to every group that is open. -/
theorem processFile_confined (hnested : NestedConfined nested) (s : State) (hn : Numbered s)
    (name contents : Bytes) : Confined s.branches s (s.processFile h nested name contents) := by
  have hbase : ∀ f ∈ s.branches.frames, f.file ≠ (s.openFile name).fileId := by
    intro f hf
    have hle := hn.frames f hf
    show f.file ≠ s.opened + 1
    omega
  obtain ⟨hnum, hopened, hfiles, -, hbranches, hframes⟩ :=
    processLines_confined (h := h) hnested (Source.logicalLines contents) {} (s.openFile name)
      (hn.openFile name) hbase (Branch.Above.refl _ _)
  have hclosed : (s.processFile h nested name contents).state.files = s.files := by
    show List.tail _ = _
    rw [hfiles]
    rfl
  have hgrows := Nat.le_trans (Nat.le_succ s.opened) hopened
  refine ⟨⟨fun f hf => ?_, hnum.frames⟩, hgrows, hclosed, rfl, hbranches, hframes⟩
  rw [hclosed] at hf
  exact Nat.le_trans (hn.files f hf) hgrows

end Lines

theorem nestedProcess_confined (h : Host) (levels : Nat) :
    NestedConfined (nestedProcess h levels) := by
  refine nestedProcess_induct ?_ levels
  intro levels hnested s path contents hn
  exact processFile_confined hnested s hn path contents

/-! ## Reachable states -/

/-- The states that a host can come to by its own operations, including those inside a file that is
    being processed, where an include directive opens the next one. -/
inductive Reachable (h : Host) : State → Prop where
  | start (hok : h.start.2 = none) : Reachable h h.start.1
  | run {s : State} (hs : Reachable h s) (name contents : Bytes) :
      Reachable h (s.run h name contents).1.state
  | process {s : State} (hs : Reachable h s) (name contents : Bytes) :
      Reachable h (s.process h name contents).state
  | directive {s : State} (hs : Reachable h s) (levels : Nat) (pos : Position) (line : Bytes) :
      Reachable h (s.directiveWith h (nestedProcess h levels) pos line).state
  | define {s : State} (hs : Reachable h s) (text : Bytes) : Reachable h (s.defineText h text).1
  | defineAs {s : State} (hs : Reachable h s) (origin : Macro.Origin) (text : Bytes) :
      Reachable h (s.defineTextAs h origin text).1
  | takeResync {s : State} (hs : Reachable h s) : Reachable h { s with resync := false }
  | clear {s : State} (hs : Reachable h s) : Reachable h s.clear
  | openFile {s : State} (hs : Reachable h s) (name : Bytes) : Reachable h (s.openFile name)
  | track {s : State} (hs : Reachable h s) (line : LogicalLine) : Reachable h (s.track line)
  | request {s : State} (hs : Reachable h s) (requests : List Request) :
      Reachable h { s with requests }

/-- What each of the definitions that the settings ask for keeps, all of them keep. -/
theorem applyDefines_induct {P : State → Prop} {h : Host} {texts : List Bytes}
    (hdefine : ∀ s, ∀ text ∈ texts, ∀ d, Settings.Define.ofText text = .ok d → P s →
      P (s.defineText h (d.head ++ ascii " " ++ d.body)).1) {s : State} (hs : P s) :
    P (s.applyDefines h texts).1 := by
  induction texts generalizing s with
  | nil => exact hs
  | cons text rest ih =>
    unfold State.applyDefines
    cases hd : Settings.Define.ofText text with
    | error e => exact hs
    | ok d =>
      have hdefined := hdefine s text List.mem_cons_self d hd hs
      dsimp only
      split
      · next hresult =>
        exact ih (fun s text ht => hdefine s text (List.mem_cons_of_mem _ ht))
          (by rwa [hresult] at hdefined)
      · next hresult => rwa [hresult] at hdefined

/-- What holds before anything is defined, and is kept by each definition and each name that is
    dropped, holds before the first run. -/
theorem start_induct {P : State → Prop} (h : Host) (hempty : P h.emptyState)
    (hlock : ∀ s name, P s → P (s.lockName name))
    (hdefineAs : ∀ s origin c, P s → P (s.defineAs h origin c).1)
    (hdefine : ∀ s c, P s → P (s.define h c).1)
    (hdrop : ∀ (s : State) name, P s →
      P { s with table := (s.table.undefinePrivileged? name).getD s.table }) :
    P h.start.1 := by
  have hbuiltin : P h.builtinState :=
    List.foldlRecOn builtins _
      (List.foldlRecOn lockedNames _ hempty fun s hs name _ => hlock s name hs)
      fun s hs entry _ => hdefineAs s _ _ hs
  have hall : P (h.builtinState.applyDefines h h.settings.defines).1 :=
    applyDefines_induct (fun s _ _ d _ hs => hdefine s _ hs) hbuiltin
  unfold Host.start
  split
  · exact hempty
  · split
    · next hresult => rwa [hresult] at hall
    · next hresult =>
      rw [hresult] at hall
      exact List.foldlRecOn h.settings.undefines _ hall fun s hs name _ => hdrop s name hs

/-- A start without a failure makes all definitions and then drops the names that are not wanted. -/
theorem start_of_ok {h : Host} (hok : h.start.2 = none) :
    h.settings.validate = .ok () ∧
      h.start.1 = (h.builtinState.applyDefines h h.settings.defines).1.applyUndefines
        h.settings.undefines := by
  unfold Host.start at hok ⊢
  split at hok
  · exact absurd hok (by simp)
  · next hvalid =>
    split at hok
    · exact absurd hok (by simp)
    · next s hdefines =>
      refine ⟨hvalid, ?_⟩
      rw [hdefines]

section Reached

variable {h : Host} {s : State}

theorem numbered_define (hn : Numbered s) (c : Cursor) : Numbered (s.define h c).1 :=
  (hn.setTable _).of_reported (define_effect h s c)

theorem numbered_defineAs (hn : Numbered s) (origin : Macro.Origin) (c : Cursor) :
    Numbered (s.defineAs h origin c).1 := by
  unfold State.defineAs
  cases Macro.parse h.limits c with
  | error e => exact hn
  | ok p =>
    have hn' := hn.of_reported (Reported.notice s p.definition.definedAt p.notice)
    exact (hn'.setTable _).of_reported (Reported.ceiling _ _)

theorem numbered_start (h : Host) : Numbered h.start.1 := by
  have hempty : Numbered h.emptyState := ⟨by simp [Host.emptyState], by simp [Host.emptyState]⟩
  refine start_induct h hempty (fun s name hn => ?_) (fun s origin c hn => numbered_defineAs hn _ _)
    (fun s c hn => numbered_define hn c) (fun s name hn => hn.setTable _)
  exact (hn.setTable _).of_reported (Reported.ceiling _ _)

/-- In every reachable state, the next file gets a number of its own. -/
theorem Reachable.numbered (hs : Reachable h s) : Numbered s := by
  induction hs with
  | start hok => exact numbered_start h
  | @run s hs name contents ih =>
    have hreset : Numbered { s with branches := s.branches.reset, files := [], resync := false } :=
      ⟨by simp, by simp [Branch.Stack.reset]⟩
    exact (processFile_confined (nestedProcess_confined h _) _ hreset name contents).numbered
  | process hs name contents ih =>
    exact (processFile_confined (nestedProcess_confined h _) _ ih name contents).numbered
  | directive hs levels pos line ih =>
    exact directive_numbered (nestedProcess_confined h levels) ih pos line
  | define hs text ih => exact numbered_define ih _
  | defineAs hs origin text ih => exact numbered_defineAs ih origin _
  | takeResync hs ih => exact ⟨ih.files, ih.frames⟩
  | clear hs ih => exact ⟨by simp [State.clear], by simp [State.clear, Branch.Stack.reset]⟩
  | openFile hs name ih => exact ih.openFile name
  | track hs line ih => exact ⟨ih.files, ih.frames⟩
  | request hs requests ih => exact ⟨ih.files, ih.frames⟩

end Reached

/-- **Conditional groups are local to the file that opened them.** Whatever a file holds and
    includes, processing it gives back the open files, the output and the line numbers. The groups
    that were open are still there unchanged; unless the run ends, they are all there is, and lines
    are compiled as before. -/
theorem process_restores_outer (h : Host) (s : State) (hs : Reachable h s) (name contents : Bytes) :
    let out := s.process h name contents
    out.state.files = s.files ∧ out.state.output = s.output ∧ out.state.tracker = s.tracker ∧
      (out.isFatal = false → out.state.branches = s.branches) ∧
      (out.isFatal = true → s.branches.frames <:+ out.state.branches.frames) := by
  intro out
  have hconfined : Confined s.branches s out :=
    processFile_confined (nestedProcess_confined h _) s hs.numbered name contents
  exact ⟨hconfined.files, hconfined.output, rfl, hconfined.branches, fun _ => hconfined.frames⟩

/-- A host whose every included file closes a group that is not its own and leaves two open. -/
def carelessHost : Host where
  settings := {}
  includer := some fun name _ _ => .ok (name, ascii "#endif\n#ifdef X\n#else\n#ifndef X\n")

/-- The state of that host inside a file that has opened a group. -/
def carelessState : State :=
  ((carelessHost.start.1.openFile (ascii "main.c")).directiveWith carelessHost
    (nestedProcess carelessHost 3) { line := 1, column := 1 } (ascii "#ifdef __RPP__")).state

theorem process_restores_outer_careless :
    Reachable carelessHost carelessState ∧ carelessState.branches.depth = 1 ∧
      (carelessState.process carelessHost (ascii "part.h")
        (ascii "#else\n#include <a>\n#ifdef X\n")).state.branches = carelessState.branches := by
  have hs : Reachable carelessHost carelessState :=
    ((Reachable.start (by decide +kernel)).openFile _).directive 3 _ _
  obtain ⟨-, -, -, hbranches, -⟩ := process_restores_outer carelessHost carelessState hs
    (ascii "part.h") (ascii "#else\n#include <a>\n#ifdef X\n")
  exact ⟨hs, by decide +kernel, hbranches (by decide +kernel)⟩

end Preproc.Engine
