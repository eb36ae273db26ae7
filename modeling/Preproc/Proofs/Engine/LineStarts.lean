import Preproc.Proofs.Engine.Idempotence
import Preproc.Proofs.Engine.IncludeStack
import Preproc.Proofs.Engine.LineMarkers

set_option autoImplicit false

/-! # Where lines of the output begin

The output of a file is made of parts: compiled lines, markers and line breaks, of the file itself
and of the files that it includes. A part ends its line, unless it is a compiled line with which a
file ends without a newline. Nothing comes after such a line of the file itself, but something may
come after the one of an included file. So a compiled line or a marker begins a line of the output
unless it comes right after such a line of an included file (`begins_line_iff`). -/

namespace Preproc

/-! ## Lines of a source -/

namespace Source

theorem physicalLines_bytes_ne_nil (source : Bytes) :
    ∀ l ∈ physicalLines source, l.bytes ≠ [] := by
  induction source with
  | nil => simp [physicalLines]
  | cons b rest ih =>
    rw [physicalLines]
    split
    · exact List.forall_mem_cons.2 ⟨by simp [PhysicalLine.bytes], ih⟩
    · split
      · simp [PhysicalLine.bytes]
      · next line lines hlines =>
        rw [hlines] at ih
        refine List.forall_mem_cons.2 ⟨?_, (List.forall_mem_cons.1 ih).2⟩
        unfold PhysicalLine.bytes
        split <;> simp

/-- A stretch of physical lines that is read as a line is not empty. -/
theorem ReadAs.ne_nil {inComment : Bool} {stretch : List PhysicalLine} {l : LogicalLine}
    (h : ReadAs inComment stretch l) : stretch ≠ [] := by
  rintro rfl
  have hread := h { inComment } [] rfl (.inr rfl)
  exact absurd hread (by simp [joinLines])

theorem Cut.bytes_ne_nil {start : Start} {physical : List PhysicalLine}
    {lines : List LogicalLine} (h : Cut start physical lines)
    (hphysical : ∀ l ∈ physical, l.bytes ≠ []) : ∀ l ∈ lines, l.bytes ≠ [] := by
  induction h with
  | nil => simp
  | @cons start stretch rest l lines here read count bytes ended more next ih =>
    obtain ⟨hstretch, hrest⟩ := List.forall_mem_append.1 hphysical
    refine List.forall_mem_cons.2 ⟨?_, ih hrest⟩
    obtain ⟨first, others, rfl⟩ := List.exists_cons_of_ne_nil read.ne_nil
    rw [LogicalLine.bytes_eq, bytes, unlines, List.flatMap_cons]
    simp [hstretch first List.mem_cons_self]

theorem logicalLines_bytes_ne_nil (source : Bytes) : ∀ l ∈ logicalLines source, l.bytes ≠ [] :=
  (logicalLines_cut source).bytes_ne_nil (physicalLines_bytes_ne_nil source)

/-- Only the last line of a source may lack a newline. -/
theorem Reads.terminated_or_last {start : Start} {before : List LogicalLine} {l : LogicalLine}
    {after : List LogicalLine} (h : Reads start (before ++ l :: after)) :
    l.terminated = true ∨ after = [] := by
  induction before generalizing start with
  | nil =>
    cases h with
    | cons here more next => exact more
  | cons first before ih =>
    cases h with
    | cons here more next => exact ih next

end Source

namespace Engine

open Source (LogicalLine logicalLines bytesOf)

/-- A text that ends with a given one begins a line after it where the given one does. -/
theorem atLineStart_append_iff {text more : Bytes} (hmore : more ≠ []) :
    AtLineStart (text ++ more) ↔ AtLineStart more := by
  unfold AtLineStart
  rw [List.getLast?_append_of_ne_nil _ hmore]
  simp [hmore]

section Lines

variable {contents : Bytes} {l : LogicalLine} {rest : List LogicalLine}

theorem copied_ne_nil (h : l :: rest <:+ logicalLines contents) : copied l ≠ [] := by
  rw [copied_eq_bytes]
  exact Source.logicalLines_bytes_ne_nil contents l (h.subset List.mem_cons_self)

/-- A line that does not end its line of the output is the last one of a source, which lacks a
    newline. -/
theorem last_of_not_atLineStart (h : l :: rest <:+ logicalLines contents)
    (hl : ¬ AtLineStart (copied l)) : rest = [] ∧ ¬ AtLineStart contents := by
  obtain ⟨before, hbefore⟩ := h
  have hreads := Source.logicalLines_reads contents
  rw [← hbefore] at hreads
  rcases hreads.terminated_or_last with hterminated | rfl
  · exact absurd (.inr (by simp [copied, hterminated])) hl
  · refine ⟨rfl, ?_⟩
    have hbytes := Source.bytesOf_logicalLines contents
    rw [← hbefore, bytesOf, List.flatMap_append] at hbytes
    have hne : l.bytes ≠ [] := copied_eq_bytes l ▸ copied_ne_nil ⟨before, hbefore⟩
    rw [← hbytes, List.flatMap_singleton, atLineStart_append_iff hne, ← copied_eq_bytes]
    exact hl

end Lines

/-! ## Parts of the output -/

deriving instance DecidableEq for Piece

/-- A part of the output, with the number of files that wait for the file that it comes from. -/
structure Part where
  depth : Nat
  piece : Piece
  deriving DecidableEq

/-- The text that is made of some parts. -/
def outputOf (parts : List Part) : Bytes :=
  parts.flatMap (·.piece.bytes)

@[simp] theorem outputOf_nil : outputOf [] = [] := rfl

@[simp] theorem outputOf_append (parts parts' : List Part) :
    outputOf (parts ++ parts') = outputOf parts ++ outputOf parts' :=
  List.flatMap_append

/-- What is written for a line, the output of its file standing at `place`. -/
def State.linePieces (h : Host) (s : State) (place : OutputPlace) (l : LogicalLine) : List Piece :=
  if l.directive = false ∧ s.compiling = true then
    let file := (s.track l).presentedFile
    let line := (s.track l).presentedLine
    (if h.settings.lineMarkers then bridgePieces place line file else []) ++ [.compiled line file l]
  else (placeholder h l).map fun _ => .filler

/-- What the next step of a run writes. -/
def Config.nextParts (h : Host) (c : Config) : List Part :=
  match c.active with
  | [] => []
  | a :: below =>
    match c.out.failure, a.rest with
    | none, l :: _ => (c.out.state.linePieces h a.place l).map (Part.mk below.length)
    | _, _ => []

/-- What the next `n` steps of a run write. -/
def Config.partsIn (h : Host) : (n : Nat) → Config → List Part
  | 0, _ => []
  | n + 1, c =>
    match c.step h with
    | none => []
    | some c' => c.nextParts h ++ partsIn h n c'

/-- The configuration in which a file has just been opened. -/
def Config.enter (s : State) (name contents : Bytes) : Config where
  out := { state := s.openFile name }
  active := [⟨{}, logicalLines contents, s, {}⟩]

/-- The last part is a compiled line of an included file that does not end its line. -/
def EndsOpen (parts : List Part) : Prop :=
  ∃ before depth line file l,
    parts = before ++ [⟨depth + 1, .compiled line file l⟩] ∧ ¬ AtLineStart (copied l)

/-- A file with these contents can be included. -/
def Host.Supplies (h : Host) (contents : Bytes) : Prop :=
  ∃ find name includedFrom system path, h.includer = some find ∧
    find name includedFrom system = .ok (path, contents)

/-- Every file that can be included is empty or ends with a newline. -/
def Host.EndsLines (h : Host) : Prop :=
  ∀ contents, h.Supplies contents → AtLineStart contents

/-- What follows some parts begins a line, unless the last one leaves its line open. -/
def Begins (h : Host) (parts : List Part) : Prop :=
  (AtLineStart (outputOf parts) ↔ ¬ EndsOpen parts) ∧ (h.EndsLines → AtLineStart (outputOf parts))

theorem endsOpen_concat {parts : List Part} {p : Part} (h : EndsOpen (parts ++ [p])) :
    ∃ depth line file l, p = ⟨depth + 1, .compiled line file l⟩ ∧ ¬ AtLineStart (copied l) := by
  obtain ⟨before, depth, line, file, l, hparts, hl⟩ := h
  obtain rfl : p = _ := List.singleton_inj.1 (List.append_inj_right' hparts rfl)
  exact ⟨depth, line, file, l, rfl, hl⟩

theorem EndsOpen.not_atLineStart {parts : List Part} (h : EndsOpen parts) :
    ¬ AtLineStart (outputOf parts) := by
  obtain ⟨before, depth, line, file, l, rfl, hl⟩ := h
  have hne : copied l ≠ [] := fun hnil => hl (.inl hnil)
  have htext : outputOf [⟨depth + 1, .compiled line file l⟩] = copied l := List.append_nil _
  rwa [outputOf_append, htext, atLineStart_append_iff hne]

/-! ## What a step writes -/

section Written

variable {h : Host}

theorem placeholder_eq_fillers (h : Host) (l : LogicalLine) (depth : Nat) :
    outputOf (((placeholder h l).map fun _ => Piece.filler).map (Part.mk depth)) =
      placeholder h l := by
  have hblank : ∀ b ∈ placeholder h l, b = newline := by
    unfold placeholder blankLines
    split
    · simp
    · exact fun b hb => List.eq_of_mem_replicate hb
  generalize placeholder h l = text at hblank
  induction text with
  | nil => rfl
  | cons b text ih =>
    obtain ⟨rfl, hrest⟩ := List.forall_mem_cons.1 hblank
    exact congrArg (newline :: ·) (ih hrest)

theorem outputOf_linePieces_copied {s : State} {l : LogicalLine} (hl : l.directive = false)
    (hs : s.compiling = true) (place : OutputPlace) (depth : Nat) :
    outputOf ((s.linePieces h place l).map (Part.mk depth)) =
      (if h.settings.lineMarkers then
        bridge place (s.track l).presentedLine (s.track l).presentedFile else []) ++ copied l := by
  unfold State.linePieces
  rw [if_pos ⟨hl, hs⟩]
  dsimp only
  rw [outputOf, List.flatMap_map, List.flatMap_append]
  congr 1
  · split
    · exact (bridge_eq_pieces _ _ _).symm
    · rfl
  · exact List.append_nil _

theorem outputOf_linePieces_dropped {s : State} {l : LogicalLine}
    (hl : ¬ (l.directive = false ∧ s.compiling = true)) (place : OutputPlace) (depth : Nat) :
    outputOf ((s.linePieces h place l).map (Part.mk depth)) = placeholder h l := by
  rw [State.linePieces, if_neg hl, placeholder_eq_fillers]

/-- Only an include directive may write. -/
theorem external_written (nested : Option Nested) (s : State) {kw : Option Keyword}
    (hkw : kw ≠ some .includeFile) (name : Bytes) (pos : Position) (c : Cursor) :
    (s.external h nested kw name pos c).written = [] := by
  rw [external_nested hkw nested none]
  rcases external_effect h none s kw name pos c with hstays | ⟨process, path, contents, requests,
    hnone, -⟩
  · exact hstays.written
  · exact absurd hnone (by simp)

theorem dispatch_written {nested : Option Nested}
    (hsilent : ∀ process, nested = some process → ∀ s path contents,
      (process s path contents).written = []) (s : State) (kw : Option Keyword) (name : Token)
    (c : Cursor) : (s.dispatch h nested kw name c).written = [] := by
  by_cases hkw : kw = some .includeFile
  · subst hkw
    simp only [State.dispatch, State.external]
    split
    · rfl
    · next find _ =>
      have hout := include_outcome h nested find s name.pos c
      generalize s.include h nested find name.pos c = out at hout ⊢
      cases hout with
      | unnamed | tooDeep | notFound => rfl
      | opened _ hsome => exact hsilent _ hsome _ _ _
  · rw [dispatch_nested hkw nested none]
    rcases dispatch_effect h none s kw name c with hstays | ⟨process, path, contents, requests,
      hnone, -⟩
    · exact hstays.written
    · exact absurd hnone (by simp)

/-- A directive that opens no file writes nothing. -/
theorem directiveWith_idle_written (s s' : State) (pos : Position) (line : Bytes) :
    (s.directiveWith h (s'.idle h) pos line).written = [] := by
  have hsilent : ∀ process, s'.idle h = some process → ∀ s path contents,
      (process s path contents).written = [] := by
    intro process hidle s path contents
    unfold State.idle at hidle
    split at hidle
    · obtain rfl := Option.some.inj hidle
      rfl
    · exact absurd hidle (by simp)
  have hout := directiveWith_outcome h (s'.idle h) s pos line
  generalize s.directiveWith h (s'.idle h) pos line = out at hout ⊢
  cases hout with
  | unsigned | ignored | invalid | skipped => rfl
  | @named name c =>
    rw [(reported_effect _ _).2.1]
    obtain ⟨resync, hnote⟩ := noteSwitch_effect
      (s.dispatch h (s'.idle h) (Keyword.ofName? name.text) name c) s.compiling
    rw [hnote]
    exact dispatch_written hsilent s _ _ _
  | numbered =>
    rw [(reported_effect _ _).2.1]
    exact external_written _ s (by simp) _ _ _

/-- **What a step does** to the output and to the lines that are left. It closes a file, or handles
    a line of the innermost file, or opens a file that a line includes. -/
inductive Config.Advances (h : Host) (c c' : Config) : Prop where
  | ends {a : Activation} (active : c.active = [a]) (written : c.nextParts h = [])
      (closed : c'.active = [])
  | leaves {a b : Activation} {below : List Activation} {place : OutputPlace}
      (active : c.active = a :: b :: below) (written : c.nextParts h = [])
      (closed : c'.active = { b with place } :: below)
  | handles {a : Activation} {below : List Activation} {l : LogicalLine}
      {rest : List LogicalLine} {place : OutputPlace} (active : c.active = a :: below)
      (lines : a.rest = l :: rest)
      (written : c.nextParts h =
        (c.out.state.linePieces h a.place l).map (Part.mk below.length))
      (handled : c'.active = { a with rest, place } :: below)
  | opens {a a' : Activation} {below : List Activation} {l : LogicalLine}
      {rest : List LogicalLine} {contents : Bytes} (active : c.active = a :: below)
      (lines : a.rest = l :: rest) (directive : l.directive = true)
      (written : c.nextParts h =
        (c.out.state.linePieces h a.place l).map (Part.mk below.length))
      (supplied : h.Supplies contents) (file : a'.rest = logicalLines contents)
      (opened : c'.active = a' :: { a with rest } :: below)

theorem found?_supplies {s : State} {find : Includer} {pos : Position} {c : Cursor} {o : Inclusion}
    (hfind : h.includer = some find) (ho : s.found? find pos c = some o) :
    h.Supplies o.contents := by
  unfold State.found? at ho
  split at ho
  · exact absurd ho (by simp)
  · split at ho
    · exact absurd ho (by simp)
    · next name system _ _ path contents hfound =>
      obtain rfl := Option.some.inj ho
      exact ⟨find, name, s.file, system, path, hfind, hfound⟩

theorem leave_advances {c : Config} {a : Activation} {below : List Activation} {out : Outcome}
    (hactive : c.active = a :: below) (hnone : c.nextParts h = [])
    (hwritten : out.written = c.out.written) :
    c.Advances h (a.leave below out) ∧
      (a.leave below out).out.written = c.out.written ++ outputOf (c.nextParts h) := by
  rw [hnone, outputOf_nil, List.append_nil, ← hwritten]
  unfold Activation.leave
  cases below with
  | nil => exact ⟨.ends hactive hnone rfl, rfl⟩
  | cons b below =>
    refine ⟨.leaves hactive hnone rfl, ?_⟩
    dsimp only
    rw [(reported_effect _ _).2.1]
    obtain ⟨resync, hnote⟩ := noteSwitch_effect
      { out with state := { out.state.closeFile a.outer with resync := true } } true
    rw [hnote]

theorem handle_advances {c : Config} {a : Activation} {below : List Activation} {l : LogicalLine}
    {rest : List LogicalLine} (hactive : c.active = a :: below) (hlines : a.rest = l :: rest)
    (hnext : c.nextParts h = (c.out.state.linePieces h a.place l).map (Part.mk below.length)) :
    c.Advances h ({ a with rest }.handle h below c.out.state c.out.written l) ∧
      ({ a with rest }.handle h below c.out.state c.out.written l).out.written =
        c.out.written ++ outputOf (c.nextParts h) := by
  rw [hnext]
  cases hl : l.directive with
  | true =>
    rw [outputOf_linePieces_dropped (by simp [hl])]
    cases ho : (c.out.state.track l).inclusion? h ((c.out.state.track l).linePosition l) l.text with
    | some o =>
      obtain ⟨name, cursor, find, -, -, -, hfind, hfound⟩ := inclusion?_eq_some ho
      rw [handle_opens hl ho]
      exact ⟨.opens hactive hlines hl hnext (found?_supplies hfind hfound) rfl rfl, rfl⟩
    | none =>
      rw [handle_directive hl ho]
      refine ⟨.handles hactive hlines hnext rfl, ?_⟩
      dsimp only
      rw [State.directiveLine, directiveWith_idle_written, List.append_nil]
  | false =>
    cases hs : c.out.state.compiling with
    | true =>
      rw [outputOf_linePieces_copied hl hs, handle_copied hl hs]
      exact ⟨.handles hactive hlines hnext rfl, rfl⟩
    | false =>
      rw [outputOf_linePieces_dropped (by simp [hs]), handle_skipped hl hs]
      exact ⟨.handles hactive hlines hnext rfl, rfl⟩

theorem step_advances {c c' : Config} (hstep : c.step h = some c') :
    c.Advances h c' ∧ c'.out.written = c.out.written ++ outputOf (c.nextParts h) := by
  obtain ⟨a, below, hactive, ⟨failure, hfailure, rfl⟩ | ⟨hfailure, hrest, rfl⟩ |
    ⟨l, rest, hfailure, hrest, rfl⟩⟩ := step_cases hstep
  · exact leave_advances hactive (by simp [Config.nextParts, hactive, hfailure]) rfl
  · exact leave_advances hactive (by simp [Config.nextParts, hactive, hfailure, hrest]) rfl
  · exact handle_advances hactive hrest (by simp [Config.nextParts, hactive, hfailure, hrest])

end Written

/-! ## Parts that end their line -/

/-- A marker or a line break ends its line. -/
theorem Piece.closed_of_isAdded {p : Piece} (hp : p.isAdded = true) :
    p.bytes ≠ [] ∧ AtLineStart p.bytes := by
  cases p with
  | marker line file => exact ⟨by simp [bytes, lineMarker], .inr (by simp [bytes, lineMarker])⟩
  | filler => exact ⟨by simp [bytes], .inr rfl⟩
  | compiled line file l => exact absurd hp (by simp [isAdded])

theorem closed_of_added (parts : List Part) {added : List Part}
    (hadded : ∀ p ∈ added, p.piece.isAdded = true) (hne : added ≠ []) :
    AtLineStart (outputOf (parts ++ added)) ∧ ¬ EndsOpen (parts ++ added) := by
  obtain rfl | ⟨more, p, rfl⟩ := List.eq_nil_or_concat added
  · exact absurd rfl hne
  · rw [List.concat_eq_append] at hadded ⊢
    have hp := hadded p (by simp)
    obtain ⟨hbytes, hclosed⟩ := Piece.closed_of_isAdded hp
    have htext : outputOf [p] = p.piece.bytes := List.append_nil _
    rw [← List.append_assoc, outputOf_append, htext, atLineStart_append_iff hbytes]
    refine ⟨hclosed, fun hopen => ?_⟩
    obtain ⟨depth, line, file, l, rfl, -⟩ := endsOpen_concat hopen
    exact absurd hp (by simp [Piece.isAdded])

theorem bridgePieces_added (place : OutputPlace) (line : Int) (file : Bytes) :
    ∀ p ∈ bridgePieces place line file, p.isAdded = true := by
  unfold bridgePieces
  dsimp only
  split
  · simp
  · split
    · intro p hp
      rw [List.eq_of_mem_replicate hp]
      rfl
    · simp [Piece.isAdded]

/-- The parts of a compiled line: markers and line breaks, and the line itself. -/
theorem linePieces_copied (h : Host) {s : State} {l : LogicalLine}
    (hl : l.directive = false ∧ s.compiling = true) (place : OutputPlace) (depth : Nat) :
    ∃ added line file, (∀ p ∈ added, Piece.isAdded (Part.piece p) = true) ∧
      (s.linePieces h place l).map (Part.mk depth) = added ++ [⟨depth, .compiled line file l⟩] := by
  unfold State.linePieces
  rw [if_pos hl, List.map_append]
  refine ⟨_, _, _, ?_, rfl⟩
  intro p hp
  obtain ⟨piece, hpiece, rfl⟩ := List.mem_map.1 hp
  split at hpiece
  · exact bridgePieces_added _ _ _ piece hpiece
  · exact absurd hpiece (by simp)

/-- The parts of any other line: line breaks. -/
theorem linePieces_dropped (h : Host) {s : State} {l : LogicalLine}
    (hl : ¬ (l.directive = false ∧ s.compiling = true)) (place : OutputPlace) (depth : Nat) :
    ∀ p ∈ (s.linePieces h place l).map (Part.mk depth), p.piece = .filler := by
  unfold State.linePieces
  rw [if_neg hl]
  simp

/-! ## What a run keeps -/

/-- Where the lines that are left come from: each of the open files has contents, the last lines of
    which are left, and all but the outermost one are included. -/
def Sourced (h : Host) : List Activation → Prop
  | [] => True
  | a :: below =>
    (∃ contents, a.rest <:+ logicalLines contents ∧ (below ≠ [] → h.Supplies contents)) ∧
      Sourced h below

/-- How a run stands that has written some parts. -/
structure Config.Lined (h : Host) (c : Config) (parts : List Part) : Prop where
  sourced : Sourced h c.active
  /-- A line is left open at the end of an included file, or at the very end. -/
  ready : AtLineStart (outputOf parts) ∨ EndsOpen parts ∨ ∀ a ∈ c.active, a.rest = []
  closed : h.EndsLines → ¬ EndsOpen parts

section Run

variable {h : Host} {c c' : Config} {parts : List Part}

theorem Config.Lined.begins {a : Activation} {below : List Activation} {l : LogicalLine}
    {rest : List LogicalLine} (hc : c.Lined h parts) (hactive : c.active = a :: below)
    (hlines : a.rest = l :: rest) : Begins h parts := by
  have hready : AtLineStart (outputOf parts) ∨ EndsOpen parts := by
    refine hc.ready.imp id fun hready => hready.resolve_right fun hend => ?_
    have hnil := hend a (by simp [hactive])
    exact absurd hnil (by simp [hlines])
  exact ⟨⟨fun hstart hopen => hopen.not_atLineStart hstart, hready.resolve_right⟩,
    fun hends => hready.resolve_right (hc.closed hends)⟩

theorem enter_lined (h : Host) (s : State) (name contents : Bytes) :
    (Config.enter s name contents).Lined h [] where
  sourced := ⟨⟨contents, List.suffix_rfl, fun hne => absurd rfl hne⟩, trivial⟩
  ready := .inl (.inl rfl)
  closed _ := fun ⟨before, _, _, _, _, hnil, _⟩ => absurd hnil (by simp)

/-- A line that is not copied leaves nothing open that was not open before. -/
theorem dropped_lined {a : Activation} {below : List Activation} {l : LogicalLine}
    {rest : List LogicalLine} (hc : c.Lined h parts) (hactive : c.active = a :: below)
    (hlines : a.rest = l :: rest) {s : State} (hl : ¬ (l.directive = false ∧ s.compiling = true))
    (place : OutputPlace) :
    let parts' := parts ++ (s.linePieces h place l).map (Part.mk below.length)
    (AtLineStart (outputOf parts') ∨ EndsOpen parts') ∧ (h.EndsLines → ¬ EndsOpen parts') := by
  intro parts'
  have hfillers := linePieces_dropped h hl place below.length
  obtain hnil | hne := eq_or_ne ((s.linePieces h place l).map (Part.mk below.length)) []
  · have hparts : parts' = parts := by rw [← List.append_nil parts, ← hnil]
    rw [hparts]
    exact ⟨or_iff_not_imp_right.2 (hc.begins hactive hlines).1.2, hc.closed⟩
  · obtain ⟨hstart, hopen⟩ := closed_of_added parts (fun p hp => by rw [hfillers p hp]; rfl) hne
    exact ⟨.inl hstart, fun _ => hopen⟩

/-- **One line**: what the output is like after it. -/
theorem line_lined {a : Activation} {below : List Activation} {l : LogicalLine}
    {rest : List LogicalLine} (hc : c.Lined h parts) (hactive : c.active = a :: below)
    (hlines : a.rest = l :: rest) (s : State) (place : OutputPlace) :
    let parts' := parts ++ (s.linePieces h place l).map (Part.mk below.length)
    (AtLineStart (outputOf parts') ∨ EndsOpen parts' ∨ below = [] ∧ rest = []) ∧
      (h.EndsLines → ¬ EndsOpen parts') := by
  intro parts'
  have hsourced := hc.sourced
  rw [hactive] at hsourced
  obtain ⟨⟨contents, hsuffix, hsupplied⟩, -⟩ := hsourced
  rw [hlines] at hsuffix
  by_cases hl : l.directive = false ∧ s.compiling = true
  · obtain ⟨added, line, file, hadded, hpieces⟩ := linePieces_copied h hl place below.length
    have hparts : parts' = parts ++ added ++ [⟨below.length, .compiled line file l⟩] := by
      rw [List.append_assoc, ← hpieces]
    have htext : outputOf parts' = outputOf (parts ++ added) ++ copied l := by
      rw [hparts, outputOf_append]
      exact congrArg _ (List.append_nil _)
    rw [htext, atLineStart_append_iff (copied_ne_nil hsuffix), hparts]
    by_cases hclosed : AtLineStart (copied l)
    · refine ⟨.inl hclosed, fun _ hopen => ?_⟩
      obtain ⟨depth, line', file', l', hpart, hl'⟩ := endsOpen_concat hopen
      obtain ⟨rfl, rfl, rfl⟩ := Piece.compiled.inj (Part.mk.inj hpart).2
      exact hl' hclosed
    · obtain ⟨rfl, hcontents⟩ := last_of_not_atLineStart hsuffix hclosed
      cases below with
      | nil =>
        refine ⟨.inr (.inr ⟨rfl, rfl⟩), fun _ hopen => ?_⟩
        obtain ⟨depth, line', file', l', hpart, -⟩ := endsOpen_concat hopen
        exact absurd (Part.mk.inj hpart).1 (by simp)
      | cons b below =>
        exact ⟨.inr (.inl ⟨_, below.length, line, file, l, rfl, hclosed⟩),
          fun hends => absurd (hends contents (hsupplied (by simp))) hcontents⟩
  · obtain ⟨hready, hends⟩ := dropped_lined hc hactive hlines hl place
    exact ⟨hready.imp id .inl, hends⟩

/-- **One step** keeps the lines of the output apart, but for those that an included file leaves
    open. -/
theorem step_lined (hc : c.Lined h parts) (hstep : c.step h = some c') :
    c'.Lined h (parts ++ c.nextParts h) := by
  obtain ⟨hadvances, -⟩ := step_advances hstep
  have hsourced := hc.sourced
  have hready := hc.ready
  cases hadvances with
  | ends hactive hnone hclosed =>
    rw [hnone, List.append_nil]
    exact ⟨by rw [hclosed]; trivial, .inr (.inr (by simp [hclosed])), hc.closed⟩
  | @leaves a b below place hactive hnone hclosed =>
    rw [hnone, List.append_nil]
    rw [hactive] at hsourced hready
    refine ⟨by rw [hclosed]; exact hsourced.2, ?_, hc.closed⟩
    refine hready.imp id (.imp id fun hend => ?_)
    rw [hclosed]
    exact List.forall_mem_cons.2 (List.forall_mem_cons.1 (List.forall_mem_cons.1 hend).2)
  | @handles a below l rest place hactive hlines hnext hhandled =>
    rw [hnext]
    obtain ⟨hready', hclosed⟩ := line_lined hc hactive hlines c.out.state a.place
    rw [hactive] at hsourced
    obtain ⟨⟨contents, hsuffix, hsupplied⟩, hbelow⟩ := hsourced
    rw [hlines] at hsuffix
    refine ⟨?_, hready'.imp id (.imp id ?_), hclosed⟩
    · rw [hhandled]
      exact ⟨⟨contents, (List.suffix_cons l rest).trans hsuffix, hsupplied⟩, hbelow⟩
    · rintro ⟨rfl, rfl⟩
      simp [hhandled]
  | @opens a a' below l rest contents hactive hlines hl hnext hsupplies hfile hopened =>
    rw [hnext]
    obtain ⟨hready', hclosed⟩ := dropped_lined (s := c.out.state) hc hactive hlines (by simp [hl])
      a.place
    rw [hactive] at hsourced
    obtain ⟨⟨outer, hsuffix, hsupplied⟩, hbelow⟩ := hsourced
    rw [hlines] at hsuffix
    refine ⟨?_, hready'.imp id .inl, hclosed⟩
    rw [hopened]
    exact ⟨⟨contents, by rw [hfile], fun _ => hsupplies⟩,
      ⟨outer, (List.suffix_cons l rest).trans hsuffix, hsupplied⟩, hbelow⟩

/-- Where the markers and compiled lines begin that a step writes. -/
theorem step_begins (hc : c.Lined h parts) (hstep : c.step h = some c') {before after : List Part}
    {p : Part} (hsplit : c.nextParts h = before ++ p :: after) (hp : p.piece ≠ .filler) :
    Begins h (parts ++ before) := by
  obtain ⟨a, below, l, rest, hactive, hlines, hnext⟩ : ∃ a below l rest, c.active = a :: below ∧
      a.rest = l :: rest ∧ c.nextParts h =
        (c.out.state.linePieces h a.place l).map (Part.mk below.length) := by
    cases (step_advances hstep).1 with
    | ends hactive hnone => exact absurd (hnone.symm.trans hsplit) (by simp)
    | leaves hactive hnone => exact absurd (hnone.symm.trans hsplit) (by simp)
    | handles hactive hlines hnext => exact ⟨_, _, _, _, hactive, hlines, hnext⟩
    | opens hactive hlines _ hnext => exact ⟨_, _, _, _, hactive, hlines, hnext⟩
  rw [hnext] at hsplit
  by_cases hl : l.directive = false ∧ c.out.state.compiling = true
  · obtain ⟨added, line, file, hadded, hpieces⟩ := linePieces_copied h hl a.place below.length
    -- what stands before a part of a compiled line is a marker or a line break
    have hbefore : before <+: added := by
      rw [hpieces] at hsplit
      have hprefix : before <+: added ++ [⟨below.length, .compiled line file l⟩] :=
        ⟨p :: after, hsplit.symm⟩
      refine (List.prefix_concat_iff.1 hprefix).resolve_left fun hall => ?_
      rw [hall] at hsplit
      exact absurd (List.self_eq_append_right.1 hsplit) (by simp)
    obtain rfl | hne := eq_or_ne before []
    · rw [List.append_nil]
      exact hc.begins hactive hlines
    · obtain ⟨hstart, hopen⟩ := closed_of_added parts
        (fun q hq => hadded q (hbefore.subset hq)) hne
      exact ⟨iff_of_true hstart hopen, fun _ => hstart⟩
  · have hmem : p ∈ (c.out.state.linePieces h a.place l).map (Part.mk below.length) := by
      simp [hsplit]
    exact absurd (linePieces_dropped h hl a.place below.length p hmem) hp

/-- **A run**: where the markers and compiled lines begin that it writes. -/
theorem partsIn_begins (n : Nat) (hc : c.Lined h parts) {before after : List Part} {p : Part}
    (hsplit : c.partsIn h n = before ++ p :: after) (hp : p.piece ≠ .filler) :
    Begins h (parts ++ before) := by
  induction n generalizing c parts before with
  | zero => exact absurd hsplit (by simp [Config.partsIn])
  | succ n ih =>
    rw [Config.partsIn] at hsplit
    split at hsplit
    · exact absurd hsplit (by simp)
    · next c' hstep =>
      have hc' := step_lined hc hstep
      obtain ⟨more, rfl, hmore⟩ | ⟨more, hnext, hmore⟩ := List.append_eq_append_iff.1 hsplit
      · rw [← List.append_assoc]
        exact ih hc' hmore
      · cases more with
        | nil =>
          have hfirst : c'.partsIn h n = [] ++ p :: after := hmore.symm
          have hbegins := ih hc' hfirst
          rw [List.append_nil] at hbegins hnext
          rwa [← hnext]
        | cons q more =>
          obtain ⟨rfl, -⟩ := List.cons.inj hmore
          exact step_begins hc hstep hnext hp

/-- What a run has written when it comes to a configuration. -/
theorem reaches_written (hreaches : Config.Reaches h c c') :
    ∃ n, c'.out.written = c.out.written ++ outputOf (c.partsIn h n) := by
  induction hreaches using Relation.ReflTransGen.head_induction_on with
  | refl => exact ⟨0, (List.append_nil _).symm⟩
  | @head c c'' hstep _ ih =>
    obtain ⟨n, hn⟩ := ih
    refine ⟨n + 1, ?_⟩
    rw [hn, (step_advances hstep).2, Config.partsIn, hstep, List.append_assoc, ← outputOf_append]

end Run

/-! ## Main statement -/

/-- **Where lines of the output begin.** The output of a file, with the files that it includes, is
    made of the parts that its steps write. A compiled line or a marker begins a line of it exactly
    when it does not come right after a line that an included file leaves open. When every file that
    can be included is empty or ends with a newline, all of them begin a line. -/
theorem begins_line_iff (h : Host) (s : State) (name contents : Bytes) :
    let start := Config.enter s name contents
    (∃ n, (s.process h name contents).written = outputOf (start.partsIn h n)) ∧
      ∀ n before p after, start.partsIn h n = before ++ p :: after → p.piece ≠ .filler →
        (AtLineStart (outputOf before) ↔ ¬ EndsOpen before) ∧
          (h.EndsLines → AtLineStart (outputOf before)) := by
  refine ⟨?_, fun n before p after hsplit hp => ?_⟩
  · have hends := runsLines h ((s.openFile name).levelsLeft h) (logicalLines contents)
      ⟨{}, logicalLines contents, s, {}⟩ [] (s.openFile name) [] rfl rfl
    exact reaches_written hends
  · exact partsIn_begins n (enter_lined h s name contents) hsplit hp

/-- A host with a file that does not end with a newline. -/
def unendedHost (lineMarkers : Bool) : Host where
  settings := { lineMarkers }
  includer := some fun _ _ _ => .ok (ascii "a.h", ascii "x")

/-- There, the line after the include directive is joined to the line of the included file, and so
    is the marker that is written in its place. -/
theorem begins_line_iff_unended :
    let source := ascii "#include \"a.h\"\ny\n"
    let output := fun markers => ((unendedHost markers).start.1.process (unendedHost markers)
      (ascii "main.c") source).written
    let parts := fun markers => (Config.enter (unendedHost markers).start.1 (ascii "main.c")
      source).partsIn (unendedHost markers) 5
    let x : LogicalLine := ⟨ascii "x", ascii "x", 1, 1, 0, false, false, false⟩
    let y : LogicalLine := ⟨ascii "y", ascii "y", 2, 1, 15, true, false, false⟩
    let opened := [⟨0, .filler⟩, ⟨1, .compiled 1 (ascii "a.h") x⟩]
    let marked := [⟨1, .marker 1 (ascii "a.h")⟩, ⟨1, .compiled 1 (ascii "a.h") x⟩]
    parts false = opened ++ [⟨0, .compiled 2 (ascii "main.c") y⟩] ∧
      output false = ascii "\nxy\n" ∧ EndsOpen opened ∧ ¬ AtLineStart (outputOf opened) ∧
      parts true = marked ++ [⟨0, .marker 2 (ascii "main.c")⟩,
        ⟨0, .compiled 2 (ascii "main.c") y⟩] ∧
      output true = ascii "#line 1 \"a.h\"\nx#line 2 \"main.c\"\ny\n" ∧
      EndsOpen marked ∧ ¬ AtLineStart (outputOf marked) := by
  intro source output parts x y opened marked
  have hx : ¬ AtLineStart (copied x) := by
    unfold AtLineStart
    decide +kernel
  have hopened : EndsOpen opened := ⟨[⟨0, .filler⟩], 0, 1, ascii "a.h", x, rfl, hx⟩
  have hmarked : EndsOpen marked :=
    ⟨[⟨1, .marker 1 (ascii "a.h")⟩], 0, 1, ascii "a.h", x, rfl, hx⟩
  have hparts : parts false = opened ++ [⟨0, .compiled 2 (ascii "main.c") y⟩] := by decide +kernel
  have hparts' : parts true = marked ++ [⟨0, .marker 2 (ascii "main.c")⟩,
      ⟨0, .compiled 2 (ascii "main.c") y⟩] := by decide +kernel
  have hbegins := (begins_line_iff (unendedHost false) (unendedHost false).start.1 (ascii "main.c")
    source).2 5 _ _ _ hparts (by simp)
  have hbegins' := (begins_line_iff (unendedHost true) (unendedHost true).start.1 (ascii "main.c")
    source).2 5 _ _ _ hparts' (by simp)
  exact ⟨hparts, by decide +kernel, hopened, fun hstart => hbegins.1.1 hstart hopened, hparts',
    by decide +kernel, hmarked, fun hstart => hbegins'.1.1 hstart hmarked⟩

end Engine

end Preproc
