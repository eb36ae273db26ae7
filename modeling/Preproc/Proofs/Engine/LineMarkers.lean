import Preproc.Engine.Start
import Preproc.Proofs.Engine.SingleFile
import Preproc.Proofs.Source.Reading

set_option autoImplicit false

/-! # Line markers

With line markers, the output of a file is made of compiled lines, of markers, and of empty lines
that fill short gaps. Reading it back, a marker says where the next line stands, and every other
line break goes on to the next number. In this way each compiled line is found at the place at which
it is presented, and nothing is added inside a block comment that the compiled lines have opened
(`process_places_lines`). -/

namespace Preproc.Engine

open Source (LogicalLine Start Reads)

/-! ## Parts of the output -/

/-- A part of what is written for a file. -/
inductive Piece where
  /-- A marker that says which line comes next. -/
  | marker (line : Int) (file : Bytes)
  /-- An empty line that fills a gap. -/
  | filler
  /-- A compiled line, with the place at which it is presented. -/
  | compiled (line : Int) (file : Bytes) (l : LogicalLine)

namespace Piece

/-- The text of a part. -/
def bytes : Piece → Bytes
  | marker line file => lineMarker line file
  | filler => [newline]
  | compiled _ _ l => copied l

/-- Whether a part is not from the source. -/
def isAdded : Piece → Bool
  | compiled .. => false
  | _ => true

/-- Where the output stands after a part, read back: at the place that a marker names, else as many
    lines further as the part has line breaks. -/
def advance (place : OutputPlace) : Piece → OutputPlace
  | marker line file => ⟨file, line⟩
  | p => { place with line := place.line + countNewlines p.bytes }

/-- Whether a block comment is open after a part, of which only compiled lines matter. -/
def leavesOpen (isOpen : Bool) : Piece → Bool
  | compiled _ _ l => Source.endsInComment isOpen l.text
  | _ => isOpen

end Piece

/-- Where the output stands after some parts, read back from a given place. -/
def replay (place : OutputPlace) (pieces : List Piece) : OutputPlace :=
  pieces.foldl Piece.advance place

/-- Whether the compiled lines among some parts leave a block comment open. -/
def commentOpen (pieces : List Piece) : Bool :=
  pieces.foldl Piece.leavesOpen false

/-- Whether what follows a text begins a line. -/
def AtLineStart (text : Bytes) : Prop :=
  text = [] ∨ text.getLast? = some newline

/-- The parts that bring the output to the place of a compiled line. -/
def bridgePieces (place : OutputPlace) (line : Int) (file : Bytes) : List Piece :=
  let gap := line - place.line
  if place.file = file ∧ gap = 0 then []
  else if place.file = file ∧ 0 < gap ∧ gap ≤ maxBlankGap then List.replicate gap.toNat .filler
  else [.marker line file]

/-- The parts that are written for lines of a file, the output standing at `place`. -/
def State.pieces (h : Host) (nested : Option Nested) :
    (place : OutputPlace) → State → List LogicalLine → List Piece
  | _, _, [] => []
  | place, s, l :: rest =>
    if l.directive then
      let out := s.directiveLine h nested l
      match out.failure with
      | some _ => []
      | none => pieces h nested (place.after out.state) out.resumed rest
    else if s.compiling then
      let line := (s.track l).presentedLine
      let file := (s.track l).presentedFile
      bridgePieces place line file ++
        .compiled line file l :: pieces h nested ⟨file, line + l.count⟩ (s.track l) rest
    else pieces h nested place (s.track l) rest

/-- The parts that are written for a file. -/
def State.filePieces (h : Host) (s : State) (name contents : Bytes) : List Piece :=
  (s.openFile name).pieces h (nestedProcess h ((s.openFile name).levelsLeft h)) {}
    (Source.logicalLines contents)

/-! ## What is written -/

theorem bridge_eq_pieces (place : OutputPlace) (line : Int) (file : Bytes) :
    bridge place line file = (bridgePieces place line file).flatMap Piece.bytes := by
  unfold bridge bridgePieces
  dsimp only
  split
  · rfl
  · split
    · generalize (line - place.line).toNat = n
      induction n with
      | zero => rfl
      | succ n ih => rw [List.replicate_succ, List.replicate_succ, List.flatMap_cons, ih]; rfl
    · simp [Piece.bytes]

section Lines

variable {h : Host} {nested : Option Nested}

theorem processLines_written (hmarkers : h.settings.lineMarkers = true)
    (hnested : NestedOpens nested) (lines : List LogicalLine) (place : OutputPlace) (s : State)
    (halone : (s.processLines h nested place lines).state.opened = s.opened) :
    (s.processLines h nested place lines).written =
      (s.pieces h nested place lines).flatMap Piece.bytes := by
  -- with markers, a line that is not copied leaves no line breaks behind
  have hnothing : ∀ l, placeholder h l = [] := fun l => by rw [placeholder, if_pos hmarkers]
  induction lines generalizing place s with
  | nil => rfl
  | cons l rest ih =>
    cases hl : l.directive with
    | true =>
      obtain ⟨hstays, hrest⟩ := directive_alone hnested hl halone
      rw [State.pieces, if_pos hl]
      dsimp only
      cases hfailure : (s.directiveLine h nested l).failure with
      | some failure =>
        rw [processLines_ended hl hfailure]
        simp [hnothing, hstays.written]
      | none =>
        rw [processLines_resumed hl hfailure]
        dsimp only
        rw [hnothing, hstays.written, ih _ _ (hrest hfailure)]
        rfl
    | false =>
      rw [State.pieces, hl]
      cases hc : s.compiling with
      | true =>
        rw [processLines_copied h nested place s l rest hl hc] at halone ⊢
        dsimp only at halone ⊢
        rw [ih _ _ halone, if_pos hmarkers, bridge_eq_pieces]
        simp [Piece.bytes]
      | false =>
        rw [processLines_skipped h nested place s l rest hl hc] at halone ⊢
        dsimp only at halone ⊢
        rw [hnothing, ih _ _ halone]
        simp

end Lines

/-! ## Where the parts stand -/

/-- Parts that stand where they should, when the output stands at a place and a block comment of the
    compiled lines may be open: each compiled line stands at the place at which it is presented,
    nothing is added while the comment is open, and only the last part may leave its line open. -/
inductive WellPlaced : OutputPlace → Bool → List Piece → Prop where
  | nil (place : OutputPlace) (isOpen : Bool) : WellPlaced place isOpen []
  | added {place : OutputPlace} {p : Piece} {rest : List Piece} (hadded : p.isAdded = true)
      (next : WellPlaced (p.advance place) false rest) : WellPlaced place false (p :: rest)
  | compiled {line : Int} {file : Bytes} {isOpen : Bool} {l : LogicalLine} {rest : List Piece}
      (more : l.terminated = true ∨ rest = [])
      (next : WellPlaced ((Piece.compiled line file l).advance ⟨file, line⟩)
        (Source.endsInComment isOpen l.text) rest) :
      WellPlaced ⟨file, line⟩ isOpen (.compiled line file l :: rest)

theorem wellPlaced_filler {place : OutputPlace} {rest : List Piece} (n : Nat)
    (hrest : WellPlaced { place with line := place.line + n } false rest) :
    WellPlaced place false (List.replicate n .filler ++ rest) := by
  induction n generalizing place with
  | zero => simpa using hrest
  | succ n ih =>
    refine .added rfl (ih ?_)
    have hline : place.line + 1 + (n : Int) = place.line + (n + 1 : Nat) := by omega
    show WellPlaced ⟨place.file, place.line + 1 + n⟩ false rest
    rw [hline]
    exact hrest

/-- The parts before a compiled line bring the output to its place. -/
theorem wellPlaced_bridge {place actual : OutputPlace} {line : Int} {file : Bytes} {isOpen : Bool}
    {rest : List Piece} (hknown : place.file = [] ∨ actual = place) (hfile : file ≠ [])
    (hopen : isOpen = true → place = ⟨file, line⟩) (hrest : WellPlaced ⟨file, line⟩ isOpen rest) :
    WellPlaced actual isOpen (bridgePieces place line file ++ rest) := by
  have hactual : place.file = file → actual = place := by
    intro heq
    exact hknown.resolve_left (fun hnil => hfile (heq.symm.trans hnil))
  unfold bridgePieces
  dsimp only
  split
  · next hplace =>
    obtain ⟨hsame, hgap⟩ := hplace
    have hline : place.line = line := by omega
    rw [hactual hsame, List.nil_append, show place = ⟨file, line⟩ by rw [← hsame, ← hline]]
    exact hrest
  · next hother =>
    -- something is added, so that no comment is open
    obtain rfl : isOpen = false := by
      cases isOpen with
      | false => rfl
      | true => exact absurd (by rw [hopen rfl]; exact ⟨rfl, Int.sub_self line⟩) hother
    split
    · next hgap =>
      obtain ⟨rfl, hpositive, -⟩ := hgap
      have hline : place.line + ((line - place.line).toNat : Int) = line := by omega
      rw [hactual rfl]
      refine wellPlaced_filler _ ?_
      rw [hline]
      exact hrest
    · exact .added rfl hrest

/-! ## Lines of a file -/

theorem Renumbered.named {t : Tracker} {numbers : Option Tracker}
    (hnumbers : Renumbered (some t) numbers) (ht : t.name ≠ []) :
    ∃ t', numbers = some t' ∧ t'.name ≠ [] := by
  cases hnumbers with
  | same => exact ⟨t, rfl, ht⟩
  | set _ line file =>
    refine ⟨_, rfl, ?_⟩
    cases file with
    | nil => exact ht
    | cons b rest => simp [Tracker.setLine]

theorem countNewlines_copied {start : Start} {l : LogicalLine} (hl : Source.ReadAt start l)
    (hterminated : l.terminated = true) : countNewlines (copied l) = l.count := by
  rw [← hl.breaks hterminated, copied, if_pos hterminated, countNewlines, List.count_append]
  rfl

/-- How the output stands before a line that is read at `start`: at a known place, unless the next
    compiled line gets a marker, and just before the line while a comment is open. -/
structure Standing (start : Start) (place actual : OutputPlace) (s : State) (t : Tracker) :
    Prop where
  tracked : s.tracker = some t
  named : t.name ≠ []
  known : place.file = [] ∨ actual = place
  ready : s.compiling = true → start.inComment = true → place = ⟨t.name, start.line + t.delta⟩

/-- The line numbers while a line is handled. -/
def Tracker.at (t : Tracker) (l : LogicalLine) : Tracker :=
  { t with current := l.line, next := l.line + l.count }

namespace Standing

variable {start : Start} {place actual : OutputPlace} {s : State} {t : Tracker} {l : LogicalLine}

theorem track (hs : Standing start place actual s t) (l : LogicalLine) :
    (s.track l).tracker = some (t.at l) := by
  simp [State.track, hs.tracked, Tracker.at]

theorem presentedFile (hs : Standing start place actual s t) :
    (s.track l).presentedFile = t.name := by
  rw [State.presentedFile, hs.track]
  rfl

theorem presentedLine (hs : Standing start place actual s t) :
    (s.track l).presentedLine = l.line + t.delta := by
  rw [State.presentedLine, hs.track]
  rfl

/-- After a directive, the next compiled line gets a marker, or nothing was written since. -/
theorem directive (hs : Standing start place actual s t) {out : Outcome}
    (hstays : StaysInFile (s.track l) out) (hclosed : l.next.inComment = false) :
    ∃ t', Standing l.next (place.after out.state) actual out.resumed t' := by
  obtain ⟨t', htracker, hname⟩ := (hs.track l ▸ hstays.numbers).named hs.named
  refine ⟨t', htracker, hname, ?_, fun _ hopen => absurd hopen (by simp [hclosed])⟩
  unfold OutputPlace.after
  split
  · exact .inl rfl
  · exact hs.known

theorem skipped (hs : Standing start place actual s t) (hc : s.compiling = false) :
    Standing l.next place actual (s.track l) (t.at l) := by
  have hskipped : (s.track l).compiling = false := hc
  exact ⟨hs.track l, hs.named, hs.known, fun hcompiling => absurd hcompiling (by simp [hskipped])⟩

/-- After a compiled line, the output stands just before the next line. -/
theorem copied (hs : Standing start place actual s t) :
    Standing l.next ⟨t.name, l.line + t.delta + l.count⟩ ⟨t.name, l.line + t.delta + l.count⟩
      (s.track l) (t.at l) := by
  have hnext : (l.next.line : Int) + t.delta = l.line + t.delta + l.count := by
    show ((l.line + l.count : Nat) : Int) + t.delta = l.line + t.delta + l.count
    omega
  exact ⟨hs.track l, hs.named, .inr rfl, fun _ _ => congrArg (OutputPlace.mk t.name) hnext.symm⟩

end Standing

section Run

variable {h : Host} {nested : Option Nested}

/-- The parts that are written for lines stand where they should. -/
theorem pieces_wellPlaced (hnested : NestedOpens nested) {start : Start}
    {lines : List LogicalLine} (hreads : Reads start lines) (place actual : OutputPlace) (s : State)
    (t : Tracker) (hs : Standing start place actual s t)
    (halone : (s.processLines h nested place lines).state.opened = s.opened) :
    WellPlaced actual (s.compiling && start.inComment) (s.pieces h nested place lines) := by
  induction hreads generalizing place actual s t with
  | nil start => exact .nil _ _
  | @cons start l rest here more next ih =>
    rw [State.pieces]
    cases hl : l.directive with
    | true =>
      -- no comment is open before a directive, and none after it
      obtain ⟨hstays, hrest⟩ := directive_alone hnested hl halone
      rw [here.outside hl, Bool.and_false, if_pos rfl]
      dsimp only
      cases hfailure : (s.directiveLine h nested l).failure with
      | some failure => exact .nil _ _
      | none =>
        rcases more with hterminated | rfl
        · have hclosed : l.next.inComment = false := here.closed hterminated hl
          obtain ⟨t', hs'⟩ := hs.directive hstays hclosed
          have hmore := ih _ _ _ _ hs' (hrest hfailure)
          rwa [hclosed, Bool.and_false] at hmore
        · exact .nil _ _
    | false =>
      cases hc : s.compiling with
      | true =>
        rw [processLines_copied h nested place s l rest hl hc] at halone
        simp only [hs.presentedFile, hs.presentedLine] at halone
        simp only [Bool.false_eq_true, if_false, if_true, hs.presentedFile, hs.presentedLine,
          Bool.true_and]
        refine wellPlaced_bridge hs.known hs.named ?_ (.compiled ?_ ?_)
        · intro hopen
          rw [hs.ready hc hopen, here.line]
        · exact more.imp id (fun hrest => by rw [hrest]; rfl)
        · rcases more with hterminated | rfl
          · have hmore := ih _ _ _ _ hs.copied halone
            rw [show (s.track l).compiling = true from hc, Bool.true_and] at hmore
            rw [Piece.advance, Piece.bytes, countNewlines_copied here hterminated, ← here.comment]
            · exact hmore
            · simp
          · exact .nil _ _
      | false =>
        rw [processLines_skipped h nested place s l rest hl hc] at halone
        have hmore := ih _ _ _ _ (hs.skipped hc) halone
        rw [show (s.track l).compiling = false from hc, Bool.false_and] at hmore
        simpa using hmore

end Run

/-! ## Cutting the output -/

theorem AtLineStart.append {text more : Bytes} (h : AtLineStart text) (hmore : AtLineStart more) :
    AtLineStart (text ++ more) := by
  rcases hmore with rfl | hlast
  · rwa [List.append_nil]
  · exact .inr (by rw [List.getLast?_append, hlast]; rfl)

namespace WellPlaced

/-- A compiled line stands at its place. -/
theorem head_place {place : OutputPlace} {isOpen : Bool} {line : Int} {file : Bytes}
    {l : LogicalLine} {rest : List Piece}
    (hp : WellPlaced place isOpen (.compiled line file l :: rest)) : place = ⟨file, line⟩ := by
  cases hp with
  | added hadded next => exact absurd hadded (by simp [Piece.isAdded])
  | compiled more next => rfl

/-- Nothing is added while a comment is open. -/
theorem head_added {place : OutputPlace} {isOpen : Bool} {p : Piece} {rest : List Piece}
    (hp : WellPlaced place isOpen (p :: rest)) (hadded : p.isAdded = true) : isOpen = false := by
  cases hp with
  | added hadded next => rfl
  | compiled more next => exact absurd hadded (by simp [Piece.isAdded])

/-- A part that is not the last ends its line. -/
theorem head_ends {place : OutputPlace} {isOpen : Bool} {p q : Piece} {rest : List Piece}
    (hp : WellPlaced place isOpen (p :: q :: rest)) : AtLineStart p.bytes := by
  cases hp with
  | added hadded next =>
    cases p with
    | marker line file => exact .inr (by simp [Piece.bytes, lineMarker])
    | filler => exact .inr rfl
    | compiled line file l => exact absurd hadded (by simp [Piece.isAdded])
  | compiled more next =>
    have hterminated := more.resolve_right (by simp)
    exact .inr (by simp [Piece.bytes, Engine.copied, hterminated])

theorem tail {place : OutputPlace} {isOpen : Bool} {p : Piece} {rest : List Piece}
    (hp : WellPlaced place isOpen (p :: rest)) :
    WellPlaced (p.advance place) (p.leavesOpen isOpen) rest := by
  cases hp with
  | added hadded next =>
    cases p with
    | marker line file => exact next
    | filler => exact next
    | compiled line file l => exact absurd hadded (by simp [Piece.isAdded])
  | compiled more next => exact next

/-- What follows some parts stands where they lead, at the start of a line. -/
theorem drop {place : OutputPlace} {isOpen : Bool} {before : List Piece} {p : Piece}
    {after : List Piece} (hp : WellPlaced place isOpen (before ++ p :: after)) :
    WellPlaced (replay place before) (before.foldl Piece.leavesOpen isOpen) (p :: after) ∧
      AtLineStart (before.flatMap Piece.bytes) := by
  induction before generalizing place isOpen with
  | nil => exact ⟨hp, .inl rfl⟩
  | cons q rest ih =>
    obtain ⟨hplaced, hstart⟩ := ih hp.tail
    refine ⟨hplaced, ?_⟩
    rw [List.flatMap_cons]
    refine AtLineStart.append ?_ hstart
    cases rest with
    | nil => exact hp.head_ends
    | cons r rest => exact hp.head_ends

end WellPlaced

/-- **Line markers place every compiled line.** The output of a file that opens no other file is
    made of its parts. Each compiled line begins a line of the output and, wherever the output is
    taken to begin, stands at the file name and line number at which it is presented. No marker and
    no empty line is added where the compiled lines before it leave a block comment open. -/
theorem process_places_lines (h : Host) (s : State) (name contents : Bytes)
    (hmarkers : h.settings.lineMarkers = true) (hname : name ≠ [])
    (halone : (s.process h name contents).state.opened = s.opened + 1) :
    (s.process h name contents).written = (s.filePieces h name contents).flatMap Piece.bytes ∧
    (∀ before line file l after,
      s.filePieces h name contents = before ++ .compiled line file l :: after →
      AtLineStart (before.flatMap Piece.bytes) ∧ ∀ place, replay place before = ⟨file, line⟩) ∧
    (∀ before p after, s.filePieces h name contents = before ++ p :: after → p.isAdded = true →
      commentOpen before = false) := by
  have hnested := nestedProcess_opens h ((s.openFile name).levelsLeft h)
  have hstanding : ∀ place, Standing {} {} place (s.openFile name) { name } :=
    fun place => ⟨rfl, hname, .inl rfl, fun _ hopen => absurd hopen (by simp)⟩
  have hplaced : ∀ place, WellPlaced place false (s.filePieces h name contents) := by
    intro place
    have hpieces := pieces_wellPlaced hnested (Source.logicalLines_reads contents) {} place
      (s.openFile name) { name } (hstanding place) halone
    rwa [Bool.and_false] at hpieces
  refine ⟨processLines_written hmarkers hnested _ {} (s.openFile name) halone, ?_, ?_⟩
  · intro before line file l after hsplit
    rw [hsplit] at hplaced
    exact ⟨(hplaced {}).drop.2, fun place => (hplaced place).drop.1.head_place⟩
  · intro before p after hsplit hadded
    rw [hsplit] at hplaced
    exact (hplaced {}).drop.1.head_added hadded

/-- A host with line markers and no files to include. -/
def markerHost : Host where
  settings := { lineMarkers := true }
  includer := some fun _ _ _ => .error (ascii "no such file")

/-- A source with new numbers, a comment around what looks like a directive, a skipped group, a line
    that goes on, and a short gap. -/
def renumberedSource : Bytes :=
  ascii "a\n#line 40 \"gen.c\"\nb /* x\n#endif\n*/ c\n#ifdef Q\nz\n#endif\n" ++
    ascii "d \\\ne\n# 41\nf\n#define X\ng\n"

theorem process_places_lines_renumbered :
    let s := markerHost.start.1
    let out := s.process markerHost (ascii "main.c") renumberedSource
    out.state.opened = s.opened + 1 ∧
    out.written =
      ascii "#line 1 \"main.c\"\na\n#line 40 \"gen.c\"\nb /* x\n#endif\n*/ c\n" ++
        ascii "#line 46 \"gen.c\"\nd \\\ne\n#line 41 \"gen.c\"\nf\n\ng\n" ∧
    ∀ before line file l after,
      s.filePieces markerHost (ascii "main.c") renumberedSource =
        before ++ .compiled line file l :: after →
      ∀ place, replay place before = ⟨file, line⟩ := by
  intro s out
  have halone : out.state.opened = s.opened + 1 := by decide +kernel
  obtain ⟨-, hplaced, -⟩ := process_places_lines markerHost s (ascii "main.c") renumberedSource
    rfl (by decide) halone
  refine ⟨halone, by decide +kernel, fun before line file l after hsplit => ?_⟩
  exact (hplaced before line file l after hsplit).2

end Preproc.Engine
