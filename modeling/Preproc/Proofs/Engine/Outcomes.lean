import Preproc.Engine.Process

set_option autoImplicit false

/-! # What can come of a directive

The functions that carry out a directive are taken apart here, once: whatever a line is, one of a
few things comes of it. What directives keep, change or report is proved from these cases, without
another look at the functions themselves. -/

namespace Preproc.Engine

/-! ## Include directives -/

/-- What can come of an include directive. -/
inductive IncludeOutcome (h : Host) (nested : Option Nested) (find : Includer) (s : State)
    (pos : Position) (c : Cursor) : Outcome → Prop where
  | unnamed {e : Located Complaint} (hname : includeName pos c.remaining = .error e) :
    IncludeOutcome h nested find s pos c { state := s, failure := some (complaintFailure e) }
  | tooDeep (hnested : nested = none) :
    IncludeOutcome h nested find s pos c
      { state := s
        failure := some (complaintFailure ⟨pos, .includeTooDeep h.settings.maxIncludeDepth⟩) }
  | notFound {name reason : Bytes} {system : Bool}
      (hname : includeName pos c.remaining = .ok (name, system))
      (hfound : find name s.file system = .error reason) :
    IncludeOutcome h nested find s pos c
      { state := { s with requests := s.requests ++ [⟨name, s.file, system⟩] }
        failure := some (complaintFailure ⟨pos, .includeFailed name reason⟩) }
  | opened {name path contents : Bytes} {system : Bool} {process : Nested}
      (hname : includeName pos c.remaining = .ok (name, system)) (hnested : nested = some process)
      (hfound : find name s.file system = .ok (path, contents)) :
    IncludeOutcome h nested find s pos c
      (let out := process { s with requests := s.requests ++ [⟨name, s.file, system⟩] } path contents
       { out with state := { out.state with resync := true } })

theorem include_outcome (h : Host) (nested : Option Nested) (find : Includer) (s : State)
    (pos : Position) (c : Cursor) :
    IncludeOutcome h nested find s pos c (s.include h nested find pos c) := by
  unfold State.include
  dsimp only
  split
  · next hname => exact .unnamed hname
  · next name system hname =>
    split
    · exact .tooDeep rfl
    · split
      · next hfound => exact .notFound hname hfound
      · next hfound => exact .opened hname rfl hfound

/-! ## Line directives -/

/-- What a line directive asks for: the number, the file name, which may be empty, and what is left
    of the line. -/
def lineOperands (name : Bytes) (c : Cursor) : Except (Located Complaint) (Nat × Bytes × Cursor) :=
  let (num, c) := c.nextNonSpace
  if num.kind ≠ .number then .error ⟨num.pos, .badLineNumber num.describe⟩
  else match readNat? 10 0x80000000 num.text with
    | none => .error ⟨num.pos, .badLineNumber num.text⟩
    | some n =>
      if n = 0 ∧ ¬ name.isEmpty then .error ⟨num.pos, .badLineNumber num.text⟩
      else
        let (t, c) := c.nextNonSpace
        if t.kind ≠ .string ∧ t.kind ≠ .endOfLine then .error ⟨t.pos, .badLineFile t.text⟩
        else .ok (n, if t.kind = .string then unquote t.text else [], c)

/-- Report what is left of a line directive. The form without a name allows flags. -/
def State.checkLineRest (h : Host) (s : State) (name : Bytes) (c : Cursor) : State :=
  if name.isEmpty then
    match c.remaining with
    | extra :: _ => s.caution extra.pos (.extraTokens .line)
    | [] => s
  else s.checkTrailing h c .line

/-- A line directive reads its operands first, then reports what is left, and sets the numbers of
    the file last. -/
theorem lineDirective_eq (h : Host) (s : State) (name : Bytes) (pos : Position) (c : Cursor) :
    s.lineDirective h name pos c =
      match lineOperands name c with
      | .error e => { state := s, failure := some (complaintFailure e) }
      | .ok (n, file, rest) =>
        let left := s.checkLineRest h name rest
        match left.tracker with
        | none => { state := left, failure := some (complaintFailure ⟨pos, .lineOutsideFile⟩) }
        | some tracker => { state := { left with tracker := some (tracker.setLine n file) } } := by
  unfold State.lineDirective lineOperands
  dsimp only
  split
  · rfl
  · cases readNat? 10 0x80000000 c.nextNonSpace.1.text with
    | none => rfl
    | some n =>
      dsimp only
      split
      · rfl
      · split <;> rfl

/-! ## Directives that are neither conditional nor definitions -/

/-- What can come of such a directive. -/
inductive ExternalOutcome (h : Host) (nested : Option Nested) (s : State) (kw : Option Keyword)
    (name : Bytes) (pos : Position) (c : Cursor) : Outcome → Prop where
  | included {find : Includer} (hfind : h.includer = some find) (hkw : kw = some .includeFile) :
    ExternalOutcome h nested s kw name pos c (s.include h nested find pos c)
  | renumbered (hfind : h.includer.isSome = true) (hkw : kw = some .line) :
    ExternalOutcome h nested s kw name pos c (s.lineDirective h name pos c)
  | ignored : ExternalOutcome h nested s kw name pos c { state := s }
  | warned (text : Bytes) :
    ExternalOutcome h nested s kw name pos c { state := s.caution pos (.requested text) }
  | failed (e : Complaint) :
    ExternalOutcome h nested s kw name pos c
      { state := s, failure := some (complaintFailure ⟨pos, e⟩) }

theorem external_outcome (h : Host) (nested : Option Nested) (s : State) (kw : Option Keyword)
    (name : Bytes) (pos : Position) (c : Cursor) :
    ExternalOutcome h nested s kw name pos c (s.external h nested kw name pos c) := by
  unfold State.external
  dsimp only
  split
  · exact .failed _
  · next find hfind =>
    split
    · exact .included hfind rfl
    · exact .renumbered (Option.isSome_iff_exists.2 ⟨find, hfind⟩) rfl
    · exact .ignored
    · exact .failed _
    · exact .warned _
    · split
      · exact .ignored
      · exact .failed _

/-! ## Lines -/

/-- The line that starts at `pos` begins with the sign of a directive, after which comes `name`,
    with `c` after it. -/
structure Signed (pos : Position) (line : Bytes) (name : Token) (c : Cursor) : Prop where
  sign : (Cursor.ofText pos line).nextNonSpace.1.is .hash = true
  read : (Cursor.ofText pos line).nextNonSpace.2.nextNonSpace = (name, c)

/-- What can come of a directive line. -/
inductive LineOutcome (h : Host) (nested : Option Nested) (s : State) (pos : Position)
    (line : Bytes) : Outcome → Prop where
  | unsigned : LineOutcome h nested s pos line
      { state := s.complain (Cursor.ofText pos line).nextNonSpace.1.pos .expectedHash }
  | ignored : LineOutcome h nested s pos line { state := s }
  | named {name : Token} {c : Cursor} (hline : Signed pos line name c)
      (hident : name.kind = .ident) :
    LineOutcome h nested s pos line
      (((s.dispatch h nested (Keyword.ofName? name.text) name c).noteSwitch s.compiling).reported
        name.pos)
  | numbered {name : Token} {c : Cursor} (hline : Signed pos line name c)
      (hs : s.compiling = true) :
    LineOutcome h nested s pos line
      ((s.external h nested (some .line) [] name.pos
        (Cursor.ofText pos line).nextNonSpace.2).reported name.pos)
  | invalid {name : Token} {c : Cursor} (hline : Signed pos line name c)
      (hs : s.compiling = true) :
    LineOutcome h nested s pos line { state := s.complain name.pos (.invalidDirective name.text) }
  | skipped {name : Token} {c : Cursor} (hline : Signed pos line name c)
      (hs : s.compiling = false) :
    LineOutcome h nested s pos line { state := s.caution name.pos .skippedInvalid }

theorem directiveWith_outcome (h : Host) (nested : Option Nested) (s : State) (pos : Position)
    (line : Bytes) : LineOutcome h nested s pos line (s.directiveWith h nested pos line) := by
  unfold State.directiveWith
  dsimp only
  split
  · exact .unsigned
  · next hsign =>
    have hline : Signed pos line (Cursor.ofText pos line).nextNonSpace.2.nextNonSpace.1
        (Cursor.ofText pos line).nextNonSpace.2.nextNonSpace.2 := ⟨by simpa using hsign, rfl⟩
    split
    · exact .ignored
    · next hident =>
      split
      · exact .ignored
      · exact .named hline hident
    · split
      · next hs => exact .numbered hline hs
      · exact .ignored
    · split
      · next hs => exact .invalid hline hs
      · next hs => exact .skipped hline (by simpa using hs)

end Preproc.Engine
