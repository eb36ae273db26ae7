import Preproc.Engine.Resolve

set_option autoImplicit false

/-! # One directive

A directive changes the state, may write output (an include directive writes the text of the
included file), and may end the run. Whatever else goes wrong is reported, and the line is dropped.

An include directive processes a whole file, which again holds directives. Here that is left open:
`Nested` stands for the processing of an included file, and is missing when no more files may be
opened. -/

namespace Preproc.Engine

/-- What came of a directive or a file. -/
structure Outcome where
  state : State
  /-- What was written. -/
  written : Bytes := []
  /-- The failure to be passed on. -/
  failure : Option Failure := none

/-- Processing of an included file, given its path and contents. -/
abbrev Nested := State → (path contents : Bytes) → Outcome

/-! ## Checks -/

/-- Report tokens that are left after a directive: an error in strict mode, else a warning. -/
def State.checkTrailing (h : Host) (s : State) (c : Cursor) (kw : Keyword) : State :=
  match c.remaining with
  | [] => s
  | t :: _ =>
    if h.settings.strict then s.complain t.pos (.extraTokens kw)
    else s.caution t.pos (.extraTokens kw)

/-- The remainder of a number as a signed word of 64 bits. -/
def toWord (n : Int) : Int :=
  Int.bmod n wordCount

/-- Warn once when the open groups fill more than three quarters of what is allowed. The two sides
    are compared as words. -/
def State.checkDepth (s : State) (pos : Position) : State :=
  let depth : Int := s.branches.depth
  let limit := s.branches.max
  if s.depthWarned || toWord (depth * 4) ≤ toWord (limit * 3) then s
  else { s with depthWarned := true }.caution pos (.deepNesting depth limit)

/-! ## Conditional directives -/

/-- Carry out a step of the groups, making its test if it needs one. -/
def State.branch (s : State) (pos : Position) (step : Branch.Step)
    (test : State → State × Bool) : Outcome :=
  match step with
  | .refused why => { state := s, failure := some (why.failure pos) }
  | .settled branches => { state := { s with branches } }
  | .asks resume =>
    let (s, taken) := test s
    { state := { s with branches := resume taken } }

/-- The test of `#ifdef` and `#ifndef`: whether a name has a definition, or has none. A token that
    is no macro name is reported and counts as false. -/
def State.testDefined (h : Host) (s : State) (kw : Keyword) (c : Cursor) : State × Bool :=
  let (name, c) := c.nextNonSpace
  match Macro.checkName name kw.name with
  | .error e => (s.refuse e, false)
  | .ok () => (s.checkTrailing h c kw, s.table.defined name.text == (kw == .ifdef))

/-- Carry out `#else` or `#endif`. What follows on the line matters only when text on one of its two
    sides is compiled. -/
def State.close (h : Host) (s : State) (pos : Position) (kw : Keyword) (c : Cursor)
    (result : Except Branch.Refusal Branch.Stack) : Outcome :=
  match result with
  | .error why => { state := s, failure := some (why.failure pos) }
  | .ok branches =>
    let after := { s with branches }
    { state := if s.compiling || after.compiling then after.checkTrailing h c kw else after }

/-! ## Definitions -/

/-- Carry out `#define`. -/
def State.defineDirective (h : Host) (s : State) (c : Cursor) : Outcome :=
  match s.define h c with
  | (s, .ok _) => { state := s }
  | (s, .error e) => { state := s, failure := some (refusalFailure e) }

/-- Carry out `#undef`. -/
def State.undefDirective (h : Host) (s : State) (c : Cursor) : Outcome :=
  let (name, c) := c.nextNonSpace
  match Macro.checkName name Keyword.undef.name with
  | .error e => { state := s, failure := some (refusalFailure e) }
  | .ok () =>
    if (s.table.lookup name.text).any (·.origin = .locked) then
      { state := s, failure := some (complaintFailure ⟨name.pos, .lockedUndef name.text⟩) }
    else
      let table := (s.table.undefine? name.text).getD s.table
      { state := { s with table }.checkTrailing h c .undef }

/-! ## Files and lines -/

/-- The text between the two quote bytes around it. -/
def unquote (text : Bytes) : Bytes :=
  (text.drop 1).dropLast

/-- The name between angle brackets: the text of the tokens before `>`, after which nothing may
    follow. `opening` is the place of `<`. -/
def bracketedName (opening : Position) :
    (name : Bytes) → List Token → Except (Located Complaint) Bytes
  | _, [] => .error ⟨opening, .includeUnclosed⟩
  | name, t :: rest =>
    if t.kind = .punctuator ∧ t.text = ascii ">" then
      match rest with
      | extra :: _ => .error ⟨extra.pos, .extraTokens .includeFile⟩
      | [] => if name.isEmpty then .error ⟨opening, .includeEmptyName⟩ else .ok name
    else bracketedName opening (name ++ t.text) rest

/-- The name in an include directive, and whether it stands between angle brackets. -/
def includeName (pos : Position) (toks : List Token) : Except (Located Complaint) (Bytes × Bool) :=
  match toks with
  | [] => .error ⟨pos, .includeNeedsName⟩
  | first :: rest =>
    if first.kind = .string then
      match rest with
      | extra :: _ => .error ⟨extra.pos, .extraTokens .includeFile⟩
      | [] => .ok (unquote first.text, false)
    else if first.kind = .punctuator ∧ first.text = ascii "<" then
      (bracketedName first.pos [] rest).map (·, true)
    else .error ⟨first.pos, .includeNeedsName⟩

/-- Carry out `#include`. -/
def State.include (h : Host) (nested : Option Nested) (find : Includer) (s : State)
    (pos : Position) (c : Cursor) : Outcome :=
  let fail (s : State) (e : Located Complaint) : Outcome :=
    { state := s, failure := some (complaintFailure e) }
  match includeName pos c.remaining with
  | .error e => fail s e
  | .ok (name, system) =>
    match nested with
    | none => fail s ⟨pos, .includeTooDeep h.settings.maxIncludeDepth⟩
    | some process =>
      let found := find name s.file system
      let s := { s with requests := s.requests ++ [⟨name, s.file, system⟩] }
      match found with
      | .error reason => fail s ⟨pos, .includeFailed name reason⟩
      | .ok (path, contents) =>
        let out := process s path contents
        { out with state := { out.state with resync := true } }

/-- Carry out `#line`, or the older form `# 12 "file"`, which has no name, allows 0 and may have
    flags after the file name. -/
def State.lineDirective (h : Host) (s : State) (name : Bytes) (pos : Position) (c : Cursor) :
    Outcome :=
  let fail (s : State) (pos : Position) (e : Complaint) : Outcome :=
    { state := s, failure := some (complaintFailure ⟨pos, e⟩) }
  let (num, c) := c.nextNonSpace
  if num.kind ≠ .number then fail s num.pos (.badLineNumber num.describe)
  else match readNat? 10 0x80000000 num.text with
    | none => fail s num.pos (.badLineNumber num.text)
    | some n =>
      if n = 0 ∧ ¬ name.isEmpty then fail s num.pos (.badLineNumber num.text)
      else
        let (t, c) := c.nextNonSpace
        if t.kind ≠ .string ∧ t.kind ≠ .endOfLine then fail s t.pos (.badLineFile t.text)
        else
          let file := if t.kind = .string then unquote t.text else []
          let s :=
            if name.isEmpty then
              match c.remaining with
              | extra :: _ => s.caution extra.pos (.extraTokens .line)
              | [] => s
            else s.checkTrailing h c .line
          match s.tracker with
          | none => fail s pos .lineOutsideFile
          | some tracker => { state := { s with tracker := some (tracker.setLine n file) } }

/-- Carry out a directive that is neither conditional nor a definition. An older line marker has no
    name. -/
def State.external (h : Host) (nested : Option Nested) (s : State) (kw : Option Keyword)
    (name : Bytes) (pos : Position) (c : Cursor) : Outcome :=
  let fail (e : Complaint) : Outcome :=
    { state := s, failure := some (complaintFailure ⟨pos, e⟩) }
  match h.includer with
  | none => fail (.unsupported name)
  | some find =>
    match kw with
    | some .includeFile => s.include h nested find pos c
    | some .line => s.lineDirective h name pos c
    | some .pragma => { state := s }
    | some .error => fail (.requested (Token.textOf c.remaining))
    | some .warning => { state := s.caution pos (.requested (Token.textOf c.remaining)) }
    | _ =>
      if h.settings.isVendorDirective name then { state := s } else fail (.invalidDirective name)

/-! ## All directives -/

/-- Carry out the directive with a given keyword. `c` stands after its name. -/
def State.dispatch (h : Host) (nested : Option Nested) (s : State) (kw : Option Keyword)
    (name : Token) (c : Cursor) : Outcome :=
  let pos := name.pos
  match kw with
  | some .ifTrue =>
    let out := s.branch pos (s.branches.enter pos s.fileId) (·.test pos .ifTrue c.remaining)
    { out with state := out.state.checkDepth pos }
  | some .ifdef =>
    let out := s.branch pos (s.branches.enter pos s.fileId) (·.testDefined h .ifdef c)
    { out with state := out.state.checkDepth pos }
  | some .ifndef =>
    let out := s.branch pos (s.branches.enter pos s.fileId) (·.testDefined h .ifndef c)
    { out with state := out.state.checkDepth pos }
  | some .elif => s.branch pos (s.branches.elif s.fileId) (·.test pos .elif c.remaining)
  | some .otherwise => s.close h pos .otherwise c (s.branches.otherwise pos s.fileId)
  | some .endif => s.close h pos .endif c (s.branches.endif s.fileId)
  | some .define => s.defineDirective h c
  | some .undef => s.undefDirective h c
  | kw => s.external h nested kw name.text pos c

/-- Report the failure of a directive. Only a fatal one is passed on. -/
def Outcome.reported (out : Outcome) (pos : Position) : Outcome :=
  match out.failure with
  | none => out
  | some failure =>
    let (reporter, failure) := out.state.reporter.report pos failure
    { out with state := { out.state with reporter }, failure }

/-- Note that the output has to say where it stands when lines are compiled now and were not
    before, or the other way round. -/
def Outcome.noteSwitch (out : Outcome) (wasCompiling : Bool) : Outcome :=
  if out.state.compiling = wasCompiling then out
  else { out with state := { out.state with resync := true } }

/-- Handle one logical line that starts with `#`. The only failure that is passed on is a fatal
    one. -/
def State.directiveWith (h : Host) (nested : Option Nested) (s : State) (pos : Position)
    (line : Bytes) : Outcome :=
  let (hash, c) := (Cursor.ofText pos line).nextNonSpace
  if !hash.is .hash then { state := s.complain hash.pos .expectedHash }
  else
    let afterHash := c
    let (name, c) := c.nextNonSpace
    match name.kind with
    | .endOfLine => { state := s }
    | .ident =>
      let kw := Keyword.ofName? name.text
      if !s.compiling && !kw.any Keyword.isConditional then { state := s }
      else ((s.dispatch h nested kw name c).noteSwitch s.compiling).reported name.pos
    | .number =>
      if s.compiling then
        (s.external h nested (some .line) [] name.pos afterHash).reported name.pos
      else { state := s }
    | _ =>
      if s.compiling then { state := s.complain name.pos (.invalidDirective name.text) }
      else { state := s.caution name.pos .skippedInvalid }

end Preproc.Engine
