import Preproc.Diagnostic.Basic

set_option autoImplicit false

/-! # Conditional groups

A group runs from `#if`, `#ifdef` or `#ifndef` to its `#endif` and has one branch for each `#elif`
and `#else` between them. At most one branch of a group is compiled: the first whose test is true.
Open groups form a stack. A group belongs to the file that opened it, and no other file can switch
or close it.

A step that depends on a test does not make the test itself. It says that it needs one and how to
go on with its result, so that tests in text that is not compiled are never made. -/

namespace Preproc.Branch

/-- One open group. -/
structure Frame where
  /-- Whether lines were compiled where the group starts. -/
  wasCompiling : Bool
  /-- Whether some branch was taken. -/
  trueSeen : Bool
  /-- Whether the group has reached its `#else`. -/
  elseSeen : Bool := false
  /-- Where the group starts. -/
  ifPos : Position
  /-- Where its `#else` stands. -/
  elsePos : Position := {}
  /-- The file that opened the group. -/
  file : Int
  deriving DecidableEq

/-- The open groups, innermost first, and whether the current line is compiled. -/
structure Stack where
  frames : List Frame := []
  /-- How many groups may be open. -/
  max : Int
  compiling : Bool := true
  deriving DecidableEq

/-- Why a step is refused. -/
inductive Refusal where
  /-- No more groups may be opened; this ends the run. -/
  | tooDeep
  /-- The directive needs an open group of its own file. -/
  | withoutIf (directive : String)
  | elifAfterElse (elseLine : Int)
  | elseAfterElse (elseLine : Int)
  deriving DecidableEq

/-- A refusal at a place. -/
def Refusal.failure (pos : Position) : Refusal → Failure
  | tooDeep => .fatal { pos, message := ascii "#if nesting too deep" }
  | withoutIf directive =>
    .recoverable pos (ascii "#" ++ ascii directive ++ ascii " without #if")
  | elifAfterElse line =>
    .recoverable pos (ascii "#elif after #else (#else at line " ++ decimal line ++ ascii ")")
  | elseAfterElse line =>
    .recoverable pos (ascii "#else after #else (first #else at line " ++ decimal line ++ ascii ")")

/-- The outcome of a step that may need a test. -/
inductive Step where
  | refused (why : Refusal)
  | settled (stack : Stack)
  /-- A test has to be made; the stack depends on its result. -/
  | asks (resume : Bool → Stack)

namespace Stack

/-- The stack with no open group. -/
def reset (s : Stack) : Stack :=
  { s with frames := [], compiling := true }

/-- Number of open groups. -/
def depth (s : Stack) : Nat :=
  s.frames.length

/-- The innermost group, if it belongs to `file`. -/
def owned (s : Stack) (file : Int) : Option (Frame × List Frame) :=
  match s.frames with
  | frame :: outer => if frame.file = file then some (frame, outer) else none
  | [] => none

/-- Open a group whose first branch is taken or not. -/
def push (s : Stack) (pos : Position) (file : Int) (taken : Bool) : Stack :=
  { s with
    frames := { wasCompiling := s.compiling, trueSeen := taken, ifPos := pos, file } :: s.frames
    compiling := taken }

/-- Open a group. Its test is needed only where lines are compiled. -/
def enter (s : Stack) (pos : Position) (file : Int) : Step :=
  if s.max ≤ s.depth then .refused .tooDeep
  else if s.compiling then .asks (s.push pos file)
  else .settled (s.push pos file false)

/-- Go on to a branch with a test of its own. The test is needed only when the group starts in
    compiled text and no earlier branch was taken. -/
def elif (s : Stack) (file : Int) : Step :=
  match s.owned file with
  | none => .refused (.withoutIf "elif")
  | some (frame, outer) =>
    if frame.elseSeen then .refused (.elifAfterElse frame.elsePos.line)
    else if frame.wasCompiling && !frame.trueSeen then
      .asks fun taken =>
        { s with frames := { frame with trueSeen := taken } :: outer, compiling := taken }
    else .settled { s with compiling := false }

/-- Go on to the last branch, which is taken when no earlier one was. -/
def otherwise (s : Stack) (pos : Position) (file : Int) : Except Refusal Stack :=
  match s.owned file with
  | none => .error (.withoutIf "else")
  | some (frame, outer) =>
    if frame.elseSeen then .error (.elseAfterElse frame.elsePos.line)
    else
      let taken := frame.wasCompiling && !frame.trueSeen
      .ok { s with
        frames :=
          { frame with elseSeen := true, elsePos := pos, trueSeen := frame.trueSeen || taken }
            :: outer
        compiling := taken }

/-- Close the innermost group. -/
def endif (s : Stack) (file : Int) : Except Refusal Stack :=
  match s.owned file with
  | none => .error (.withoutIf "endif")
  | some (frame, outer) => .ok { s with frames := outer, compiling := frame.wasCompiling }

/-- Drop the groups on top of the stack that `file` opened. The dropped groups come with it,
    outermost first, and lines are compiled as before the outermost of them. -/
def unterminated (s : Stack) (file : Int) : List Frame × Stack :=
  let inner := s.frames.takeWhile (·.file = file)
  match inner.getLast? with
  | none => ([], s)
  | some outermost =>
    (inner.reverse,
      { s with
        frames := s.frames.dropWhile (·.file = file)
        compiling := outermost.wasCompiling })

end Stack

end Preproc.Branch
