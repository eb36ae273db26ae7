import Preproc.Proofs.Branch.Ownership

set_option autoImplicit false

/-! # One branch of each group

A run of the stack is any sequence of operations on an empty stack, by any files and with any
results of tests, in a sensible order or not. A trace keeps beside the stack what was seen of each
open group: the tests of its branches, and whether lines were compiled when each of them began.

The stack keeps much less: one flag, and for each group whether a branch was taken. `Linked` says
how the two belong together, and every operation keeps it (`Linked.next`). So lines are compiled
exactly in the first branch with a true test of groups that start in compiled text, and no group
has two such branches (`run_selects_first_true`). -/

namespace Preproc.Branch

/-! ## Operations -/

/-- The operations on the stack. Where a test may be needed, its result comes with the
    operation. -/
inductive Operation where
  | enter (pos : Position) (file : Int) (test : Bool)
  | elif (file : Int) (test : Bool)
  | otherwise (pos : Position) (file : Int)
  | endif (file : Int)
  | unterminated (file : Int)
  | reset

/-- Whether an operation starts a branch that has a test. -/
def Operation.hasTest : Operation → Bool
  | enter .. | elif .. => true
  | otherwise .. | endif _ | unterminated _ | reset => false

/-- What comes of an operation. -/
structure Effect where
  stack : Stack
  refusal : Option Refusal := none
  /-- Whether the test was made. -/
  tested : Bool := false

namespace Stack

/-- The effect of a step whose test, if it needs one, gives `test`. -/
def ofStep (s : Stack) (test : Bool) : Step → Effect
  | .refused why => { stack := s, refusal := some why }
  | .settled result => { stack := result }
  | .asks resume => { stack := resume test, tested := true }

/-- The effect of a step without a test. -/
def ofResult (s : Stack) : Except Refusal Stack → Effect
  | .error why => { stack := s, refusal := some why }
  | .ok result => { stack := result }

/-- Carry out an operation. -/
def apply (s : Stack) : Operation → Effect
  | .enter pos file test => s.ofStep test (s.enter pos file)
  | .elif file test => s.ofStep test (s.elif file)
  | .otherwise pos file => s.ofResult (s.otherwise pos file)
  | .endif file => s.ofResult (s.endif file)
  | .unterminated file => { stack := (s.unterminated file).2 }
  | .reset => { stack := s.reset }

end Stack

/-! ## Traces -/

/-- One branch of a group. -/
structure Arm where
  /-- What its test gives, made or not; the test of `#else` is true. -/
  test : Bool
  /-- Whether lines were compiled when it began. -/
  on : Bool
  deriving DecidableEq

/-- What was seen of an open group. -/
structure Group where
  file : Int
  /-- Whether lines were compiled where the group starts. -/
  opened : Bool
  current : Arm
  /-- The branches before the current one, the latest first. -/
  earlier : List Arm := []
  /-- Whether the current branch is the one of `#else`. -/
  atElse : Bool := false
  deriving DecidableEq

namespace Group

/-- All branches of a group, the latest first. -/
def arms (g : Group) : List Arm :=
  g.current :: g.earlier

/-- The group in its next branch. -/
def switch (g : Group) (arm : Arm) (atElse : Bool) : Group :=
  { g with current := arm, earlier := g.arms, atElse }

theorem arms_switch (g : Group) (arm : Arm) (atElse : Bool) :
    (g.switch arm atElse).arms = arm :: g.arms := rfl

/-- The current branch is the first of its group whose test is true. -/
def selected (g : Group) : Bool :=
  g.current.test && g.earlier.all (!·.test)

end Group

/-- The open groups after an operation that was accepted, given whether lines were compiled before
    it and are compiled now. -/
def recordGroups (before now : Bool) : Operation → List Group → List Group
  | .enter _ file test, groups => { file, opened := before, current := ⟨test, now⟩ } :: groups
  | .elif _ test, g :: outer => g.switch ⟨test, now⟩ false :: outer
  | .otherwise _ _, g :: outer => g.switch ⟨true, now⟩ true :: outer
  | .endif _, _ :: outer => outer
  | .elif .., [] | .otherwise .., [] | .endif _, [] => []
  | .unterminated file, groups => groups.dropWhile (·.file = file)
  | .reset, _ => []

/-- A stack with what was seen of its groups. -/
structure Trace where
  stack : Stack
  groups : List Group := []

namespace Trace

/-- The trace with one more operation. -/
def next (t : Trace) (op : Operation) : Trace :=
  let effect := t.stack.apply op
  { stack := effect.stack
    groups :=
      if effect.refusal.isSome then t.groups
      else recordGroups t.stack.compiling effect.stack.compiling op t.groups }

/-- The trace of a run on an empty stack. -/
def ofRun (max : Int) (ops : List Operation) : Trace :=
  ops.foldl next { stack := { max } }

/-- Whether an operation can be carried out: there is room for one more group, or the innermost
    group belongs to the file and, for another branch, has not reached its `#else`. -/
def Accepts (t : Trace) : Operation → Prop
  | .enter .. => t.stack.depth < t.stack.max
  | .elif file _ | .otherwise _ file =>
    ∃ g, t.groups.head? = some g ∧ g.file = file ∧ g.atElse = false
  | .endif file => ∃ g, t.groups.head? = some g ∧ g.file = file
  | .unterminated _ | .reset => True

end Trace

/-! ## Branches that are switched on -/

/-- Of some branches, the latest first, those are on that were the first with a true test; none is
    on in a group that does not start in compiled text. -/
def Recorded (opened : Bool) : List Arm → Prop
  | [] => True
  | a :: before =>
    a.on = (opened && (a.test && before.all (!·.test))) ∧ Recorded opened before

/-- At most one branch is on, and one is exactly when some test is true. -/
theorem Recorded.countP_on {opened : Bool} {arms : List Arm} (h : Recorded opened arms) :
    arms.countP (·.on) = if opened && arms.any (·.test) then 1 else 0 := by
  induction arms with
  | nil => simp
  | cons a before ih =>
    obtain ⟨hon, hbefore⟩ := h
    have hnone : before.all (!·.test) = !before.any (·.test) := by
      simp [List.not_any_eq_all_not]
    rw [List.countP_cons, ih hbefore, hon, hnone, List.any_cons]
    cases opened <;> cases a.test <;> cases before.any (·.test) <;> rfl

/-! ## How a stack and its trace belong together -/

/-- What the frame of a group keeps of it. -/
structure Keeps (frame : Frame) (g : Group) : Prop where
  file : frame.file = g.file
  opened : frame.wasCompiling = g.opened
  atElse : frame.elseSeen = g.atElse
  taken : frame.trueSeen = (g.opened && g.arms.any (·.test))
  recorded : Recorded g.opened g.arms
  lastTest : g.atElse = true → g.current.test = true

/-- The frames keep the groups, and each flag follows from the one below it: lines are compiled in
    a group when they were where it starts and its current branch is the first with a true test. -/
inductive Linked : (compiling : Bool) → List Frame → List Group → Prop where
  | nil : Linked true [] []
  | cons {compiling : Bool} {frame : Frame} {g : Group} {frames : List Frame} {groups : List Group}
      (keeps : Keeps frame g) (flag : compiling = (g.opened && g.selected))
      (outer : Linked frame.wasCompiling frames groups) :
      Linked compiling (frame :: frames) (g :: groups)

namespace Linked

variable {compiling : Bool} {frames : List Frame} {groups : List Group}

/-- The group of the innermost frame. -/
theorem top {frame : Frame} {outer : List Frame} (h : Linked compiling (frame :: outer) groups) :
    ∃ g rest, groups = g :: rest ∧ Keeps frame g ∧ compiling = (g.opened && g.selected) ∧
      Linked frame.wasCompiling outer rest := by
  cases h with
  | cons keeps flag outer => exact ⟨_, _, rfl, keeps, flag, outer⟩

/-- Lines are compiled exactly when every open group lets them. -/
theorem compiling_iff (h : Linked compiling frames groups) :
    compiling = true ↔ ∀ g ∈ groups, g.opened = true ∧ g.selected = true := by
  induction h with
  | nil => simp
  | cons keeps flag outer ih =>
    rw [keeps.opened] at ih
    rw [flag, Bool.and_eq_true, List.forall_mem_cons, ← ih]
    exact ⟨fun h => ⟨h, h.1⟩, fun h => h.1⟩

/-- The frames are those of the groups, one by one. -/
theorem frames_eq (h : Linked compiling frames groups) :
    frames.map (fun f => (f.file, f.wasCompiling, f.elseSeen)) =
      groups.map fun g => (g.file, g.opened, g.atElse) := by
  induction h with
  | nil => rfl
  | cons keeps _ _ ih => simp [keeps.file, keeps.opened, keeps.atElse, ih]

/-- At most one branch of a group was on, and one is when its `#else` is reached. -/
theorem countP_on (h : Linked compiling frames groups) :
    ∀ g ∈ groups, g.arms.countP (·.on) ≤ 1 ∧
      (g.opened = true → g.atElse = true → g.arms.countP (·.on) = 1) := by
  induction h with
  | nil => simp
  | @cons _ _ g _ _ keeps _ _ ih =>
    refine List.forall_mem_cons.2 ⟨?_, ih⟩
    rw [keeps.recorded.countP_on]
    refine ⟨by split <;> simp, fun hopened hlast => ?_⟩
    simp [hopened, Group.arms, keeps.lastTest hlast]

/-- Dropping the groups that a file opened last leaves the flag with which the outermost of them
    started. -/
theorem dropWhile (h : Linked compiling frames groups) (file : Int) :
    Linked (startOf compiling (frames.takeWhile (·.file = file)))
      (frames.dropWhile (·.file = file)) (groups.dropWhile (·.file = file)) := by
  induction h with
  | nil => exact .nil
  | @cons _ frame g _ _ keeps flag outer ih =>
    by_cases hfile : g.file = file
    · simpa [keeps.file, hfile, startOf] using ih
    · simpa [keeps.file, hfile, startOf] using Linked.cons keeps flag outer

end Linked

theorem Stack.unterminated_eq (s : Stack) (file : Int) :
    (s.unterminated file).2 =
      { s with
        frames := s.frames.dropWhile (·.file = file)
        compiling := startOf s.compiling (s.frames.takeWhile (·.file = file)) } := by
  unfold Stack.unterminated
  dsimp only
  split
  · next hnone =>
    have htake := List.getLast?_eq_none_iff.1 hnone
    have hdrop := List.takeWhile_append_dropWhile (p := (·.file = file)) (l := s.frames)
    rw [htake, List.nil_append] at hdrop
    rw [htake, hdrop]
    rfl
  · next outermost hsome => rw [startOf_of_getLast? hsome]

/-! ## One operation -/

/-- A trace whose stack and groups belong together. -/
def Trace.Linked (t : Trace) : Prop :=
  Branch.Linked t.stack.compiling t.stack.frames t.groups

/-- What one operation does to a trace. -/
structure Follows (t : Trace) (op : Operation) : Prop where
  linked : (t.next op).Linked
  max : (t.next op).stack.max = t.stack.max
  depth : (t.next op).stack.depth ≤ t.stack.depth ∨ ((t.next op).stack.depth : Int) ≤ t.stack.max
  accepted : (t.stack.apply op).refusal = none ↔ t.Accepts op
  refused : (t.stack.apply op).refusal ≠ none → (t.stack.apply op).stack = t.stack
  tested : (t.stack.apply op).tested = true ↔
    (t.stack.apply op).refusal = none ∧ op.hasTest = true ∧
      ∃ g, (t.next op).groups.head? = some g ∧ g.opened = true ∧ ∀ a ∈ g.earlier, a.test = false

section Operations

variable {t : Trace} {op : Operation}

/-- An operation that is refused. -/
theorem Follows.of_refused (ht : t.Linked) (why : Refusal)
    (happly : t.stack.apply op = { stack := t.stack, refusal := some why })
    (hnot : ¬ t.Accepts op) : Follows t op := by
  have hnext : t.next op = t := by rw [Trace.next, happly]; rfl
  refine ⟨by rwa [hnext], by rw [hnext], Or.inl (Nat.le_of_eq (by rw [hnext])), ?_, ?_, ?_⟩
  · simp [happly, hnot]
  · rw [happly]
    exact fun _ => rfl
  · simp [happly]

theorem Trace.next_of_accepted {stack : Stack} {tested : Bool}
    (happly : t.stack.apply op = { stack, tested }) :
    t.next op = ⟨stack, recordGroups t.stack.compiling stack.compiling op t.groups⟩ := by
  rw [Trace.next, happly]
  rfl

/-- An operation that starts a branch in the group `g` with the test `test`, on top of groups and
    frames that belong together. -/
theorem Follows.of_branch {s' : Stack} {tested test : Bool} {frame : Frame} {g : Group}
    {frames : List Frame} {groups : List Group}
    (happly : t.stack.apply op = { stack := s', tested }) (haccepts : t.Accepts op)
    (hgroups : recordGroups t.stack.compiling s'.compiling op t.groups = g :: groups)
    (hframes : s'.frames = frame :: frames) (hmax : s'.max = t.stack.max)
    (hdepth : s'.depth ≤ t.stack.depth ∨ (s'.depth : Int) ≤ t.stack.max)
    (hcurrent : g.current = ⟨test, s'.compiling⟩)
    (hflag : s'.compiling = (g.opened && (test && g.earlier.all (!·.test))))
    (htested : tested = (op.hasTest && (g.opened && g.earlier.all (!·.test))))
    (hkeeps : frame.file = g.file ∧ frame.wasCompiling = g.opened ∧ frame.elseSeen = g.atElse ∧
      frame.trueSeen = (g.opened && g.arms.any (·.test)))
    (hearlier : Recorded g.opened g.earlier) (hlast : g.atElse = true → test = true)
    (houter : Branch.Linked frame.wasCompiling frames groups) : Follows t op := by
  have hnext := Trace.next_of_accepted happly
  rw [hgroups] at hnext
  obtain ⟨hfile, hopened, helse, htaken⟩ := hkeeps
  have hselected : g.selected = (test && g.earlier.all (!·.test)) := by
    rw [Group.selected, hcurrent]
  refine ⟨?_, by rw [hnext, hmax], by rwa [hnext], by simp [happly, haccepts],
    by simp [happly], ?_⟩
  · rw [hnext, Trace.Linked, hframes]
    refine .cons ⟨hfile, hopened, helse, htaken, ⟨?_, hearlier⟩, ?_⟩ ?_ houter
    · rw [hcurrent]
      exact hflag
    · rw [hcurrent]
      exact hlast
    · rw [hselected]
      exact hflag
  · rw [happly, hnext]
    simp [htested]

theorem Follows.enter (ht : t.Linked) (pos : Position) (file : Int) (test : Bool) :
    Follows t (.enter pos file test) := by
  by_cases hfull : t.stack.max ≤ t.stack.depth
  · refine .of_refused ht .tooDeep ?_ (Int.not_lt.2 hfull)
    simp [Stack.apply, Stack.ofStep, Stack.enter, hfull]
  · have hroom : (t.stack.depth : Int) < t.stack.max := Int.not_le.1 hfull
    have happly : t.stack.apply (.enter pos file test) =
        { stack := t.stack.push pos file (t.stack.compiling && test)
          tested := t.stack.compiling } := by
      rcases hc : t.stack.compiling with _ | _ <;>
        simp [Stack.apply, Stack.ofStep, Stack.enter, hfull, hc]
    refine .of_branch happly hroom rfl rfl rfl (Or.inr ?_) rfl ?_ ?_ ⟨rfl, rfl, rfl, ?_⟩ trivial
      (by simp) ht
    · exact Int.add_one_le_iff.2 hroom
    · simp [Stack.push]
    · simp [Operation.hasTest]
    · simp [Group.arms]

/-! A second branch needs a group of its own file that has not reached its last branch. -/

theorem Trace.Linked.inGroup_iff (ht : t.Linked) (file : Int) :
    (∃ frame outer, t.stack.InGroup file frame outer) ↔
      ∃ g, t.groups.head? = some g ∧ g.file = file ∧ g.atElse = false := by
  have hlinked : Branch.Linked t.stack.compiling t.stack.frames t.groups := ht
  constructor
  · rintro ⟨frame, outer, hframes, hfile, hundecided⟩
    rw [hframes] at hlinked
    obtain ⟨g, rest, hgroups, keeps, -⟩ := hlinked.top
    exact ⟨g, by rw [hgroups]; rfl, by rw [← keeps.file, hfile], by rw [← keeps.atElse, hundecided]⟩
  · rintro ⟨g, hhead, hfile, hundecided⟩
    cases hframes : t.stack.frames with
    | nil =>
      have hgroups : t.groups = [] := by simpa [hframes] using hlinked.frames_eq.symm
      exact absurd hhead (by simp [hgroups])
    | cons frame outer =>
      rw [hframes] at hlinked
      obtain ⟨g', rest, hgroups, keeps, -⟩ := hlinked.top
      obtain rfl : g' = g := by simpa [hgroups] using hhead
      exact ⟨frame, outer, hframes, by rw [keeps.file, hfile], by rw [keeps.atElse, hundecided]⟩

/-- A group that a file owns but that it cannot go on in has reached its last branch. -/
theorem Stack.elseSeen_of_not_inGroup {s : Stack} {file : Int} {frame : Frame} {outer : List Frame}
    (hnot : ¬ ∃ frame outer, s.InGroup file frame outer)
    (howned : s.owned file = some (frame, outer)) : frame.elseSeen = true := by
  obtain ⟨hframes, hfile⟩ := Stack.owned_eq_some howned
  cases hseen : frame.elseSeen with
  | true => rfl
  | false => exact absurd ⟨frame, outer, hframes, hfile, hseen⟩ hnot

theorem Stack.elif_refused {s : Stack} {file : Int}
    (hnot : ¬ ∃ frame outer, s.InGroup file frame outer) :
    ∃ why, s.elif file = .refused why := by
  unfold Stack.elif
  split
  · exact ⟨_, rfl⟩
  · next frame outer howned =>
    rw [if_pos (Stack.elseSeen_of_not_inGroup hnot howned)]
    exact ⟨_, rfl⟩

theorem Stack.otherwise_refused {s : Stack} {file : Int}
    (hnot : ¬ ∃ frame outer, s.InGroup file frame outer) (pos : Position) :
    ∃ why, s.otherwise pos file = .error why := by
  unfold Stack.otherwise
  split
  · exact ⟨_, rfl⟩
  · next frame outer howned =>
    rw [if_pos (Stack.elseSeen_of_not_inGroup hnot howned)]
    exact ⟨_, rfl⟩

/-- A group whose current branch gives way to the next: no branch was taken so far exactly when no
    test was true. -/
theorem Keeps.undecided {frame : Frame} {g : Group} (keeps : Keeps frame g) :
    (frame.wasCompiling && !frame.trueSeen) = (g.opened && g.arms.all (!·.test)) := by
  rw [keeps.opened, keeps.taken, List.not_any_eq_all_not.symm]
  cases g.opened <;> simp

/-- An operation that goes on to the next branch of the innermost group, the last one or not. -/
theorem Follows.of_switch (ht : t.Linked) {file : Int} {frame frame' : Frame} {outer : List Frame}
    (hgroup : t.stack.InGroup file frame outer) {test last : Bool}
    (happly : t.stack.apply op =
      { stack := t.stack.switch frame' outer (frame.wasCompiling && !frame.trueSeen && test)
        tested := op.hasTest && (frame.wasCompiling && !frame.trueSeen) })
    (hrecord : ∀ before now g rest,
      recordGroups before now op (g :: rest) = g.switch ⟨test, now⟩ last :: rest)
    (haccepts : t.Accepts op) (hlast : last = true → test = true)
    (hsame : frame'.file = frame.file ∧ frame'.wasCompiling = frame.wasCompiling)
    (hseen : frame'.elseSeen = last ∧
      frame'.trueSeen = (frame.trueSeen || (frame.wasCompiling && !frame.trueSeen && test))) :
    Follows t op := by
  have hlinked : Branch.Linked t.stack.compiling t.stack.frames t.groups := ht
  rw [hgroup.frames] at hlinked
  obtain ⟨g, rest, hgroups, keeps, -, houter⟩ := hlinked.top
  have hundecided := keeps.undecided
  have htaken := keeps.taken
  rw [hundecided] at happly
  have hflag : (g.opened && g.arms.all (!·.test) && test) =
      (g.opened && (test && g.arms.all (!·.test))) := by
    rw [Bool.and_assoc, Bool.and_comm test]
  have hgroups' := hgroups ▸
    hrecord t.stack.compiling (g.opened && g.arms.all (!·.test) && test) g rest
  refine .of_branch happly haccepts hgroups' rfl rfl (Or.inl ?_) rfl hflag rfl
    ⟨hsame.1.trans keeps.file, hsame.2.trans keeps.opened, hseen.1, ?_⟩ keeps.recorded hlast
    (hsame.2 ▸ houter)
  · simp [Stack.depth, Stack.switch, hgroup.frames]
  · have hany : g.arms.any (·.test) = !g.arms.all (!·.test) := by simp [List.not_all_eq_any_not]
    rw [hseen.2, hundecided, htaken, Group.arms_switch, List.any_cons, hany]
    show _ = (g.opened && (test || !g.arms.all (!·.test)))
    cases g.opened <;> cases test <;> cases g.arms.all (!·.test) <;> rfl

theorem Follows.elif (ht : t.Linked) (file : Int) (test : Bool) : Follows t (.elif file test) := by
  have hiff := ht.inGroup_iff file
  by_cases hin : ∃ frame outer, t.stack.InGroup file frame outer
  · have haccepts := hiff.1 hin
    obtain ⟨frame, outer, hgroup⟩ := hin
    have happly : t.stack.apply (.elif file test) =
        { stack := t.stack.switch
            { frame with
              trueSeen := frame.trueSeen || (frame.wasCompiling && !frame.trueSeen && test) }
            outer (frame.wasCompiling && !frame.trueSeen && test)
          tested := frame.wasCompiling && !frame.trueSeen } := by
      rcases hneeded : frame.wasCompiling && !frame.trueSeen with _ | _
      · simp [Stack.apply, hgroup.elif_settled hneeded, Stack.ofStep]
      · have hseen : frame.trueSeen = false := by simp_all
        simp [Stack.apply, hgroup.elif_asks hneeded, Stack.ofStep, hseen]
    exact .of_switch ht hgroup happly (fun _ _ _ _ => rfl) haccepts (by simp) ⟨rfl, rfl⟩
      ⟨hgroup.undecided, rfl⟩
  · obtain ⟨why, hwhy⟩ := Stack.elif_refused hin
    exact .of_refused ht why (by simp [Stack.apply, hwhy, Stack.ofStep])
      (fun haccepts => hin (hiff.2 haccepts))

theorem Follows.otherwise (ht : t.Linked) (pos : Position) (file : Int) :
    Follows t (.otherwise pos file) := by
  have hiff := ht.inGroup_iff file
  by_cases hin : ∃ frame outer, t.stack.InGroup file frame outer
  · have haccepts := hiff.1 hin
    obtain ⟨frame, outer, hgroup⟩ := hin
    have happly : t.stack.apply (.otherwise pos file) =
        { stack := t.stack.switch (frame.atElse pos) outer
            (frame.wasCompiling && !frame.trueSeen && true) } := by
      simp [Stack.apply, hgroup.otherwise_ok, Stack.ofResult]
    exact .of_switch ht hgroup happly (fun _ _ _ _ => rfl) haccepts (fun _ => rfl) ⟨rfl, rfl⟩
      ⟨rfl, by simp [Frame.atElse]⟩
  · obtain ⟨why, hwhy⟩ := Stack.otherwise_refused hin pos
    exact .of_refused ht why (by simp [Stack.apply, hwhy, Stack.ofResult])
      (fun haccepts => hin (hiff.2 haccepts))

/-- An operation that starts no branch and is never refused, or is accepted. -/
theorem Follows.of_drop {s' : Stack} (happly : t.stack.apply op = { stack := s' })
    (haccepts : t.Accepts op) (htest : op.hasTest = false) (hmax : s'.max = t.stack.max)
    (hdepth : s'.depth ≤ t.stack.depth)
    (hlinked : Branch.Linked s'.compiling s'.frames
      (recordGroups t.stack.compiling s'.compiling op t.groups)) : Follows t op := by
  have hnext := Trace.next_of_accepted happly
  refine ⟨by rw [hnext]; exact hlinked, by rw [hnext, hmax], Or.inl (by rw [hnext]; exact hdepth),
    by simp [happly, haccepts], by simp [happly], by simp [happly, htest]⟩

theorem Follows.endif (ht : t.Linked) (file : Int) : Follows t (.endif file) := by
  have hlinked : Branch.Linked t.stack.compiling t.stack.frames t.groups := ht
  cases hframes : t.stack.frames with
  | nil =>
    have hgroups : t.groups = [] := by simpa [hframes] using hlinked.frames_eq.symm
    refine .of_refused ht (.withoutIf "endif") ?_ (by simp [Trace.Accepts, hgroups])
    simp [Stack.apply, Stack.endif, Stack.owned, hframes, Stack.ofResult]
  | cons frame outer =>
    rw [hframes] at hlinked
    obtain ⟨g, rest, hgroups, keeps, -, houter⟩ := hlinked.top
    by_cases hfile : frame.file = file
    · have happly : t.stack.apply (.endif file) = { stack := t.stack.leave frame outer } := by
        simp [Stack.apply, Stack.endif_ok hframes hfile, Stack.ofResult]
      refine .of_drop happly ⟨g, by rw [hgroups]; rfl, by rw [← keeps.file, hfile]⟩ rfl rfl ?_ ?_
      · simp [Stack.depth, Stack.leave, hframes]
      · rw [hgroups]
        exact houter
    · refine .of_refused ht (.withoutIf "endif") ?_ ?_
      · simp [Stack.apply, Stack.endif, Stack.owned, hframes, hfile, Stack.ofResult]
      · simpa [Trace.Accepts, hgroups, ← keeps.file] using hfile

/-- **Every operation keeps a stack and its trace together**, and does what the trace says. -/
theorem Trace.Linked.follows (ht : t.Linked) (op : Operation) : Follows t op := by
  cases op with
  | enter pos file test => exact .enter ht pos file test
  | elif file test => exact .elif ht file test
  | otherwise pos file => exact .otherwise ht pos file
  | endif file => exact .endif ht file
  | unterminated file =>
    have hlinked : Branch.Linked t.stack.compiling t.stack.frames t.groups := ht
    have happly : t.stack.apply (.unterminated file) = { stack := (t.stack.unterminated file).2 } :=
      rfl
    rw [Stack.unterminated_eq] at happly
    refine .of_drop happly trivial rfl rfl ?_ (hlinked.dropWhile file)
    exact (List.dropWhile_sublist _).length_le
  | reset => exact .of_drop rfl trivial rfl rfl (Nat.zero_le _) .nil

end Operations

/-! ## Runs -/

theorem Trace.ofRun_linked {max : Int} (hmax : 0 ≤ max) (ops : List Operation) :
    (Trace.ofRun max ops).Linked ∧ (Trace.ofRun max ops).stack.max = max ∧
      ((Trace.ofRun max ops).stack.depth : Int) ≤ max := by
  suffices hrun : ∀ t : Trace, t.Linked → t.stack.max = max → (t.stack.depth : Int) ≤ max →
      (ops.foldl Trace.next t).Linked ∧ (ops.foldl Trace.next t).stack.max = max ∧
        ((ops.foldl Trace.next t).stack.depth : Int) ≤ max from hrun _ .nil rfl hmax
  induction ops with
  | nil => exact fun t ht hm hd => ⟨ht, hm, hd⟩
  | cons op rest ih =>
    intro t ht hm hd
    have hstep := ht.follows op
    refine ih _ hstep.linked (hstep.max.trans hm) ?_
    have hdepth := hstep.depth
    omega

/-- **The stack selects one branch of each group.** In every run, with any files and any results of
    tests, no more groups are open than allowed; lines are compiled exactly when every open group
    starts in compiled text and is in the first of its branches whose test is true; at most one
    branch of a group was ever switched on, and exactly one when the group starts in compiled text
    and has reached its `#else`. Of any next operation it is said when it is accepted, that the
    stack stays as it is when it is not, and that its test is made exactly when the group starts in
    compiled text and no earlier branch has a true test. -/
theorem run_selects_first_true {max : Int} (hmax : 0 ≤ max) (ops : List Operation) :
    let t := Trace.ofRun max ops
    (t.stack.depth : Int) ≤ max ∧
    t.stack.frames.map (fun f => (f.file, f.wasCompiling, f.elseSeen)) =
      t.groups.map (fun g => (g.file, g.opened, g.atElse)) ∧
    (t.stack.compiling = true ↔ ∀ g ∈ t.groups,
      g.opened = true ∧ g.current.test = true ∧ ∀ a ∈ g.earlier, a.test = false) ∧
    (∀ g ∈ t.groups, g.arms.countP (·.on) ≤ 1 ∧
      (g.opened = true → g.atElse = true → g.arms.countP (·.on) = 1)) ∧
    ∀ op,
      ((t.stack.apply op).refusal = none ↔ t.Accepts op) ∧
      ((t.stack.apply op).refusal ≠ none → (t.stack.apply op).stack = t.stack) ∧
      ((t.stack.apply op).tested = true ↔
        (t.stack.apply op).refusal = none ∧ op.hasTest = true ∧
          ∃ g, (t.next op).groups.head? = some g ∧ g.opened = true ∧
            ∀ a ∈ g.earlier, a.test = false) := by
  intro t
  obtain ⟨ht, -, hdepth⟩ := Trace.ofRun_linked hmax ops
  have hlinked : Linked t.stack.compiling t.stack.frames t.groups := ht
  refine ⟨hdepth, hlinked.frames_eq, ?_, hlinked.countP_on, fun op => ?_⟩
  · rw [hlinked.compiling_iff]
    simp [Group.selected]
  · have hstep := ht.follows op
    exact ⟨hstep.accepted, hstep.refused, hstep.tested⟩

/-- A run in which a group of another file stands inside the second branch of a group, and three
    operations come at the wrong time. -/
def untidyRun : List Operation :=
  [.enter {} 1 false, .elif 1 true, .enter {} (-2) false, .elif 1 true, .otherwise {} (-2),
    .elif (-2) true, .enter {} (-2) true]

theorem run_selects_first_true_untidy :
    (0 : Int) ≤ 2 ∧
    let t := Trace.ofRun 2 untidyRun
    t.groups =
        [⟨-2, true, ⟨true, true⟩, [⟨false, false⟩], true⟩,
          ⟨1, true, ⟨true, true⟩, [⟨false, false⟩], false⟩] ∧
      t.stack.compiling = true ∧ (t.stack.depth : Int) ≤ 2 ∧
      (∀ g ∈ t.groups, g.opened = true → g.atElse = true → g.arms.countP (·.on) = 1) ∧
      (t.stack.apply (.endif 1)).stack = t.stack := by
  obtain ⟨hdepth, -, hcompiling, hon, hnext⟩ :=
    run_selects_first_true (by decide : (0 : Int) ≤ 2) untidyRun
  refine ⟨by decide, by decide, hcompiling.2 (by decide), hdepth, fun g hg => (hon g hg).2, ?_⟩
  exact (hnext (.endif 1)).2.1 (by decide)

end Preproc.Branch
