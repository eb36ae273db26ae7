import Mathlib.Data.List.FinRange
import Mathlib.Logic.Function.Basic
import Mathlib.Logic.Relation
import Preproc.CommandLine.Program

set_option autoImplicit false

/-! # Checking files with several workers

The indexes of the files wait in a queue that is closed. Each worker takes an index, checks the file,
stores the result in the slot of the index, and takes the next one; a worker that finds the queue
empty stops. The steps of the workers interleave in any order. At all times the indexes that wait,
those that were taken and those that were checked are together all indexes, each once
(`Step.keeps`). So when all workers have stopped, every file was checked once and every slot holds
its result, whatever the number of workers and the schedule (`check_any_schedule`). -/

namespace Preproc.CommandLine

/-! ## The pool -/

/-- What a worker is about to do. -/
inductive Worker (n : Nat) (β : Type) where
  /-- Take an index. -/
  | ready
  /-- Check the file with the index it took. -/
  | taken (i : Fin n)
  /-- Store what the check gave. -/
  | checked (i : Fin n) (result : β)
  /-- Nothing more. -/
  | stopped

/-- The indexes that wait in the queue, the workers, and the slots for the results. -/
structure Pool (n : Nat) (β : Type) where
  queue : List (Fin n)
  workers : List (Worker n β)
  slots : Fin n → Option β
  /-- The indexes of the checks that were made, the last one first. -/
  log : List (Fin n)

variable {n : Nat} {β : Type}

/-- One step of one worker. -/
inductive Step (check : Fin n → β) : Pool n β → Pool n β → Prop where
  | take (before after : List (Worker n β)) (i : Fin n) (queue log : List (Fin n))
      (slots : Fin n → Option β) :
    Step check ⟨i :: queue, before ++ .ready :: after, slots, log⟩
      ⟨queue, before ++ .taken i :: after, slots, log⟩
  | check (before after : List (Worker n β)) (i : Fin n) (queue log : List (Fin n))
      (slots : Fin n → Option β) :
    Step check ⟨queue, before ++ .taken i :: after, slots, log⟩
      ⟨queue, before ++ .checked i (check i) :: after, slots, i :: log⟩
  | store (before after : List (Worker n β)) (i : Fin n) (result : β) (queue log : List (Fin n))
      (slots : Fin n → Option β) :
    Step check ⟨queue, before ++ .checked i result :: after, slots, log⟩
      ⟨queue, before ++ .ready :: after, Function.update slots i (some result), log⟩
  | stop (before after : List (Worker n β)) (log : List (Fin n)) (slots : Fin n → Option β) :
    Step check ⟨[], before ++ .ready :: after, slots, log⟩
      ⟨[], before ++ .stopped :: after, slots, log⟩

/-- Any number of steps, in any order of the workers. -/
abbrev Schedule (check : Fin n → β) : Pool n β → Pool n β → Prop :=
  Relation.ReflTransGen (Step check)

namespace Pool

/-- As many workers as jobs are asked for, at least one, and no more than there are files. -/
def start (jobs : Int) (n : Nat) (β : Type) : Pool n β where
  queue := List.finRange n
  workers := List.replicate (min (max jobs 1).toNat n) .ready
  slots := fun _ => none
  log := []

/-- All workers have stopped. -/
def Finished (p : Pool n β) : Prop :=
  ∀ w ∈ p.workers, w = .stopped

/-- The results in the order of the files, if every slot holds one. -/
def results (p : Pool n β) : Option (List β) :=
  (List.finRange n).mapM p.slots

end Pool

/-! ## What every step keeps -/

/-- The index that a worker took and whose file it is still to check. -/
def Worker.awaiting : Worker n β → List (Fin n)
  | taken i => [i]
  | _ => []

/-- Where the indexes and the results are. -/
structure Pool.Sound (check : Fin n → β) (p : Pool n β) : Prop where
  /-- Every index waits, was taken or was checked, once. -/
  tally : ∀ i, p.queue.count i + (p.workers.flatMap Worker.awaiting).count i + p.log.count i = 1
  /-- Workers stop when nothing waits. -/
  drained : .stopped ∈ p.workers → p.queue = []
  /-- There is a worker if there is a file. -/
  manned : 0 < n → p.workers ≠ []
  /-- What a worker is about to store is right. -/
  carried : ∀ i result, .checked i result ∈ p.workers → result = check i
  /-- What a slot holds is right. -/
  held : ∀ i result, p.slots i = some result → result = check i
  /-- What was checked is in its slot or about to be. -/
  kept : ∀ i ∈ p.log, (p.slots i).isSome = true ∨ ∃ result, .checked i result ∈ p.workers

theorem Pool.sound_start (check : Fin n → β) (jobs : Int) : (start jobs n β).Sound check where
  tally i := by
    have hone := List.count_eq_one_of_mem (List.nodup_finRange n) (List.mem_finRange i)
    simp [start, Worker.awaiting, List.flatMap_replicate, hone]
  drained h := absurd (List.eq_of_mem_replicate h) (by simp)
  manned hn h := by
    have hlength := congrArg List.length h
    simp only [start, List.length_replicate, List.length_nil] at hlength
    omega
  carried i result h := absurd (List.eq_of_mem_replicate h) (by simp)
  held i result h := absurd h (by simp [start])
  kept i h := absurd h (by simp [start])

section Steps

variable {check : Fin n → β} {p q : Pool n β}

/-- The other workers stay when one goes on. -/
theorem mem_of_others {before after : List (Worker n β)} {w w' x : Worker n β}
    (h : x ∈ before ++ w :: after) (hx : x ≠ w) : x ∈ before ++ w' :: after := by
  rcases List.mem_append.1 h with h | h
  · exact List.mem_append_left _ h
  · exact List.mem_append_right _ (List.mem_cons_of_mem _ (List.mem_of_ne_of_mem hx h))

/-- A step only moves an index on. -/
theorem Step.keeps (h : Step check p q) (hp : p.Sound check) : q.Sound check := by
  obtain ⟨htally, hdrained, hmanned, hcarried, hheld, hkept⟩ := hp
  cases h with
  | take before after i queue log slots =>
    refine ⟨fun j => ?_, fun h => ?_, fun _ => by simp, fun j result h => ?_, hheld, fun j h => ?_⟩
    · have hj := htally j
      simp [List.count_cons, Worker.awaiting] at hj ⊢
      omega
    · exact absurd (hdrained (mem_of_others h (by simp))) (by simp)
    · exact hcarried j result (mem_of_others h (by simp))
    · exact (hkept j h).imp_right fun ⟨result, hmem⟩ => ⟨result, mem_of_others hmem (by simp)⟩
  | check before after i queue log slots =>
    refine ⟨fun j => ?_, fun h => ?_, fun _ => by simp, fun j result h => ?_, hheld, fun j h => ?_⟩
    · have hj := htally j
      simp [List.count_cons, Worker.awaiting] at hj ⊢
      omega
    · exact hdrained (mem_of_others h (by simp))
    · by_cases hown : Worker.checked j result = .checked i (check i)
      · obtain ⟨rfl, rfl⟩ := Worker.checked.inj hown
        rfl
      · exact hcarried j result (mem_of_others h hown)
    · rcases List.mem_cons.1 h with rfl | h
      · exact Or.inr ⟨check j, by simp⟩
      · exact (hkept j h).imp_right fun ⟨result, hmem⟩ => ⟨result, mem_of_others hmem (by simp)⟩
  | store before after i result queue log slots =>
    refine ⟨fun j => ?_, fun h => ?_, fun _ => by simp, fun j r h => ?_, fun j r h => ?_,
      fun j h => ?_⟩
    · simpa [Worker.awaiting] using htally j
    · exact hdrained (mem_of_others h (by simp))
    · exact hcarried j r (mem_of_others h (by simp))
    · by_cases hij : j = i
      · subst hij
        obtain rfl : result = r := by simpa using h
        exact hcarried j result (by simp)
      · exact hheld j r (by simpa [Function.update_of_ne hij] using h)
    · by_cases hij : j = i
      · subst hij
        simp
      · rcases hkept j h with hsome | ⟨r, hmem⟩
        · exact Or.inl (by simpa [Function.update_of_ne hij] using hsome)
        · exact Or.inr ⟨r, mem_of_others hmem (by simp [hij])⟩
  | stop before after log slots =>
    refine ⟨fun j => ?_, fun _ => rfl, fun _ => by simp, fun j result h => ?_, hheld,
      fun j h => ?_⟩
    · simpa [Worker.awaiting] using htally j
    · exact hcarried j result (mem_of_others h (by simp))
    · exact (hkept j h).imp_right fun ⟨result, hmem⟩ => ⟨result, mem_of_others hmem (by simp)⟩

theorem Schedule.keeps (h : Schedule check p q) (hp : p.Sound check) : q.Sound check := by
  induction h with
  | refl => exact hp
  | tail _ hstep ih => exact hstep.keeps ih

/-! ## The end of a schedule -/

/-- When all workers have stopped, every index was checked once and every slot holds its result. -/
theorem Pool.Sound.finished (hp : p.Sound check) (hdone : p.Finished) :
    (∀ i, p.log.count i = 1) ∧ p.slots = fun i => some (check i) := by
  have hawaiting : p.workers.flatMap Worker.awaiting = [] := by
    rw [List.flatMap_eq_nil_iff]
    intro w hw
    rw [hdone w hw]
    rfl
  have hlog : ∀ i, p.log.count i = 1 := by
    intro i
    obtain ⟨w, rest, hworkers⟩ := List.exists_cons_of_ne_nil (hp.manned i.pos)
    have hqueue : p.queue = [] := hp.drained (by
      have hw := hdone w (by simp [hworkers])
      simp [hworkers, hw])
    have hi := hp.tally i
    rw [hqueue, hawaiting] at hi
    simpa using hi
  refine ⟨hlog, funext fun i => ?_⟩
  have hmem : i ∈ p.log := List.count_pos_iff.1 (by rw [hlog i]; exact Nat.one_pos)
  rcases hp.kept i hmem with hsome | ⟨result, hw⟩
  · obtain ⟨result, hresult⟩ := Option.isSome_iff_exists.1 hsome
    rw [hresult, hp.held i result hresult]
  · exact absurd (hdone _ hw) (by simp)

theorem Pool.results_of_slots (h : p.slots = fun i => some (check i)) :
    p.results = some ((List.finRange n).map check) := by
  rw [results, h]
  exact List.mapM_pure

/-- How much a worker has still to do, when there is nothing more to take. -/
def Worker.effort : Worker n β → Nat
  | ready => 1
  | taken _ => 3
  | checked _ _ => 2
  | stopped => 0

/-- How much the workers have still to do together. -/
def effortOf : List (Worker n β) → Nat
  | [] => 0
  | w :: rest => w.effort + effortOf rest

theorem effortOf_append (before after : List (Worker n β)) :
    effortOf (before ++ after) = effortOf before + effortOf after := by
  induction before with
  | nil => simp [effortOf]
  | cons w before ih => rw [List.cons_append, effortOf, effortOf, ih, Nat.add_assoc]

/-- How many steps are left at most. -/
def Pool.effort (p : Pool n β) : Nat :=
  3 * p.queue.length + effortOf p.workers

theorem Step.effort_lt (h : Step check p q) : q.effort < p.effort := by
  cases h with
  | take =>
    simp only [Pool.effort, effortOf_append, effortOf, Worker.effort, List.length_cons]
    omega
  | check | store | stop => simp [Pool.effort, effortOf_append, effortOf, Worker.effort]

/-- No schedule goes on for ever. -/
theorem step_wellFounded (check : Fin n → β) : WellFounded fun q p => Step check p q :=
  Subrelation.wf (fun h => Step.effort_lt h) (measure Pool.effort).wf

/-- As long as a worker has not stopped, it can go on. -/
theorem Pool.exists_step (check : Fin n → β) (h : ¬ p.Finished) : ∃ q, Step check p q := by
  obtain ⟨queue, workers, slots, log⟩ := p
  obtain ⟨w, hw, hnot⟩ : ∃ w ∈ workers, w ≠ .stopped := by
    simpa [Finished] using h
  obtain ⟨before, after, rfl⟩ := List.append_of_mem hw
  cases w with
  | ready =>
    cases queue with
    | nil => exact ⟨_, .stop before after log slots⟩
    | cons i queue => exact ⟨_, .take before after i queue log slots⟩
  | taken i => exact ⟨_, .check before after i queue log slots⟩
  | checked i result => exact ⟨_, .store before after i result queue log slots⟩
  | stopped => exact absurd rfl hnot

/-- Every schedule can be brought to its end. -/
theorem Pool.exists_finished (check : Fin n → β) (p : Pool n β) :
    ∃ q, Schedule check p q ∧ q.Finished := by
  induction p using (step_wellFounded check).induction with
  | _ p ih =>
    by_cases h : p.Finished
    · exact ⟨p, .refl, h⟩
    · obtain ⟨q, hstep⟩ := exists_step check h
      obtain ⟨final, hschedule, hdone⟩ := ih q hstep
      exact ⟨final, .head hstep hschedule, hdone⟩

end Steps

/-! ## The status -/

namespace FileCheck

/-- The run on the file was ended early. -/
def Aborted (c : FileCheck) : Prop :=
  ∃ r, c.result = .ok r ∧ r.aborted = true

/-- There was no run on the file, or it had errors. -/
def Failed (c : FileCheck) : Prop :=
  (∃ why, c.result = .error why) ∨ ∃ r, c.result = .ok r ∧ 0 < r.errors

/-- The status after a file that is set to 2 by an aborted run, and otherwise only goes up. -/
def statusAfter (status : Nat) (c : FileCheck) : Nat :=
  match c.result with
  | .error _ => max status 1
  | .ok r => if r.aborted then 2 else if 0 < r.errors then max status 1 else status

theorem status_le (c : FileCheck) : c.status ≤ 2 := by
  unfold status statusOf
  grind

theorem two_le_status (c : FileCheck) : 2 ≤ c.status ↔ c.Aborted := by
  unfold status statusOf Aborted
  grind

theorem one_le_status (c : FileCheck) : 1 ≤ c.status ↔ c.Aborted ∨ c.Failed := by
  unfold status statusOf Aborted Failed
  grind

theorem statusAfter_eq_max {status : Nat} (h : status ≤ 2) (c : FileCheck) :
    c.statusAfter status = max status c.status := by
  unfold statusAfter FileCheck.status statusOf
  grind

end FileCheck

section Status

variable (checks : List FileCheck)

theorem le_foldl_status (k worst : Nat) :
    k ≤ checks.foldl (fun worst c => worst.max c.status) worst ↔
      k ≤ worst ∨ ∃ c ∈ checks, k ≤ c.status := by
  induction checks generalizing worst with
  | nil => simp
  | cons c checks ih =>
    rw [List.foldl_cons, ih, List.exists_mem_cons_iff, ← or_assoc]
    refine or_congr_left ?_
    show k ≤ max worst c.status ↔ _
    omega

theorem le_status_iff {k : Nat} (hk : 0 < k) :
    k ≤ (summarize checks).status ↔ ∃ c ∈ checks, k ≤ c.status :=
  (le_foldl_status checks k 0).trans (or_iff_right (by omega))

theorem status_summarize_le : (summarize checks).status ≤ 2 := by
  by_contra h
  obtain ⟨c, -, hc⟩ := (le_status_iff checks (k := 3) (by decide)).1 (by omega)
  exact absurd c.status_le (by omega)

theorem status_eq_two : (summarize checks).status = 2 ↔ ∃ c ∈ checks, c.Aborted := by
  have htwo := le_status_iff checks (k := 2) (by decide)
  simp only [FileCheck.two_le_status] at htwo
  rw [← htwo]
  exact ⟨fun h => h.ge, fun h => Nat.le_antisymm (status_summarize_le checks) h⟩

theorem status_eq_zero :
    (summarize checks).status = 0 ↔ ¬ ∃ c ∈ checks, c.Aborted ∨ c.Failed := by
  have hone := le_status_iff checks (k := 1) (by decide)
  simp only [FileCheck.one_le_status] at hone
  rw [← hone]
  omega

theorem status_eq_one :
    (summarize checks).status = 1 ↔ (¬ ∃ c ∈ checks, c.Aborted) ∧ ∃ c ∈ checks, c.Failed := by
  have hle := status_summarize_le checks
  have hzero := status_eq_zero checks
  have hsome : (∃ c ∈ checks, c.Aborted ∨ c.Failed) ↔
      (∃ c ∈ checks, c.Aborted) ∨ ∃ c ∈ checks, c.Failed := by grind
  rw [hsome, ← status_eq_two] at hzero
  rw [← status_eq_two]
  constructor
  · intro h
    refine ⟨by omega, ?_⟩
    by_contra hfailed
    exact absurd (hzero.2 (not_or.2 ⟨by omega, hfailed⟩)) (by omega)
  · rintro ⟨htwo, hfailed⟩
    have hpos : (summarize checks).status ≠ 0 := fun h => hzero.1 h (Or.inr hfailed)
    omega

/-- The worst status is also what a status comes to that is kept up to date file by file. -/
theorem foldl_statusAfter :
    checks.foldl FileCheck.statusAfter 0 = (summarize checks).status := by
  have hfold : ∀ worst ≤ 2, checks.foldl FileCheck.statusAfter worst =
      checks.foldl (fun worst c => worst.max c.status) worst := by
    induction checks with
    | nil => simp
    | cons c checks ih =>
      intro worst hworst
      rw [List.foldl_cons, List.foldl_cons, FileCheck.statusAfter_eq_max hworst]
      exact ih _ (Nat.max_le.2 ⟨hworst, c.status_le⟩)
  exact hfold 0 (by decide)

end Status

/-! ## The command -/

/-- What the command tells when there are files to check. -/
theorem checkCommand_eq {env : Environment} {o : Options} {arguments files : List Bytes}
    {settings : Settings} (harguments : arguments ≠ [])
    (hfiles : collectFiles env (o.ext.getD defaultExts) arguments = .ok files) (hne : files ≠ [])
    (hsettings : settingsOf env o = .ok settings) :
    ∃ lookedAt, checkCommand env o arguments =
      { summarize (files.map (checkFile env o settings)) with lookedAt } := by
  unfold checkCommand
  rw [if_neg (by simpa using harguments), hfiles]
  cases files with
  | nil => exact absurd rfl hne
  | cons file files => simp only [hsettings]; exact ⟨_, rfl⟩

/-- **Checking files gives the same result for every number of jobs and every schedule.** Every
    schedule can be brought to its end and none goes on for ever. At the end each file was checked
    once, and what is told of the results is what the command tells, which checks the files one after
    the other. The status is 2 when a run was aborted, else 1 when a file could not be run or had
    errors, and else 0, in whatever order the files are. -/
theorem check_any_schedule (env : Environment) (o : Options) (settings : Settings)
    (files : List Bytes) (jobs : Int) :
    let check := checkFile env o settings
    let checkAt := fun i : Fin files.length => check files[i]
    let start := Pool.start jobs files.length FileCheck
    (∀ pool, Schedule checkAt start pool → pool.Finished →
      (∀ i, pool.log.count i = 1) ∧
      pool.results = some (files.map check) ∧
      ∀ arguments, arguments ≠ [] →
        collectFiles env (o.ext.getD defaultExts) arguments = .ok files → files ≠ [] →
        settingsOf env o = .ok settings →
        ∃ lookedAt, pool.results.map (fun checks => { summarize checks with lookedAt }) =
          some (checkCommand env { o with jobs } arguments)) ∧
    (∀ pool, Schedule checkAt start pool →
      ∃ final, Schedule checkAt pool final ∧ final.Finished) ∧
    (WellFounded fun q p => Step checkAt p q) ∧
    ∀ order : List Bytes, order.Perm files →
      let checks := order.map check
      let status := (summarize checks).status
      checks.foldl FileCheck.statusAfter 0 = status ∧
      (status = 2 ↔ ∃ path ∈ files, (check path).Aborted) ∧
      (status = 1 ↔ (¬ ∃ path ∈ files, (check path).Aborted) ∧ ∃ path ∈ files, (check path).Failed) ∧
      (status = 0 ↔ ¬ ∃ path ∈ files, (check path).Aborted ∨ (check path).Failed) := by
  intro check checkAt start
  refine ⟨fun pool hschedule hdone => ?_, fun pool _ => pool.exists_finished checkAt,
    step_wellFounded checkAt, fun order hperm => ?_⟩
  · have hsound := Schedule.keeps hschedule (Pool.sound_start checkAt jobs)
    obtain ⟨hlog, hslots⟩ := hsound.finished hdone
    have hresults : pool.results = some (files.map check) := by
      rw [Pool.results_of_slots hslots]
      show some ((List.finRange files.length).map (check ∘ files.get)) = _
      rw [← List.map_map, List.map_get_finRange]
    refine ⟨hlog, hresults, fun arguments harguments hfiles hne hsettings => ?_⟩
    obtain ⟨lookedAt, hcommand⟩ := checkCommand_eq harguments hfiles hne hsettings
    have hjobs : checkCommand env { o with jobs } arguments = checkCommand env o arguments := rfl
    exact ⟨lookedAt, by rw [hresults, hjobs, hcommand]; rfl⟩
  · intro checks status
    have hmem : ∀ P : FileCheck → Prop,
        (∃ c ∈ checks, P c) ↔ ∃ path ∈ files, P (check path) := by
      intro P
      simp [checks, hperm.mem_iff]
    refine ⟨foldl_statusAfter checks, ?_, ?_, ?_⟩
    · rw [status_eq_two, hmem]
    · rw [status_eq_one, hmem, hmem]
    · rw [status_eq_zero, hmem]

/-- A file that has an error and one that has none. -/
def twoFiles : Environment where
  version := ""
  files := (Files.Tree.ofPaths
    [(ascii "a.c", ascii "#endif\n"), (ascii "b.c", ascii "x\n")] []).view
  stdin := []
  time := []

/-- Two workers, of which the one that takes the second file is done first. -/
theorem check_any_schedule_overtaking :
    let files := [ascii "a.c", ascii "b.c"]
    let check := checkFile twoFiles {} {}
    let checkAt := fun i : Fin 2 => check files[i]
    let final : Pool 2 FileCheck := ⟨[], [.stopped, .stopped], fun i => some (checkAt i), [0, 1]⟩
    Schedule checkAt (Pool.start 7 2 FileCheck) final ∧ final.Finished ∧
    final.results = some (files.map check) ∧
    (summarize (files.map check)).status = 1 ∧
    ∃ lookedAt, final.results.map (fun checks => { summarize checks with lookedAt }) =
      some (checkCommand twoFiles { jobs := 7 } files) := by
  intro files check checkAt final
  let slots : Fin 2 → Option FileCheck :=
    Function.update (Function.update (fun _ => none) 1 (some (checkAt 1))) 0 (some (checkAt 0))
  have hslots : slots = fun i => some (checkAt i) := by
    funext i
    match i with
    | 0 | 1 => rfl
  have hschedule : Schedule checkAt (Pool.start 7 2 FileCheck) final := by
    rw [show final = ⟨[], [.stopped, .stopped], slots, [0, 1]⟩ from by rw [hslots]]
    exact .head (.take [] [.ready] 0 [1] [] _) <|
      .head (.take [.taken 0] [] 1 [] [] _) <|
      .head (.check [.taken 0] [] 1 [] [] _) <|
      .head (.store [.taken 0] [] 1 _ [] [1] _) <|
      .head (.check [] [.ready] 0 [] [1] _) <|
      .head (.stop [.checked 0 _] [] [0, 1] _) <|
      .head (.store [] [.stopped] 0 _ [] [0, 1] _) <|
      .single (.stop [] [.stopped] [0, 1] _)
  have hdone : final.Finished := by simp [Pool.Finished, final]
  obtain ⟨hall, -⟩ := check_any_schedule twoFiles {} {} files 7
  obtain ⟨-, hresults, hcommand⟩ := hall final hschedule hdone
  exact ⟨hschedule, hdone, hresults, by decide +kernel,
    hcommand files (by simp [files]) (by decide +kernel) (by simp [files]) rfl⟩

end Preproc.CommandLine
