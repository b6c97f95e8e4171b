import Beez.Daemon.Overlap

/-! # How many runs go on -/

open Beez.Lib

namespace Beez.Daemon

/-! ## Histories without a condition -/

/-- Every history, but for the ends of runs that `ended` refuses. -/
def everything (ended : Prop) : Guard where
  read := fun _ _ _ => True
  added := fun _ _ _ => True
  removed := fun _ _ => True
  ended := fun _ _ => ended
  loads := fun _ _ => True

section

variable [CronCrate] {daemon after : Daemon} {host : Host}

theorem everything_allows {ended : Prop} {input : Input}
    (h : ended ∨ ∀ host thread outcome, input ≠ .finished host thread outcome) :
    (everything ended).allows daemon input := by
  cases input with
  | pass host => exact Along.of_forall (fun _ _ => trivial) _ _
  | command host request =>
    cases request with
    | reload => exact Along.of_forall (fun _ _ => trivial) _ _
    | status | add | remove | pause | resume | trigger | stop => trivial
  | finished host thread outcome =>
    rcases h with h | h
    · exact fun _ _ => h
    · exact absurd rfl (h host thread outcome)
  | timeout | signal | edited => trivial
  | loads thread content => exact fun _ _ => trivial

theorem keeps_always {inv : Daemon → Prop}
    (keep : ∀ host before after, Move (everything True) host before after → inv before → inv after)
    (start : inv daemon) (inputs : List Input) : inv (runAll step daemon inputs) :=
  Guard.AllowsAll.keeps keep
    (Along.of_forall (fun _ _ _ => everything_allows (.inl trivial)) daemon inputs) start

end

/-! ## The runs that started -/

def Happening.isStart : Happening → Bool
  | .started .. => true
  | _ => false

/-- How many runs the daemon has started. -/
def starts (daemon : Daemon) : Nat := daemon.trace.countP Happening.isStart

/-- How many runs the input reports as ended. -/
def reports (daemon : Daemon) (input : Input) : Nat :=
  match input with
  | .finished _ thread _ =>
    if daemon.takes input && daemon.threads[thread]?.any (·.loaded.isSome) then 1 else 0
  | _ => 0

/-- How many runs the history reports as ended. -/
def reported [CronCrate] (daemon : Daemon) : List Input → Nat
  | [] => 0
  | input :: rest => daemon.reports input + (daemon.step input).reported rest

/-- The daemon counts the runs that go on, and they are within its limit. -/
structure Counted (limit : Nat) (daemon : Daemon) : Prop where
  exact : daemon.running = daemon.threads.length
  within : daemon.running ≤ daemon.limit
  same : daemon.limit = limit

/-- All but `ended` of the runs that started go on. -/
def GoOn (ended : Nat) (daemon : Daemon) : Prop :=
  daemon.starts = daemon.threads.length + ended

section

variable {daemon after : Daemon} {host : Host} {job : Job} {index limit : Nat}

theorem planLines_starts (planned : List (Job × Option Plan)) :
    (planLines planned).countP Happening.isStart = 0 := by
  rw [List.countP_eq_zero]
  intro happening h
  obtain ⟨job, found, rfl⟩ := mem_planLines h
  simp [Happening.isStart]

theorem lines_starts (action : Action) (job : Job) (run : JobRun) (inFlight : List Text)
    (source : Option Manifest) :
    (action.lines job run inFlight).countP Happening.isStart
      = (action.threads run source).length := by
  cases action <;> rfl

theorem room_of_actionFor (h : daemon.actionFor job = .start) : daemon.running < daemon.limit := by
  unfold actionFor at h
  split at h
  · cases h
  · omega

theorem threads_within (counted : Counted limit daemon) (run : JobRun) (source : Option Manifest) :
    daemon.running + ((daemon.actionFor job).threads run source).length ≤ daemon.limit := by
  cases h : daemon.actionFor job with
  | start => exact room_of_actionFor h
  | queue reason => exact counted.within
  | skip => exact counted.within

theorem Counted.start (counted : Counted limit daemon) (found : daemon.jobs[index]? = some job)
    (room : daemon.running < daemon.limit) (fire : Int) :
    Counted limit (daemon.start index fire) := by
  rw [start_of_found found]
  refine ⟨?_, room, counted.same⟩
  simp [counted.exact]

theorem GoOn.start {ended : Nat} (goOn : GoOn ended daemon)
    (found : daemon.jobs[index]? = some job) (fire : Int) :
    GoOn ended (daemon.start index fire) := by
  rw [start_of_found found]
  unfold GoOn starts at *
  rw [List.countP_append, goOn]
  simp [Happening.isStart]
  omega

theorem settle_counts (host : Host) {thread : RunThread} (id : Text)
    (found : daemon.threads[index]? = some thread) (outcome : RunOutcome) :
    (daemon.settle host index id outcome).running = daemon.running - 1 ∧
      (daemon.settle host index id outcome).limit = daemon.limit ∧
      (daemon.settle host index id outcome).starts = daemon.starts ∧
      (daemon.settle host index id outcome).threads.length + 1 = daemon.threads.length := by
  have hlt := (List.getElem?_eq_some_iff.mp found).1
  have hlen : (daemon.threads.eraseIdx index).length + 1 = daemon.threads.length := by
    rw [List.length_eraseIdx_of_lt hlt]
    omega
  cases here : daemon.position id with
  | none =>
    rw [settle_of_none here]
    exact ⟨rfl, rfl, rfl, hlen⟩
  | some position =>
    obtain ⟨job, held, -⟩ := found_of_position here
    rw [settle_of_found here held]
    exact ⟨rfl, rfl, rfl, hlen⟩

variable [CronCrate]

theorem Counted.fire (counted : Counted limit daemon) (found : daemon.jobs[index]? = some job) :
    Counted limit (fire host daemon index) := by
  rw [fire_of_found found]
  refine ⟨?_, threads_within counted _ _, counted.same⟩
  simp [counted.exact]

theorem GoOn.fire {ended : Nat} (goOn : GoOn ended daemon)
    (found : daemon.jobs[index]? = some job) : GoOn ended (fire host daemon index) := by
  rw [fire_of_found found]
  unfold GoOn starts at *
  simp only [List.countP_append, goOn, planLines_starts, lines_starts _ _ _ _ job.source,
    List.length_append, List.countP_singleton, Happening.isStart, Bool.false_eq_true, if_false]
  omega

theorem move_counted (move : Move (everything True) host daemon after)
    (counted : Counted limit daemon) : Counted limit after := by
  cases move with
  | reload _ _ | add _ _ _ | retain _ | remove _ _ | rest =>
    exact ⟨counted.exact, counted.within, counted.same⟩
  | fire _ found _ => exact counted.fire found
  | startWaiting _ room found _ => exact counted.start found room _
  | trigger room found _ _ => exact counted.start found room _
  | @settle _ thread found _ outcome =>
    obtain ⟨hrunning, hlimit, -, hlength⟩ := settle_counts host thread.run.id found outcome
    obtain ⟨hexact, hwithin, hsame⟩ := counted
    constructor <;> omega
  | hold here paused =>
    obtain ⟨job, found, -⟩ := found_of_position here
    rw [hold_of_found found]
    exact ⟨counted.exact, counted.within, counted.same⟩
  | load index content _ =>
    refine ⟨?_, counted.within, counted.same⟩
    simp [load, counted.exact]

/-- No step ends a run but the one that hears of its end. -/
theorem step_endsNone (daemon : Daemon) {input : Input}
    (going : ∀ host index outcome, input ≠ .finished host index outcome) :
    Moves (everything False) (input.host.getD default) daemon (daemon.step input) :=
  step_moves (fun _ => everything_allows (.inr going)) fun other h => by rw [h]; rfl

theorem move_goOn {ended : Nat} (move : Move (everything False) host daemon after)
    (goOn : GoOn ended daemon) : GoOn ended after := by
  cases move with
  | reload _ _ | add _ _ _ =>
    unfold GoOn starts at *
    simp [reload, install, rememberModified, List.countP_append, planLines_starts, goOn]
  | retain _ | remove _ _ | rest => exact goOn
  | fire _ found _ => exact goOn.fire found
  | startWaiting _ _ found _ => exact goOn.start found _
  | trigger _ found _ _ => exact goOn.start found _
  | settle _ allowed _ => exact allowed.elim
  | hold here paused =>
    obtain ⟨job, found, -⟩ := found_of_position here
    rw [hold_of_found found]
    unfold GoOn starts at *
    simp [List.countP_append, planLines_starts, goOn]
  | load index content _ =>
    unfold GoOn starts at *
    simpa [load] using goOn

/-! ## Every history -/

theorem handleFinished_goOn {ended : Nat} (goOn : GoOn ended daemon) (index : Nat)
    (outcome : RunOutcome) :
    GoOn (ended + if daemon.threads[index]?.any (·.loaded.isSome) then 1 else 0)
      (daemon.handleFinished host index outcome) := by
  rcases handleFinished_cases daemon host index outcome with
    ⟨silent, same⟩ | ⟨thread, found, loaded, ends⟩
  · rw [silent, same]
    exact goOn
  · obtain ⟨-, -, hstarts, hlength⟩ :=
      settle_counts host thread.run.id found (thread.outcome outcome)
    have settled : GoOn (ended + 1)
        (daemon.settle host index thread.run.id (thread.outcome outcome)) := by
      unfold GoOn at *
      omega
    have queued : GoOn (ended + 1)
        (daemon.finished host index thread.run.id (thread.outcome outcome)) := by
      have moves : Moves (everything False) host _
          (daemon.finished host index thread.run.id (thread.outcome outcome)) :=
        startQueued_moves
      exact moves.keeps (fun _ _ move => move_goOn move) settled
    rw [found, Option.any_some, loaded, ends]
    exact queued

theorem step_goOn {ended : Nat} (goOn : GoOn ended daemon) (input : Input) :
    GoOn (ended + daemon.reports input) (daemon.step input) := by
  by_cases finish : ∃ host index outcome, input = .finished host index outcome
  · obtain ⟨host, index, outcome, rfl⟩ := finish
    unfold reports step
    by_cases taken : daemon.takes (.finished host index outcome) = true
    · simp only [taken, if_true, Bool.true_and]
      exact handleFinished_goOn goOn index outcome
    · simp only [taken, Bool.false_and, Bool.false_eq_true, if_false]
      exact goOn
  · have silent : daemon.reports input = 0 := by
      cases input with
      | finished host index outcome => exact absurd ⟨host, index, outcome, rfl⟩ finish
      | pass | timeout | command | signal | loads | edited => rfl
    rw [silent]
    have moves := daemon.step_endsNone fun host index outcome h => finish ⟨host, index, outcome, h⟩
    exact moves.keeps (fun _ _ move => move_goOn move) goOn

theorem runAll_goOn {ended : Nat} (goOn : GoOn ended daemon) (inputs : List Input) :
    GoOn (ended + daemon.reported inputs) (runAll step daemon inputs) := by
  induction inputs generalizing daemon ended with
  | nil => exact goOn
  | cons input rest ih =>
    rw [reported, ← Nat.add_assoc]
    exact ih (step_goOn goOn input)

theorem openDaemon_counted {root : Path} {files : Files}
    (opened : openDaemon host root limit files = some daemon) :
    Counted (max limit 1) daemon ∧ GoOn 0 daemon := by
  obtain ⟨idle, planned, silent⟩ := openDaemon_fresh opened
  unfold openDaemon at opened
  split at opened
  · simp only [Option.some.injEq] at opened
    refine ⟨?_, ?_⟩
    · subst opened
      exact ⟨rfl, Nat.zero_le _, rfl⟩
    · unfold GoOn starts
      rw [silent, planLines_starts, idle]
      rfl
  · cases opened

/-- In every history, the daemon counts the runs it started and has not seen end, which are
never more than its limit and at least one whenever one of them ends. -/
theorem running_counts {root : Path} {files : Files}
    (opened : openDaemon host root limit files = some daemon) (inputs : List Input) :
    (runAll step daemon inputs).running + daemon.reported inputs
        = (runAll step daemon inputs).starts ∧
      (runAll step daemon inputs).running ≤ max limit 1 ∧
      ∀ input, 1 ≤ (runAll step daemon inputs).reports input →
        1 ≤ (runAll step daemon inputs).running := by
  obtain ⟨hcounted, hgoOn⟩ := openDaemon_counted opened
  have counted := keeps_always (fun _ _ _ move => move_counted move) hcounted inputs
  have goOn := runAll_goOn hgoOn inputs
  obtain ⟨hexact, hwithin, hsame⟩ := counted
  refine ⟨?_, hsame ▸ hwithin, fun input ends => ?_⟩
  · unfold GoOn at goOn
    omega
  · unfold reports at ends
    split at ends
    · split at ends
      · rename_i h
        simp only [Bool.and_eq_true, Option.any_eq_true] at h
        obtain ⟨-, thread, found, -⟩ := h
        have := (List.getElem?_eq_some_iff.mp found).1
        omega
      · omega
    · omega

end

theorem running_counts_mended :
    (@runAll _ _ (@step .unused) nightlyDaemon brokenAndMended).running
        + @reported .unused nightlyDaemon brokenAndMended
        = (@runAll _ _ (@step .unused) nightlyDaemon brokenAndMended).starts ∧
      (@runAll _ _ (@step .unused) nightlyDaemon brokenAndMended).running ≤ 2 := by
  let _ : CronCrate := .unused
  obtain ⟨count, within, -⟩ := running_counts nightlyDaemon_opened brokenAndMended
  exact ⟨count, within⟩

end Beez.Daemon
