import Beez.Runner.Rendering

/-! # A run, level by level

The tasks of one turn are those whose longest chain of dependencies has one length.
-/

open Beez.Core Beez.Lib

namespace Beez.Runner

/-! ## What decides a run -/

/-- How a task ends when it is run. -/
inductive End where
  | exited (status : Option Int)
  | error
deriving DecidableEq

def endOf : Outcome → End
  | .ok output => .exited output.statusCode
  | .error _ => .error

/-- The status that a task counts as. -/
def End.code : End → Int
  | .exited status => status.getD 1
  | .error => 1

theorem taskStatus_eq_code (outcome : Outcome) : taskStatus outcome = (endOf outcome).code := by
  cases outcome <;> rfl

theorem End.code_eq_zero {e : End} : e.code = 0 ↔ e = .exited (some 0) := by
  cases e with
  | error => simp [End.code]
  | exited status => cases status <;> simp [End.code]

/-- Whenever a task is run, it ends as `ends` says. -/
def World.Ends (world : World) (ends : Nat → End) : Prop :=
  ∀ events jobs task result elapsed,
    .done (some task) result elapsed ∈ world.deliver events jobs → endOf result = ends task

/-- The length of the longest chain of dependencies that ends in a task. -/
noncomputable def depthOf (workflow : Workflow) (task : Nat) : Nat :=
  depth workflow.dependencies task

section Level

variable (workflow : Workflow) (ends : Nat → End)

/-- Everything that the task needs, directly or not, exits with 0. -/
def CanStart (task : Nat) : Prop :=
  ∀ d, Needs workflow.dependencies task d → ends d = .exited (some 0)

/-- `status` is the code of the first task with `among` that fails, or 0 when none fails. -/
def FirstFailure (among : Nat → Prop) (status : Int) : Prop :=
  (status = 0 ∧ ∀ i, among i → (ends i).code = 0) ∨
    ∃ i, among i ∧ (ends i).code ≠ 0 ∧ status = (ends i).code ∧
      ∀ j, among j → (ends j).code ≠ 0 →
        depthOf workflow i < depthOf workflow j ∨
          depthOf workflow i = depthOf workflow j ∧ i ≤ j

/-- The tasks that ran in the first `k` turns. -/
def Below (k : Nat) (task : Nat) : Prop :=
  task < workflow.tasks.length ∧ CanStart workflow ends task ∧ depthOf workflow task < k

/-- The state after `k` turns. -/
structure Level (k : Nat) (run : Run) : Prop where
  settled : Settled workflow run
  pending : ∀ i < workflow.tasks.length,
    (run.execution.statuses[i]? = some .pending ↔ ¬Below workflow ends k i)
  ran : ∀ i, Below workflow ends k i →
    ∃ output, endOf (.ok output) = ends i ∧ Ran i (.ok output) run.events
  status : FirstFailure workflow ends (Below workflow ends k) run.exitStatus

variable {workflow ends}

theorem acyclic (workflow : Workflow) : Acyclic workflow.dependencies := workflow.wellFormed.acyclic

theorem dependency_lt {i d : Nat} (h : d ∈ workflow.dependencies i) : d < workflow.tasks.length :=
  workflow.wellFormed.inRange i d h

theorem needs_lt {i d : Nat} (h : Needs workflow.dependencies i d) : d < workflow.tasks.length := by
  induction h with
  | single hd => exact dependency_lt hd
  | tail _ hd _ => exact dependency_lt hd

theorem CanStart.needs {i d : Nat} (h : CanStart workflow ends i)
    (hd : Needs workflow.dependencies i d) : CanStart workflow ends d :=
  fun e he => h e (hd.trans he)

theorem canStart_iff {i : Nat} : CanStart workflow ends i ↔
    ∀ d ∈ workflow.dependencies i, CanStart workflow ends d ∧ ends d = .exited (some 0) := by
  constructor
  · intro h d hd
    exact ⟨h.needs (.single hd), h d (.single hd)⟩
  · intro h d hd
    cases Relation.TransGen.head'_iff.mp hd with
    | intro e he =>
      rcases Relation.ReflTransGen.cases_head he.2 with rfl | ⟨f, hf, hfd⟩
      · exact (h _ he.1).2
      · exact (h e he.1).1 d (Relation.TransGen.head' hf hfd)

/-- A task that fails has a task that can start and fails at or before its own level. -/
theorem exists_canStart_failure (n : Nat) {i : Nat} (hn : depthOf workflow i ≤ n)
    (hi : i < workflow.tasks.length) (hfail : (ends i).code ≠ 0) (hstart : ¬CanStart workflow ends i) :
    ∃ j < workflow.tasks.length, CanStart workflow ends j ∧ (ends j).code ≠ 0 ∧
      depthOf workflow j < depthOf workflow i := by
  induction n generalizing i with
  | zero =>
    simp only [CanStart, not_forall] at hstart
    obtain ⟨d, hd, -⟩ := hstart
    have := hd.depth_lt (acyclic workflow)
    simp only [depthOf] at hn
    omega
  | succ n ih =>
    simp only [CanStart, not_forall] at hstart
    obtain ⟨d, hd, hends⟩ := hstart
    have hlt : depthOf workflow d < depthOf workflow i := hd.depth_lt (acyclic workflow)
    have hcode : (ends d).code ≠ 0 := fun h => hends (End.code_eq_zero.mp h)
    by_cases hd' : CanStart workflow ends d
    · exact ⟨d, needs_lt hd, hd', hcode, hlt⟩
    · obtain ⟨j, hj, hjs, hjc, hjd⟩ := ih (by omega) (needs_lt hd) hcode hd'
      exact ⟨j, hj, hjs, hjc, hjd.trans hlt⟩

/-- Whether the tasks that cannot start count or not, the first failure is the same. -/
theorem FirstFailure.all {status : Int}
    (h : FirstFailure workflow ends
      (fun i => i < workflow.tasks.length ∧ CanStart workflow ends i) status) :
    FirstFailure workflow ends (· < workflow.tasks.length) status := by
  rcases h with ⟨hstatus, hall⟩ | ⟨i, ⟨hi, hstart⟩, hcode, hstatus, hfirst⟩
  · refine .inl ⟨hstatus, fun i hi => ?_⟩
    by_contra hcode
    by_cases hstart : CanStart workflow ends i
    · exact hcode (hall i ⟨hi, hstart⟩)
    · obtain ⟨j, hj, hjs, hjc, -⟩ := exists_canStart_failure _ (Nat.le_refl _) hi hcode hstart
      exact hjc (hall j ⟨hj, hjs⟩)
  · refine .inr ⟨i, hi, hcode, hstatus, fun j hj hjc => ?_⟩
    by_cases hjs : CanStart workflow ends j
    · exact hfirst j ⟨hj, hjs⟩ hjc
    · obtain ⟨e, he, hes, hec, hed⟩ := exists_canStart_failure _ (Nat.le_refl _) hj hjc hjs
      have := hfirst e ⟨he, hes⟩ hec
      omega

/-! ## The tasks of one turn -/

variable {k : Nat} {run : Run}

theorem Level.succeeded_iff (level : Level workflow ends k run) {d : Nat}
    (hd : d < workflow.tasks.length) : run.execution.statuses[d]? = some .succeeded ↔
      Below workflow ends k d ∧ ends d = .exited (some 0) := by
  have settled := level.settled
  constructor
  · intro h
    have hbelow : Below workflow ends k d := by
      by_contra hnot
      rw [(level.pending d hd).mpr hnot] at h
      cases h
    obtain ⟨output, hends, hran⟩ := level.ran d hbelow
    obtain ⟨output', hzero, hran', -⟩ := settled.succeeded d h
    obtain ⟨⟨elapsed, hmem⟩, -⟩ := hran.finished
    refine ⟨hbelow, ?_⟩
    rw [← hends, hran'.finished.2 output elapsed hmem, endOf, hzero]
  · rintro ⟨hbelow, hends⟩
    obtain ⟨output, hends', hran⟩ := level.ran d hbelow
    have hne : run.execution.statuses[d]? ≠ some .pending := fun h =>
      (level.pending d hd).mp h hbelow
    have hlt : d < run.execution.statuses.length := settled.length ▸ hd
    rw [List.getElem?_eq_getElem hlt] at hne ⊢
    cases hstatus : run.execution.statuses[d] with
    | pending => exact absurd (congrArg some hstatus) hne
    | running =>
      have hrunning := (List.getElem?_eq_getElem hlt).trans (congrArg some hstatus)
      exact absurd hrunning (settled.still d)
    | succeeded => rfl
    | failed =>
      obtain ⟨output', hnonzero, hran'⟩ :=
        settled.failed d ((List.getElem?_eq_getElem hlt).trans (congrArg some hstatus))
      obtain ⟨⟨elapsed, hmem⟩, -⟩ := hran'.finished
      rw [hran.finished.2 output' elapsed hmem] at hnonzero
      rw [hends, endOf, End.exited.injEq] at hends'
      exact absurd hends' hnonzero

theorem Level.mem_ready (level : Level workflow ends k run) {i : Nat} :
    i ∈ run.execution.ready ↔
      i < workflow.tasks.length ∧ CanStart workflow ends i ∧ depthOf workflow i = k := by
  have settled := level.settled
  constructor
  · intro hi
    have hlt : i < workflow.tasks.length := settled.length ▸ WorkflowExecution.lt_of_mem_ready hi
    obtain ⟨hpending, hdeps⟩ := settled.ready_dependencies hi
    have hbelow := fun d hd => (level.succeeded_iff (dependency_lt hd)).mp (hdeps d hd)
    have hstart : CanStart workflow ends i := canStart_iff.mpr fun d hd =>
      ⟨(hbelow d hd).1.2.1, (hbelow d hd).2⟩
    have hge : ¬depthOf workflow i < k := fun h =>
      (level.pending i hlt).mp hpending ⟨hlt, hstart, h⟩
    have hle : depthOf workflow i ≤ k := by
      cases hdepth : depthOf workflow i with
      | zero => exact Nat.zero_le k
      | succ m =>
        obtain ⟨d, hd, hdm⟩ := exists_dep_of_depth (acyclic workflow) hdepth
        have hdk : depthOf workflow d < k := (hbelow d hd).1.2.2
        rw [depthOf, hdm] at hdk
        exact hdk
    exact ⟨hlt, hstart, by omega⟩
  · rintro ⟨hlt, hstart, hdepth⟩
    rw [WorkflowExecution.mem_ready, WorkflowExecution.isReady_iff, settled.same]
    refine ⟨_, List.getElem?_eq_getElem hlt, (level.pending i hlt).mpr fun h => ?_, fun d hd => ?_⟩
    · have := h.2.2
      omega
    · have hd' : d ∈ workflow.dependencies i := by
        rwa [Workflow.dependencies, dependenciesAt, List.getElem?_eq_getElem hlt]
      refine (level.succeeded_iff (dependency_lt hd')).mpr ?_
      obtain ⟨hds, hends⟩ := canStart_iff.mp hstart d hd'
      have : depthOf workflow d < depthOf workflow i := depth_lt (acyclic workflow) hd'
      exact ⟨⟨dependency_lt hd', hds, by omega⟩, hends⟩

theorem Level.stalled (level : Level workflow ends k run) (h : run.execution.ready = []) {i : Nat}
    (hi : i < workflow.tasks.length) (hstart : CanStart workflow ends i) :
    depthOf workflow i < k := by
  by_contra hge
  have hnone : ∀ j, j ∉ run.execution.ready := by simp [h]
  rcases Nat.eq_or_lt_of_le (Nat.le_of_not_lt hge) with heq | hlt
  · exact hnone i (level.mem_ready.mpr ⟨hi, hstart, heq.symm⟩)
  · obtain ⟨d, hd, hdk⟩ := exists_needs_of_depth (acyclic workflow) hlt
    exact hnone d (level.mem_ready.mpr ⟨needs_lt hd, hstart.needs hd, hdk⟩)

theorem depthOf_lt_length {i : Nat} (hi : i < workflow.tasks.length) :
    depthOf workflow i < workflow.tasks.length := by
  have hsub : List.range (depthOf workflow i + 1) ⊆
      (List.range workflow.tasks.length).map (depthOf workflow) := by
    intro k hk
    rw [List.mem_range] at hk
    rw [List.mem_map]
    rcases Nat.eq_or_lt_of_le (Nat.le_of_lt_succ hk) with rfl | hlt
    · exact ⟨i, List.mem_range.mpr hi, rfl⟩
    · obtain ⟨d, hd, hdk⟩ := exists_needs_of_depth (acyclic workflow) hlt
      exact ⟨d, List.mem_range.mpr (needs_lt hd), hdk⟩
  have := (List.nodup_range.subperm hsub).length_le
  simp only [List.length_range, List.length_map] at this
  omega

/-! ## The exit status of one turn -/

variable {l : List Nat} {result : Nat → Outcome}

theorem exitAfter_eq {status : Int} {outcome : Outcome} (healthy : ∃ output, outcome = .ok output) :
    exitAfter status outcome =
      if (endOf outcome).code ≠ 0 ∧ status = 0 then (endOf outcome).code else status := by
  obtain ⟨output, rfl⟩ := healthy
  rw [exitAfter, taskStatus_eq_code]

theorem foldl_exitAfter_of_ne {status : Int} (hstatus : status ≠ 0)
    (healthy : ∀ i ∈ l, ∃ output, result i = .ok output) :
    l.foldl (fun status i => exitAfter status (result i)) status = status := by
  induction l with
  | nil => rfl
  | cons i rest ih =>
    rw [List.foldl_cons, exitAfter_eq (healthy i (by simp)), if_neg fun h => hstatus h.2]
    exact ih fun j hj => healthy j (by simp [hj])

theorem foldl_exitAfter_zero (sorted : l.Pairwise (· < ·))
    (healthy : ∀ i ∈ l, ∃ output, result i = .ok output)
    (hends : ∀ i ∈ l, endOf (result i) = ends i) :
    (l.foldl (fun status i => exitAfter status (result i)) 0 = 0 ∧ ∀ i ∈ l, (ends i).code = 0) ∨
      ∃ i ∈ l, (ends i).code ≠ 0 ∧
        l.foldl (fun status i => exitAfter status (result i)) 0 = (ends i).code ∧
        ∀ j ∈ l, (ends j).code ≠ 0 → i ≤ j := by
  induction l with
  | nil => exact .inl ⟨rfl, by simp⟩
  | cons i rest ih =>
    rw [List.pairwise_cons] at sorted
    have hrest := fun j (hj : j ∈ rest) => healthy j (by simp [hj])
    rw [List.foldl_cons, exitAfter_eq (healthy i (by simp)), hends i (by simp)]
    by_cases hcode : (ends i).code = 0
    · rw [if_neg fun h => h.1 hcode]
      rcases ih sorted.2 hrest fun j hj => hends j (by simp [hj]) with
        ⟨hzero, hall⟩ | ⟨j, hj, hjc, hstatus, hfirst⟩
      · exact .inl ⟨hzero, by simpa [hcode] using hall⟩
      · refine .inr ⟨j, by simp [hj], hjc, hstatus, fun e he hec => ?_⟩
        rcases List.mem_cons.mp he with rfl | he
        · exact absurd hcode hec
        · exact hfirst e he hec
    · rw [if_pos ⟨hcode, rfl⟩, foldl_exitAfter_of_ne hcode hrest]
      refine .inr ⟨i, by simp, hcode, rfl, fun j hj _ => ?_⟩
      rcases List.mem_cons.mp hj with rfl | hj
      · exact Nat.le_refl _
      · exact Nat.le_of_lt (sorted.1 j hj)

theorem below_succ_iff {i : Nat} (hl : ∀ i, i ∈ l ↔
    i < workflow.tasks.length ∧ CanStart workflow ends i ∧ depthOf workflow i = k) :
    Below workflow ends (k + 1) i ↔ Below workflow ends k i ∨ i ∈ l := by
  rw [hl]
  simp only [Below]
  constructor
  · rintro ⟨hi, hstart, hdepth⟩
    rcases Nat.eq_or_lt_of_le (Nat.le_of_lt_succ hdepth) with h | h
    · exact .inr ⟨hi, hstart, h⟩
    · exact .inl ⟨hi, hstart, h⟩
  · rintro (⟨hi, hstart, hdepth⟩ | ⟨hi, hstart, hdepth⟩)
    · exact ⟨hi, hstart, by omega⟩
    · exact ⟨hi, hstart, by omega⟩

theorem FirstFailure.wave {status : Int} (sorted : l.Pairwise (· < ·))
    (hl : ∀ i, i ∈ l ↔
      i < workflow.tasks.length ∧ CanStart workflow ends i ∧ depthOf workflow i = k)
    (healthy : ∀ i ∈ l, ∃ output, result i = .ok output)
    (hends : ∀ i ∈ l, endOf (result i) = ends i)
    (h : FirstFailure workflow ends (Below workflow ends k) status) :
    FirstFailure workflow ends (Below workflow ends (k + 1))
      (l.foldl (fun status i => exitAfter status (result i)) status) := by
  rcases h with ⟨rfl, hall⟩ | ⟨i, hi, hcode, rfl, hfirst⟩
  · rcases foldl_exitAfter_zero sorted healthy hends with
      ⟨hzero, hl'⟩ | ⟨i, hi, hcode, hstatus, hfirst⟩
    · refine .inl ⟨hzero, fun i hi => ?_⟩
      rcases (below_succ_iff hl).mp hi with hi | hi
      · exact hall i hi
      · exact hl' i hi
    · refine .inr ⟨i, (below_succ_iff hl).mpr (.inr hi), hcode, hstatus, fun j hj hjc => ?_⟩
      rcases (below_succ_iff hl).mp hj with hj | hj
      · exact absurd (hall j hj) hjc
      · exact .inr ⟨((hl i).mp hi).2.2.trans ((hl j).mp hj).2.2.symm, hfirst j hj hjc⟩
  · rw [foldl_exitAfter_of_ne hcode healthy]
    refine .inr ⟨i, (below_succ_iff hl).mpr (.inl hi), hcode, rfl, fun j hj hjc => ?_⟩
    rcases (below_succ_iff hl).mp hj with hj | hj
    · exact hfirst j hj hjc
    · have := hi.2.2
      have := ((hl j).mp hj).2.2
      omega

/-! ## From level to level -/

theorem Ran.of_eventsOf_eq {task : Nat} {outcome : Outcome} {events events' : List RunEvent}
    (h : Ran task outcome events) (heq : eventsOf task events' = eventsOf task events) :
    Ran task outcome events' := by
  obtain ⟨lines, elapsed, hlines, hevents⟩ := h
  exact ⟨lines, elapsed, hlines, heq.trans hevents⟩

theorem Collected.endOf_eq {world : World} {events : List RunEvent} {jobs : List Job}
    (hworld : world.Ends ends) (h : Collected l (world.deliver events jobs) result) :
    ∀ i ∈ l, endOf (result i) = ends i := by
  intro i hi
  obtain ⟨lines, elapsed, -, hfilter⟩ := h.whole i hi
  refine hworld events jobs i (result i) elapsed ?_
  have : .done (some i) (result i) elapsed ∈
      (world.deliver events jobs).filter (·.task = some i) := by
    rw [hfilter]
    simp
  exact List.mem_of_mem_filter this

theorem level_initial : Level workflow ends 0 (Run.initial workflow) := by
  refine ⟨settled_initial workflow, fun i hi => ?_, fun i hi => ?_, .inl ⟨rfl, fun i hi => ?_⟩⟩
  · simp [Run.initial, Workflow.execution, hi, Below]
  · exact absurd hi.2.2 (Nat.not_lt_zero _)
  · exact absurd hi.2.2 (Nat.not_lt_zero _)

theorem Level.wave (level : Level workflow ends k run) {messages : List Message}
    (collected : Collected run.execution.ready messages result)
    (healthy : ∀ i ∈ run.execution.ready, ∃ output, result i = .ok output)
    (hends : ∀ i ∈ run.execution.ready, endOf (result i) = ends i) :
    Level workflow ends (k + 1) (run.wave workflow run.execution.ready messages result) := by
  have nodup : run.execution.ready.Nodup := WorkflowExecution.ready_nodup
  have settled := level.settled
  have hready := fun i => level.mem_ready (i := i)
  refine ⟨settled.wave collected healthy, fun i hi => ?_, fun i hi => ?_, ?_⟩
  · rw [wave_status (fun _ => WorkflowExecution.lt_of_mem_ready), below_succ_iff hready]
    split
    · rename_i hmem
      simp only [Option.some.injEq, hmem, or_true, not_true, iff_false, statusAfter]
      split <;> simp
    · rename_i hmem
      rw [level.pending i hi, or_iff_left hmem]
  · by_cases hmem : i ∈ run.execution.ready
    · obtain ⟨output, houtput⟩ := healthy i hmem
      refine ⟨output, houtput ▸ hends i hmem, ?_⟩
      rw [← houtput]
      exact wave_ran nodup collected hmem (settled.fresh i (settled.ready_dependencies hmem).1)
    · obtain ⟨output, houtput, hran⟩ :=
        level.ran i (((below_succ_iff hready).mp hi).resolve_right hmem)
      exact ⟨output, houtput, hran.of_eventsOf_eq (wave_eventsOf_of_notMem nodup collected hmem)⟩
  · rw [wave_exitStatus]
    exact level.status.wave WorkflowExecution.ready_sorted hready healthy hends

/-! ## The whole run -/

/-- How a run that the callback does not stop ends. -/
inductive Ended (workflow : Workflow) (ends : Nat → End) : Except IoError (Option Int) → Run → Prop
  | closed {status : Int} {run : Run}
    (known : ∀ event ∈ run.events, ∃ i < workflow.tasks.length, event.task = some i)
    (ran : ∀ i < workflow.tasks.length, CanStart workflow ends i →
      ∃ output, endOf (.ok output) = ends i ∧ Ran i (.ok output) run.events)
    (blocked : ∀ i < workflow.tasks.length, ¬CanStart workflow ends i →
      eventsOf i run.events = [.blocked i])
    (ordered : Ordered workflow run.events)
    (first : FirstFailure workflow ends
      (fun i => i < workflow.tasks.length ∧ CanStart workflow ends i) status) :
    Ended workflow ends (.ok (some status)) run
  | broken {k : Nat} {error : IoError} {run : Run}
    (known : ∀ event ∈ run.events, ∃ i < workflow.tasks.length, event.task = some i)
    (ran : ∀ i, Below workflow ends (k + 1) i →
      ∃ outcome, endOf outcome = ends i ∧ Ran i outcome run.events)
    (absent : ∀ i < workflow.tasks.length, ¬Below workflow ends (k + 1) i →
      eventsOf i run.events = [])
    (healthy : ∀ i, Below workflow ends k i → ends i ≠ .error)
    (unhealthy : ∃ i, Below workflow ends (k + 1) i ∧ ends i = .error) :
    Ended workflow ends (.error error) run

theorem Level.first (level : Level workflow ends k run)
    (all : ∀ i < workflow.tasks.length, CanStart workflow ends i → depthOf workflow i < k) :
    FirstFailure workflow ends
      (fun i => i < workflow.tasks.length ∧ CanStart workflow ends i) run.exitStatus := by
  have heq : Below workflow ends k =
      fun i => i < workflow.tasks.length ∧ CanStart workflow ends i := by
    funext i
    exact propext ⟨fun h => ⟨h.1, h.2.1⟩, fun h => ⟨h.1, h.2, all i h.1 h.2⟩⟩
  exact heq ▸ level.status

theorem Level.ended (level : Level workflow ends k run) (h : run.execution.hasPending = false) :
    Ended workflow ends (.ok (some run.exitStatus)) run := by
  have hnone : ∀ i < workflow.tasks.length, Below workflow ends k i := by
    intro i hi
    by_contra hnot
    have : run.execution.hasPending = true :=
      WorkflowExecution.hasPending_iff.mpr ⟨i, (level.pending i hi).mpr hnot⟩
    rw [h] at this
    cases this
  refine .closed level.settled.known (fun i hi _ => level.ran i (hnone i hi)) (fun i hi hnot => ?_)
    level.settled.ordered (level.first fun i hi _ => (hnone i hi).2.2)
  exact absurd (hnone i hi).2.1 hnot

theorem Level.stalled_ended (level : Level workflow ends k run) (h : run.execution.ready = []) :
    Ended workflow ends (.ok (some run.exitStatus))
      (run.report (run.execution.pending.map .blocked)) := by
  have settled := level.settled
  have hall := fun i (hi : i < workflow.tasks.length) hs => level.stalled h hi hs
  have hpending : ∀ i < workflow.tasks.length,
      (i ∈ run.execution.pending ↔ ¬CanStart workflow ends i) := by
    intro i hi
    rw [WorkflowExecution.mem_pending, level.pending i hi, not_iff_not]
    exact ⟨fun h => h.2.1, fun h => ⟨hi, h, hall i hi h⟩⟩
  have hevents : ∀ i, eventsOf i (run.report (run.execution.pending.map .blocked)).events =
      eventsOf i run.events ++ if i ∈ run.execution.pending then [.blocked i] else [] := by
    intro i
    rw [Run.report, eventsOf_append,
      eventsOf_map .blocked (fun _ => rfl) WorkflowExecution.pending_nodup]
  refine .closed ?_ (fun i hi hs => ?_) (fun i hi hs => ?_) ?_ (level.first hall)
  · intro event hevent
    rw [Run.report, List.mem_append, List.mem_map] at hevent
    rcases hevent with hevent | ⟨i, hi, rfl⟩
    · exact settled.known event hevent
    · rw [WorkflowExecution.mem_pending] at hi
      exact ⟨i, settled.length ▸ (List.getElem?_eq_some_iff.mp hi).1, rfl⟩
  · obtain ⟨output, houtput, hran⟩ := level.ran i ⟨hi, hs, hall i hi hs⟩
    refine ⟨output, houtput, hran.of_eventsOf_eq ?_⟩
    rw [hevents, if_neg fun hmem => (hpending i hi).mp hmem hs, List.append_nil]
  · have hmem := (hpending i hi).mpr hs
    rw [hevents, if_pos hmem, settled.fresh i (WorkflowExecution.mem_pending.mp hmem),
      List.nil_append]
  · refine settled.ordered.append fun task htask => ?_
    rw [List.mem_map] at htask
    obtain ⟨i, -, hi⟩ := htask
    cases hi

theorem Level.failed_ended (level : Level workflow ends k run) {messages : List Message}
    (collected : Collected run.execution.ready messages result)
    (hends : ∀ i ∈ run.execution.ready, endOf (result i) = ends i)
    (unhealthy : ∃ i ∈ run.execution.ready, ∃ error, result i = .error error) (error : IoError) :
    Ended workflow ends (.error error) (run.wave workflow run.execution.ready messages result) := by
  have nodup : run.execution.ready.Nodup := WorkflowExecution.ready_nodup
  have settled := level.settled
  have hready := fun i => level.mem_ready (i := i)
  refine .broken (k := k) ?_ (fun i hi => ?_) (fun i hi hnot => ?_) (fun i hi => ?_) ?_
  · exact wave_known collected settled.known fun i hi =>
      settled.length ▸ WorkflowExecution.lt_of_mem_ready hi
  · by_cases hmem : i ∈ run.execution.ready
    · exact ⟨result i, hends i hmem,
        wave_ran nodup collected hmem (settled.fresh i (settled.ready_dependencies hmem).1)⟩
    · obtain ⟨output, houtput, hran⟩ :=
        level.ran i (((below_succ_iff hready).mp hi).resolve_right hmem)
      exact ⟨.ok output, houtput,
        hran.of_eventsOf_eq (wave_eventsOf_of_notMem nodup collected hmem)⟩
  · rw [below_succ_iff hready, not_or] at hnot
    rw [wave_eventsOf_of_notMem nodup collected hnot.2]
    exact settled.fresh i ((level.pending i hi).mpr hnot.1)
  · obtain ⟨output, houtput, -⟩ := level.ran i hi
    rw [← houtput, endOf]
    exact fun h => by cases h
  · obtain ⟨i, hi, error, herror⟩ := unhealthy
    refine ⟨i, (below_succ_iff hready).mpr (.inr hi), ?_⟩
    rw [← hends i hi, herror, endOf]

theorem runLoop_leads {world : World} (delivers : world.Delivers) (hworld : world.Ends ends)
    {fuel : Nat} (level : Level workflow ends k run) (hk : k ≤ workflow.tasks.length)
    (enough : workflow.tasks.length < k + fuel) :
    Leads (Stopped world) (runLoop world workflow fuel) run (Ended workflow ends) := by
  induction fuel generalizing k run with
  | zero => omega
  | succ fuel ih =>
    refine Leads.of_run_eq run_get_bind ?_
    cases hpending : run.execution.hasPending with
    | false => exact .inl (level.ended hpending)
    | true =>
      rw [if_pos rfl]
      refine (level.settled.turn_leads delivers).bind ?_ ?_
      · intro error run' turned
        cases turned with
        | failed collected unhealthy =>
          exact level.failed_ended collected (collected.endOf_eq hworld) unhealthy error
      · intro status run' turned
        cases turned with
        | stalled stuck => exact .inl (level.stalled_ended stuck)
        | wave busy collected healthy =>
          obtain ⟨i, hi⟩ := List.exists_mem_of_ne_nil _ busy
          have hdepth := (level.mem_ready.mp hi).2.2
          have hlt := depthOf_lt_length (level.mem_ready.mp hi).1
          exact ih (level.wave collected healthy (collected.endOf_eq hworld)) (by omega) (by omega)

theorem runWorkflow_ended {world : World} (delivers : world.Delivers) (hworld : world.Ends ends)
    {fuel : Nat} (enough : workflow.tasks.length < fuel)
    (quiet : ∀ error, ¬Stopped world error (runWorkflow world workflow fuel).2) :
    Ended workflow ends (runWorkflow world workflow fuel).1 (runWorkflow world workflow fuel).2 :=
  (runLoop_leads delivers hworld level_initial (Nat.zero_le _) (by omega)).of_not_stop quiet

end Level

end Beez.Runner
