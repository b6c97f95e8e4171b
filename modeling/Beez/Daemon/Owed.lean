import Beez.Daemon.Due
import Beez.Daemon.Late
import Beez.Daemon.Waiting

/-! # Runs that are still to come

A job owes the run of a fire from the plan on, until the run starts. Each operation keeps that.
-/

open Beez.Lib

namespace Beez.Daemon

/-! ## The runs of one job -/

def Happening.startOf (id : Text) : Happening → Option Int
  | .started _ run _ => if run.id = id then some run.fire else none
  | _ => none

/-- The fires whose runs the daemon started for the job, the first one first. -/
def startsOf (id : Text) (trace : List Happening) : List Int :=
  trace.filterMap (Happening.startOf id)

section

variable {id : Text}

theorem startsOf_append (before after : List Happening) :
    startsOf id (before ++ after) = startsOf id before ++ startsOf id after :=
  List.filterMap_append

theorem startsOf_planLines (planned : List (Job × Option Plan)) :
    startsOf id (planLines planned) = [] := by
  apply List.filterMap_eq_nil_iff.mpr
  intro happening h
  obtain ⟨job, found, rfl⟩ := mem_planLines h
  rfl

theorem startsOf_planned (before : List Happening) (planned : List (Job × Option Plan)) :
    startsOf id (before ++ planLines planned) = startsOf id before := by
  rw [startsOf_append, startsOf_planLines, List.append_nil]

end

/-! ## The way to the run -/

/-- How a job owes the run of a fire that was planned at `next`: the fire is still planned, or it
waits, and later ones only are planned. -/
def Job.Owes (next : Int) (job : Job) : Bool → Prop
  | false => job.nextFire = some next
  | true => ∃ last, job.state.lastFire = some last ∧ next ≤ last ∧
      ∀ later, job.nextFire = some later → last < later

/-- The job is ready, no run of it has started, and it owes one. -/
structure Comes (id : Text) (next : Int) (waits : Bool) (daemon : Daemon) : Prop where
  none : startsOf id daemon.trace = []
  going : daemon.stopping = false
  job : ∃ job ∈ daemon.jobs, job.id = id ∧ job.isReady = true ∧ job.running = false ∧
    job.queued = waits ∧ job.Owes next waits

/-! ## What an operation leaves of the job -/

section

variable {id : Text} {next first : Int} {waits : Bool} {daemon after : Daemon} {host : Host}
  {index limit : Nat} {job new : Job}

/-- A job goes on as another: what starts its fire stays, and what is planned anew is later than
its last fire. -/
structure Job.GoesOn (old new : Job) : Prop where
  id : new.id = old.id
  ready : old.isReady = true → new.isReady = true
  idle : old.running = false → new.running = false
  queued : new.queued = old.queued
  lastFire : new.state.lastFire = old.state.lastFire
  next : new.nextFire = old.nextFire ∨ old.queued = true ∧ ∀ last later,
    new.state.lastFire = some last → new.nextFire = some later → last < later

theorem Job.GoesOn.refl (job : Job) : job.GoesOn job :=
  ⟨rfl, fun h => h, fun h => h, rfl, rfl, .inl rfl⟩

theorem Job.Owes.goesOn {old : Job} (owes : old.Owes next waits) (queued : old.queued = waits)
    (goes : old.GoesOn new) : new.Owes next waits := by
  cases waits with
  | false =>
    rcases goes.next with same | ⟨waits, -⟩
    · exact same.trans owes
    · simp [queued] at waits
  | true =>
    obtain ⟨last, hlast, due, later⟩ := owes
    refine ⟨last, goes.lastFire.trans hlast, due, fun planned hplanned => ?_⟩
    rcases goes.next with same | ⟨-, ahead⟩
    · exact later planned (same ▸ hplanned)
    · exact ahead last planned (goes.lastFire.trans hlast) hplanned

theorem Comes.goesOn (comes : Comes id next waits daemon)
    (starts : startsOf id after.trace = startsOf id daemon.trace)
    (going : after.stopping = daemon.stopping)
    (jobs : ∀ old ∈ daemon.jobs, old.id = id → ∃ new ∈ after.jobs, old.GoesOn new) :
    Comes id next waits after := by
  obtain ⟨none, stopping, old, mem, hid, ready, idle, queued, owes⟩ := comes
  obtain ⟨new, hnew, goes⟩ := jobs old mem hid
  exact ⟨starts.trans none, going.trans stopping, new, hnew, goes.id.trans hid, goes.ready ready,
    goes.idle idle, goes.queued.trans queued, owes.goesOn queued goes⟩

theorem goesOn_set (found : daemon.jobs[index]? = some job) (goes : job.GoesOn new) :
    ∀ old ∈ daemon.jobs, ∃ kept ∈ daemon.jobs.set index new, old.GoesOn kept := by
  intro old mem
  obtain ⟨place, hplace⟩ := List.mem_iff_getElem?.mp mem
  by_cases same : index = place
  · subst same
    obtain rfl := Option.some.inj (found.symm.trans hplace)
    exact ⟨new, List.mem_of_getElem? (getElem?_set_of_found found new), goes⟩
  · have here : (daemon.jobs.set index new)[place]? = some old := by
      rwa [List.getElem?_set_ne same]
    exact ⟨old, List.mem_of_getElem? here, .refl old⟩

theorem goesOn_set_other (found : daemon.jobs[index]? = some job) (other : job.id ≠ id) (new : Job) :
    ∀ old ∈ daemon.jobs, old.id = id → ∃ kept ∈ daemon.jobs.set index new, old.GoesOn kept := by
  intro old mem hid
  obtain ⟨place, hplace⟩ := List.mem_iff_getElem?.mp mem
  have apart : index ≠ place := by
    rintro rfl
    exact other (Option.some.inj (found.symm.trans hplace) ▸ hid)
  have here : (daemon.jobs.set index new)[place]? = some old := by
    rwa [List.getElem?_set_ne apart]
  exact ⟨old, List.mem_of_getElem? here, .refl old⟩

/-- What holds of the daemon from the start of the run on. -/
structure Done (id : Text) (first : Int) (daemon : Daemon) : Prop where
  starts : ∃ others, startsOf id daemon.trace = first :: others ∧ ∀ other ∈ others, first < other
  next : ∀ job ∈ daemon.jobs, job.id = id → ∀ fire, job.nextFire = some fire → first < fire
  waiting : ∀ job ∈ daemon.jobs, job.id = id → job.queued = true →
    ∀ last, job.state.lastFire = some last → first < last

theorem Done.set (done : Done id first daemon) (found : daemon.jobs[index]? = some job)
    (distinct : (ids daemon.jobs).Nodup) {started : List Int}
    (starts : startsOf id after.trace = startsOf id daemon.trace ++ started)
    (later : ∀ fire ∈ started, first < fire) (jobs : after.jobs = daemon.jobs.set index new)
    (next : job.id = id → ∀ fire, new.nextFire = some fire → first < fire)
    (same : new.id = job.id) (waiting : job.id = id → new.queued = true →
      ∀ last, new.state.lastFire = some last → first < last) : Done id first after := by
  obtain ⟨others, before, ahead⟩ := done.starts
  refine ⟨⟨others ++ started, by rw [starts, before, List.cons_append], ?_⟩, ?_, ?_⟩
  · intro other h
    rcases List.mem_append.mp h with h | h
    · exact ahead other h
    · exact later other h
  · intro other hmem hid
    rw [jobs] at hmem
    rcases mem_set_of_found distinct found hmem with rfl | ⟨hmem, -⟩
    · exact next (same ▸ hid)
    · exact done.next other hmem hid
  · intro other hmem hid
    rw [jobs] at hmem
    rcases mem_set_of_found distinct found hmem with rfl | ⟨hmem, -⟩
    · exact waiting (same ▸ hid)
    · exact done.waiting other hmem hid

theorem id_apart {place : Nat} {other : Job} (distinct : (ids daemon.jobs).Nodup)
    (found : daemon.jobs[index]? = some job) (here : daemon.jobs[place]? = some other)
    (apart : place ≠ index) : other.id ≠ job.id := by
  intro same
  have hindex : (ids daemon.jobs)[index]? = some job.id := by simp [ids, found]
  have hplace : (ids daemon.jobs)[place]? = some job.id := by simp [ids, here, same]
  have lt : index < (ids daemon.jobs).length := (List.getElem?_eq_some_iff.mp hindex).1
  exact apart ((List.getElem?_inj lt distinct).mp (hindex.trans hplace.symm)).symm

/-! ## The end of a run -/

theorem startsOf_start (found : daemon.jobs[index]? = some job) (fire : Int) :
    startsOf id (daemon.start index fire).trace =
      startsOf id daemon.trace ++ if job.id = id then [fire] else [] := by
  rw [start_of_found found, startsOf_append]
  congr 1
  by_cases own : job.id = id
  · simp [startsOf, Happening.startOf, runOf, own]
  · simp [startsOf, Happening.startOf, runOf, own]

theorem Done.start (done : Done id first daemon) (distinct : (ids daemon.jobs).Nodup)
    (found : daemon.jobs[index]? = some job) {fire : Int} (later : job.id = id → first < fire) :
    Done id first (daemon.start index fire) := by
  have starts := @startsOf_start id daemon index job found fire
  rw [start_of_found found] at starts ⊢
  refine done.set found distinct starts ?_ rfl (done.next job (List.mem_of_getElem? found)) rfl ?_
  · intro started h
    split at h
    · rw [List.mem_singleton.mp h]
      exact later ‹_›
    · cases h
  · intro _ never
    cases never

theorem Done.settle (done : Done id first daemon) (distinct : (ids daemon.jobs).Nodup)
    (thread : Nat) (named : Text) (outcome : RunOutcome) :
    Done id first (daemon.settle host thread named outcome) := by
  cases here : daemon.position named with
  | none =>
    rw [settle_of_none here]
    exact ⟨done.starts, done.next, done.waiting⟩
  | some place =>
    obtain ⟨job, found, -⟩ := found_of_position here
    have mem := List.mem_of_getElem? found
    rw [settle_of_found here found]
    refine done.set found distinct (List.append_nil _).symm (by simp) rfl ?_ rfl ?_
    · exact done.next job mem
    · exact done.waiting job mem

theorem Comes.start_other (comes : Comes id next waits daemon)
    (found : daemon.jobs[index]? = some job) (other : job.id ≠ id) (fire : Int) :
    Comes id next waits (daemon.start index fire) := by
  have starts : startsOf id (daemon.start index fire).trace = startsOf id daemon.trace := by
    simp [startsOf_start found, other]
  rw [start_of_found found] at starts ⊢
  exact comes.goesOn starts rfl (goesOn_set_other found other _)

/-- What the job is after its run started leaves it out of the places that are taken next. -/
theorem Done.startWaiting {room : Nat} {now : Int} (done : Done id first daemon)
    (distinct : (ids daemon.jobs).Nodup)
    (out : ∀ job ∈ daemon.jobs, job.id = id → job.queued = false) :
    Done id first (daemon.startWaiting now room) := by
  induction room generalizing daemon with
  | zero => exact done
  | succ room ih =>
    rw [Daemon.startWaiting]
    split
    · exact done
    · rename_i index here
      obtain ⟨job, found, may⟩ := found_of_findIdx? here
      have other : job.id ≠ id := by
        intro own
        simp [mayStart, out job (List.mem_of_getElem? found) own] at may
      simp only [found, Option.bind_some]
      have starts := @startsOf_start id daemon index job found (job.state.lastFire.getD now)
      have same := @start_ids daemon index job found (job.state.lastFire.getD now)
      rw [start_of_found found] at starts same ⊢
      refine ih ?_ (by rw [same]; exact distinct) ?_
      · refine done.set found distinct starts ?_ rfl (absurd · other) rfl (absurd · other)
        simp [other]
      · intro held hheld hid
        rcases mem_set_of_found distinct found hheld with rfl | ⟨hmem, -⟩
        · exact absurd hid other
        · exact out held hmem hid

theorem Comes.startWaiting {room : Nat} {now : Int} (comes : Comes id next waits daemon)
    (distinct : (ids daemon.jobs).Nodup) : Comes id next waits (daemon.startWaiting now room) ∨
      ∃ first, next ≤ first ∧ Done id first (daemon.startWaiting now room) := by
  induction room generalizing daemon with
  | zero => exact .inl comes
  | succ room ih =>
    rw [Daemon.startWaiting]
    split
    · exact .inl comes
    · rename_i index here
      obtain ⟨job, found, may⟩ := found_of_findIdx? here
      simp only [found, Option.bind_some]
      by_cases own : job.id = id
      · right
        obtain ⟨none, going, held, mem, hid, ready, idle, queued, owes⟩ := comes
        obtain rfl := eq_of_key_eq distinct mem (List.mem_of_getElem? found) (hid.trans own.symm)
        have waiting : waits = true := by
          rw [mayStart, Bool.and_eq_true, Bool.and_eq_true] at may
          exact queued.symm.trans may.1.1
        subst waiting
        obtain ⟨last, hlast, late, later⟩ := owes
        rw [hlast, Option.getD_some]
        have starts := @startsOf_start id daemon index held found last
        have same := @start_ids daemon index held found last
        rw [none, List.nil_append, if_pos own] at starts
        rw [start_of_found found] at starts same ⊢
        refine ⟨last, late, Done.startWaiting ⟨⟨[], starts, by simp⟩, ?_, ?_⟩
          (by rw [same]; exact distinct) ?_⟩
        · intro other hother same fire hfire
          rcases mem_set_of_found distinct found hother with rfl | ⟨-, hne⟩
          · exact later fire hfire
          · exact absurd (same.trans own.symm) hne
        · intro other hother same waits
          rcases mem_set_of_found distinct found hother with rfl | ⟨-, hne⟩
          · cases waits
          · exact absurd (same.trans own.symm) hne
        · intro other hother same
          rcases mem_set_of_found distinct found hother with rfl | ⟨-, hne⟩
          · rfl
          · exact absurd (same.trans own.symm) hne
      · have same := @start_ids daemon index job found (job.state.lastFire.getD now)
        exact ih (comes.start_other found own _) (by rw [same]; exact distinct)

theorem Comes.finished {thread : RunThread} (comes : Comes id next waits daemon)
    (distinct : (ids daemon.jobs).Nodup) (counted : Counted limit daemon)
    (found : daemon.threads[index]? = some thread) (host : Host) (outcome : RunOutcome) :
    Comes id next waits (daemon.finished host index thread.run.id outcome) ∧
        (waits = true → (daemon.finished host index thread.run.id outcome).limit ≤
          (daemon.finished host index thread.run.id outcome).threads.length) ∨
      ∃ first, next ≤ first ∧ Done id first (daemon.finished host index thread.run.id outcome) := by
  have settled : Comes id next waits (daemon.settle host index thread.run.id outcome) := by
    cases here : daemon.position thread.run.id with
    | none =>
      rw [settle_of_none here]
      exact ⟨comes.none, comes.going, comes.job⟩
    | some place =>
      obtain ⟨job, held, -⟩ := found_of_position here
      rw [settle_of_found here held]
      refine comes.goesOn rfl rfl fun old mem _ => goesOn_set held ?_ old mem
      exact ⟨rfl, fun ready => ready, fun _ => rfl, rfl, rfl, .inl rfl⟩
  have told : (ids (daemon.settle host index thread.run.id outcome).jobs).Nodup := by
    rwa [settle_ids]
  have counts : Counted limit (daemon.settle host index thread.run.id outcome) := by
    obtain ⟨hrunning, hlimit, -, hlength⟩ := settle_counts host thread.run.id found outcome
    obtain ⟨hexact, hwithin, hsame⟩ := counted
    constructor <;> omega
  unfold Daemon.finished startQueued
  rw [if_neg (by simp [settled.going])]
  generalize daemon.settle host index thread.run.id outcome = reached at settled told counts ⊢
  rcases settled.startWaiting told with waiting | started
  · refine .inl ⟨waiting, fun queues => ?_⟩
    by_contra room
    have within := counts.within
    have kept := (@startWaiting_rest reached (reached.limit - reached.running) host.now).1
    rw [kept] at room
    obtain ⟨-, -, job, mem, -, ready, idle, queued, -⟩ := waiting
    have never := startWaiting_drains counts (by omega) host.now (by omega) job mem
    simp [mayStart, ready, idle, queued, queues] at never
  · exact .inr started

end

section

variable [CronCrate] {id : Text} {next first : Int} {waits : Bool} {daemon after : Daemon}
  {host : Host} {index limit : Nat} {job new : Job}

/-! ## Fires -/

theorem startsOf_fire (found : daemon.jobs[index]? = some job) :
    startsOf id (fire host daemon index).trace = startsOf id daemon.trace ++
      if job.id = id ∧ daemon.actionFor job = .start then [job.nextFire.getD host.now] else [] := by
  have fired : ∀ action, startsOf id [.fired job (job.nextFire.getD host.now) action] = [] :=
    fun _ => rfl
  rw [fire_of_found found]
  simp only [startsOf_append, startsOf_planLines, fired, List.append_nil]
  congr 1
  cases action : daemon.actionFor job with
  | start =>
    by_cases own : job.id = id
    · simp [startsOf, Action.lines, Happening.startOf, runOf, own]
    · simp [startsOf, Action.lines, Happening.startOf, runOf, own]
  | queue reason => simp [startsOf, Action.lines]
  | skip => simp [startsOf, Action.lines]

theorem Comes.fire_other (comes : Comes id next waits daemon)
    (found : daemon.jobs[index]? = some job) (other : job.id ≠ id) :
    Comes id next waits (fire host daemon index) := by
  have starts : startsOf id (Daemon.fire host daemon index).trace = startsOf id daemon.trace := by
    simp [startsOf_fire found, other]
  rw [fire_of_found found] at starts ⊢
  exact comes.goesOn starts rfl (goesOn_set_other found other _)

theorem Done.fire_other (done : Done id first daemon) (distinct : (ids daemon.jobs).Nodup)
    (found : daemon.jobs[index]? = some job) (other : job.id ≠ id) :
    Done id first (fire host daemon index) := by
  have starts : startsOf id (Daemon.fire host daemon index).trace =
      startsOf id daemon.trace ++ [] := by
    simp [startsOf_fire found, other]
  rw [fire_of_found found] at starts ⊢
  refine done.set found distinct starts (by simp) rfl (absurd · other) ?_ (absurd · other)
  simp

/-- Fires of other jobs keep what they keep one by one. -/
theorem fireAll_others {inv : Daemon → Prop} {due : List Nat}
    (others : ∀ index ∈ due, ∀ job, daemon.jobs[index]? = some job → job.id ≠ id)
    (keep : ∀ (reached : Daemon) index job, reached.jobs[index]? = some job → job.id ≠ id →
      (ids reached.jobs).Nodup → inv reached → inv (fire host reached index))
    (distinct : (ids daemon.jobs).Nodup) (start : inv daemon) :
    inv (runAll (fire host) daemon due) := by
  induction due generalizing daemon with
  | nil => exact start
  | cons index rest ih =>
    cases found : daemon.jobs[index]? with
    | none =>
      have same : fire host daemon index = daemon := by
        unfold fire
        simp only [found]
      rw [runAll_cons, same]
      exact ih (fun other h => others other (List.mem_cons_of_mem _ h)) distinct start
    | some job =>
      have same := @fire_ids daemon host _ index job found
      refine ih (fun other h late hlate hid => ?_) (same ▸ distinct)
        (keep daemon index job found (others index (by simp) job found) distinct start)
      have here : (ids (fire host daemon index).jobs)[other]? = some late.id := by
        simp [ids, hlate]
      rw [same] at here
      obtain ⟨early, hearly, heq⟩ : ∃ early, daemon.jobs[other]? = some early ∧ early.id = late.id := by
        simpa [ids] using here
      exact others other (List.mem_cons_of_mem _ h) early hearly (heq.trans hid)

theorem fireAll_full {due : List Nat} (full : daemon.limit ≤ daemon.running) :
    (runAll (fire host) daemon due).limit ≤ (runAll (fire host) daemon due).running := by
  refine @runAll_invariant _ _ (fire host) (fun _ _ => True)
    (fun reached : Daemon => reached.limit ≤ reached.running) ?_ _ _ full
    (.of_forall (fun _ _ => trivial) _ _)
  intro reached index full _
  cases found : reached.jobs[index]? with
  | none =>
    unfold fire
    simpa only [found] using full
  | some job =>
    rw [fire_of_found found]
    exact full.trans (Nat.le_add_right _ _)

/-- A pass leaves a job alone that is not due. -/
theorem Comes.fireDue_other (comes : Comes id next waits daemon) (distinct : (ids daemon.jobs).Nodup)
    (idle : ∀ job ∈ daemon.jobs, job.id = id → isDue host.now job = false) :
    Comes id next waits (daemon.fireDue host) := by
  unfold fireDue
  split
  · exact comes
  · refine fireAll_others (fun index hindex job found own => ?_)
      (fun _ _ _ found other _ comes => comes.fire_other found other) distinct comes
    rw [mem_due_iff found, idle job (List.mem_of_getElem? found) own] at hindex
    cases hindex

variable [CronCrate.Lawful ‹CronCrate›]

/-! ## Reads -/

/-- A manifest that is read brings no ID of another manifest, and finds the job again as it was:
ready, and with the schedule that planned its fire. -/
def KeepsJob (id : Text) (host : Host) (daemon : Daemon) (watched : Watched) : Prop :=
  ownIds.read host daemon watched ∧
    ∀ job ∈ daemon.jobs, job.id = id → job.manifest = watched.path →
      ∃ fresh ∈ jobsOf host.load watched daemon.states, fresh.id = id ∧ fresh.isReady = true ∧
        (job.queued = false → fresh.schedule = job.schedule)

theorem planFresh_next (h : job.queued = true ∨ job.nextFire.isSome = true) (now : Int) :
    job.GoesOn (planFresh job now).1 := by
  unfold planFresh
  split
  · rename_i unplanned
    have waits : job.queued = true := by
      rcases h with waits | planned
      · exact waits
      · simp [Option.isNone_iff_eq_none.mp unplanned] at planned
    have same : (plan job now false).1 =
        { job with nextFire := (plan job now false).1.nextFire } := plan_eq job now false
    refine ⟨plan_id _ _ _, ?_, ?_, ?_, ?_, .inr ⟨waits, fun last later hlast hlater => ?_⟩⟩
    · rw [same]
      exact fun ready => ready
    · rw [same]
      exact fun idle => idle
    · rw [same]
    · rw [same]
    · rw [same] at hlast
      exact (plan_ahead hlater).2 last hlast
  · exact .refl job

theorem Comes.reload {watched : Watched} (comes : Comes id next waits daemon)
    (distinct : (ids daemon.jobs).Nodup) (held : Held daemon)
    (keeps : KeepsJob id host daemon watched) : Comes id next waits (reload host daemon watched) := by
  have starts : startsOf id (Daemon.reload host daemon watched).trace = startsOf id daemon.trace :=
    startsOf_planned _ _
  obtain ⟨-, keeps⟩ := keeps
  obtain ⟨none, going, old, mem, hid, ready, idle, queued, owes⟩ := comes
  by_cases own : old.manifest = watched.path
  · obtain ⟨fresh, hfresh, same, hready, schedule⟩ := keeps old mem hid own
    have carried : carry daemon.jobs fresh = { fresh with
        running := old.running
        queued := old.queued
        nextFire := if old.schedule = fresh.schedule then old.nextFire else fresh.nextFire } :=
      carry_of_mem distinct mem (hid.trans same.symm)
    have state : fresh.state = old.state := by
      rw [(jobsOf_new hfresh).1, same, ← hid]
      exact held old mem
    have goes : old.GoesOn (carry daemon.jobs fresh) := by
      rw [carried]
      refine ⟨same.trans hid.symm, fun _ => hready, fun h => h, rfl, congrArg _ state, ?_⟩
      by_cases kept : old.schedule = fresh.schedule
      · exact .inl (if_pos kept)
      · have waiting : old.queued = true := by
          by_contra h
          exact kept (schedule (by simpa using h)).symm
        refine .inr ⟨waiting, fun last later _ hlater => ?_⟩
        simp [kept, (jobsOf_new hfresh).2] at hlater
    have hqueued := goes.queued.trans queued
    have carriedOwes := owes.goesOn queued goes
    have planned : (carry daemon.jobs fresh).GoesOn
        (planFresh (carry daemon.jobs fresh) host.now).1 := by
      apply planFresh_next
      cases waits with
      | false =>
        right
        rw [show (carry daemon.jobs fresh).nextFire = some next from carriedOwes]
        rfl
      | true => exact .inl hqueued
    refine ⟨starts.trans none, going, (planFresh (carry daemon.jobs fresh) host.now).1,
      List.mem_append_right _ (List.mem_map_of_mem (List.mem_map_of_mem hfresh)), ?_,
      planned.ready (goes.ready ready), planned.idle (goes.idle idle),
      planned.queued.trans hqueued, carriedOwes.goesOn hqueued planned⟩
    rw [planned.id, goes.id, hid]
  · refine ⟨starts.trans none, going, old, ?_, hid, ready, idle, queued, owes⟩
    exact List.mem_append_left _ (List.mem_filter.mpr ⟨mem, by simpa using own⟩)

/-- Several manifests are read one after the other. -/
theorem Comes.reloads (watched : List Watched) (comes : Comes id next waits daemon)
    (distinct : (ids daemon.jobs).Nodup) (held : Held daemon)
    (keeps : Along (Daemon.reload host) (KeepsJob id host) daemon watched) :
    Comes id next waits (runAll (Daemon.reload host) daemon watched) ∧
      (ids (runAll (Daemon.reload host) daemon watched).jobs).Nodup := by
  have kept := @runAll_invariant _ _ _ _ (fun reached : Daemon =>
      Comes id next waits reached ∧ (ids reached.jobs).Nodup ∧ Held reached)
    (fun reached watched told keeps => ⟨told.1.reload told.2.1 told.2.2 keeps,
      install_distinct told.2.1 keeps.1, told.2.2.install watched host.load⟩) _ _
    ⟨comes, distinct, held⟩ keeps
  exact ⟨kept.1, kept.2.1⟩

/-- The fire of the job starts its run, or waits because every place is taken. -/
theorem Comes.fire_own (comes : Comes id next waits daemon) (distinct : (ids daemon.jobs).Nodup)
    (found : daemon.jobs[index]? = some job) (own : job.id = id) (due : isDue host.now job = true) :
    Comes id next true (fire host daemon index) ∧ daemon.limit ≤ daemon.running ∨
      ∃ first, next ≤ first ∧ Done id first (fire host daemon index) := by
  obtain ⟨none, going, held, mem, hid, ready, idle, queued, owes⟩ := comes
  obtain rfl := eq_of_key_eq distinct mem (List.mem_of_getElem? found) (hid.trans own.symm)
  obtain ⟨time, planned⟩ : ∃ time, held.nextFire = some time := by
    rw [isDue, Bool.and_eq_true, Option.any_eq_true] at due
    obtain ⟨-, time, planned, -⟩ := due
    exact ⟨time, planned⟩
  have late : next ≤ time := by
    cases waits with
    | false => exact (Option.some.inj (planned.symm.trans owes)).ge
    | true =>
      obtain ⟨last, -, hle, later⟩ := owes
      exact hle.trans (later time planned).le
  have starts := @startsOf_fire _ id daemon host index held found
  rw [planned, Option.getD_some, none, List.nil_append] at starts
  rw [fire_of_found found, planned, Option.getD_some] at starts ⊢
  by_cases full : daemon.running ≥ daemon.limit
  · have action : daemon.actionFor held = .queue "the daemon is at its run limit" := by
      rw [actionFor, if_pos full]
    rw [action] at starts ⊢
    refine .inl ⟨⟨by simpa using starts, going, _,
      List.mem_of_getElem? (getElem?_set_of_found found _), ?_⟩, full⟩
    refine ⟨by simp [own], ?_, ?_, ?_, time, ?_, late, fun later hlater => (plan_ahead hlater).2 _ rfl⟩
    · rw [plan_eq]
      exact ready
    · rw [plan_eq]
      exact idle
    · rw [plan_eq]
      rfl
    · rw [plan_eq]
      rfl
  · have action : daemon.actionFor held = .start := by simp [actionFor, full, idle]
    rw [action] at starts ⊢
    refine .inr ⟨time, late, ⟨⟨[], by simpa [own] using starts, by simp⟩, ?_, ?_⟩⟩
    · intro other hother same fire hfire
      rcases mem_set_of_found distinct found hother with rfl | ⟨-, hne⟩
      · exact (plan_ahead hfire).2 _ rfl
      · exact absurd (same.trans own.symm) hne
    · intro other hother same waiting
      rcases mem_set_of_found distinct found hother with rfl | ⟨-, hne⟩
      · rw [plan_eq] at waiting
        cases waiting
      · exact absurd (same.trans own.symm) hne

/-- A pass starts the run of a job that is due, or every place is taken. -/
theorem Comes.fireDue_own (comes : Comes id next waits daemon) (distinct : (ids daemon.jobs).Nodup)
    (found : daemon.jobs[index]? = some job) (own : job.id = id) (isdue : isDue host.now job = true) :
    Comes id next true (daemon.fireDue host) ∧
        (daemon.fireDue host).limit ≤ (daemon.fireDue host).running ∨
      ∃ first, next ≤ first ∧ Done id first (daemon.fireDue host) := by
  have mem : index ∈ daemon.due host.now := (mem_due_iff found).mpr isdue
  obtain ⟨before, after, hsplit⟩ := List.append_of_mem mem
  have apart : (before ++ index :: after).Nodup := hsplit ▸ due_apart
  obtain ⟨-, hafter, hbefore⟩ := List.nodup_append.mp apart
  have others : ∀ place ∈ before ++ after, ∀ other, daemon.jobs[place]? = some other →
      other.id ≠ id := by
    intro place hplace other here
    rw [← own]
    refine id_apart distinct found here fun same => ?_
    rcases List.mem_append.mp hplace with h | h
    · exact hbefore place h index List.mem_cons_self same
    · exact (List.nodup_cons.mp hafter).1 (same ▸ h)
  -- The job is as it was when its turn comes.
  have early := @fireAll_others _ id daemon host
    (fun reached => Comes id next waits reached ∧ ids reached.jobs = ids daemon.jobs ∧
      reached.jobs[index]? = some job) before
    (fun place h => others place (List.mem_append_left _ h))
    (fun reached place other here hne _ ⟨comes, same, stays⟩ =>
      ⟨comes.fire_other here hne, (fire_ids here).trans same, by
        rw [fire_jobs_of_ne here, stays]
        rintro rfl
        exact hne (Option.some.inj (here.symm.trans stays) ▸ own)⟩)
    distinct ⟨comes, rfl, found⟩
  unfold fireDue
  rw [if_neg (by simp [comes.going]), hsplit, runAll_append, runAll_cons]
  generalize runAll (fire host) daemon before = reached at early ⊢
  obtain ⟨comes, same, found⟩ := early
  have told : (ids reached.jobs).Nodup := same ▸ distinct
  have fired := @fire_ids reached host _ index job found
  have rest : ∀ place ∈ after, ∀ other, (fire host reached index).jobs[place]? = some other →
      other.id ≠ id := by
    intro place hplace other here
    rw [← own]
    have hne : place ≠ index := by
      rintro rfl
      exact (List.nodup_cons.mp hafter).1 hplace
    rw [fire_jobs_of_ne found hne.symm] at here
    exact id_apart told found here hne
  rcases comes.fire_own told found own isdue with ⟨waiting, full⟩ | ⟨first, late, done⟩
  · have full' : (fire host reached index).limit ≤ (fire host reached index).running := by
      rw [fire_of_found found]
      exact full.trans (Nat.le_add_right _ _)
    refine .inl ⟨?_, fireAll_full full'⟩
    exact fireAll_others rest (fun _ _ _ found other _ comes => comes.fire_other found other)
      (fired ▸ told) waiting
  · refine .inr ⟨first, late, ?_⟩
    exact fireAll_others rest (fun _ _ _ found other told done => done.fire_other told found other)
      (fired ▸ told) done

end

end Beez.Daemon
