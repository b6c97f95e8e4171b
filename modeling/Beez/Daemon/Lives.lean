import Beez.Daemon.Restarts

/-! # The life of one root

Over a life a daemon starts, runs and ends many times. A start is to catch up what passed while
none ran.
-/

open Beez.Lib

namespace Beez.Daemon

/-- The time after `since`, up to `upTo`, in which a daemon ran with these jobs. -/
structure Span where
  since : Int
  upTo : Int
  jobs : List Job

def Span.covers (span : Span) (time : Int) : Bool := span.since < time && time ≤ span.upTo

/-- What happened under one root so far. `files` is what the next start reads, `daemon` the one
that runs, and `now` the last time that it saw. -/
structure Life where
  root : Path
  limit : Nat
  files : Files
  daemon : Option Daemon
  now : Int
  spans : List Span

inductive LifeEvent where
  | starts (host : Host)
  | step (input : Input)
  | ends (time : Int)
  /-- The files change while no daemon runs. -/
  | edited (files : Files)

namespace Life

def new (root : Path) (limit : Nat) (files : Files) : Life := ⟨root, limit, files, none, 0, []⟩

/-- The daemon ran with its jobs until `time`. -/
def spend (life : Life) (daemon : Daemon) (time : Int) : Life :=
  { life with now := time, spans := ⟨life.now, time, daemon.jobs⟩ :: life.spans }

def take [CronCrate] (life : Life) : LifeEvent → Life
  | .starts host =>
    match life.daemon, openDaemon host life.root life.limit life.files with
    | none, some daemon => { life with daemon := some daemon, now := host.now }
    | _, _ => life
  | .step input =>
    match life.daemon, input.host with
    | none, _ => life
    | some daemon, none => { life with daemon := some (daemon.step input) }
    | some daemon, some host =>
      { life.spend daemon host.now with daemon := some (daemon.step input) }
  | .ends time =>
    match life.daemon with
    | none => life
    | some daemon => { life.spend daemon time with daemon := none, files := daemon.files }
  | .edited files =>
    match life.daemon with
    | none => { life with files := files }
    | some _ => life

/-- A daemon ran at `time`. -/
def WasUp (life : Life) (time : Int) : Prop := ∃ span ∈ life.spans, span.covers time = true

/-- A daemon ran at `time`, and held the job with `id` back. -/
def HeldBack (life : Life) (id : Text) (time : Int) : Prop :=
  ∃ span ∈ life.spans, span.covers time = true ∧ ∃ job ∈ span.jobs, job.id = id ∧ job.isReady = false

instance (life : Life) (time : Int) : Decidable (life.WasUp time) :=
  inferInstanceAs (Decidable (∃ span ∈ life.spans, _))

instance (life : Life) (id : Text) (time : Int) : Decidable (life.HeldBack id time) :=
  inferInstanceAs (Decidable (∃ span ∈ life.spans, _ ∧ ∃ job ∈ span.jobs, _))

end Life

theorem Life.wasUp_spend (life : Life) (daemon : Daemon) (upTo : Int) :
    (life.spend daemon upTo).WasUp = fun time => life.WasUp time ∨ life.now < time ∧ time ≤ upTo := by
  funext time
  simp [Life.WasUp, Life.spend, Span.covers, or_comm]

/-! ## What a start may catch up -/

def Happening.caughtUp? : Happening → Option Job
  | .planned job (.catchUp _) => some job
  | _ => none

/-- The jobs that are to run late. -/
def caughtUp (trace : List Happening) : List Job := trace.filterMap Happening.caughtUp?

/-- However many instants a job missed, it runs late once. -/
theorem caughtUp_sublist (planned : List (Job × Option Plan)) :
    (caughtUp (planLines planned)).Sublist (planned.map (·.1)) := by
  induction planned with
  | nil => exact .slnil
  | cons entry rest ih =>
    obtain ⟨job, found⟩ := entry
    have split : caughtUp (planLines ((job, found) :: rest)) =
        caughtUp (found.toList.map (.planned job)) ++ caughtUp (planLines rest) :=
      List.filterMap_append
    rw [split, List.map_cons]
    cases found with
    | none => exact ih.cons _
    | some plan =>
      cases plan with
      | catchUp missed => exact ih.cons_cons _
      | missed missed => exact ih.cons _

section

variable [CronCrate]

/-- Every job that is to run late missed an instant while no daemon ran, and did not miss the one
that is reported because it was held back. No job is to run late twice. -/
structure CatchUpsDue (life : Life) (fresh : Daemon) : Prop where
  down : ∀ job missed, .planned job (.catchUp missed) ∈ fresh.trace →
    ∃ instant, job.Answers fresh.started instant ∧ ¬ life.WasUp instant
  spared : ∀ job missed, .planned job (.catchUp missed) ∈ fresh.trace →
    ¬ life.HeldBack job.id missed
  once : (caughtUp fresh.trace).Sublist fresh.jobs

/-- What the start plans to catch up is due. -/
def StartsRight (life : Life) : LifeEvent → Prop
  | .starts host => life.daemon = none → ∀ fresh,
    openDaemon host life.root life.limit life.files = some fresh → CatchUpsDue life fresh
  | _ => True

variable {life : Life} {host : Host} {fresh : Daemon} {job : Job} {now : Int}

theorem answers_plan (job : Job) (time instant : Int) :
    (plan job now true).1.Answers time instant ↔ job.Answers time instant := by
  unfold Job.Answers
  rw [plan_eq]

theorem Job.Misses.answers [CronCrate.Lawful ‹CronCrate›] {missed : Int}
    (misses : job.Misses now missed) : job.Answers now missed := by
  obtain ⟨-, schedule, hschedule, -, hnext, passed⟩ := misses
  refine ⟨schedule, hschedule, ⟨_, hnext⟩, fun last hlast => ?_, passed⟩
  have later := Schedule.lt_of_nextAfter hnext
  rwa [Job.base, hlast, Option.getD_some] at later

/-- A start that finds no instant missed beside a daemon is right. -/
theorem catchUpsDue_of_down [CronCrate.Lawful ‹CronCrate›]
    (opened : openDaemon host life.root life.limit life.files = some fresh)
    (down : ∀ rebuilt ∈ life.files.gives host, ∀ missed, rebuilt.Misses host.now missed →
      ¬ life.WasUp missed) : CatchUpsDue life fresh := by
  obtain ⟨hjobs, htrace, hstarted, -⟩ := openDaemon_plans opened
  refine ⟨fun job missed line => ?_, fun job missed line => ?_, ?_⟩
  · obtain ⟨rebuilt, hrebuilt, misses, rfl⟩ := (catchUp_opened opened).mp line
    refine ⟨missed, ?_, down rebuilt hrebuilt missed misses⟩
    rw [answers_plan, hstarted]
    exact misses.answers
  · obtain ⟨rebuilt, hrebuilt, misses, rfl⟩ := (catchUp_opened opened).mp line
    rintro ⟨span, mem, covers, -⟩
    exact down rebuilt hrebuilt missed misses ⟨span, mem, covers⟩
  · have sublist := caughtUp_sublist ((life.files.gives host).map fun job => plan job host.now true)
    rw [hjobs, htrace]
    simpa [Function.comp_def] using sublist

end

end Beez.Daemon
