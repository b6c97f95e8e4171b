import Beez.Daemon.Accounted
import Beez.Daemon.Lives

/-! # Catching up on the time without a daemon

A start counts every instant after the last recorded fire as missed. Daemons that take their fires
in time, and let no other instant pass, leave only those that passed while none ran.
-/

open Beez.Lib

namespace Beez.Daemon

/-! ## What a life must meet -/

section

variable [CronCrate]

/-- The job is as the daemon that ended last left it: `state.json` has its last fire, to the
second, and a schedule of one instant has no fraction of a second to lose. -/
def Life.Left (life : Life) (job : Job) : Prop :=
  ∃ span, life.spans.head? = some span ∧ ∃ old ∈ span.jobs, old.id = job.id ∧
    old.schedule = job.schedule ∧ job.state.lastFire = old.state.lastFire.map second ∧
      ∀ schedule instant, job.schedule = some schedule → schedule.schedule = .once instant →
        instant % nanosPerSecond = 0

/-- What each event of a life must meet. The clock is not set back. While a daemon runs, no instant
passes of a job that is held back, and fires are taken in time. When it ends, none is due. A start
reads each job as the daemon before it left it, or no instant of the job passed between its last
recorded fire and the end of that daemon. -/
def Attends (life : Life) : LifeEvent → Prop
  | .starts host => life.daemon = none → life.now ≤ host.now ∧ ∀ rebuilt ∈ life.files.gives host,
    life.Left rebuilt ∨ ∀ first, rebuilt.owed = some first → life.now < first
  | .step input => ∀ daemon, life.daemon = some daemon → ∀ host, input.host = some host →
    life.now ≤ host.now ∧ HoldsNone daemon life.now host.now ∧
      (daemon.takes input = true → OnTime daemon input)
  | .ends time => ∀ daemon, life.daemon = some daemon → life.now ≤ time ∧
    HoldsNone daemon life.now time ∧ NoneDue daemon time fun _ => True
  | .edited _ => True

end

section

variable [CronCrate] {up : Int → Prop} {life : Life} {job : Job} {now : Int} {daemon : Daemon}

/-! ## What a start reads -/

/-- The first instant that a job missed is the one that it owes. -/
theorem Job.Misses.owed [CronCrate.Lawful ‹CronCrate›] {missed : Int}
    (misses : job.Misses now missed) : job.owed = some missed := by
  obtain ⟨-, schedule, hschedule, late, hnext, passed⟩ := misses
  have later := Schedule.lt_of_nextAfter hnext
  unfold Job.owed
  rw [hschedule, Option.bind_some, if_pos late]
  unfold Job.base at hnext later
  cases hlast : job.state.lastFire with
  | some last => simpa [hlast] using hnext
  | none =>
    cases recurring : schedule.schedule.isRecurring with
    | false => simpa [hlast, recurring] using hnext
    | true =>
      simp [hlast, recurring] at later
      omega

/-- The second of the last fire that `state.json` keeps leads to the same instant. -/
theorem Life.Left.clear [CronCrate.Lawful ‹CronCrate›] [CronCrate.Ordered ‹CronCrate›]
    (left : life.Left job) (ended : ∀ span, life.spans.head? = some span → ∀ old ∈ span.jobs,
      old.Clear life.WasUp life.now) : job.Clear life.WasUp life.now := by
  obtain ⟨span, hspan, old, hold, -, schedule, lastFire, whole⟩ := left
  have clear := ended span hspan old hold
  intro first howed
  refine clear first ?_
  unfold Job.owed at howed ⊢
  rw [lastFire, ← schedule] at howed
  obtain ⟨jobSchedule, hschedule, howed⟩ := Option.bind_eq_some_iff.mp howed
  rw [hschedule, Option.bind_some]
  split at howed
  · rename_i late
    rw [if_pos late]
    cases hlast : old.state.lastFire with
    | none => simpa [hlast] using howed
    | some last =>
      have hnext : jobSchedule.schedule.nextAfter (second last) = some first := by
        simpa [hlast] using howed
      have ahead : last < first := by
        by_contra passed
        have once := once_of_hits ⟨_, hnext⟩ (le_refl _) (Schedule.lt_of_nextAfter hnext)
          (by omega : first ≤ last)
        exact no_whole_between (le_refl _) (Schedule.lt_of_nextAfter hnext)
          (by omega : first ≤ last) (whole jobSchedule first (schedule ▸ hschedule) once)
      have same := Schedule.nextAfter_later hnext (second_le last) ahead
      simpa using same
  · cases howed

theorem gives_down [CronCrate.Lawful ‹CronCrate›] [CronCrate.Ordered ‹CronCrate›]
    (spans : ∀ span ∈ life.spans, span.upTo ≤ life.now) (ended : ∀ span,
      life.spans.head? = some span → ∀ old ∈ span.jobs, old.Clear life.WasUp life.now)
    (found : life.Left job ∨ ∀ first, job.owed = some first → life.now < first) {first : Int}
    (howed : job.owed = some first) : ¬ life.WasUp first := by
  have before : life.WasUp first → first ≤ life.now := by
    rintro ⟨span, mem, covers⟩
    have := spans span mem
    simp only [Span.covers, Bool.and_eq_true, decide_eq_true_eq] at covers
    omega
  intro was
  rcases found with left | isNew
  · rcases left.clear ended first howed with ahead | down
    · have := before was
      omega
    · exact down was
  · have := before was
    have := isNew first howed
    omega

/-- A start plans each job so that it is accounted for. -/
theorem plan_accounted (down : ∀ first, job.owed = some first → ¬ up first) :
    (plan job now true).1.Accounted up now := by
  have shape := plan_eq job now true
  have same : (plan job now true).1.owed = job.owed := by
    rw [shape]
    rfl
  intro first howed
  rw [same] at howed
  by_cases passed : first ≤ now
  · exact .inl ⟨passed, down first howed⟩
  · right
    obtain ⟨schedule, hschedule, -, hnext⟩ := Job.nextAfter_of_owed now howed
    have state : (plan job now true).1.isReady = job.isReady := by
      rw [shape]
      rfl
    rw [state]
    have ahead : now < first := by omega
    refine ⟨fun ready => ?_, fun fire hfire => ?_, fun _ => ahead⟩
    · rw [plan_of_ready ready hschedule, hnext]
      simp [ahead]
    · have ready := ready_of_plan hfire
      rw [plan_of_ready ready hschedule, hnext] at hfire
      have : first = fire := by simpa [ahead] using hfire
      omega

/-! ## What a life keeps -/

/-- The time that daemons ran is past, the jobs of the one that runs are accounted for, and what
the last one left missed no instant beside it. -/
structure Life.Tracked (life : Life) : Prop where
  spans : ∀ span ∈ life.spans, span.upTo ≤ life.now
  running : ∀ daemon, life.daemon = some daemon → AllAccounted life.WasUp life.now daemon
  ended : life.daemon = none → ∀ span, life.spans.head? = some span → ∀ job ∈ span.jobs,
    job.Clear life.WasUp life.now

theorem Life.tracked_new (root : Path) (limit : Nat) (files : Files) :
    (Life.new root limit files).Tracked :=
  ⟨by simp [Life.new], by simp [Life.new], by simp [Life.new]⟩

theorem Life.Tracked.spend {upTo : Int} (tracked : life.Tracked) (runs : life.daemon = some daemon)
    (forward : life.now ≤ upTo) (holds : HoldsNone daemon life.now upTo) :
    AllAccounted (life.spend daemon upTo).WasUp upTo daemon ∧
      ∀ span ∈ (life.spend daemon upTo).spans, span.upTo ≤ upTo := by
  refine ⟨fun job mem => ?_, fun span mem => ?_⟩
  · rw [Life.wasUp_spend]
    refine (tracked.running daemon runs job mem).wait forward fun unready first howed ahead => ?_
    obtain ⟨schedule, hschedule, late, hits⟩ := job.hits_of_owed howed
    exact holds job mem unready schedule hschedule late first hits ahead
  · rcases List.mem_cons.mp mem with rfl | mem
    · exact le_refl _
    · exact (tracked.spans span mem).trans forward

theorem Life.Tracked.starts [CronCrate.Lawful ‹CronCrate›] [CronCrate.Ordered ‹CronCrate›]
    {host : Host} (tracked : life.Tracked) (attends : Attends life (.starts host)) :
    (life.take (.starts host)).Tracked := by
  unfold Life.take
  dsimp only
  split
  · rename_i fresh stopped opened
    obtain ⟨forward, found⟩ := attends stopped
    refine ⟨fun span mem => (tracked.spans span mem).trans forward, ?_, by simp⟩
    rintro _ ⟨⟩ job mem
    rw [(openDaemon_plans opened).1] at mem
    obtain ⟨rebuilt, hrebuilt, rfl⟩ := List.mem_map.mp mem
    exact plan_accounted fun first howed =>
      gives_down tracked.spans (tracked.ended stopped) (found rebuilt hrebuilt) howed
  · exact tracked

theorem Life.Tracked.step [CronCrate.Lawful ‹CronCrate›] [CronCrate.Ordered ‹CronCrate›]
    {input : Input} (tracked : life.Tracked) (attends : Attends life (.step input)) :
    (life.take (.step input)).Tracked := by
  unfold Life.take
  dsimp only
  split
  · exact tracked
  · rename_i daemon runs here
    have onTime : OnTime daemon input := by
      cases input with
      | pass host | command host request | finished host thread outcome => cases here
      | timeout | signal | loads | edited => trivial
    refine ⟨tracked.spans, ?_, by simp⟩
    rintro _ ⟨⟩
    exact (tracked.running daemon runs).step (by simp [here]) fun _ => onTime
  · rename_i daemon host runs here
    obtain ⟨forward, holds, onTime⟩ := attends daemon runs host here
    obtain ⟨all, spans⟩ := tracked.spend runs forward holds
    refine ⟨spans, ?_, by simp⟩
    rintro _ ⟨⟩
    refine AllAccounted.step all (fun other same => ?_) onTime
    rw [Option.some.inj (same.symm.trans here)]
    rfl

/-- A daemon that ends with no fire due leaves every job clear. -/
theorem Life.Tracked.ends {time : Int} (tracked : life.Tracked)
    (attends : Attends life (.ends time)) : (life.take (.ends time)).Tracked := by
  unfold Life.take
  dsimp only
  split
  · exact tracked
  · rename_i daemon runs
    obtain ⟨forward, holds, none⟩ := attends daemon runs
    obtain ⟨all, spans⟩ := tracked.spend runs forward holds
    refine ⟨spans, by simp, fun _ => ?_⟩
    rintro _ ⟨⟩ job mem
    exact (all job mem).clear (none job mem trivial)

theorem Life.Tracked.edited (files : Files) (tracked : life.Tracked) :
    (life.take (.edited files)).Tracked := by
  unfold Life.take
  dsimp only
  split
  · rename_i stopped
    exact ⟨tracked.spans, by simp [stopped], fun _ => tracked.ended stopped⟩
  · exact tracked

theorem Life.Tracked.take [CronCrate.Lawful ‹CronCrate›] [CronCrate.Ordered ‹CronCrate›]
    {event : LifeEvent} (tracked : life.Tracked) (attends : Attends life event) :
    (life.take event).Tracked := by
  cases event with
  | starts host => exact tracked.starts attends
  | step input => exact tracked.step attends
  | ends time => exact tracked.ends attends
  | edited files => exact tracked.edited files

theorem Life.Tracked.startsRight [CronCrate.Lawful ‹CronCrate›] [CronCrate.Ordered ‹CronCrate›]
    {event : LifeEvent} (tracked : life.Tracked) (attends : Attends life event) :
    StartsRight life event := by
  cases event with
  | starts host =>
    intro stopped fresh opened
    obtain ⟨-, found⟩ := attends stopped
    exact catchUpsDue_of_down opened fun rebuilt hrebuilt missed misses =>
      gives_down tracked.spans (tracked.ended stopped) (found rebuilt hrebuilt) misses.owed
  | step input | ends time | edited files => trivial

/-- In every life of a root whose daemons take their fires in time, each start catches up only what
passed while no daemon ran, and that once. -/
theorem catchUps_due [CronCrate.Lawful ‹CronCrate›] [CronCrate.Ordered ‹CronCrate›] (root : Path)
    (limit : Nat) (files : Files) (events : List LifeEvent)
    (attends : Along Life.take Attends (Life.new root limit files) events) :
    Along Life.take StartsRight (Life.new root limit files) events :=
  (attends.strengthen (fun _ _ tracked attends => Life.Tracked.take tracked attends)
    (Life.tracked_new root limit files)).mono fun _ _ both => both.1.startsRight both.2

end

def firstLife : Life := .new ["root"] 1 ⟨.ok nightly, ⟨[]⟩⟩

/-- The instant of the job passes between two daemons. -/
def downThenRestarted : List LifeEvent :=
  [.starts (onceHost minute 0), .step (.pass (onceHost minute 0)), .ends (30 * nanosPerSecond),
    .starts (onceHost minute 120), .step (.pass (onceHost minute 120))]

def downLife : Life := @runAll _ _ (@Life.take .unused) firstLife (downThenRestarted.take 3)

def downRestarted : Daemon :=
  (@openDaemon .unused (onceHost minute 120) downLife.root downLife.limit downLife.files).get
    (by decide +kernel)

theorem catchUps_due_down :
    Along (@Life.take .unused) (@StartsRight .unused) firstLife downThenRestarted ∧
      (caughtUp downRestarted.trace).map (·.id) = ["nightly".toList] := by
  let _ : CronCrate := .unused
  refine ⟨?_, by decide +kernel⟩
  let up : Life := firstLife.take (.starts (onceHost minute 0))
  let again : Life := downLife.take (.starts (onceHost minute 120))
  -- The job is ready, and nothing of it is due but the late run.
  have ready : ∀ life ∈ [up, up.take (.step (.pass (onceHost minute 0))), again],
      ∀ daemon ∈ life.daemon, ∀ job ∈ daemon.jobs, job.isReady = true := by
    decide +kernel
  have holds : ∀ life ∈ [up, up.take (.step (.pass (onceHost minute 0))), again],
      ∀ daemon, life.daemon = some daemon → ∀ since upTo, HoldsNone daemon since upTo := by
    intro life mem daemon runs since upTo job hjob held
    rw [ready life mem daemon runs job hjob] at held
    cases held
  have ahead : ∀ life ∈ [firstLife, downLife], ∀ host ∈ [onceHost minute 0, onceHost minute 120],
      ∀ rebuilt ∈ life.files.gives host, rebuilt.owed.all (life.now < ·) = true := by
    decide +kernel
  have starts : ∀ life ∈ [firstLife, downLife], ∀ host ∈ [onceHost minute 0, onceHost minute 120],
      ∀ rebuilt ∈ life.files.gives host, ∀ first, rebuilt.owed = some first → life.now < first := by
    intro life hlife host hhost rebuilt hrebuilt first howed
    have := ahead life hlife host hhost rebuilt hrebuilt
    simpa [howed] using this
  have passes : ∀ life ∈ [up, again], ∀ seconds ∈ [0, 120], ∀ daemon, life.daemon = some daemon →
      OnTime daemon (.pass (onceHost minute seconds)) := by
    have unchanged : ∀ life ∈ [up, again], ∀ seconds ∈ [(0 : Int), 120], ∀ daemon ∈ life.daemon,
        (daemon.changed (onceHost minute seconds)).length = 0 := by decide +kernel
    have once : ∀ life ∈ [up, again], ∀ seconds ∈ [(0 : Int), 120], ∀ daemon ∈ life.daemon,
        ∀ job ∈ (daemon.rescan (onceHost minute seconds)).jobs,
          isDue (seconds * nanosPerSecond) job = true →
            (job.schedule.bind fun schedule => job.nextFire.bind schedule.schedule.nextAfter) =
              none := by decide +kernel
    intro life hlife seconds hseconds daemon runs
    refine ⟨?_, fun _ job hjob isdue schedule fire next hschedule _ hfire hnext => ?_⟩
    · rw [List.length_eq_zero_iff.mp (unchanged life hlife seconds hseconds daemon runs)]
      trivial
    · have := once life hlife seconds hseconds daemon runs job hjob isdue
      simp [hschedule, hfire, hnext] at this
  have undue : ∀ daemon ∈ (up.take (.step (.pass (onceHost minute 0)))).daemon,
      ∀ job ∈ daemon.jobs, isDue (30 * nanosPerSecond) job = false := by decide +kernel
  refine catchUps_due ["root"] 1 ⟨.ok nightly, ⟨[]⟩⟩ downThenRestarted ⟨?_, ?_, ?_, ?_, ?_, trivial⟩
  · exact fun _ => ⟨by decide +kernel, fun rebuilt hrebuilt =>
      .inr (starts firstLife (by simp) _ (by simp) rebuilt hrebuilt)⟩
  · rintro daemon runs _ ⟨⟩
    exact ⟨by decide +kernel, holds up (by simp) daemon runs _ _,
      fun _ => passes up (by simp) 0 (by simp) daemon runs⟩
  · intro daemon runs
    exact ⟨by decide +kernel, holds _ (.tail _ (.head _)) daemon runs _ _,
      fun job mem _ _ => undue daemon runs job mem⟩
  · exact fun _ => ⟨by decide +kernel, fun rebuilt hrebuilt =>
      .inr (starts downLife (by simp) _ (by simp) rebuilt hrebuilt)⟩
  · rintro daemon runs _ ⟨⟩
    exact ⟨by decide +kernel, holds again (by simp) daemon runs _ _,
      fun _ => passes again (by simp) 120 (by simp) daemon runs⟩

/-! ## An instant that passes while its job is held back -/

/-- The job is held back while its instant passes, and let go. The daemon ends a minute later, and
another one starts. -/
def heldThenRestarted : List LifeEvent :=
  [.starts (onceHost minute 0), .step (.pass (onceHost minute 0)),
    .step (.command (onceHost minute 10) (.pause "nightly".toList)),
    .step (.pass (onceHost minute 100)),
    .step (.command (onceHost minute 100) (.resume "nightly".toList)),
    .ends (160 * nanosPerSecond), .starts (onceHost minute 200)]

def heldLife : Life := @runAll _ _ (@Life.take .unused) firstLife (heldThenRestarted.take 6)

def heldRestarted : Daemon :=
  (@openDaemon .unused (onceHost minute 200) heldLife.root heldLife.limit heldLife.files).get
    (by decide +kernel)

/-- The instant of a happening that reports `id` as run late. -/
def Happening.lateAt (id : Text) : Happening → Option Int
  | .planned job (.catchUp missed) => if job.id = id then some missed else none
  | _ => none

theorem Happening.lateAt_eq {id : Text} {happening : Happening} {missed : Int}
    (h : happening.lateAt id = some missed) :
    ∃ job, happening = .planned job (.catchUp missed) ∧ job.id = id := by
  unfold lateAt at h
  split at h
  · split at h
    · next job _ same =>
      cases h
      exact ⟨job, rfl, same⟩
    · cases h
  · cases h

theorem held_caughtUp : ¬ Along (@Life.take .unused) (@StartsRight .unused) firstLife
    heldThenRestarted := by
  let _ : CronCrate := .unused
  rintro ⟨-, -, -, -, -, -, right, -⟩
  have right : StartsRight heldLife (.starts (onceHost minute 200)) := right
  have down : heldLife.daemon.isNone = true := by decide +kernel
  have held : heldLife.HeldBack "nightly".toList minute := by decide +kernel
  have late : heldRestarted.trace.map (·.lateAt "nightly".toList) = [some minute] := by
    decide +kernel
  have mem : some minute ∈ heldRestarted.trace.map (·.lateAt "nightly".toList) := by
    rw [late]
    exact List.mem_singleton_self _
  obtain ⟨happening, hmem, hlate⟩ := List.mem_map.mp mem
  obtain ⟨job, rfl, hid⟩ := Happening.lateAt_eq hlate
  have due := right (Option.isNone_iff_eq_none.mp down) heldRestarted (Option.some_get _).symm
  exact due.spared job minute hmem (hid ▸ held)

end Beez.Daemon
