import Beez.Path
import Beez.Text

/-! # The files the daemon keeps between runs -/

namespace Beez.Daemon

/-! ## The watched manifests -/

/-- One watched manifest and the directory its tasks run in. -/
structure Watched where
  path : Path
  workingDirectory : Path
deriving DecidableEq, Repr

/-- The manifests the daemon watches. -/
structure Registry where
  manifests : List Watched
deriving DecidableEq, Repr

namespace Registry

def watches (registry : Registry) (path : Path) : Bool := registry.manifests.any (·.path = path)

/-- Adds a manifest, replacing an entry for the same file. False when it was there. -/
def add (registry : Registry) (watched : Watched) : Bool × Registry :=
  (!registry.watches watched.path,
    ⟨registry.manifests.filter (·.path ≠ watched.path) ++ [watched]⟩)

/-- Removes a manifest and reports whether it was there. -/
def remove (registry : Registry) (path : Path) : Bool × Registry :=
  let left : Registry := ⟨registry.manifests.filter (·.path ≠ path)⟩
  (registry.manifests.length ≠ left.manifests.length, left)

theorem watches_iff {registry : Registry} {path : Path} :
    registry.watches path = true ↔ ∃ watched ∈ registry.manifests, watched.path = path := by
  simp [watches]

theorem remove_fst (registry : Registry) (path : Path) :
    (registry.remove path).1 = registry.watches path := by
  rw [Bool.eq_iff_iff, watches_iff]
  simp only [remove, decide_not, Bool.not_eq_true', decide_eq_false_iff_not]
  rw [eq_comm, List.length_filter_eq_length_iff]
  simp

theorem remove_of_not_watches {registry : Registry} {path : Path}
    (h : registry.watches path = false) : registry.remove path = (false, registry) := by
  have hfst := registry.remove_fst path
  rw [h] at hfst
  refine Prod.ext hfst ?_
  simp only [remove]
  congr 1
  rw [List.filter_eq_self]
  simpa [watches] using h

theorem watches_add {registry : Registry} {watched : Watched} {path : Path} :
    (registry.add watched).2.watches path = true ↔
      (registry.watches path = true ∧ path ≠ watched.path) ∨ path = watched.path := by
  simp only [watches_iff, add, List.mem_append, List.mem_filter, List.mem_singleton,
    decide_eq_true_eq]
  constructor
  · rintro ⟨entry, ⟨hmem, hne⟩ | rfl, rfl⟩
    · exact .inl ⟨⟨entry, hmem, rfl⟩, hne⟩
    · exact .inr rfl
  · rintro (⟨⟨entry, hmem, rfl⟩, hne⟩ | rfl)
    · exact ⟨entry, .inl ⟨hmem, hne⟩, rfl⟩
    · exact ⟨watched, .inr rfl, rfl⟩

theorem watches_remove {registry : Registry} {removed path : Path} :
    (registry.remove removed).2.watches path = true ↔
      registry.watches path = true ∧ path ≠ removed := by
  simp only [watches_iff, remove, List.mem_filter, decide_eq_true_eq]
  constructor
  · rintro ⟨entry, ⟨hmem, hne⟩, rfl⟩
    exact ⟨⟨entry, hmem, rfl⟩, hne⟩
  · rintro ⟨⟨entry, hmem, rfl⟩, hne⟩
    exact ⟨entry, ⟨hmem, hne⟩, rfl⟩

theorem not_watches_remove {registry : Registry} {path : Path} :
    (registry.remove path).2.watches path = false := by
  rw [Bool.eq_false_iff, ne_eq, watches_remove]
  exact fun h => h.2 rfl

end Registry

/-! ## What already happened to each job -/

/-- What already happened to one job. -/
structure JobState where
  paused : Bool
  lastFire : Option Int
  lastRun : Option Text
  lastStatus : Option Int
deriving DecidableEq, Repr

def JobState.initial : JobState := ⟨false, none, none, none⟩

/-- The entries by job ID, in no order. -/
structure States where
  jobs : List (Text × JobState)
deriving DecidableEq, Repr

namespace States

def get (states : States) (job : Text) : JobState := (states.jobs.lookup job).getD .initial

def set (states : States) (job : Text) (state : JobState) : States :=
  ⟨(job, state) :: states.jobs.filter (·.1 ≠ job)⟩

def keepOnly (states : States) (jobs : List Text) : States :=
  ⟨states.jobs.filter (·.1 ∈ jobs)⟩

theorem lookup_filter_ne {job other : Text} (h : other ≠ job) (entries : List (Text × JobState)) :
    (entries.filter (·.1 ≠ job)).lookup other = entries.lookup other := by
  induction entries with
  | nil => rfl
  | cons entry rest ih =>
    rw [List.filter_cons, List.lookup_cons]
    by_cases hentry : entry.1 = job
    · have hne : (other == entry.1) = false := by simpa [hentry] using h
      rw [if_neg (by simpa using hentry), ih, hne]
    · rw [if_pos (by simpa using hentry), List.lookup_cons, ih]

theorem get_set (states : States) (job other : Text) (state : JobState) :
    (states.set job state).get other = if other = job then state else states.get other := by
  unfold get set
  rw [List.lookup_cons]
  by_cases h : other = job
  · simp [h]
  · have hne : (other == job) = false := by simpa using h
    simp only [hne, lookup_filter_ne h, if_neg h]

@[simp] theorem get_set_self (states : States) (job : Text) (state : JobState) :
    (states.set job state).get job = state := by
  rw [get_set, if_pos rfl]

theorem get_set_of_ne {job other : Text} (h : other ≠ job) (states : States) (state : JobState) :
    (states.set job state).get other = states.get other := by
  rw [get_set, if_neg h]

theorem get_keepOnly {jobs : List Text} {job : Text} (h : job ∈ jobs) (states : States) :
    (states.keepOnly jobs).get job = states.get job := by
  unfold get keepOnly
  congr 1
  induction states.jobs with
  | nil => rfl
  | cons entry rest ih =>
    rw [List.filter_cons, List.lookup_cons]
    by_cases hentry : entry.1 = job
    · rw [if_pos (by simpa [hentry] using h), List.lookup_cons]
      simp [hentry]
    · have hne : (job == entry.1) = false := by simpa using Ne.symm hentry
      split
      · rw [List.lookup_cons, hne]
        exact ih
      · rw [hne]
        exact ih

theorem get_keepOnly_of_not_mem {jobs : List Text} {job : Text} (h : job ∉ jobs)
    (states : States) : (states.keepOnly jobs).get job = .initial := by
  unfold get keepOnly
  rw [List.lookup_eq_none_iff.mpr]
  · rfl
  · intro entry hmem
    have hkept := (List.mem_filter.mp hmem).2
    rw [bne_iff_ne]
    rintro rfl
    exact h (by simpa using hkept)

theorem keepOnly_paused (states : States) (jobs : List Text) (job : Text) :
    ((states.keepOnly jobs).get job).paused = (decide (job ∈ jobs) && (states.get job).paused) := by
  by_cases hmem : job ∈ jobs
  · rw [get_keepOnly hmem, decide_eq_true hmem, Bool.true_and]
  · rw [get_keepOnly_of_not_mem hmem, decide_eq_false hmem, Bool.false_and]
    rfl

/-- Dropping the other jobs keeps every flag exactly where no other job is paused. -/
theorem keepOnly_paused_iff {states : States} {jobs : List Text} :
    (∀ job, ((states.keepOnly jobs).get job).paused = (states.get job).paused) ↔
      ∀ job, (states.get job).paused = true → job ∈ jobs := by
  refine forall_congr' fun job => ?_
  rw [keepOnly_paused, Bool.and_eq_right_iff_imp, decide_eq_true_eq]

end States

/-! ## Reading the state back

An instant is written to the second, as a date with a year of four digits.
-/

def nanosPerSecond : Int := 1000000000

/-- The second that holds `time`. -/
def second (time : Int) : Int := time / nanosPerSecond * nanosPerSecond

/-- The first second after the year 9999. -/
def endOfTime : Int := 253402300800 * nanosPerSecond

/-- `parse_instant` of `format_instant`: the second that holds `time`. Nothing when the text
is refused, which is before 1970 and after 9999. -/
def stored (time : Int) : Option Int :=
  if 0 ≤ time ∧ time < endOfTime then some (second time) else none

/-- The state of one job as `state.json` gives it back. -/
def JobState.reread (state : JobState) : Option JobState :=
  match state.lastFire with
  | none => some state
  | some fire => (stored fire).map fun fire => { state with lastFire := some fire }

/-- One entry as `state.json` gives it back. -/
def rereadEntry (entry : Text × JobState) : Option (Text × JobState) :=
  entry.2.reread.map fun state => (entry.1, state)

/-- `States::load` of what `States::save` wrote. One instant that is refused spoils the file. -/
def States.reread (states : States) : Option States :=
  (states.jobs.mapM rereadEntry).map States.mk

theorem second_le (time : Int) : second time ≤ time := by
  unfold second nanosPerSecond
  omega

theorem second_le_second {time later : Int} (h : second time ≤ later) :
    second time ≤ second later := by
  unfold second nanosPerSecond at *
  omega

theorem second_second (time : Int) : second (second time) = second time := by
  unfold second nanosPerSecond
  omega

theorem stored_eq {time read : Int} (h : stored time = some read) : read = second time := by
  unfold stored at h
  split at h
  · exact (Option.some.inj h).symm
  · cases h

theorem lookup_reread {entries read : List (Text × JobState)}
    (h : entries.mapM rereadEntry = some read) (job : Text) :
    ((entries.lookup job).getD .initial).reread = some ((read.lookup job).getD .initial) := by
  induction entries generalizing read with
  | nil =>
    simp only [List.mapM_nil, Option.pure_def, Option.some.injEq] at h
    subst h
    rfl
  | cons entry rest ih =>
    simp only [List.mapM_cons, Option.bind_eq_bind, Option.bind_eq_some_iff, Option.pure_def,
      Option.some.injEq] at h
    obtain ⟨first, hfirst, others, hothers, rfl⟩ := h
    unfold rereadEntry at hfirst
    obtain ⟨state, hstate, rfl⟩ := Option.map_eq_some_iff.mp hfirst
    rw [List.lookup_cons, List.lookup_cons]
    cases job == entry.1 with
    | true => exact hstate
    | false => exact ih hothers

theorem States.get_reread {states read : States} (h : states.reread = some read) (job : Text) :
    (states.get job).reread = some (read.get job) := by
  unfold States.reread at h
  obtain ⟨jobs, hjobs, rfl⟩ := Option.map_eq_some_iff.mp h
  exact lookup_reread hjobs job

theorem JobState.reread_lastFire {state read : JobState} {fire : Int}
    (h : state.reread = some read) (fired : state.lastFire = some fire) :
    read.lastFire = some (second fire) := by
  unfold JobState.reread at h
  rw [fired] at h
  obtain ⟨kept, hstored, rfl⟩ := Option.map_eq_some_iff.mp h
  rw [stored_eq hstored]

theorem JobState.reread_reread {state read : JobState} (h : state.reread = some read) :
    read.reread = some read := by
  unfold JobState.reread at h
  split at h
  · next hnone =>
    cases h
    simp [JobState.reread, hnone]
  · next fire hfire =>
    obtain ⟨kept, hstored, rfl⟩ := Option.map_eq_some_iff.mp h
    have hkept := stored_eq hstored
    unfold stored at hstored
    split at hstored
    · next hrange =>
      simp only [JobState.reread, stored, hkept]
      rw [if_pos, second_second]
      · rfl
      · exact ⟨by unfold second nanosPerSecond; omega, lt_of_le_of_lt (second_le fire) hrange.2⟩
    · cases hstored

theorem JobState.reread_paused {state read : JobState} (h : state.reread = some read) :
    read.paused = state.paused := by
  unfold JobState.reread at h
  split at h
  · cases h
    rfl
  · obtain ⟨kept, -, rfl⟩ := Option.map_eq_some_iff.mp h
    rfl

/-- Every entry is read back as it is. -/
def States.Whole (states : States) : Prop := ∀ entry ∈ states.jobs, entry.2.reread = some entry.2

theorem whole_of_mapM {entries read : List (Text × JobState)}
    (h : entries.mapM rereadEntry = some read) : ∀ entry ∈ read, entry.2.reread = some entry.2 := by
  induction entries generalizing read with
  | nil =>
    simp only [List.mapM_nil, Option.pure_def, Option.some.injEq] at h
    subst h
    simp
  | cons entry rest ih =>
    simp only [List.mapM_cons, Option.bind_eq_bind, Option.bind_eq_some_iff, Option.pure_def,
      Option.some.injEq] at h
    obtain ⟨first, hfirst, others, hothers, rfl⟩ := h
    obtain ⟨state, hstate, rfl⟩ := Option.map_eq_some_iff.mp hfirst
    intro entry hmem
    rcases List.mem_cons.mp hmem with rfl | hmem
    · exact JobState.reread_reread hstate
    · exact ih hothers entry hmem

theorem mapM_of_whole {entries : List (Text × JobState)}
    (h : ∀ entry ∈ entries, entry.2.reread = some entry.2) :
    entries.mapM rereadEntry = some entries := by
  induction entries with
  | nil => rfl
  | cons entry rest ih =>
    have hentry : rereadEntry entry = some entry := by
      rw [rereadEntry, h entry (by simp)]
      rfl
    rw [List.mapM_cons, hentry, ih fun entry hmem => h entry (by simp [hmem])]
    rfl

namespace States

theorem whole_of_reread {states read : States} (h : states.reread = some read) : read.Whole := by
  unfold reread at h
  obtain ⟨jobs, hjobs, rfl⟩ := Option.map_eq_some_iff.mp h
  exact whole_of_mapM hjobs

theorem reread_of_whole {states : States} (h : states.Whole) : states.reread = some states := by
  rw [reread, mapM_of_whole h]
  rfl

theorem Whole.get {states : States} (h : states.Whole) (job : Text) :
    (states.get job).reread = some (states.get job) := get_reread (reread_of_whole h) job

theorem Whole.set {states : States} (h : states.Whole) {job : Text} {state : JobState}
    (hstate : state.reread = some state) : (states.set job state).Whole := by
  intro entry hmem
  rcases List.mem_cons.mp hmem with rfl | hmem
  · exact hstate
  · exact h entry (List.mem_of_mem_filter hmem)

end States

theorem JobState.reread_held {state : JobState} (h : state.reread = some state) (paused : Bool) :
    ({ state with paused } : JobState).reread = some { state with paused } := by
  unfold JobState.reread at *
  dsimp only
  split at h
  · next hnone => simp [hnone]
  · next fire hfire =>
    obtain ⟨kept, hstored, heq⟩ := Option.map_eq_some_iff.mp h
    have hkept : kept = fire := by
      rw [← heq] at hfire
      exact Option.some.inj hfire
    simp [hfire, hstored, hkept]

end Beez.Daemon
