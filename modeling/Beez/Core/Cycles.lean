import Beez.Core.Validation
import Beez.Lib.Cycle

/-! # The search for a cycle

The trail of the walk is the path of the tasks that it is in, so a task that comes up while the
walk is in it closes a cycle at the end of the trail.
-/

open Beez.Lib

namespace Beez.Core

/-! ## The walk without a bound -/

mutual

/-- The calls of `visit` as the source makes them. A derivation is a call that returns. -/
inductive VisitRuns (dependencies : List (List Nat)) :
    Visits → Nat → Except (List Nat) Visits → Prop
  | complete {visits : Visits} {index : Nat}
    (state : visits.states[index]?.getD .complete = .complete) :
    VisitRuns dependencies visits index (.ok visits)
  | visiting {visits : Visits} {index : Nat}
    (state : visits.states[index]?.getD .complete = .visiting) :
    VisitRuns dependencies visits index
      (.error (visits.trail.drop (visits.trail.idxOf index) ++ [index]))
  | leaves {visits after : Visits} {index : Nat}
    (state : visits.states[index]?.getD .complete = .unseen)
    (each : EachRuns dependencies ⟨visits.states.set index .visiting, visits.trail ++ [index]⟩
      (row dependencies index) (.ok after)) :
    VisitRuns dependencies visits index
      (.ok ⟨after.states.set index .complete, after.trail.dropLast⟩)
  | stops {visits : Visits} {index : Nat} {cycle : List Nat}
    (state : visits.states[index]?.getD .complete = .unseen)
    (each : EachRuns dependencies ⟨visits.states.set index .visiting, visits.trail ++ [index]⟩
      (row dependencies index) (.error cycle)) :
    VisitRuns dependencies visits index (.error cycle)

/-- A loop of such calls. -/
inductive EachRuns (dependencies : List (List Nat)) :
    Visits → List Nat → Except (List Nat) Visits → Prop
  | done {visits : Visits} : EachRuns dependencies visits [] (.ok visits)
  | next {visits middle : Visits} {index : Nat} {rest : List Nat}
    {result : Except (List Nat) Visits} (first : VisitRuns dependencies visits index (.ok middle))
    (more : EachRuns dependencies middle rest result) :
    EachRuns dependencies visits (index :: rest) result
  | stops {visits : Visits} {index : Nat} {rest cycle : List Nat}
    (first : VisitRuns dependencies visits index (.error cycle)) :
    EachRuns dependencies visits (index :: rest) (.error cycle)

end

variable {dependencies : List (List Nat)}

mutual

theorem VisitRuns.unique {visits : Visits} {index : Nat} {result other : Except (List Nat) Visits} :
    VisitRuns dependencies visits index result → VisitRuns dependencies visits index other →
      result = other
  | .complete _, .complete _ => rfl
  | .visiting _, .visiting _ => rfl
  | .leaves _ each, .leaves _ each' => by
    cases each.unique each'
    rfl
  | .stops _ each, .stops _ each' => by
    cases each.unique each'
    rfl
  | .leaves _ each, .stops _ each' | .stops _ each, .leaves _ each' => by
    cases each.unique each'
  | .complete state, .visiting state' | .complete state, .leaves state' _
  | .complete state, .stops state' _ | .visiting state, .complete state'
  | .visiting state, .leaves state' _ | .visiting state, .stops state' _
  | .leaves state _, .complete state' | .leaves state _, .visiting state'
  | .stops state _, .complete state' | .stops state _, .visiting state' => by
    cases state.symm.trans state'

theorem EachRuns.unique {visits : Visits} {l : List Nat} {result other : Except (List Nat) Visits} :
    EachRuns dependencies visits l result → EachRuns dependencies visits l other → result = other
  | .done, .done => rfl
  | .next first more, .next first' more' => by
    cases first.unique first'
    exact more.unique more'
  | .stops first, .stops first' => by
    cases first.unique first'
    rfl
  | .next first _, .stops first' | .stops first, .next first' _ => by
    cases first.unique first'

end

/-! ## The trail -/

/-- The trail has the tasks that the walk is in, each of them once. -/
structure OnTrail (dependencies : List (List Nat)) (visits : Visits) : Prop where
  length : visits.states.length = dependencies.length
  apart : visits.trail.Nodup
  visiting : ∀ i : Nat, visits.states[i]? = some .visiting ↔ i ∈ visits.trail

theorem OnTrail.short {visits : Visits} (onTrail : OnTrail dependencies visits) :
    visits.trail.length ≤ dependencies.length := by
  have within : visits.trail ⊆ List.range dependencies.length := by
    intro i hi
    obtain ⟨lt, -⟩ := List.getElem?_eq_some_iff.mp ((onTrail.visiting i).mpr hi)
    exact List.mem_range.mpr (onTrail.length ▸ lt)
  have := (onTrail.apart.subperm within).length_le
  rwa [List.length_range] at this

theorem OnTrail.enter {visits : Visits} {index : Nat} (onTrail : OnTrail dependencies visits)
    (unseen : visits.states[index]? = some .unseen) :
    OnTrail dependencies ⟨visits.states.set index .visiting, visits.trail ++ [index]⟩ := by
  have lt := (List.getElem?_eq_some_iff.mp unseen).1
  have fresh : index ∉ visits.trail := by
    rw [← onTrail.visiting, unseen]
    simp
  refine ⟨by simpa using onTrail.length, ?_, fun i => ?_⟩
  · refine List.nodup_append.mpr ⟨onTrail.apart, by simp, ?_⟩
    rintro i hi j hj rfl
    exact fresh (List.mem_singleton.mp hj ▸ hi)
  · by_cases same : index = i
    · subst same
      simp [lt]
    · rw [List.getElem?_set_ne same, onTrail.visiting]
      simp [Ne.symm same]

theorem OnTrail.leave {visits : Visits} {index : Nat} {trail : List Nat}
    (onTrail : OnTrail dependencies visits) (here : visits.trail = trail ++ [index]) :
    OnTrail dependencies ⟨visits.states.set index .complete, visits.trail.dropLast⟩ := by
  have apart := onTrail.apart
  rw [here] at apart
  have fresh : index ∉ trail := by
    intro h
    exact (List.nodup_append.mp apart).2.2 index h index (by simp) rfl
  refine ⟨by simpa using onTrail.length, ?_, fun i => ?_⟩
  · rw [here, List.dropLast_concat]
    exact apart.sublist (List.sublist_append_left _ _)
  · dsimp only
    rw [here, List.dropLast_concat]
    by_cases same : index = i
    · subst same
      simp only [fresh, iff_false]
      intro h
      rw [List.getElem?_set] at h
      split at h
      · split at h <;> cases h
      · contradiction
    · rw [List.getElem?_set_ne same, onTrail.visiting, here]
      simp [Ne.symm same]

/-! ## What a visit gives -/

def DependsOn (dependencies : List (List Nat)) (i d : Nat) : Prop := d ∈ row dependencies i

/-- A visit that passes leaves the trail as it was, and one that stops reports a cycle. -/
def Reports (dependencies : List (List Nat)) (trail : List Nat) :
    Except (List Nat) Visits → Prop
  | .ok after => OnTrail dependencies after ∧ after.trail = trail
  | .error cycle => SimpleCycle (DependsOn dependencies) cycle

theorem each_runs {fuel : Nat} {trail : List Nat} (l : List Nat)
    (one : ∀ before : Visits, OnTrail dependencies before → before.trail = trail → ∀ index ∈ l,
      VisitRuns dependencies before index (visit dependencies fuel before index) ∧
        Reports dependencies trail (visit dependencies fuel before index))
    {before : Visits} (onTrail : OnTrail dependencies before) (same : before.trail = trail) :
    EachRuns dependencies before l (l.foldlM (visit dependencies fuel) before) ∧
      Reports dependencies trail (l.foldlM (visit dependencies fuel) before) := by
  induction l generalizing before with
  | nil => exact ⟨.done, onTrail, same⟩
  | cons index rest ih =>
    obtain ⟨runs, reports⟩ := one before onTrail same index (by simp)
    rw [List.foldlM_cons]
    cases hvisit : visit dependencies fuel before index with
    | error cycle =>
      rw [hvisit] at runs reports
      exact ⟨.stops runs, reports⟩
    | ok middle =>
      rw [hvisit] at runs reports
      obtain ⟨more, told⟩ := ih (fun before onTrail same index h =>
        one before onTrail same index (List.mem_cons_of_mem _ h)) reports.1 reports.2
      exact ⟨.next runs more, told⟩

theorem found_of_getD {states : List Visit} {index : Nat} {state : Visit}
    (h : states[index]?.getD .complete = state) (other : state ≠ .complete) :
    states[index]? = some state := by
  cases found : states[index]? with
  | none => exact absurd (by simpa [found] using h.symm) other
  | some own => simpa [found] using h

/-- With more fuel than tasks off the trail, `visit` runs as the source does. -/
theorem visit_runs {fuel : Nat} : ∀ before : Visits, OnTrail dependencies before → ∀ index,
    (before.trail ++ [index]).IsChain (DependsOn dependencies) →
    dependencies.length < fuel + before.trail.length →
    VisitRuns dependencies before index (visit dependencies fuel before index) ∧
      Reports dependencies before.trail (visit dependencies fuel before index) := by
  induction fuel with
  | zero =>
    intro before onTrail index _ enough
    have := onTrail.short
    omega
  | succ fuel ih =>
    intro before onTrail index linked enough
    rw [visit]
    cases state : before.states[index]?.getD .complete with
    | complete => exact ⟨.complete state, onTrail, rfl⟩
    | visiting =>
      have mem : index ∈ before.trail :=
        (onTrail.visiting index).mp (found_of_getD state (by simp))
      exact ⟨.visiting state, .of_trail linked onTrail.apart mem⟩
    | unseen =>
      have unseen : before.states[index]? = some .unseen := found_of_getD state (by simp)
      have inside := onTrail.enter unseen
      have each := each_runs (row dependencies index) (fun middle onTrail same d hd => by
        have linked' : (middle.trail ++ [d]).IsChain (DependsOn dependencies) := by
          rw [same, List.append_assoc, List.singleton_append, List.isChain_split]
          exact ⟨linked, List.isChain_pair.mpr hd⟩
        rw [← same]
        exact ih middle onTrail d linked' (by simp [same]; omega)) inside rfl
      obtain ⟨runs, reports⟩ := each
      change EachRuns dependencies _ _ ((dependencies[index]?.getD []).foldlM _ _) at runs
      change Reports dependencies _ ((dependencies[index]?.getD []).foldlM _ _) at reports
      dsimp only
      cases hloop : (dependencies[index]?.getD []).foldlM (visit dependencies fuel)
          ⟨before.states.set index .visiting, before.trail ++ [index]⟩ with
      | error cycle =>
        rw [hloop] at runs reports
        exact ⟨.stops state runs, reports⟩
      | ok after =>
        rw [hloop] at runs reports
        obtain ⟨onTrail', here⟩ := reports
        refine ⟨.leaves state runs, onTrail'.leave here, ?_⟩
        change after.trail.dropLast = before.trail
        rw [here, List.dropLast_concat]

/-! ## The whole search -/

/-- `validate_acyclic` as the source runs it. -/
def ValidateRuns (dependencies : List (List Nat)) (result : Except (List Nat) Unit) : Prop :=
  ∃ visits, EachRuns dependencies ⟨List.replicate dependencies.length .unseen, []⟩
    (List.range dependencies.length) visits ∧ result = visits.map fun _ => ()

theorem start_onTrail (dependencies : List (List Nat)) :
    OnTrail dependencies ⟨List.replicate dependencies.length .unseen, []⟩ := by
  refine ⟨List.length_replicate, List.nodup_nil, fun i => ?_⟩
  simp [List.getElem?_replicate]

theorem ValidateRuns.unique {result other : Except (List Nat) Unit}
    (h : ValidateRuns dependencies result) (h' : ValidateRuns dependencies other) :
    result = other := by
  obtain ⟨visits, each, rfl⟩ := h
  obtain ⟨visits', each', rfl⟩ := h'
  rw [each.unique each']

theorem validateAcyclic_runs (dependencies : List (List Nat)) :
    ValidateRuns dependencies (validateAcyclic dependencies) ∧
      ∀ cycle, validateAcyclic dependencies = .error cycle →
        SimpleCycle (DependsOn dependencies) cycle := by
  have whole := each_runs (List.range dependencies.length) (fun before onTrail same index _ => by
    have linked : (before.trail ++ [index]).IsChain (DependsOn dependencies) := by
      rw [same]
      exact List.isChain_singleton _
    have visited := visit_runs before onTrail index linked (Nat.lt_add_right _ (Nat.lt_succ_self _))
    rwa [same] at visited) (start_onTrail dependencies) rfl
  obtain ⟨runs, reports⟩ := whole
  unfold validateAcyclic
  refine ⟨⟨_, runs, ?_⟩, fun cycle h => ?_⟩
  · cases (List.range dependencies.length).foldlM (visit dependencies (dependencies.length + 1))
      ⟨List.replicate dependencies.length .unseen, []⟩ <;> rfl
  · cases hloop : (List.range dependencies.length).foldlM
        (visit dependencies (dependencies.length + 1))
        ⟨List.replicate dependencies.length .unseen, []⟩ with
    | ok visits =>
      rw [hloop] at h
      cases h
    | error found =>
      rw [hloop] at h reports
      obtain rfl : found = cycle := Except.error.inj h
      exact reports

/-- The search ends, with what `validateAcyclic` gives, and what it refuses is a cycle. -/
theorem validateAcyclic_ends (dependencies : List (List Nat)) :
    (∀ result, ValidateRuns dependencies result ↔ result = validateAcyclic dependencies) ∧
      ∀ cycle, validateAcyclic dependencies = .error cycle →
        SimpleCycle (DependsOn dependencies) cycle := by
  obtain ⟨runs, cycles⟩ := validateAcyclic_runs dependencies
  refine ⟨fun result => ⟨fun h => h.unique runs, ?_⟩, cycles⟩
  rintro rfl
  exact runs

end Beez.Core
