import Beez.Core.Workflow

/-! # What `Workflow::try_from` accepts -/

open Beez.Lib

namespace Beez.Core

/-! ## Names to positions -/

/-- `indexes` finds every definition of the list, and nothing else. -/
def Indexes (definitions : List TaskDefinition) (indexes : TaskId → Option Nat) : Prop :=
  (definitions.map (·.id)).Nodup ∧
    ∀ id i, indexes id = some i ↔ definitions[i]?.map (·.id) = some id

theorem Indexes.none_iff {definitions : List TaskDefinition} {indexes : TaskId → Option Nat}
    (h : Indexes definitions indexes) (id : TaskId) :
    indexes id = none ↔ id ∉ definitions.map (·.id) := by
  rw [Option.eq_none_iff_forall_ne_some, List.mem_iff_getElem?]
  simp only [ne_eq, h.2, List.getElem?_map, not_exists]

theorem Indexes.snoc {definitions : List TaskDefinition} {indexes : TaskId → Option Nat}
    {definition : TaskDefinition} (h : Indexes definitions indexes)
    (fresh : indexes definition.id = none) :
    Indexes (definitions ++ [definition])
      (fun id => if id = definition.id then some definitions.length else indexes id) := by
  have absent := (h.none_iff _).mp fresh
  refine ⟨?_, fun id i => ?_⟩
  · rw [List.map_append, List.nodup_append]
    refine ⟨h.1, by simp, ?_⟩
    rintro a ha b hb rfl
    simp only [List.map_cons, List.map_nil, List.mem_singleton] at hb
    exact absent (hb ▸ ha)
  · dsimp only
    by_cases hid : id = definition.id
    · subst hid
      rw [if_pos rfl, Option.some.injEq]
      constructor
      · rintro rfl
        simp
      · intro hi
        by_contra hne
        have hlt : i < definitions.length := by
          have : i < (definitions ++ [definition]).length := by
            by_contra hge
            rw [List.getElem?_eq_none (by omega)] at hi
            simp at hi
          simp only [List.length_append, List.length_singleton] at this
          omega
        rw [List.getElem?_append_left hlt] at hi
        rw [(h.2 _ _).mpr hi] at fresh
        cases fresh
    · rw [if_neg hid, h.2]
      by_cases hlt : i < definitions.length
      · rw [List.getElem?_append_left hlt]
      · rw [List.getElem?_eq_none (by omega), List.getElem?_append_right (by omega)]
        constructor
        · simp
        · intro hi
          rw [List.getElem?_singleton] at hi
          split at hi
          · simp only [Option.map_some, Option.some.injEq] at hi
            exact absurd hi.symm hid
          · simp at hi

theorem indexFrom_spec {before definitions : List TaskDefinition}
    {indexes indexes' : TaskId → Option Nat} (hbefore : Indexes before indexes)
    (h : indexFrom before.length indexes definitions = .ok indexes') :
    Indexes (before ++ definitions) indexes' := by
  induction definitions generalizing before indexes with
  | nil =>
    simp only [indexFrom, Except.ok.injEq] at h
    simpa [← h] using hbefore
  | cons definition rest ih =>
    rw [indexFrom] at h
    split at h
    · cases h
    · rename_i hnone
      rw [Option.not_isSome_iff_eq_none] at hnone
      simpa using ih (hbefore.snoc hnone) (by simpa using h)

theorem taskIndexes_spec {definitions : List TaskDefinition}
    {indexes : TaskId → Option Nat} (h : taskIndexes definitions = .ok indexes) :
    Indexes definitions indexes := by
  have start : Indexes [] fun _ => none := ⟨by simp, by simp⟩
  simpa using indexFrom_spec start h

/-! ## Dependencies -/

theorem resolveAllDependencies_length {definitions : List TaskDefinition}
    {indexes : TaskId → Option Nat} {dependencies : List (List Nat)}
    (h : resolveAllDependencies definitions indexes = .ok dependencies) :
    dependencies.length = definitions.length := by
  have := (mapM_eq_ok h).length_eq
  simpa using this.symm

theorem resolveDependencies_mem {definition : TaskDefinition} {position : Nat}
    {indexes : TaskId → Option Nat} {dependencies : List Nat}
    (h : resolveDependencies definition position indexes = .ok dependencies)
    {d : Nat} (hd : d ∈ dependencies) : ∃ id, indexes id = some d := by
  obtain ⟨i, hi⟩ := List.mem_iff_getElem?.mp hd
  obtain ⟨id, -, hid⟩ := Forall₂.getElem? (mapM_eq_ok h) hi
  refine ⟨id, ?_⟩
  split at hid
  · cases hid
  · rename_i dependency hdep
    split at hid
    · cases hid
    · rw [Except.ok.injEq] at hid
      rw [hdep, hid]

theorem resolveAllDependencies_inRange {definitions : List TaskDefinition}
    {indexes : TaskId → Option Nat} {dependencies : List (List Nat)}
    (hix : Indexes definitions indexes)
    (h : resolveAllDependencies definitions indexes = .ok dependencies) (i : Nat)
    (d : Nat) (hd : d ∈ dependencies[i]?.getD []) : d < dependencies.length := by
  cases hrow : dependencies[i]? with
  | none => simp [hrow] at hd
  | some row =>
    obtain ⟨⟨definition, position⟩, -, hres⟩ := Forall₂.getElem? (mapM_eq_ok h) hrow
    rw [hrow, Option.getD_some] at hd
    obtain ⟨id, hid⟩ := resolveDependencies_mem hres hd
    have hsome := (hix.2 id d).mp hid
    rw [resolveAllDependencies_length h]
    by_contra hge
    rw [List.getElem?_eq_none (Nat.le_of_not_lt hge)] at hsome
    cases hsome

/-! ## Cycles

A depth-first walk completes a task after all it depends on, and that order is the
numbering which `Acyclic` asks for.
-/

section Cycles

def row (dependencies : List (List Nat)) (i : Nat) : List Nat :=
  dependencies[i]?.getD []

/-- A complete task has only complete dependencies, each numbered before it. -/
def Ranked (dependencies : List (List Nat)) (visits : Visits) : Prop :=
  ∃ rank : Nat → Nat, ∀ i, visits.states[i]? = some Visit.complete → ∀ d ∈ row dependencies i,
    visits.states[d]? = some Visit.complete ∧ rank d < rank i

/-- What a finished visit leaves alone. -/
structure Grows (before after : Visits) : Prop where
  length : after.states.length = before.states.length
  complete : ∀ i : Nat, before.states[i]? = some Visit.complete →
    after.states[i]? = some Visit.complete
  visiting : ∀ i : Nat, before.states[i]? = some Visit.visiting →
    after.states[i]? = some Visit.visiting

theorem Grows.refl (visits : Visits) : Grows visits visits := ⟨rfl, fun _ h => h, fun _ h => h⟩

theorem Grows.trans {a b c : Visits} (hab : Grows a b) (hbc : Grows b c) : Grows a c :=
  ⟨hbc.length.trans hab.length, fun i h => hbc.complete i (hab.complete i h),
    fun i h => hbc.visiting i (hab.visiting i h)⟩

variable {dependencies : List (List Nat)}

/-- Visits of a list of tasks, each of which promises what `visit_spec` says of one. -/
theorem foldlM_visit_spec {fuel : Nat} (l : List Nat)
    (hvisit : ∀ before index after, before.states.length = dependencies.length →
      Ranked dependencies before → visit dependencies fuel before index = .ok after →
      Grows before after ∧ Ranked dependencies after ∧
        (index < dependencies.length → after.states[index]? = some Visit.complete))
    {before after : Visits} (hlen : before.states.length = dependencies.length)
    (ranked : Ranked dependencies before)
    (h : l.foldlM (visit dependencies fuel) before = .ok after) :
    Grows before after ∧ Ranked dependencies after ∧
      ∀ d ∈ l, d < dependencies.length → after.states[d]? = some Visit.complete := by
  induction l generalizing before with
  | nil =>
    rw [List.foldlM_nil, pure_eq_ok] at h
    subst h
    exact ⟨Grows.refl _, ranked, by simp⟩
  | cons a rest ih =>
    rw [List.foldlM_cons, bind_eq_ok] at h
    obtain ⟨middle, hmiddle, h⟩ := h
    obtain ⟨grows, ranked, complete⟩ := hvisit before a middle hlen ranked hmiddle
    obtain ⟨grows', ranked', complete'⟩ := ih (grows.length.trans hlen) ranked h
    refine ⟨grows.trans grows', ranked', fun d hd hlt => ?_⟩
    rw [List.mem_cons] at hd
    rcases hd with rfl | hd
    · exact grows'.complete d (complete hlt)
    · exact complete' d hd hlt

theorem ranked_enter {visits : Visits} {index : Nat} {trail : List Nat}
    (hunseen : visits.states[index]? = some Visit.unseen) (ranked : Ranked dependencies visits) :
    Ranked dependencies ⟨visits.states.set index .visiting, trail⟩ := by
  obtain ⟨rank, hrank⟩ := ranked
  refine ⟨rank, fun i hi d hd => ?_⟩
  have hne : ∀ j : Nat, visits.states[j]? = some Visit.complete → index ≠ j := by
    rintro j hj rfl
    rw [hunseen] at hj
    cases hj
  have hi' : visits.states[i]? = some Visit.complete := by
    rw [List.getElem?_set] at hi
    split at hi
    · split at hi <;> cases hi
    · exact hi
  obtain ⟨hd', hlt⟩ := hrank i hi' d hd
  refine ⟨?_, hlt⟩
  rw [List.getElem?_set_ne (hne d hd')]
  exact hd'

theorem ranked_leave {visits : Visits} {index : Nat} {trail : List Nat}
    (hvisiting : visits.states[index]? = some Visit.visiting)
    (hdeps : ∀ d ∈ row dependencies index, visits.states[d]? = some Visit.complete)
    (ranked : Ranked dependencies visits) :
    Ranked dependencies ⟨visits.states.set index .complete, trail⟩ := by
  obtain ⟨rank, hrank⟩ := ranked
  obtain ⟨bound, hbound⟩ := exists_above rank (row dependencies index)
  have hne : ∀ j : Nat, visits.states[j]? = some Visit.complete → j ≠ index := by
    rintro j hj rfl
    rw [hvisiting] at hj
    cases hj
  have keep : ∀ j : Nat, visits.states[j]? = some Visit.complete →
      (visits.states.set index .complete)[j]? = some Visit.complete := by
    intro j hj
    rw [List.getElem?_set_ne (hne j hj).symm]
    exact hj
  -- `index` goes after everything it depends on, and nothing complete depends on it yet.
  refine ⟨fun j => if j = index then bound else rank j, fun i hi d hd => ?_⟩
  by_cases hindex : i = index
  · subst hindex
    have hd' := hdeps d hd
    refine ⟨keep d hd', ?_⟩
    simp only [if_neg (hne d hd'), if_pos]
    exact hbound d hd
  · rw [List.getElem?_set_ne (Ne.symm hindex)] at hi
    obtain ⟨hd', hlt⟩ := hrank i hi d hd
    refine ⟨keep d hd', ?_⟩
    simp only [if_neg (hne d hd'), if_neg hindex]
    exact hlt

theorem grows_enter_leave {visits after : Visits} {index : Nat} {trail trail' : List Nat}
    (hunseen : visits.states[index]? = some Visit.unseen)
    (grows : Grows ⟨visits.states.set index .visiting, trail⟩ after) :
    Grows visits ⟨after.states.set index .complete, trail'⟩ := by
  have hne : ∀ (j : Nat) (state), visits.states[j]? = some state → state ≠ .unseen → index ≠ j := by
    rintro j state hj hstate rfl
    rw [hunseen, Option.some.injEq] at hj
    exact hstate hj.symm
  refine ⟨?_, fun i hi => ?_, fun i hi => ?_⟩
  · simpa using grows.length
  · have hi' := hne i _ hi (by decide)
    rw [List.getElem?_set_ne hi']
    exact grows.complete i (by rw [List.getElem?_set_ne hi']; exact hi)
  · have hi' := hne i _ hi (by decide)
    rw [List.getElem?_set_ne hi']
    exact grows.visiting i (by rw [List.getElem?_set_ne hi']; exact hi)

theorem visit_spec (inRange : ∀ i : Nat, ∀ d ∈ row dependencies i, d < dependencies.length)
    {fuel : Nat} :
    ∀ before index after, before.states.length = dependencies.length →
      Ranked dependencies before → visit dependencies fuel before index = .ok after →
      Grows before after ∧ Ranked dependencies after ∧
        (index < dependencies.length → after.states[index]? = some Visit.complete) := by
  induction fuel with
  | zero =>
    intro before index after _ _ h
    cases h
  | succ fuel ih =>
    intro before index after hlen ranked h
    rw [visit] at h
    cases hstate : before.states[index]? with
    | none =>
      simp only [hstate, Option.getD_none, Except.ok.injEq] at h
      subst h
      refine ⟨Grows.refl _, ranked, fun hlt => ?_⟩
      rw [List.getElem?_eq_none_iff] at hstate
      omega
    | some state =>
      cases state with
      | complete =>
        simp only [hstate, Option.getD_some, Except.ok.injEq] at h
        subst h
        exact ⟨Grows.refl _, ranked, fun _ => hstate⟩
      | visiting => simp [hstate] at h
      | unseen =>
        simp only [hstate, Option.getD_some, bind_eq_ok, pure_eq_ok] at h
        obtain ⟨visits, hfold, rfl⟩ := h
        have hlt : index < before.states.length := (List.getElem?_eq_some_iff.mp hstate).1
        obtain ⟨grows, ranked', complete⟩ := foldlM_visit_spec _ ih
          (by simpa using hlen) (ranked_enter hstate ranked) hfold
        have hvisiting := grows.visiting index (by simp [hlt])
        refine ⟨grows_enter_leave hstate grows, ?_, fun _ => ?_⟩
        · exact ranked_leave hvisiting (fun d hd => complete d hd (inRange index d hd)) ranked'
        · have : index < visits.states.length := (List.getElem?_eq_some_iff.mp hvisiting).1
          simp [this]

theorem validateAcyclic_acyclic
    (inRange : ∀ i : Nat, ∀ d ∈ row dependencies i, d < dependencies.length)
    (h : validateAcyclic dependencies = .ok ()) : Acyclic (row dependencies) := by
  rw [validateAcyclic, bind_eq_ok] at h
  obtain ⟨visits, hfold, -⟩ := h
  have start : Ranked dependencies ⟨List.replicate dependencies.length .unseen, []⟩ := by
    refine ⟨fun _ => 0, fun i hi => ?_⟩
    simp [List.getElem?_replicate] at hi
  obtain ⟨-, ⟨rank, hrank⟩, complete⟩ :=
    foldlM_visit_spec _ (visit_spec inRange) (by simp) start hfold
  refine ⟨rank, fun i d hd => ?_⟩
  have hi : i < dependencies.length := by
    by_contra hge
    rw [row, List.getElem?_eq_none (by omega)] at hd
    simp at hd
  exact (hrank i (complete i (by simpa using hi) hi) d hd).2

end Cycles

/-! ## Output references -/

section Reads

variable {definition : TaskDefinition} {dependencies : List Nat}
  {indexes : TaskId → Option Nat}

/-- `sources` holds only dependencies, and the task that every reference names. -/
def Covers (dependencies : List Nat) (indexes : TaskId → Option Nat)
    (references : List OutputReference) (sources : List Nat) : Prop :=
  (∀ i ∈ sources, i ∈ dependencies) ∧
    ∀ reference ∈ references, ∃ i ∈ sources, indexes reference.task = some i

theorem resolveReference_spec {sources sources' : List Nat} {reference : OutputReference}
    {seen : List OutputReference} (covers : Covers dependencies indexes seen sources)
    (h : resolveReference definition dependencies indexes sources reference = .ok sources') :
    Covers dependencies indexes (seen ++ [reference]) sources' := by
  rw [resolveReference] at h
  split at h
  · cases h
  split at h
  · cases h
  rename_i index hindex
  split at h
  · cases h
  rename_i hdep
  rw [not_not] at hdep
  have grow : ∀ sources', (∀ i ∈ sources, i ∈ sources') → index ∈ sources' →
      (∀ i ∈ sources', i ∈ dependencies) →
      Covers dependencies indexes (seen ++ [reference]) sources' := by
    intro sources' hsub hmem hdeps
    refine ⟨hdeps, fun r hr => ?_⟩
    rw [List.mem_append, List.mem_singleton] at hr
    rcases hr with hr | rfl
    · obtain ⟨i, hi, hri⟩ := covers.2 r hr
      exact ⟨i, hsub i hi, hri⟩
    · exact ⟨index, hmem, hindex⟩
  split at h
  · simp only [Except.ok.injEq] at h
    subst h
    refine grow _ (by simp +contextual) (by simp) fun i hi => ?_
    rw [List.mem_append, List.mem_singleton] at hi
    rcases hi with hi | rfl
    · exact covers.1 i hi
    · exact hdep
  · rename_i hmem
    simp only [Except.ok.injEq] at h
    subst h
    exact grow _ (fun _ h => h) (not_not.mp hmem) covers.1

theorem foldlM_resolveReference_spec {references seen : List OutputReference}
    {sources sources' : List Nat} (covers : Covers dependencies indexes seen sources)
    (h : references.foldlM (resolveReference definition dependencies indexes) sources =
      .ok sources') : Covers dependencies indexes (seen ++ references) sources' := by
  induction references generalizing seen sources with
  | nil =>
    rw [List.foldlM_nil, pure_eq_ok] at h
    simpa [← h] using covers
  | cons reference rest ih =>
    rw [List.foldlM_cons, bind_eq_ok] at h
    obtain ⟨middle, hmiddle, h⟩ := h
    simpa using ih (resolveReference_spec covers hmiddle) h

theorem foldlM_resolveText_spec {texts : List Text} {seen : List OutputReference}
    {sources sources' : List Nat} (covers : Covers dependencies indexes seen sources)
    (h : texts.foldlM (resolveText definition dependencies indexes) sources = .ok sources') :
    ∃ more, Covers dependencies indexes (seen ++ more) sources' ∧ ∀ text ∈ texts, ∃ template,
      Template.parse text = .ok template ∧ ∀ reference ∈ template.references, reference ∈ more := by
  induction texts generalizing seen sources with
  | nil =>
    rw [List.foldlM_nil, pure_eq_ok] at h
    exact ⟨[], by simpa [← h] using covers, by simp⟩
  | cons text rest ih =>
    rw [List.foldlM_cons, bind_eq_ok] at h
    obtain ⟨middle, hmiddle, h⟩ := h
    rw [resolveText] at hmiddle
    split at hmiddle
    · cases hmiddle
    · rename_i template hparse
      obtain ⟨more, covers', htexts⟩ := ih (foldlM_resolveReference_spec covers hmiddle) h
      refine ⟨template.references ++ more, by simpa using covers', fun t ht => ?_⟩
      rw [List.mem_cons] at ht
      rcases ht with rfl | ht
      · exact ⟨template, hparse, by simp +contextual⟩
      · obtain ⟨template', hparse', hrefs⟩ := htexts t ht
        exact ⟨template', hparse', fun r hr => by simp [hrefs r hr]⟩

theorem resolveOutputSources_spec {reads : List Nat}
    (h : resolveOutputSources definition dependencies indexes = .ok reads) :
    ∀ text ∈ definition.request.texts, ∃ template, Template.parse text = .ok template ∧
      ∀ reference ∈ template.references,
        ∃ i ∈ reads, i ∈ dependencies ∧ indexes reference.task = some i := by
  have covers : Covers dependencies indexes [] [] := ⟨by simp, by simp⟩
  obtain ⟨more, covers', htexts⟩ := foldlM_resolveText_spec covers h
  intro text htext
  obtain ⟨template, hparse, hrefs⟩ := htexts text htext
  refine ⟨template, hparse, fun reference hr => ?_⟩
  obtain ⟨i, hi, hix⟩ := covers'.2 reference (by simpa using hrefs reference hr)
  exact ⟨i, hi, covers'.1 i hi, hix⟩

end Reads

/-! ## The whole validation -/

section Resolved

variable {definitions : List TaskDefinition} {tasks : List Task}

/-- What every check of `resolveTasks` found, and the tasks built from it. -/
structure Resolved (definitions : List TaskDefinition) (tasks : List Task)
    (indexes : TaskId → Option Nat) (dependencies reads : List (List Nat)) : Prop where
  nonempty : definitions ≠ []
  indexed : Indexes definitions indexes
  predecessors : resolveAllDependencies definitions indexes = .ok dependencies
  acyclic : validateAcyclic dependencies = .ok ()
  sources : (definitions.zip dependencies).mapM (fun (definition, dependencies) =>
    resolveOutputSources definition dependencies indexes) = .ok reads
  built : tasks = ((definitions.zip dependencies).zip reads).map
    fun ((definition, dependencies), reads) =>
      ⟨definition.id, dependencies, reads, definition.request, definition.sandbox⟩

theorem resolveTasks_resolved (h : resolveTasks definitions = .ok tasks) :
    ∃ indexes dependencies reads, Resolved definitions tasks indexes dependencies reads := by
  rw [resolveTasks] at h
  split at h
  · cases h
  rename_i hne
  simp only [bind_eq_ok] at h
  obtain ⟨indexes, hindexes, dependencies, hdependencies, h⟩ := h
  split at h
  · cases h
  rename_i hacyclic
  rw [bind_eq_ok] at h
  obtain ⟨reads, hreads, h⟩ := h
  rw [pure_eq_ok] at h
  exact ⟨indexes, dependencies, reads, hne, taskIndexes_spec hindexes, hdependencies, hacyclic,
    hreads, h.symm⟩

variable {indexes : TaskId → Option Nat} {dependencies reads : List (List Nat)}

theorem Resolved.reads_length (h : Resolved definitions tasks indexes dependencies reads) :
    reads.length = definitions.length := by
  have hzip := (mapM_eq_ok h.sources).length_eq
  have := resolveAllDependencies_length h.predecessors
  rw [List.length_zip, this, Nat.min_self] at hzip
  exact hzip.symm

theorem Resolved.length (h : Resolved definitions tasks indexes dependencies reads) :
    tasks.length = definitions.length := by
  have hdependencies := resolveAllDependencies_length h.predecessors
  have hreads := h.reads_length
  rw [h.built]
  simp [hdependencies, hreads]

theorem Resolved.task (h : Resolved definitions tasks indexes dependencies reads) {i : Nat}
    {task : Task} (htask : tasks[i]? = some task) :
    ∃ definition, definitions[i]? = some definition ∧ dependencies[i]? = some task.dependencies ∧
      resolveOutputSources definition task.dependencies indexes = .ok task.reads ∧
      task.id = definition.id ∧ task.request = definition.request ∧
      task.sandbox = definition.sandbox := by
  rw [h.built, List.getElem?_map, Option.map_eq_some_iff] at htask
  obtain ⟨⟨⟨definition, deps⟩, read⟩, hzip, rfl⟩ := htask
  rw [List.getElem?_zip_eq_some] at hzip
  obtain ⟨hzip, hread⟩ := hzip
  obtain ⟨pair, hpair, hres⟩ := Forall₂.getElem? (mapM_eq_ok h.sources) hread
  rw [hzip, Option.some.injEq] at hpair
  subst hpair
  rw [List.getElem?_zip_eq_some] at hzip
  exact ⟨definition, hzip.1, hzip.2, hres, rfl, rfl, rfl⟩

theorem Resolved.idAt (h : Resolved definitions tasks indexes dependencies reads) (i : Nat) :
    idAt tasks i = definitions[i]?.map (·.id) := by
  rw [Core.idAt]
  cases htask : tasks[i]? with
  | none =>
    rw [List.getElem?_eq_none_iff, h.length, ← List.getElem?_eq_none_iff] at htask
    rw [htask]
    rfl
  | some task =>
    obtain ⟨definition, hdef, -, -, hid, -⟩ := h.task htask
    rw [hdef, Option.map_some, Option.map_some, hid]

theorem Resolved.dependenciesAt (h : Resolved definitions tasks indexes dependencies reads)
    (i : Nat) : dependenciesAt tasks i = row dependencies i := by
  rw [Core.dependenciesAt, row]
  cases htask : tasks[i]? with
  | none =>
    have := resolveAllDependencies_length h.predecessors
    rw [List.getElem?_eq_none_iff, h.length, ← this, ← List.getElem?_eq_none_iff] at htask
    rw [htask]
    rfl
  | some task =>
    obtain ⟨definition, -, hdeps, -⟩ := h.task htask
    rw [hdeps]
    rfl

theorem Resolved.wellFormed (h : Resolved definitions tasks indexes dependencies reads) :
    WellFormed tasks := by
  have inRange := resolveAllDependencies_inRange h.indexed h.predecessors
  refine ⟨?_, ?_, ?_, ?_, ?_⟩
  · intro hnil
    have := h.length
    simp only [hnil, List.length_nil] at this
    exact h.nonempty (List.length_eq_zero_iff.mp this.symm)
  · have : tasks.map (·.id) = definitions.map (·.id) := by
      refine List.ext_getElem? fun i => ?_
      rw [List.getElem?_map, List.getElem?_map]
      exact h.idAt i
    rw [this]
    exact h.indexed.1
  · intro i d hd
    rw [h.dependenciesAt] at hd
    rw [h.length, ← resolveAllDependencies_length h.predecessors]
    exact inRange i d hd
  · have : Core.dependenciesAt tasks = row dependencies := funext h.dependenciesAt
    rw [this]
    exact validateAcyclic_acyclic inRange h.acyclic
  · intro task htask text htext
    obtain ⟨i, hi⟩ := List.mem_iff_getElem?.mp htask
    obtain ⟨definition, -, -, hsources, -, hrequest, -⟩ := h.task hi
    rw [hrequest] at htext
    obtain ⟨template, hparse, hrefs⟩ := resolveOutputSources_spec hsources text htext
    refine ⟨template, hparse, fun reference hr => ?_⟩
    obtain ⟨j, hread, hdep, hix⟩ := hrefs reference hr
    refine ⟨j, hread, hdep, ?_⟩
    rw [h.idAt]
    exact (h.indexed.2 _ _).mp hix

end Resolved

theorem resolveTasks_wellFormed {definitions : List TaskDefinition} {tasks : List Task}
    (h : resolveTasks definitions = .ok tasks) : WellFormed tasks := by
  obtain ⟨indexes, dependencies, reads, resolved⟩ := resolveTasks_resolved h
  exact resolved.wellFormed

def Workflow.tryFrom (definitions : List TaskDefinition) : Except WorkflowError Workflow :=
  match h : resolveTasks definitions with
  | .ok tasks => .ok ⟨tasks, resolveTasks_wellFormed h⟩
  | .error error => .error error

end Beez.Core
