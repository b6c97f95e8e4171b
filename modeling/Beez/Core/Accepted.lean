import Beez.Core.Cycles

/-! # The lists of tasks that make a workflow -/

open Beez.Lib

namespace Beez.Core

/-! ## What a list of definitions has to be -/

/-- The task `a` names `b` among its dependencies. -/
def NamesTask (definitions : List TaskDefinition) (a b : TaskId) : Prop :=
  ∃ definition ∈ definitions, definition.id = a ∧ b ∈ definition.dependsOn

structure Accepted (definitions : List TaskDefinition) : Prop where
  nonempty : definitions ≠ []
  ids : (definitions.map (·.id)).Nodup
  named : ∀ definition ∈ definitions, ∀ id ∈ definition.dependsOn,
    id ≠ definition.id ∧ id ∈ definitions.map (·.id)
  acyclic : ∀ id, ¬ Relation.TransGen (NamesTask definitions) id id
  references : ∀ definition ∈ definitions, ∀ text ∈ definition.request.texts, ∃ template,
    Template.parse text = .ok template ∧
      ∀ reference ∈ template.references, reference.task ∈ definition.dependsOn

def ReadsOutput (definitions : List TaskDefinition) (request : TaskRequest) (j : Nat) : Prop :=
  ∃ text ∈ request.texts, ∃ template, Template.parse text = .ok template ∧
    ∃ reference ∈ template.references, definitions[j]?.map (·.id) = some reference.task

/-- The task of a definition. Its dependencies stand at the positions of the tasks it names, in
their order. -/
structure Resolves (definitions : List TaskDefinition) (definition : TaskDefinition) (task : Task) :
    Prop where
  id : task.id = definition.id
  request : task.request = definition.request
  sandbox : task.sandbox = definition.sandbox
  dependencies : task.dependencies.map (fun d => definitions[d]?.map (·.id)) =
    definition.dependsOn.map some
  apart : task.reads.Nodup
  reads : ∀ j, j ∈ task.reads ↔ ReadsOutput definitions definition.request j

variable {definitions : List TaskDefinition} {indexes : TaskId → Option Nat}

/-! ## Names to positions -/

theorem indexFrom_isOk {before after : List TaskDefinition} (indexed : Indexes before indexes)
    (apart : ((before ++ after).map (·.id)).Nodup) :
    ∃ indexes', indexFrom before.length indexes after = .ok indexes' := by
  induction after generalizing before indexes with
  | nil => exact ⟨indexes, rfl⟩
  | cons definition rest ih =>
    have fresh : indexes definition.id = none := by
      rw [indexed.none_iff]
      intro mem
      rw [List.map_append, List.map_cons, List.nodup_append] at apart
      exact apart.2.2 _ mem _ (by simp) rfl
    rw [indexFrom, fresh]
    simpa using ih (indexed.snoc fresh) (by simpa using apart)

theorem taskIndexes_isOk (apart : (definitions.map (·.id)).Nodup) :
    ∃ indexes, taskIndexes definitions = .ok indexes := by
  have start : Indexes [] fun _ => none := ⟨by simp, by simp⟩
  exact indexFrom_isOk start (by simpa using apart)

/-! ## Dependencies -/

section

variable {definition : TaskDefinition} {position : Nat} {dependencies : List Nat}

theorem resolveDependencies_ok
    (h : resolveDependencies definition position indexes = .ok dependencies) :
    List.Forall₂ (fun id d => indexes id = some d ∧ d ≠ position) definition.dependsOn
      dependencies := by
  refine (mapM_eq_ok h).imp fun id d hd => ?_
  split at hd
  · cases hd
  · rename_i found hfound
    split at hd
    · cases hd
    · rename_i other
      obtain rfl := Except.ok.inj hd
      exact ⟨hfound, other⟩

theorem resolveDependencies_isOk (indexed : Indexes definitions indexes)
    (here : definitions[position]? = some definition)
    (named : ∀ id ∈ definition.dependsOn, id ≠ definition.id ∧ id ∈ definitions.map (·.id)) :
    ∃ dependencies, resolveDependencies definition position indexes = .ok dependencies := by
  refine mapM_isOk fun id hid => ?_
  obtain ⟨other, mem⟩ := named id hid
  cases hindex : indexes id with
  | none => exact absurd mem ((indexed.none_iff id).mp hindex)
  | some d =>
    have apart : d ≠ position := by
      rintro rfl
      have same := (indexed.2 id d).mp hindex
      rw [here] at same
      exact other (Option.some.inj same).symm
    exact ⟨d, by simp [apart]⟩

theorem dependencies_named (indexed : Indexes definitions indexes)
    (h : resolveDependencies definition position indexes = .ok dependencies) :
    dependencies.map (fun d => definitions[d]?.map (·.id)) = definition.dependsOn.map some := by
  have each := resolveDependencies_ok h
  generalize definition.dependsOn = names at each ⊢
  clear h
  induction each with
  | nil => rfl
  | cons first _ ih =>
    rw [List.map_cons, List.map_cons, ih, (indexed.2 _ _).mp first.1]

theorem mem_dependencies_iff (indexed : Indexes definitions indexes)
    (h : resolveDependencies definition position indexes = .ok dependencies) {id : TaskId} {d : Nat}
    (found : indexes id = some d) : d ∈ dependencies ↔ id ∈ definition.dependsOn := by
  have names := dependencies_named indexed h
  have here := (indexed.2 id d).mp found
  constructor
  · intro mem
    have := List.mem_map_of_mem (f := fun d => definitions[d]?.map (·.id)) mem
    rw [names, here] at this
    simpa using this
  · intro mem
    have : some id ∈ definition.dependsOn.map some := List.mem_map_of_mem mem
    rw [← names] at this
    obtain ⟨other, hother, same⟩ := List.mem_map.mp this
    have := (indexed.2 id other).mpr same
    rw [found] at this
    exact Option.some.inj this ▸ hother

end

theorem dependencies_row {dependencies : List (List Nat)}
    (h : resolveAllDependencies definitions indexes = .ok dependencies) {i : Nat} {own : List Nat}
    (here : dependencies[i]? = some own) : ∃ definition, definitions[i]? = some definition ∧
      resolveDependencies definition i indexes = .ok own := by
  obtain ⟨⟨definition, position⟩, hpair, hown⟩ := Forall₂.getElem? (mapM_eq_ok h) here
  obtain ⟨hdef, rfl⟩ : definitions[i]? = some definition ∧ i = position := by
    rw [List.getElem?_zipIdx] at hpair
    simpa [Option.map_eq_some_iff, eq_comm] using hpair
  exact ⟨definition, hdef, hown⟩

/-! ## Cycles -/

section

variable {dependencies : List (List Nat)}

theorem names_of_needs (indexed : Indexes definitions indexes)
    (h : resolveAllDependencies definitions indexes = .ok dependencies) {i j : Nat}
    (needs : Relation.TransGen (DependsOn dependencies) i j) :
    ∃ a b, definitions[i]?.map (·.id) = some a ∧ definitions[j]?.map (·.id) = some b ∧
      Relation.TransGen (NamesTask definitions) a b := by
  have one : ∀ {i d}, DependsOn dependencies i d → ∃ a b, definitions[i]?.map (·.id) = some a ∧
      definitions[d]?.map (·.id) = some b ∧ NamesTask definitions a b := by
    intro i d hd
    unfold DependsOn row at hd
    cases hrow : dependencies[i]? with
    | none => simp [hrow] at hd
    | some own =>
      rw [hrow, Option.getD_some] at hd
      obtain ⟨definition, hdef, hown⟩ := dependencies_row h hrow
      obtain ⟨id, hid⟩ := resolveDependencies_mem hown hd
      refine ⟨definition.id, id, by rw [hdef]; rfl, (indexed.2 id d).mp hid, definition,
        List.mem_of_getElem? hdef, rfl, (mem_dependencies_iff indexed hown hid).mp hd⟩
  induction needs with
  | single step =>
    obtain ⟨a, b, ha, hb, names⟩ := one step
    exact ⟨a, b, ha, hb, .single names⟩
  | tail _ step ih =>
    obtain ⟨a, b, ha, hb, way⟩ := ih
    obtain ⟨b', c, hb', hc, names⟩ := one step
    obtain rfl : b = b' := Option.some.inj (hb.symm.trans hb')
    exact ⟨a, c, ha, hc, way.tail names⟩

theorem validateAcyclic_isOk (indexed : Indexes definitions indexes)
    (h : resolveAllDependencies definitions indexes = .ok dependencies)
    (acyclic : ∀ id, ¬ Relation.TransGen (NamesTask definitions) id id) :
    validateAcyclic dependencies = .ok () := by
  cases result : validateAcyclic dependencies with
  | ok => rfl
  | error cycle =>
    obtain ⟨i, returns⟩ := ((validateAcyclic_runs dependencies).2 cycle result).returns
    obtain ⟨a, b, ha, hb, way⟩ := names_of_needs indexed h returns
    obtain rfl : a = b := Option.some.inj (ha.symm.trans hb)
    exact absurd way (acyclic a)

theorem names_rank {rank : Nat → Nat} (indexed : Indexes definitions indexes)
    (h : resolveAllDependencies definitions indexes = .ok dependencies)
    (falls : ∀ i, ∀ d ∈ row dependencies i, rank d < rank i) {a b : TaskId}
    (way : Relation.TransGen (NamesTask definitions) a b) :
    ∃ i j, indexes a = some i ∧ indexes b = some j ∧ rank j < rank i := by
  have one : ∀ {a b}, NamesTask definitions a b →
      ∃ i j, indexes a = some i ∧ indexes b = some j ∧ rank j < rank i := by
    rintro a b ⟨definition, hmem, rfl, hb⟩
    obtain ⟨i, hi⟩ := List.mem_iff_getElem?.mp hmem
    have lt : i < dependencies.length := by
      rw [resolveAllDependencies_length h]
      exact (List.getElem?_eq_some_iff.mp hi).1
    have hrow := List.getElem?_eq_getElem lt
    obtain ⟨definition', hdef, hown⟩ := dependencies_row h hrow
    obtain rfl : definition = definition' := Option.some.inj (hi.symm.trans hdef)
    obtain ⟨d, -, hd, -⟩ := Forall₂.exists_right (resolveDependencies_ok hown) hb
    refine ⟨i, d, (indexed.2 _ _).mpr (by rw [hi]; rfl), hd, falls i d ?_⟩
    rw [row, hrow, Option.getD_some]
    exact (mem_dependencies_iff indexed hown hd).mpr hb
  induction way with
  | single step => exact one step
  | tail _ step ih =>
    obtain ⟨i, j, hi, hj, less⟩ := ih
    obtain ⟨j', k, hj', hk, less'⟩ := one step
    obtain rfl : j = j' := Option.some.inj (hj.symm.trans hj')
    exact ⟨i, k, hi, hk, less'.trans less⟩

end

/-! ## Output references -/

section

variable {definition : TaskDefinition} {dependencies : List Nat}

/-- A reference that passes names a dependency, and its task is read. -/
theorem resolveReference_reads {sources sources' : List Nat} {reference : OutputReference}
    (h : resolveReference definition dependencies indexes sources reference = .ok sources') :
    ∃ index ∈ dependencies, indexes reference.task = some index ∧
      (sources.Nodup → sources'.Nodup) ∧ ∀ j, j ∈ sources' ↔ j ∈ sources ∨ j = index := by
  rw [resolveReference] at h
  split at h
  · cases h
  split at h
  · cases h
  rename_i index hindex
  split at h
  · cases h
  rename_i within
  refine ⟨index, not_not.mp within, hindex, ?_⟩
  split at h
  · rename_i fresh
    obtain rfl := Except.ok.inj h
    refine ⟨fun apart => ?_, by simp⟩
    refine List.nodup_append.mpr ⟨apart, by simp, ?_⟩
    rintro i hi j hj rfl
    exact fresh (List.mem_singleton.mp hj ▸ hi)
  · rename_i known
    obtain rfl := Except.ok.inj h
    refine ⟨id, fun j => ⟨.inl, ?_⟩⟩
    rintro (hj | rfl)
    · exact hj
    · exact not_not.mp known

/-- The tasks that some of the references name. -/
def Named (indexes : TaskId → Option Nat) (references : List OutputReference) (j : Nat) : Prop :=
  ∃ reference ∈ references, indexes reference.task = some j

theorem foldlM_resolveReference_reads {references : List OutputReference}
    {sources sources' : List Nat}
    (h : references.foldlM (resolveReference definition dependencies indexes) sources =
      .ok sources') :
    (∀ reference ∈ references, ∃ index ∈ dependencies, indexes reference.task = some index) ∧
      (sources.Nodup → sources'.Nodup) ∧
      ∀ j, j ∈ sources' ↔ j ∈ sources ∨ Named indexes references j := by
  induction references generalizing sources with
  | nil =>
    rw [List.foldlM_nil, pure_eq_ok] at h
    subst h
    exact ⟨by simp, id, by simp [Named]⟩
  | cons reference rest ih =>
    rw [List.foldlM_cons, bind_eq_ok] at h
    obtain ⟨middle, hmiddle, h⟩ := h
    obtain ⟨index, within, hindex, apart, reads⟩ := resolveReference_reads hmiddle
    obtain ⟨more, apart', reads'⟩ := ih h
    refine ⟨?_, fun h => apart' (apart h), fun j => ?_⟩
    · exact List.forall_mem_cons.mpr ⟨⟨index, within, hindex⟩, more⟩
    · have first : Named indexes (reference :: rest) j ↔ j = index ∨ Named indexes rest j := by
        simp only [Named, List.mem_cons, exists_eq_or_imp, hindex, Option.some.injEq]
        exact or_congr_left eq_comm
      rw [reads', reads, first, or_assoc]

theorem foldlM_resolveText_reads {texts : List Text} {sources sources' : List Nat}
    (h : texts.foldlM (resolveText definition dependencies indexes) sources = .ok sources') :
    (∀ text ∈ texts, ∃ template, Template.parse text = .ok template ∧
      ∀ reference ∈ template.references,
        ∃ index ∈ dependencies, indexes reference.task = some index) ∧
      (sources.Nodup → sources'.Nodup) ∧
      ∀ j, j ∈ sources' ↔ j ∈ sources ∨ ∃ text ∈ texts, ∃ template,
        Template.parse text = .ok template ∧ Named indexes template.references j := by
  induction texts generalizing sources with
  | nil =>
    rw [List.foldlM_nil, pure_eq_ok] at h
    subst h
    exact ⟨by simp, id, by simp⟩
  | cons text rest ih =>
    rw [List.foldlM_cons, bind_eq_ok] at h
    obtain ⟨middle, hmiddle, h⟩ := h
    rw [resolveText] at hmiddle
    split at hmiddle
    · cases hmiddle
    · rename_i template hparse
      obtain ⟨named, apart, reads⟩ := foldlM_resolveReference_reads hmiddle
      obtain ⟨more, apart', reads'⟩ := ih h
      refine ⟨List.forall_mem_cons.mpr ⟨⟨template, hparse, named⟩, more⟩,
        fun h => apart' (apart h), fun j => ?_⟩
      rw [reads', reads]
      simp only [List.mem_cons, exists_eq_or_imp, hparse, Except.ok.injEq, exists_eq_left',
        or_assoc]

theorem resolveOutputSources_isOk
    (known : ∀ text ∈ definition.request.texts, ∃ template, Template.parse text = .ok template ∧
      ∀ reference ∈ template.references, reference.task ≠ definition.id ∧
        ∃ index ∈ dependencies, indexes reference.task = some index) :
    ∃ reads, resolveOutputSources definition dependencies indexes = .ok reads := by
  refine foldlM_isOk (fun text htext sources => ?_) []
  obtain ⟨template, hparse, references⟩ := known text htext
  rw [resolveText, hparse]
  refine foldlM_isOk (fun reference hreference sources => ?_) sources
  obtain ⟨other, index, within, hindex⟩ := references reference hreference
  rw [resolveReference, if_neg other, hindex]
  simp only [within, not_true_eq_false, if_false]
  split
  · exact ⟨_, rfl⟩
  · exact ⟨_, rfl⟩

end

/-! ## The whole validation -/

theorem readsOutput_iff (indexed : Indexes definitions indexes) {request : TaskRequest} {j : Nat} :
    ReadsOutput definitions request j ↔ ∃ text ∈ request.texts, ∃ template,
      Template.parse text = .ok template ∧ Named indexes template.references j := by
  simp only [ReadsOutput, Named, indexed.2]

theorem Resolved.task_of {tasks : List Task} {dependencies reads : List (List Nat)}
    (h : Resolved definitions tasks indexes dependencies reads) {i : Nat} {task : Task}
    {definition : TaskDefinition} (hdef : definitions[i]? = some definition)
    (htask : tasks[i]? = some task) :
    resolveDependencies definition i indexes = .ok task.dependencies ∧
      resolveOutputSources definition task.dependencies indexes = .ok task.reads ∧
      task.id = definition.id ∧ task.request = definition.request ∧
      task.sandbox = definition.sandbox := by
  obtain ⟨found, hfound, hrow, hread⟩ := h.task htask
  obtain rfl : definition = found := Option.some.inj (hdef.symm.trans hfound)
  obtain ⟨found, hfound, hown⟩ := dependencies_row h.predecessors hrow
  obtain rfl : definition = found := Option.some.inj (hdef.symm.trans hfound)
  exact ⟨hown, hread⟩

theorem Resolved.resolves {tasks : List Task} {dependencies reads : List (List Nat)}
    (h : Resolved definitions tasks indexes dependencies reads) {i : Nat} {task : Task}
    {definition : TaskDefinition} (hdef : definitions[i]? = some definition)
    (htask : tasks[i]? = some task) : Resolves definitions definition task := by
  obtain ⟨hown, hreads, hid, hrequest, hsandbox⟩ := h.task_of hdef htask
  obtain ⟨-, apart, named⟩ := foldlM_resolveText_reads hreads
  refine ⟨hid, hrequest, hsandbox, dependencies_named h.indexed hown, apart .nil, fun j => ?_⟩
  rw [readsOutput_iff h.indexed, named j]
  simp

theorem Resolved.accepted {tasks : List Task} {dependencies reads : List (List Nat)}
    (h : Resolved definitions tasks indexes dependencies reads) : Accepted definitions := by
  have each : ∀ definition ∈ definitions, ∃ (i : Nat) (task : Task),
      definitions[i]? = some definition ∧
      resolveDependencies definition i indexes = .ok task.dependencies ∧
      resolveOutputSources definition task.dependencies indexes = .ok task.reads := by
    intro definition hmem
    obtain ⟨i, hi⟩ := List.mem_iff_getElem?.mp hmem
    have lt : i < tasks.length := by
      rw [h.length]
      exact (List.getElem?_eq_some_iff.mp hi).1
    obtain ⟨hown, hreads, -⟩ := h.task_of hi (List.getElem?_eq_getElem lt)
    exact ⟨i, tasks[i], hi, hown, hreads⟩
  refine ⟨h.nonempty, h.indexed.1, ?_, ?_, ?_⟩
  · intro definition hmem id hid
    obtain ⟨i, task, hi, hown, -⟩ := each definition hmem
    obtain ⟨d, -, hd, other⟩ := Forall₂.exists_right (resolveDependencies_ok hown) hid
    have there := (h.indexed.2 id d).mp hd
    constructor
    · rintro rfl
      have here := (h.indexed.2 definition.id i).mpr (by rw [hi]; rfl)
      exact other (Option.some.inj (hd.symm.trans here))
    · by_contra missing
      rw [(h.indexed.none_iff id).mpr missing] at hd
      cases hd
  · intro id returns
    obtain ⟨rank, falls⟩ := validateAcyclic_acyclic
      (resolveAllDependencies_inRange h.indexed h.predecessors) h.acyclic
    obtain ⟨i, j, hi, hj, less⟩ := names_rank h.indexed h.predecessors falls returns
    obtain rfl : i = j := Option.some.inj (hi.symm.trans hj)
    omega
  · intro definition hmem text htext
    obtain ⟨i, task, -, hown, hreads⟩ := each definition hmem
    obtain ⟨template, hparse, references⟩ := (foldlM_resolveText_reads hreads).1 text htext
    refine ⟨template, hparse, fun reference hreference => ?_⟩
    obtain ⟨index, within, hindex⟩ := references reference hreference
    exact (mem_dependencies_iff h.indexed hown hindex).mp within

theorem Accepted.resolveTasks_isOk (accepted : Accepted definitions) :
    ∃ tasks, resolveTasks definitions = .ok tasks := by
  obtain ⟨indexes, hindexes⟩ := taskIndexes_isOk accepted.ids
  have indexed := taskIndexes_spec hindexes
  have at_position : ∀ {definition : TaskDefinition} {i : Nat},
      (definition, i) ∈ definitions.zipIdx → definitions[i]? = some definition := by
    intro definition i mem
    simpa using List.mem_zipIdx_iff_getElem?.mp mem
  obtain ⟨dependencies, hdependencies⟩ :
      ∃ dependencies, resolveAllDependencies definitions indexes = .ok dependencies := by
    refine mapM_isOk ?_
    rintro ⟨definition, i⟩ mem
    have here := at_position mem
    exact resolveDependencies_isOk indexed here
      (accepted.named definition (List.mem_of_getElem? here))
  have acyclic := validateAcyclic_isOk indexed hdependencies accepted.acyclic
  rw [resolveTasks, if_neg accepted.nonempty]
  refine bind_isOk ⟨indexes, hindexes⟩ fun _ same => ?_
  obtain rfl := Except.ok.inj (hindexes.symm.trans same)
  refine bind_isOk ⟨dependencies, hdependencies⟩ fun _ same => ?_
  obtain rfl := Except.ok.inj (hdependencies.symm.trans same)
  rw [acyclic]
  refine bind_isOk (mapM_isOk ?_) fun reads _ => ⟨_, rfl⟩
  rintro ⟨definition, own⟩ mem
  obtain ⟨i, hi⟩ := List.mem_iff_getElem?.mp mem
  obtain ⟨hdef, hrow⟩ := List.getElem?_zip_eq_some.mp hi
  obtain ⟨found, hfound, hown⟩ := dependencies_row hdependencies hrow
  obtain rfl : definition = found := Option.some.inj (hdef.symm.trans hfound)
  have mem := List.mem_of_getElem? hdef
  refine resolveOutputSources_isOk fun text htext => ?_
  obtain ⟨template, hparse, references⟩ := accepted.references definition mem text htext
  refine ⟨template, hparse, fun reference hreference => ?_⟩
  have depends := references reference hreference
  obtain ⟨index, within, hindex, -⟩ := Forall₂.exists_right (resolveDependencies_ok hown) depends
  exact ⟨(accepted.named definition mem _ depends).1, index, within, hindex⟩

theorem Workflow.tryFrom_ok_iff {workflow : Workflow} :
    Workflow.tryFrom definitions = .ok workflow ↔ resolveTasks definitions = .ok workflow.tasks := by
  rw [Workflow.tryFrom]
  split
  · rename_i tasks hresolve
    constructor
    · intro h
      rw [← Except.ok.inj h]
      exact hresolve
    · intro h
      obtain rfl : tasks = workflow.tasks := Except.ok.inj (hresolve.symm.trans h)
      rfl
  · rename_i error hresolve
    simp [hresolve]

/-- Which lists of definitions make a workflow, and which workflow they make. -/
theorem Workflow.tryFrom_accepts (definitions : List TaskDefinition) :
    ((∃ workflow, Workflow.tryFrom definitions = .ok workflow) ↔ Accepted definitions) ∧
      ∀ workflow, Workflow.tryFrom definitions = .ok workflow →
        workflow.tasks.length = definitions.length ∧
        ∀ (i : Nat) definition task, definitions[i]? = some definition →
          workflow.tasks[i]? = some task → Resolves definitions definition task := by
  refine ⟨⟨?_, fun accepted => ?_⟩, ?_⟩
  · rintro ⟨workflow, h⟩
    obtain ⟨indexes, dependencies, reads, resolved⟩ :=
      resolveTasks_resolved (Workflow.tryFrom_ok_iff.mp h)
    exact resolved.accepted
  · obtain ⟨tasks, h⟩ := accepted.resolveTasks_isOk
    exact ⟨⟨tasks, resolveTasks_wellFormed h⟩, Workflow.tryFrom_ok_iff.mpr h⟩
  · intro workflow h
    obtain ⟨indexes, dependencies, reads, resolved⟩ :=
      resolveTasks_resolved (Workflow.tryFrom_ok_iff.mp h)
    exact ⟨resolved.length, fun i definition task hdef htask => resolved.resolves hdef htask⟩

end Beez.Core
