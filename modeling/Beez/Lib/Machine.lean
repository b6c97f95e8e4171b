import Mathlib.Tactic.Common

/-! # Machines that take one input at a time -/

namespace Beez.Lib

variable {σ ι : Type*}

/-- The state after a list of inputs. -/
def runAll (step : σ → ι → σ) (s : σ) (inputs : List ι) : σ := inputs.foldl step s

/-- Every input meets `ok` in the state that it finds. -/
def Along (step : σ → ι → σ) (ok : σ → ι → Prop) : σ → List ι → Prop
  | _, [] => True
  | s, i :: rest => ok s i ∧ Along step ok (step s i) rest

@[simp] theorem runAll_nil (step : σ → ι → σ) (s : σ) : runAll step s [] = s := rfl

@[simp] theorem runAll_cons (step : σ → ι → σ) (s : σ) (i : ι) (rest : List ι) :
    runAll step s (i :: rest) = runAll step (step s i) rest := rfl

theorem runAll_append (step : σ → ι → σ) (s : σ) (first second : List ι) :
    runAll step s (first ++ second) = runAll step (runAll step s first) second :=
  List.foldl_append

@[simp] theorem along_nil (step : σ → ι → σ) (ok : σ → ι → Prop) (s : σ) :
    Along step ok s [] := trivial

@[simp] theorem along_cons (step : σ → ι → σ) (ok : σ → ι → Prop) (s : σ) (i : ι) (rest : List ι) :
    Along step ok s (i :: rest) ↔ ok s i ∧ Along step ok (step s i) rest := Iff.rfl

instance Along.decidable {step : σ → ι → σ} {ok : σ → ι → Prop} [∀ s i, Decidable (ok s i)] :
    ∀ s inputs, Decidable (Along step ok s inputs)
  | _, [] => inferInstanceAs (Decidable True)
  | s, i :: rest =>
    have : Decidable (Along step ok (step s i) rest) := Along.decidable _ rest
    inferInstanceAs (Decidable (ok s i ∧ _))

/-- What holds at first and survives every allowed step holds at the end. -/
theorem runAll_invariant {step : σ → ι → σ} {ok : σ → ι → Prop} {inv : σ → Prop}
    (keep : ∀ s i, inv s → ok s i → inv (step s i)) {s : σ} {inputs : List ι}
    (start : inv s) (along : Along step ok s inputs) : inv (runAll step s inputs) := by
  induction inputs generalizing s with
  | nil => exact start
  | cons i rest ih => exact ih (keep s i start along.1) along.2

theorem Along.mono {step : σ → ι → σ} {ok ok' : σ → ι → Prop} (weaker : ∀ s i, ok s i → ok' s i)
    {s : σ} {inputs : List ι} (along : Along step ok s inputs) : Along step ok' s inputs := by
  induction inputs generalizing s with
  | nil => trivial
  | cons i rest ih => exact ⟨weaker s i along.1, ih along.2⟩

theorem Along.of_forall {step : σ → ι → σ} {ok : σ → ι → Prop} (every : ∀ s i, ok s i) (s : σ)
    (inputs : List ι) : Along step ok s inputs := by
  induction inputs generalizing s with
  | nil => trivial
  | cons i rest ih => exact ⟨every s i, ih (step s i)⟩

theorem Along.of_mem {step : σ → ι → σ} {ok : ι → Prop} (s : σ) {inputs : List ι}
    (every : ∀ i ∈ inputs, ok i) : Along step (fun _ => ok) s inputs := by
  induction inputs generalizing s with
  | nil => trivial
  | cons i rest ih =>
    rw [List.forall_mem_cons] at every
    exact ⟨every.1, ih (step s i) every.2⟩

/-- An invariant may be used to meet the condition of each step. -/
theorem Along.strengthen {step : σ → ι → σ} {ok : σ → ι → Prop} {inv : σ → Prop}
    (keep : ∀ s i, inv s → ok s i → inv (step s i)) {s : σ} {inputs : List ι}
    (start : inv s) (along : Along step ok s inputs) :
    Along step (fun s i => inv s ∧ ok s i) s inputs := by
  induction inputs generalizing s with
  | nil => trivial
  | cons i rest ih => exact ⟨⟨start, along.1⟩, ih (keep s i start along.1) along.2⟩

theorem Along.iff {step : σ → ι → σ} {ok ok' : σ → ι → Prop} {inv : σ → Prop}
    (keep : ∀ s i, inv s → inv (step s i)) (same : ∀ s i, inv s → (ok s i ↔ ok' s i)) {s : σ}
    (start : inv s) (inputs : List ι) : Along step ok s inputs ↔ Along step ok' s inputs := by
  induction inputs generalizing s with
  | nil => exact Iff.rfl
  | cons i rest ih => rw [along_cons, along_cons, same s i start, ih (keep s i start)]

/-- Two conditions that agree wherever an invariant holds ask the same of every history that meets
a third, if the invariant survives the steps that meet them. -/
theorem Along.iff_given {step : σ → ι → σ} {ok ok' given : σ → ι → Prop} {inv : σ → Prop}
    (keep : ∀ s i, inv s → given s i → ok' s i → inv (step s i))
    (same : ∀ s i, inv s → given s i → (ok s i ↔ ok' s i)) {s : σ} {inputs : List ι}
    (start : inv s) (along : Along step given s inputs) :
    Along step ok s inputs ↔ Along step ok' s inputs := by
  induction inputs generalizing s with
  | nil => exact Iff.rfl
  | cons i rest ih =>
    rw [along_cons, along_cons, same s i start along.1]
    exact and_congr_right fun h => ih (keep s i start along.1 h) along.2

theorem Along.congr {step : σ → ι → σ} {ok ok' : σ → ι → Prop} (same : ∀ s i, ok s i ↔ ok' s i)
    (s : σ) (inputs : List ι) : Along step ok s inputs ↔ Along step ok' s inputs :=
  Along.iff (fun (_ : σ) (_ : ι) (h : True) => h) (fun s i _ => same s i) trivial inputs

/-- A relation that an input keeps when both sides take it, and that the inputs of others keep
when one side takes them, relates a whole history to the part of it that is `mine`. -/
theorem runAll_filter {step : σ → ι → σ} {inv : σ → Prop} {same : σ → σ → Prop} {mine : ι → Bool}
    (keep : ∀ s i, inv s → inv (step s i))
    (own : ∀ s t i, mine i = true → same s t → same (step s i) (step t i))
    (other : ∀ s t i, mine i = false → inv s → same s t → same (step s i) t) {s t : σ}
    (start : inv s) (alike : same s t) (inputs : List ι) :
    same (runAll step s inputs) (runAll step t (inputs.filter mine)) := by
  induction inputs generalizing s t with
  | nil => exact alike
  | cons i rest ih =>
    rw [runAll_cons, List.filter_cons]
    split
    · rename_i h
      exact ih (keep s i start) (own s t i h alike)
    · rename_i h
      exact ih (keep s i start) (other s t i (by simpa using h) start alike)

/-- What is left to do never grows, and shrinks with every input that is a turn. -/
theorem runAll_progress {step : σ → ι → σ} {inv : σ → Prop} {left : σ → Nat} {turn : ι → Bool}
    (keep : ∀ s i, inv s → inv (step s i)) (stay : ∀ s i, inv s → left (step s i) ≤ left s)
    (less : ∀ s i, inv s → turn i = true → left (step s i) ≤ left s - 1) {s : σ} (start : inv s)
    (inputs : List ι) : left (runAll step s inputs) ≤ left s - inputs.countP turn := by
  induction inputs generalizing s with
  | nil => simp
  | cons i rest ih =>
    have after := ih (keep s i start)
    rw [runAll_cons, List.countP_cons]
    split
    · next h =>
      have := less s i start h
      omega
    · have := stay s i start
      omega

/-- Steps that each leave less to do come to an end. -/
theorem Along.length_le {step : σ → ι → σ} {ok : σ → ι → Prop} {inv : σ → Prop} {left : σ → Nat}
    (keep : ∀ s i, inv s → ok s i → inv (step s i))
    (less : ∀ s i, inv s → ok s i → left (step s i) < left s) {s : σ} {inputs : List ι}
    (start : inv s) (along : Along step ok s inputs) : inputs.length ≤ left s := by
  induction inputs generalizing s with
  | nil => simp
  | cons i rest ih =>
    have := less s i start along.1
    have := ih (keep s i start along.1) along.2
    rw [List.length_cons]
    omega

end Beez.Lib
