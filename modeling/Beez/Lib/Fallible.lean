import Mathlib.Data.Finset.Basic
import Mathlib.Data.List.Basic
import Mathlib.Tactic.Common

/-! # Computations that stop at their first error -/

namespace Beez.Lib

universe u v

variable {ε : Type u} {α β : Type v}

theorem bind_eq_ok {x : Except ε α} {f : α → Except ε β} {b : β} :
    (x >>= f) = .ok b ↔ ∃ a, x = .ok a ∧ f a = .ok b := by
  cases x with
  | error e => simp [bind, Except.bind]
  | ok a => simp [bind, Except.bind]

theorem bind_isOk {x : Except ε α} {f : α → Except ε β} (h : ∃ a, x = .ok a)
    (next : ∀ a, x = .ok a → ∃ b, f a = .ok b) : ∃ b, (x >>= f) = .ok b := by
  obtain ⟨a, ha⟩ := h
  obtain ⟨b, hb⟩ := next a ha
  exact ⟨b, bind_eq_ok.mpr ⟨a, ha, hb⟩⟩

theorem exists_of_isOk {σ : Type} {x : Except ε α × σ} (h : x.1.isOk = true) :
    ∃ a, x = (.ok a, x.2) := by
  obtain ⟨result, s⟩ := x
  cases result with
  | ok a => exact ⟨a, rfl⟩
  | error error => cases h

theorem pure_eq_ok {a b : α} : (pure a : Except ε α) = .ok b ↔ a = b := by
  simp [pure, Except.pure]

theorem mapError_eq_ok {δ : Type*} {f : ε → δ} {x : Except ε α} {a : α} :
    x.mapError f = .ok a ↔ x = .ok a := by
  cases x <;> simp [Except.mapError]

/-- A list that maps without an error maps position by position. -/
theorem mapM_eq_ok {f : α → Except ε β} {l : List α} {r : List β} (h : l.mapM f = .ok r) :
    List.Forall₂ (fun a b => f a = .ok b) l r := by
  induction l generalizing r with
  | nil =>
    rw [List.mapM_nil, pure_eq_ok] at h
    subst h
    exact .nil
  | cons a rest ih =>
    rw [List.mapM_cons, bind_eq_ok] at h
    obtain ⟨b, hb, h⟩ := h
    rw [bind_eq_ok] at h
    obtain ⟨bs, hbs, h⟩ := h
    rw [pure_eq_ok] at h
    subst h
    exact .cons hb (ih hbs)

theorem mapM_of_forall₂ {f : α → Except ε β} {l : List α} {r : List β}
    (h : List.Forall₂ (fun a b => f a = .ok b) l r) : l.mapM f = .ok r := by
  induction h with
  | nil => rfl
  | cons hab _ ih =>
    rw [List.mapM_cons, hab, ih]
    rfl

theorem mapM_isOk {f : α → Except ε β} {l : List α} (h : ∀ a ∈ l, ∃ b, f a = .ok b) :
    ∃ r, l.mapM f = .ok r := by
  induction l with
  | nil => exact ⟨[], rfl⟩
  | cons a rest ih =>
    obtain ⟨b, hb⟩ := h a (by simp)
    obtain ⟨bs, hbs⟩ := ih fun a ha => h a (by simp [ha])
    exact ⟨b :: bs, by rw [List.mapM_cons, hb, hbs]; rfl⟩

/-- The same for a search that may find nothing. -/
theorem mapM_eq_some {f : α → Option β} {l : List α} {r : List β} (h : l.mapM f = some r) :
    List.Forall₂ (fun a b => f a = some b) l r := by
  induction l generalizing r with
  | nil =>
    obtain rfl := Option.some.inj h
    exact .nil
  | cons a rest ih =>
    rw [List.mapM_cons] at h
    obtain ⟨b, hb, h⟩ := Option.bind_eq_some_iff.mp h
    obtain ⟨bs, hbs, h⟩ := Option.bind_eq_some_iff.mp h
    obtain rfl := Option.some.inj h
    exact .cons hb (ih hbs)

theorem mem_union_of_mapM {γ : Type v} [DecidableEq γ] {f : α → Option (Finset γ)} {l : List α}
    {r : List (Finset γ)} (h : l.mapM f = some r) {c : γ} :
    c ∈ r.foldr (· ∪ ·) ∅ ↔ ∃ a ∈ l, ∃ cs, f a = some cs ∧ c ∈ cs := by
  have each := mapM_eq_some h
  clear h
  induction each with
  | nil => simp
  | cons first _ ih => simp [ih, first]

theorem mapM_isSome {f : α → Option β} {l : List α} (h : ∀ a ∈ l, ∃ b, f a = some b) :
    ∃ r, l.mapM f = some r := by
  induction l with
  | nil => exact ⟨[], rfl⟩
  | cons a rest ih =>
    obtain ⟨b, hb⟩ := h a (by simp)
    obtain ⟨bs, hbs⟩ := ih fun a ha => h a (by simp [ha])
    exact ⟨b :: bs, by rw [List.mapM_cons, hb, hbs]; rfl⟩

theorem mapM_congr {f g : α → Option β} {l : List α} (h : ∀ a ∈ l, f a = g a) :
    l.mapM f = l.mapM g := by
  induction l with
  | nil => rfl
  | cons a rest ih =>
    rw [List.mapM_cons, List.mapM_cons, h a (by simp), ih fun a ha => h a (by simp [ha])]

theorem mapM_eq_ok_map {f : α → Except ε β} {g : α → β} {l : List α}
    (h : ∀ a ∈ l, f a = .ok (g a)) : l.mapM f = .ok (l.map g) := by
  induction l with
  | nil => rfl
  | cons a rest ih =>
    rw [List.mapM_cons, h a (by simp), ih fun a ha => h a (by simp [ha])]
    rfl

theorem Forall₂.getElem? {R : α → β → Prop} {l : List α} {r : List β} (h : List.Forall₂ R l r)
    {i : Nat} {b : β} (hi : r[i]? = some b) : ∃ a, l[i]? = some a ∧ R a b := by
  induction h generalizing i with
  | nil => simp at hi
  | cons hab _ ih =>
    cases i with
    | zero =>
      simp only [List.getElem?_cons_zero, Option.some.injEq] at hi
      subst hi
      exact ⟨_, rfl, hab⟩
    | succ i => exact ih (by simpa using hi)

theorem Forall₂.exists_right {R : α → β → Prop} {l : List α} {r : List β} (h : List.Forall₂ R l r)
    {a : α} (mem : a ∈ l) : ∃ b ∈ r, R a b := by
  induction h with
  | nil => cases mem
  | cons hab _ ih =>
    rcases List.mem_cons.mp mem with rfl | mem
    · exact ⟨_, by simp, hab⟩
    · obtain ⟨b, hb, hab⟩ := ih mem
      exact ⟨b, List.mem_cons_of_mem _ hb, hab⟩

theorem Forall₂.comp {γ : Type*} {R : α → β → Prop} {S : β → γ → Prop} {T : α → γ → Prop}
    (through : ∀ a b c, R a b → S b c → T a c) {l : List α} {r : List β} {k : List γ}
    (h : List.Forall₂ R l r) (h' : List.Forall₂ S r k) : List.Forall₂ T l k := by
  induction h generalizing k with
  | nil =>
    cases h'
    exact .nil
  | cons hab _ ih =>
    cases h' with
    | cons hbc rest => exact .cons (through _ _ _ hab hbc) (ih rest)

/-- Steps that never fail never fail in a row. -/
theorem foldlM_isOk {σ : Type v} {f : σ → α → Except ε σ} {l : List α}
    (h : ∀ a ∈ l, ∀ s, ∃ s', f s a = .ok s') (s : σ) : ∃ s', l.foldlM f s = .ok s' := by
  induction l generalizing s with
  | nil => exact ⟨s, rfl⟩
  | cons a rest ih =>
    obtain ⟨s', hs⟩ := h a (by simp) s
    obtain ⟨last, hlast⟩ := ih (fun a ha => h a (by simp [ha])) s'
    exact ⟨last, by rw [List.foldlM_cons, hs]; exact hlast⟩

/-- Values that were written out one by one are read back. -/
theorem mapM_map_eq_ok {f : β → Except ε α} {write : α → β} {l : List α}
    (h : ∀ a ∈ l, f (write a) = .ok a) : (l.map write).mapM f = .ok l := by
  induction l with
  | nil => rfl
  | cons a rest ih =>
    rw [List.forall_mem_cons] at h
    rw [List.map_cons, List.mapM_cons, h.1, ih h.2]
    rfl

theorem mapM_forall {f : α → Except ε β} {good : β → Prop} (h : ∀ a b, f a = .ok b → good b)
    {l : List α} {r : List β} (read : l.mapM f = .ok r) : ∀ b ∈ r, good b := by
  have pairs := mapM_eq_ok read
  clear read
  induction pairs with
  | nil => simp
  | cons hab _ ih =>
    rw [List.forall_mem_cons]
    exact ⟨h _ _ hab, ih⟩

/-! ## The first error -/

/-- The error that stopped a computation. -/
def errorOf {γ : Type*} : Except ε γ → Option ε
  | .error error => some error
  | .ok _ => none

@[simp] theorem errorOf_pure (a : α) : errorOf (pure a : Except ε α) = none := rfl

theorem errorOf_bind {x : Except ε α} {f : α → Except ε β} (later : Option ε)
    (h : ∀ a, errorOf (f a) = later) : errorOf (x >>= f) = (errorOf x).or later := by
  cases x with
  | error error => rfl
  | ok a => exact h a

theorem errorOf_map (f : α → β) (x : Except ε α) : errorOf (f <$> x) = errorOf x := by
  cases x <;> rfl

/-- A list stops at the first of its errors. -/
theorem errorOf_mapM (f : α → Except ε β) (l : List α) :
    errorOf (l.mapM f) = (l.filterMap fun a => errorOf (f a)).head? := by
  induction l with
  | nil => rfl
  | cons a rest ih =>
    rw [List.mapM_cons, List.filterMap_cons]
    cases h : f a with
    | error error => rfl
    | ok b =>
      have stops : errorOf (rest.mapM f >>= fun bs => pure (b :: bs)) = errorOf (rest.mapM f) := by
        rw [errorOf_bind none fun _ => rfl, Option.or_none]
      exact stops.trans ih

/-! ## Computations that may panic

Nothing stands for a panic.
-/

section

variable {δ γ κ : Type u}

theorem bind_ne_none {x : Option γ} {f : γ → Option κ} (h : x ≠ none) (next : ∀ a, f a ≠ none) :
    x.bind f ≠ none := by
  cases x with
  | none => exact absurd rfl h
  | some a => exact next a

/-- A computation that returns. -/
def returned (x : Except δ γ) : ExceptT δ Option γ := ExceptT.mk (some x)

@[simp] theorem run_returned (x : Except δ γ) : (returned x).run = some x := rfl

theorem run_pure_eq_ok {a b : γ} :
    (pure a : ExceptT δ Option γ).run = some (.ok b) ↔ a = b := by
  rw [ExceptT.run_pure]
  simp [pure]

variable {x : ExceptT δ Option γ} {f : γ → ExceptT δ Option κ}

theorem run_bind_eq_ok {b : κ} : (x >>= f).run = some (.ok b) ↔
    ∃ a, x.run = some (.ok a) ∧ (f a).run = some (.ok b) := by
  rw [ExceptT.run_bind]
  cases x.run with
  | none => simp
  | some result =>
    cases result with
    | error e => simp
    | ok a => simp

theorem run_bind_eq_none : (x >>= f).run = none ↔
    x.run = none ∨ ∃ a, x.run = some (.ok a) ∧ (f a).run = none := by
  rw [ExceptT.run_bind]
  cases x.run with
  | none => simp
  | some result =>
    cases result with
    | error e => simp
    | ok a => simp

theorem run_adapt_eq_ok {ρ : Type u} {g : δ → ρ} {a : γ} :
    (ExceptT.adapt g x).run = some (.ok a) ↔ x.run = some (.ok a) := by
  show Option.map (Except.mapError g) x.run = some (.ok a) ↔ _
  rw [Option.map_eq_some_iff]
  simp [mapError_eq_ok]

theorem run_adapt_eq_none {ρ : Type u} {g : δ → ρ} :
    (ExceptT.adapt g x).run = none ↔ x.run = none := by
  show Option.map (Except.mapError g) x.run = none ↔ _
  rw [Option.map_eq_none_iff]

theorem run_mapM_eq_ok {l : List γ} {r : List κ} :
    (l.mapM f).run = some (.ok r) ↔ List.Forall₂ (fun a b => (f a).run = some (.ok b)) l r := by
  induction l generalizing r with
  | nil =>
    rw [List.mapM_nil, List.forall₂_nil_left_iff, run_pure_eq_ok, eq_comm]
  | cons a rest ih =>
    rw [List.mapM_cons, run_bind_eq_ok, List.forall₂_cons_left_iff]
    refine exists_congr fun b => ?_
    simp only [run_bind_eq_ok, ih, run_pure_eq_ok]
    constructor
    · rintro ⟨first, bs, rest, rfl⟩
      exact ⟨bs, first, rest, rfl⟩
    · rintro ⟨bs, first, rest, rfl⟩
      exact ⟨first, bs, rest, rfl⟩

theorem run_mapM_eq_none {l : List γ} (h : (l.mapM f).run = none) : ∃ a ∈ l, (f a).run = none := by
  induction l with
  | nil => cases h
  | cons a rest ih =>
    rw [List.mapM_cons, run_bind_eq_none] at h
    rcases h with h | ⟨b, -, h⟩
    · exact ⟨a, by simp, h⟩
    · rw [run_bind_eq_none] at h
      rcases h with h | ⟨bs, -, h⟩
      · obtain ⟨found, hmem, hfound⟩ := ih h
        exact ⟨found, by simp [hmem], hfound⟩
      · cases h

end

end Beez.Lib
