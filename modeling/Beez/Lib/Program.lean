import Mathlib.Tactic.Common

/-! # Programs with a state that an error may cut short

An error that meets `stop` is an interruption from outside. Everything else that a program
does is covered by its postcondition.
-/

namespace Beez.Lib

variable {ε σ α β : Type} {stop : ε → σ → Prop}

/-- `x` ends in `post`, unless it is interrupted. -/
def Leads (stop : ε → σ → Prop) (x : ExceptT ε (StateM σ) α) (s : σ)
    (post : Except ε α → σ → Prop) : Prop :=
  post (x s).1 (x s).2 ∨ ∃ error, (x s).1 = .error error ∧ stop error (x s).2

/-- `x` returns a value and a state with `post`, unless it is interrupted. -/
def Returns (stop : ε → σ → Prop) (x : ExceptT ε (StateM σ) α) (s : σ) (post : α → σ → Prop) :
    Prop :=
  Leads stop x s fun result s' => ∃ a, result = .ok a ∧ post a s'

variable {x : ExceptT ε (StateM σ) α} {f : α → ExceptT ε (StateM σ) β} {s : σ}

theorem run_get_bind {f : σ → ExceptT ε (StateM σ) β} : (get >>= f) s = f s s := rfl

theorem run_modify_bind {g : σ → σ} {f : Unit → ExceptT ε (StateM σ) β} :
    (modify g >>= f) s = f () (g s) := rfl

theorem run_lift_ok {a : α} : (liftM (.ok a : Except ε α) : ExceptT ε (StateM σ) α) s = (.ok a, s) :=
  rfl

theorem run_lift_error {error : ε} :
    (liftM (.error error : Except ε α) : ExceptT ε (StateM σ) α) s = (.error error, s) :=
  rfl

theorem run_bind_ok {a : α} {s' : σ} (h : x s = (.ok a, s')) : (x >>= f) s = f a s' := by
  have : (x >>= f) s = ExceptT.bindCont f (x s).1 (x s).2 := rfl
  rw [this, h]
  rfl

theorem run_bind_error {error : ε} {s' : σ} (h : x s = (.error error, s')) :
    (x >>= f) s = (.error error, s') := by
  have : (x >>= f) s = ExceptT.bindCont f (x s).1 (x s).2 := rfl
  rw [this, h]
  rfl

theorem Leads.mono {post post' : Except ε α → σ → Prop} (weaker : ∀ a s', post a s' → post' a s')
    (h : Leads stop x s post) : Leads stop x s post' :=
  h.imp_left (weaker _ _)

theorem Returns.mono {post post' : α → σ → Prop} (weaker : ∀ a s', post a s' → post' a s')
    (h : Returns stop x s post) : Returns stop x s post' :=
  Leads.mono (fun _ _ ⟨a, ha, hpost⟩ => ⟨a, ha, weaker _ _ hpost⟩) h

theorem Returns.of_eq {post : α → σ → Prop} {a : α} {s' : σ} (h : x s = (.ok a, s'))
    (hpost : post a s') : Returns stop x s post := by
  refine .inl ⟨a, ?_, ?_⟩
  · rw [h]
  · rw [h]
    exact hpost

theorem Leads.of_ok {post : Except ε α → σ → Prop} {a : α} {s' : σ} (h : Leads stop x s post)
    (hok : x s = (.ok a, s')) : post (.ok a) s' := by
  rcases h with h | ⟨error, herror, -⟩
  · rwa [hok] at h
  · rw [hok] at herror
    cases herror

theorem Leads.bind {middle : Except ε α → σ → Prop} {post : Except ε β → σ → Prop}
    (first : Leads stop x s middle) (failed : ∀ error s', middle (.error error) s' →
      post (.error error) s') (rest : ∀ a s', middle (.ok a) s' → Leads stop (f a) s' post) :
    Leads stop (x >>= f) s post := by
  have hrun : x s = ((x s).1, (x s).2) := rfl
  cases hresult : (x s).1 with
  | ok a =>
    rw [hresult] at hrun
    refine (rest a (x s).2 ?_).imp ?_ ?_
    · exact Leads.of_ok first hrun
    · rw [run_bind_ok hrun]
      exact id
    · rw [run_bind_ok hrun]
      exact id
  | error error =>
    rw [hresult] at hrun
    rw [Leads, run_bind_error hrun]
    rw [Leads, hresult] at first
    refine first.imp (failed error _) fun ⟨error', herror, hstop⟩ => ⟨error', ?_, hstop⟩
    rw [← Except.error.inj herror]

theorem Returns.bind {middle : α → σ → Prop} {post : Except ε β → σ → Prop}
    (first : Returns stop x s middle) (rest : ∀ a s', middle a s' → Leads stop (f a) s' post) :
    Leads stop (x >>= f) s post := by
  refine Leads.bind first (fun error s' h => ?_) fun a s' h => ?_
  · obtain ⟨_, ha, -⟩ := h
    cases ha
  · obtain ⟨_, ha, hmiddle⟩ := h
    rw [Except.ok.injEq] at ha
    exact rest a s' (ha ▸ hmiddle)

theorem Leads.of_run_eq {y : ExceptT ε (StateM σ) α} {s' : σ} {post : Except ε α → σ → Prop}
    (h : x s = y s') (leads : Leads stop y s' post) : Leads stop x s post := by
  rwa [Leads, h]

theorem Leads.of_not_stop {post : Except ε α → σ → Prop} (h : Leads stop x s post)
    (quiet : ∀ error, ¬stop error (x s).2) : post (x s).1 (x s).2 :=
  h.resolve_right fun ⟨error, _, hstop⟩ => quiet error hstop

/-- A first part of which nothing is needed. -/
theorem Leads.after {post : Except ε β → σ → Prop} (failed : ∀ error s', post (.error error) s')
    (rest : ∀ a s', x s = (.ok a, s') → Leads stop (f a) s' post) :
    Leads stop (x >>= f) s post := by
  have first : Leads stop x s fun result s' => x s = (result, s') := .inl rfl
  exact first.bind (fun error s' _ => failed error s') rest

/-! ## What a program leaves as it was -/

/-- `x` leaves what `view` shows of the state, whatever it answers. -/
def Leaves {γ : Type} (view : σ → γ) (x : ExceptT ε (StateM σ) α) : Prop :=
  ∀ s, view (x s).2 = view s

section Leaves

variable {γ : Type} {view : σ → γ}

theorem Leaves.pure (a : α) : Leaves view (Pure.pure a : ExceptT ε (StateM σ) α) := fun _ => rfl

theorem Leaves.throw (error : ε) : Leaves view (MonadExcept.throw error : ExceptT ε (StateM σ) α) :=
  fun _ => rfl

theorem Leaves.bind (first : Leaves view x) (rest : ∀ a, Leaves view (f a)) :
    Leaves view (x >>= f) := by
  intro s
  have hrun : x s = ((x s).1, (x s).2) := rfl
  cases hresult : (x s).1 with
  | ok a =>
    rw [hresult] at hrun
    rw [run_bind_ok hrun, rest a, first s]
  | error error =>
    rw [hresult] at hrun
    rw [run_bind_error hrun, first s]

end Leaves

end Beez.Lib
