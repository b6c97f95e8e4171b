import Mathlib.Algebra.GroupWithZero.Nat
import Mathlib.Data.List.Sort
import Mathlib.Tactic.Common

/-! # Lists whose elements carry a key -/

namespace Beez.Lib

variable {α κ : Type}

theorem filter_filter_of_imp {p q : α → Bool} {l : List α} (h : ∀ a ∈ l, p a = true → q a = true) :
    (l.filter q).filter p = l.filter p := by
  rw [List.filter_filter]
  refine List.filter_congr fun a ha => ?_
  cases hp : p a with
  | false => rfl
  | true => rw [h a ha hp, Bool.and_true]

/-- A list holds the same elements when it is cut into one part for each key. -/
theorem perm_flatMap_filter [DecidableEq κ] {key : α → κ} {keys : List κ} {l : List α}
    (nodup : keys.Nodup) (known : ∀ a ∈ l, key a ∈ keys) :
    l.Perm (keys.flatMap fun k => l.filter (key · = k)) := by
  induction keys generalizing l with
  | nil =>
    have : l = [] := List.eq_nil_iff_forall_not_mem.mpr fun a ha => by simpa using known a ha
    simp [this]
  | cons k rest ih =>
    rw [List.nodup_cons] at nodup
    let others := l.filter fun a => !decide (key a = k)
    have hothers : ∀ a ∈ others, key a ∈ rest := by
      intro a ha
      rw [List.mem_filter] at ha
      simpa [show key a ≠ k by simpa using ha.2] using known a ha.1
    have hparts : (rest.flatMap fun k => others.filter (key · = k)) =
        rest.flatMap fun k => l.filter (key · = k) := by
      refine List.flatMap_congr fun j hj => filter_filter_of_imp fun a _ ha => ?_
      have hne : j ≠ k := fun h => nodup.1 (h ▸ hj)
      simpa [show key a = j by simpa using ha] using hne
    rw [List.flatMap_cons, ← hparts]
    exact (List.filter_append_perm _ l).symm.trans (.append_left _ (ih nodup.2 hothers))

theorem sum_map_ite (p : κ → Bool) (keys : List κ) :
    (keys.map fun k => if p k then 1 else 0).sum = keys.countP p := by
  induction keys with
  | nil => rfl
  | cons k rest ih =>
    rw [List.map_cons, List.sum_cons, ih, List.countP_cons]
    omega

/-- What each part counts at most once is counted as often as there are parts that count it. -/
theorem countP_keyed [DecidableEq κ] {key : α → κ} {keys : List κ} {l : List α}
    (nodup : keys.Nodup) (known : ∀ a ∈ l, key a ∈ keys) {p : α → Bool} {q : κ → Bool}
    (each : ∀ k ∈ keys, (l.filter (key · = k)).countP p = if q k then 1 else 0) :
    l.countP p = keys.countP q := by
  rw [(perm_flatMap_filter nodup known).countP_eq, List.countP_flatMap, ← sum_map_ite]
  exact congrArg List.sum (List.map_congr_left each)

theorem filter_key_eq [DecidableEq κ] {key : α → κ} {l : List α} {a : α}
    (nodup : (l.map key).Nodup) (ha : a ∈ l) : l.filter (key · = key a) = [a] := by
  induction l with
  | nil => cases ha
  | cons b rest ih =>
    rw [List.map_cons, List.nodup_cons] at nodup
    rcases List.mem_cons.mp ha with rfl | ha
    · have hnone : rest.filter (key · = key a) = [] := by
        rw [List.filter_eq_nil_iff]
        intro c hc hkey
        simp only [decide_eq_true_eq] at hkey
        exact nodup.1 (hkey ▸ List.mem_map_of_mem hc)
      rw [List.filter_cons_of_pos (by simp), hnone]
    · have hne : key b ≠ key a := fun h => nodup.1 (h ▸ List.mem_map_of_mem ha)
      rw [List.filter_cons_of_neg (by simpa using hne), ih nodup.2 ha]

/-- Where each part carries the mark of what it comes from, a mark finds its own parts. -/
theorem filter_flatMap_key {β : Type*} [DecidableEq κ] {key : α → κ} {mark : β → κ} {f : α → List β}
    (own : ∀ a, ∀ b ∈ f a, mark b = key a) (l : List α) (k : κ) :
    (l.flatMap f).filter (mark · = k) = (l.filter (key · = k)).flatMap f := by
  induction l with
  | nil => rfl
  | cons a rest ih =>
    rw [List.flatMap_cons, List.filter_append, ih]
    by_cases same : key a = k
    · rw [List.filter_cons_of_pos (by simpa using same), List.flatMap_cons]
      congr 1
      exact List.filter_eq_self.mpr fun b hb => by simpa [own a b hb] using same
    · rw [List.filter_cons_of_neg (by simpa using same)]
      have none : (f a).filter (mark · = k) = [] :=
        List.filter_eq_nil_iff.mpr fun b hb => by simpa [own a b hb] using same
      rw [none, List.nil_append]

/-- A sort by a key that tells all elements apart has one result. -/
theorem insertionSort_eq_of_perm {key : α → Nat} {l target : List α} (perm : l.Perm target)
    (sorted : target.Pairwise fun a b => key a < key b) :
    l.insertionSort (fun a b => key a ≤ key b) = target := by
  have : Std.Total fun a b : α => key a ≤ key b := ⟨fun a b => Nat.le_total _ _⟩
  have : IsTrans α fun a b => key a ≤ key b := ⟨fun a b c => Nat.le_trans⟩
  have hperm := (List.perm_insertionSort (fun a b => key a ≤ key b) l).trans perm
  have nodup : (target.map key).Nodup := List.pairwise_map.mpr (sorted.imp Nat.ne_of_lt)
  refine hperm.eq_of_pairwise ?_ (List.pairwise_insertionSort _ l) (sorted.imp Nat.le_of_lt)
  intro a b ha hb hab hba
  exact List.inj_on_of_nodup_map nodup (hperm.mem_iff.mp ha) hb (Nat.le_antisymm hab hba)

theorem insertionSort_perm {key : α → Nat} {l l' : List α} (apart : (l.map key).Nodup)
    (perm : l.Perm l') : l.insertionSort (fun a b => key a ≤ key b) =
      l'.insertionSort (fun a b => key a ≤ key b) := by
  have : Std.Total fun a b : α => key a ≤ key b := ⟨fun a b => Nat.le_total _ _⟩
  have : IsTrans α fun a b => key a ≤ key b := ⟨fun a b c => Nat.le_trans⟩
  have hperm := List.perm_insertionSort (fun a b => key a ≤ key b) l'
  have distinct : ((l'.insertionSort fun a b => key a ≤ key b).map key).Nodup :=
    (((perm.trans hperm.symm).map key).nodup_iff).mp apart
  refine insertionSort_eq_of_perm (perm.trans hperm.symm) ?_
  refine (List.pairwise_insertionSort _ l').and (List.pairwise_map.mp distinct) |>.imp ?_
  rintro a b ⟨le, ne⟩
  exact Nat.lt_of_le_of_ne le ne

end Beez.Lib
