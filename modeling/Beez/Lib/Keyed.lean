import Mathlib.Data.List.Nodup
import Mathlib.Data.List.Perm.Basic
import Mathlib.Tactic.Common

/-! # Lists whose entries have keys -/

namespace Beez.Lib

universe u v

variable {α : Type u} {κ : Type v} {key : α → κ} {l : List α} {i : Nat} {a b c : α}

theorem modify_of_found (found : l[i]? = some a) (f : α → α) : l.modify i f = l.set i (f a) := by
  rw [List.modify_eq_set_getElem?, found]
  rfl

theorem getElem?_set_cases (found : l[i]? = some a) {j : Nat} (h : (l.set i b)[j]? = some c) :
    (j = i ∧ c = b) ∨ (j ≠ i ∧ l[j]? = some c) := by
  by_cases heq : i = j
  · subst heq
    rw [List.getElem?_set_self (List.getElem?_eq_some_iff.mp found).1] at h
    exact .inl ⟨rfl, (Option.some.inj h).symm⟩
  · rw [List.getElem?_set_ne heq] at h
    exact .inr ⟨Ne.symm heq, h⟩

theorem mem_modify {f : α → α} (mem : b ∈ l.modify i f) :
    b ∈ l ∨ ∃ a, l[i]? = some a ∧ b = f a := by
  cases found : l[i]? with
  | none =>
    rw [List.modify_eq_set_getElem?, found] at mem
    exact .inl mem
  | some a =>
    rw [modify_of_found found] at mem
    rcases List.mem_or_eq_of_mem_set mem with h | h
    · exact .inl h
    · exact .inr ⟨a, rfl, h⟩

theorem map_eq_of_map_eq {β γ : Type*} {values : List α} {others : List β} {key' : β → κ} {f : α → γ}
    {g : β → γ} (keys : values.map key = others.map key')
    (same : ∀ a ∈ values, ∀ b ∈ others, key a = key' b → f a = g b) :
    values.map f = others.map g := by
  induction values generalizing others with
  | nil =>
    rw [List.map_nil, eq_comm, List.map_eq_nil_iff] at keys
    rw [keys]
    rfl
  | cons a values ih =>
    cases others with
    | nil => cases keys
    | cons b others =>
      rw [List.map_cons, List.map_cons, List.cons.injEq] at keys
      have rest := ih keys.2 fun a ha b hb => same a (by simp [ha]) b (by simp [hb])
      rw [List.map_cons, List.map_cons, rest, same a (by simp) b (by simp) keys.1]

theorem filter_map_set_of_found (found : l[i]? = some a) {keep : α → Bool} (same : keep b = keep a)
    (keys : key b = key a) :
    ((l.set i b).filter keep).map key = (l.filter keep).map key := by
  induction l generalizing i with
  | nil => rfl
  | cons c rest ih =>
    cases i with
    | zero =>
      obtain rfl : c = a := by simpa using found
      simp only [List.set_cons_zero, List.filter_cons, same]
      split
      · rw [List.map_cons, List.map_cons, keys]
      · rfl
    | succ i =>
      have own := ih (by simpa using found)
      simp only [List.set_cons_succ, List.filter_cons]
      split
      · rw [List.map_cons, List.map_cons, own]
      · exact own

theorem map_set_of_found (found : l[i]? = some a) (same : key b = key a) :
    (l.set i b).map key = l.map key := by
  rw [List.map_set, same]
  apply List.ext_getElem?
  intro j
  rw [List.getElem?_set]
  split
  · rename_i hij
    subst hij
    obtain ⟨hlt, hget⟩ := List.getElem?_eq_some_iff.mp found
    simp [hlt, hget]
  · rfl

theorem map_modify_of_same {f : α → α} (same : ∀ a, key (f a) = key a) :
    (l.modify i f).map key = l.map key := by
  apply List.ext_getElem?
  intro j
  rw [List.getElem?_map, List.getElem?_map, List.getElem?_modify]
  cases l[j]? with
  | none => rfl
  | some a =>
    simp only [Option.map_eq_map, Option.map_some]
    split
    · rw [same]
    · rfl

/-- With distinct keys, what stands beside a replaced entry has another key. -/
theorem mem_set_of_found (distinct : (l.map key).Nodup) (found : l[i]? = some a)
    (mem : c ∈ l.set i b) : c = b ∨ c ∈ l ∧ key c ≠ key a := by
  obtain ⟨j, hj⟩ := List.mem_iff_getElem?.mp mem
  rw [List.getElem?_set] at hj
  split at hj
  · split at hj
    · exact .inl (Option.some.inj hj).symm
    · cases hj
  · rename_i hij
    refine .inr ⟨List.mem_of_getElem? hj, fun same => hij ?_⟩
    have hi : (l.map key)[i]? = some (key a) := by rw [List.getElem?_map, found]; rfl
    have hj : (l.map key)[j]? = some (key a) := by rw [List.getElem?_map, hj, ← same]; rfl
    exact (List.getElem?_inj (List.getElem?_eq_some_iff.mp hi).1 distinct).mp (hi.trans hj.symm)

theorem eq_of_key_eq (distinct : (l.map key).Nodup) (ha : a ∈ l) (hb : b ∈ l)
    (same : key a = key b) : a = b :=
  List.inj_on_of_nodup_map distinct ha hb same

theorem find?_of_mem [DecidableEq κ] (distinct : (l.map key).Nodup) (mem : a ∈ l) {k : κ}
    (same : key a = k) : l.find? (fun b => key b = k) = some a := by
  cases h : l.find? fun b => key b = k with
  | none => simpa [same] using List.find?_eq_none.mp h a mem
  | some b =>
    have hb : key b = k := by simpa using List.find?_some h
    rw [eq_of_key_eq distinct (List.mem_of_find?_eq_some h) mem (hb.trans same.symm)]

theorem found_of_findIdx? {p : α → Bool} (h : l.findIdx? p = some i) :
    ∃ a, l[i]? = some a ∧ p a = true := by
  obtain ⟨hi, hp, -⟩ := List.findIdx?_eq_some_iff_getElem.mp h
  exact ⟨l[i], List.getElem?_eq_getElem hi, hp⟩

/-- Looking every place up gives the list back. -/
theorem filterMap_getElem?_range (l : List α) :
    ((List.range l.length).filterMap fun i => l[i]?) = l := by
  induction l with
  | nil => rfl
  | cons a rest ih =>
    rw [List.length_cons, List.range_succ_eq_map, List.filterMap_cons, List.filterMap_map]
    simpa [Function.comp_def] using ih

/-- Looking up the places of what passes a test. -/
theorem filterMap_getElem?_filter {β : Type} (p : α → Bool) (f : α → β) (l : List α) :
    (((List.range l.length).filter fun i => l[i]?.any p).filterMap fun i => l[i]?.map f) =
      (l.filter p).map f := by
  induction l with
  | nil => rfl
  | cons a rest ih =>
    rw [List.length_cons, List.range_succ_eq_map, List.filter_cons, List.filter_map]
    cases hp : p a with
    | true => simpa [hp, List.filterMap_map, Function.comp_def] using ih
    | false => simpa [hp, List.filterMap_map, Function.comp_def] using ih

/-- What one place is taken from is still in the list if it was there twice. -/
theorem mem_eraseIdx_self [BEq α] [LawfulBEq α] (found : l[i]? = some a) :
    a ∈ l.eraseIdx i ↔ 1 < l.count a := by
  obtain ⟨hlt, hget⟩ := List.getElem?_eq_some_iff.mp found
  have hcount := (List.getElem_cons_eraseIdx_perm hlt).count_eq a
  rw [hget, List.count_cons_self] at hcount
  rw [← List.count_pos_iff]
  omega

theorem mem_eraseIdx_of_ne (found : l[i]? = some a) (ne : b ≠ a) : b ∈ l.eraseIdx i ↔ b ∈ l := by
  obtain ⟨hlt, hget⟩ := List.getElem?_eq_some_iff.mp found
  have hmem := (List.getElem_cons_eraseIdx_perm hlt).mem_iff (a := b)
  rw [hget, List.mem_cons] at hmem
  simpa [ne] using hmem

theorem lookup_filter_ne {β : Type u} [BEq κ] [LawfulBEq κ] [DecidableEq κ]
    (table : List (κ × β)) (dropped k : κ) :
    (table.filter (·.1 != dropped)).lookup k = if k = dropped then none else table.lookup k := by
  induction table with
  | nil => simp
  | cons entry rest ih =>
    obtain ⟨j, b⟩ := entry
    rw [List.filter_cons]
    by_cases hj : j = dropped
    · subst hj
      rw [if_neg (by simp), ih, List.lookup_cons]
      split
      · rfl
      · next hne => rw [beq_eq_false_iff_ne.mpr hne]
    · rw [if_pos (by simpa using hj), List.lookup_cons, List.lookup_cons, ih]
      by_cases hk : k = j
      · subst hk
        simp [hj]
      · rw [beq_eq_false_iff_ne.mpr hk]

end Beez.Lib
