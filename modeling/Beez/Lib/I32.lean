import Mathlib.Tactic.Common

/-! # Arithmetic on 32 bits

A build either checks that a result fits or keeps its low 32 bits.
-/

namespace Beez.Lib

def Fits32 (n : Int) : Prop := -2147483648 ≤ n ∧ n ≤ 2147483647

instance (n : Int) : Decidable (Fits32 n) :=
  inferInstanceAs (Decidable (-2147483648 ≤ n ∧ n ≤ 2147483647))

abbrev I32 := { n : Int // Fits32 n }

def wrap32 (n : Int) : Int := (n + 2147483648) % 4294967296 - 2147483648

theorem fits32_wrap32 (n : Int) : Fits32 (wrap32 n) := by
  unfold Fits32 wrap32
  omega

theorem wrap32_of_fits {n : Int} (h : Fits32 n) : wrap32 n = n := by
  unfold Fits32 at h
  unfold wrap32
  omega

inductive Build where
  | checked | wrapping
deriving DecidableEq

/-- The value a result is kept as. Nothing stands for a panic. -/
def Build.fit (build : Build) (n : Int) : Option I32 :=
  match build with
  | .checked => if h : Fits32 n then some ⟨n, h⟩ else none
  | .wrapping => some ⟨wrap32 n, fits32_wrap32 n⟩

theorem Build.fit_of_fits (build : Build) {n : Int} (h : Fits32 n) :
    build.fit n = some ⟨n, h⟩ := by
  cases build with
  | checked => exact dif_pos h
  | wrapping => exact congrArg some (Subtype.ext (wrap32_of_fits h))

theorem Build.wrapping_fit_ne_none (n : Int) : Build.wrapping.fit n ≠ none := by
  have kept : Build.wrapping.fit n = some ⟨wrap32 n, fits32_wrap32 n⟩ := rfl
  rw [kept]
  exact Option.some_ne_none _

theorem Build.eq_of_checked {n : Int} {kept : I32} (h : Build.checked.fit n = some kept) :
    kept.val = n := by
  rw [Build.fit] at h
  split at h
  · rw [← Option.some.inj h]
  · cases h

end Beez.Lib
