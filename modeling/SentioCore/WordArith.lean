import Mathlib.Tactic

/-!
# Machine words as numbers

Comparisons and the two border steps of an unsigned 64-bit word, read as
natural numbers. A step is exact below the last word and above zero.
-/

namespace Sentio.WordArith

theorem word_lt (x : UInt64) : x.toNat < 2^64 := x.toNat_lt

theorem toNat_inc (x : UInt64) (h : x.toNat < (2^64-1)) : (x+1).toNat = x.toNat+1 := by
  simp only [UInt64.toNat_add,UInt64.toNat_one]
  omega

theorem toNat_dec (x : UInt64) (h : 0 < x.toNat) : (x-1).toNat = x.toNat-1 := by
  have := word_lt x
  simp only [UInt64.toNat_sub,UInt64.toNat_one]
  omega

theorem toNat_max (x y : UInt64) : (max x y).toNat = max x.toNat y.toNat := by
  have hm : max x y = if x ≤ y then y else x := rfl
  by_cases h : x.toNat ≤ y.toNat
  · simp [hm,UInt64.le_iff_toNat_le,h]
  · simp [hm,UInt64.le_iff_toNat_le,h]
    omega

theorem toNat_min (x y : UInt64) : (min x y).toNat = min x.toNat y.toNat := by
  have hm : min x y = if x ≤ y then x else y := rfl
  by_cases h : x.toNat ≤ y.toNat
  · simp [hm,UInt64.le_iff_toNat_le,h]
  · simp [hm,UInt64.le_iff_toNat_le,h]
    omega

variable {x y : UInt64}

theorem max_of_le (h : x ≤ y) : max x y = y := if_pos h

theorem max_of_ge (h : y ≤ x) : max x y = x := by
  apply UInt64.toNat_inj.mp
  exact (toNat_max x y).trans (Nat.max_eq_left h)

theorem min_of_le (h : x ≤ y) : min x y = x := if_pos h

theorem min_of_ge (h : y ≤ x) : min x y = y := by
  apply UInt64.toNat_inj.mp
  exact (toNat_min x y).trans (Nat.min_eq_right h)

end Sentio.WordArith
