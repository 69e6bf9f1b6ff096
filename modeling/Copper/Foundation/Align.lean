import Copper.Foundation.Counter
import Mathlib.Order.Bounds.Defs

/-!
# Rounding up to an alignment

The least multiple of an alignment that is at least a given number, over the natural numbers, and what the usual bit trick makes
of it in `w` bits: the same multiple, unless that is `2 ^ w` itself, which reads as zero.
-/

namespace Align

/-- The least multiple of `a` that is at least `x`. -/
def roundUp (x a : Nat) : Nat := (x + (a - 1)) / a * a

variable {x y a w : Nat}

theorem dvd_roundUp : a ∣ roundUp x a := Nat.dvd_mul_left a _

theorem le_roundUp (ha : 0 < a) : x ≤ roundUp x a := by
  have h := Nat.lt_div_mul_add (a := x + (a - 1)) ha
  unfold roundUp
  omega

/-- No multiple between `x` and the rounded number is missed. -/
theorem roundUp_le (hxy : x ≤ y) (hy : a ∣ y) : roundUp x a ≤ y := by
  obtain ⟨k, rfl⟩ := hy
  rcases Nat.eq_zero_or_pos a with rfl | ha
  · simp [roundUp]
  · have h : (x + (a - 1)) / a < k + 1 := by
      rw [Nat.div_lt_iff_lt_mul ha, Nat.add_mul, Nat.mul_comm k a]
      omega
    rw [Nat.mul_comm a k]
    exact Nat.mul_le_mul_right a (by omega)

/-- Rounding up gives the least of the multiples at or past a number. -/
theorem isLeast_roundUp (ha : 0 < a) : IsLeast {m | a ∣ m ∧ x ≤ m} (roundUp x a) :=
  ⟨⟨dvd_roundUp, le_roundUp ha⟩, fun _ hm => roundUp_le hm.2 hm.1⟩

/-- A number below a multiple is rounded up to that multiple at most. -/
theorem roundUp_le_range {m : BitVec w} (hm : m.toNat.isPowerOfTwo) (hx : x ≤ 2 ^ w) : roundUp x m.toNat ≤ 2 ^ w :=
  roundUp_le hx (WrapCounter.dvd_range hm)

/-- Adding the mask and clearing the low bits rounds up, modulo the range. -/
theorem toNat_alignUp {x m : BitVec w} (hm : m.toNat.isPowerOfTwo) :
    ((x + (m - 1)) &&& ~~~(m - 1)).toNat = roundUp x.toNat m.toNat % 2 ^ w := by
  obtain ⟨k, hk⟩ := WrapCounter.dvd_range hm
  rw [WrapCounter.toNat_and_not_mask hm, BitVec.toNat_add, WrapCounter.toNat_sub_one (Nat.pos_of_isPowerOfTwo hm), roundUp,
    hk, Nat.mod_mul_right_div_self, Nat.mul_comm m.toNat k, Nat.mul_mod_mul_right]

end Align
