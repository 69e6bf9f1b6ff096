import Mathlib.Algebra.Group.Nat.Defs
import Mathlib.Data.Nat.Size
import Mathlib.Order.Bounds.Defs
import Mathlib.Tactic.ByContra

/-!
# Spreading the highest bit

`x ||| x >>> s` sets each bit that is set `s` places higher. Done for `1`, `2`, `4`, … it sets all bits below the highest one, so
that the word becomes the least power of two past it, less one.
-/

namespace Smear

variable {w s : Nat} {v x : BitVec w}

/-- `x` has a bit exactly where `v` has one there or in one of the `s - 1` places above. -/
def Smeared (v : BitVec w) (s : Nat) (x : BitVec w) : Prop :=
  ∀ i, x.getLsbD i = true ↔ ∃ j, i ≤ j ∧ j < i + s ∧ v.getLsbD j = true

theorem smeared_one (v : BitVec w) : Smeared v 1 v := by
  intro i
  constructor
  · intro h
    exact ⟨i, Nat.le_refl i, Nat.lt_succ_self i, h⟩
  · rintro ⟨j, hle, hlt, h⟩
    rwa [show i = j by omega]

/-- A step doubles the number of places. -/
theorem Smeared.double (h : Smeared v s x) : Smeared v (s + s) (x ||| x >>> s) := by
  intro i
  rw [BitVec.getLsbD_or, BitVec.getLsbD_ushiftRight, Bool.or_eq_true, h i, h (s + i)]
  constructor
  · rintro (⟨j, hle, hlt, hj⟩ | ⟨j, hle, hlt, hj⟩)
    · exact ⟨j, hle, by omega, hj⟩
    · exact ⟨j, by omega, by omega, hj⟩
  · rintro ⟨j, hle, hlt, hj⟩
    rcases Nat.lt_or_ge j (i + s) with hlow | hhigh
    · exact .inl ⟨j, hle, hlow, hj⟩
    · exact .inr ⟨j, by omega, by omega, hj⟩

/-- Once all places are covered, every bit below the highest one is set. -/
theorem Smeared.toNat_eq (h : Smeared v w x) : x.toNat = 2 ^ Nat.size v.toNat - 1 := by
  apply Nat.eq_of_testBit_eq
  intro i
  rw [Nat.testBit_two_pow_sub_one, Bool.eq_iff_iff, decide_eq_true_iff, Nat.lt_size]
  have hx := h i
  rw [BitVec.getLsbD] at hx
  rw [hx]
  constructor
  · rintro ⟨j, hle, -, hj⟩
    exact Nat.le_trans (Nat.pow_le_pow_right (by decide) hle) (Nat.ge_two_pow_of_testBit hj)
  · intro hle
    obtain ⟨j, hij, hj⟩ := Nat.exists_ge_and_testBit_of_ge_two_pow hle
    have hjw : j < w := by
      by_contra hge
      rw [← BitVec.getLsbD, BitVec.getLsbD_of_ge v j (Nat.not_lt.mp hge)] at hj
      cases hj
    exact ⟨j, hij, by omega, hj⟩

/-- The power of two past a number is the least one past it. -/
theorem isLeast_size (n : Nat) : IsLeast { m | (∃ k, m = 2 ^ k) ∧ n < m } (2 ^ Nat.size n) := by
  constructor
  · exact ⟨⟨_, rfl⟩, Nat.lt_size_self n⟩
  · rintro m ⟨⟨k, rfl⟩, hlt⟩
    exact Nat.pow_le_pow_right (by decide) (Nat.size_le.mpr hlt)

/-- It is at most twice the number, if that is not zero. -/
theorem pow_size_le {n : Nat} (hn : 0 < n) : 2 ^ Nat.size n ≤ 2 * n := by
  have hpos : 0 < Nat.size n := Nat.lt_size.mpr hn
  obtain ⟨k, hk⟩ := Nat.exists_eq_succ_of_ne_zero (Nat.ne_of_gt hpos)
  have hle : 2 ^ k ≤ n := Nat.lt_size.mp (by omega)
  rw [hk, Nat.pow_succ]
  omega

end Smear
