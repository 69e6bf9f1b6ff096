import Mathlib.Algebra.Group.Nat.Defs
import Mathlib.Data.Nat.Bits

/-!
# Wrapping counters

A counter of `w` bits that only ever grows is the residue of the number of steps counted so far. The difference of two such
counters is the number of steps between them as long as that number fits in `w` bits, however often either has wrapped. A mask
of a power of two cuts a counter down to a position in an array of that size.
-/

namespace WrapCounter

variable {w : Nat}

/-- The difference of two counters is the counter of the difference. -/
theorem ofNat_sub {t h : Nat} (hth : t ≤ h) : BitVec.ofNat w h - BitVec.ofNat w t = BitVec.ofNat w (h - t) := by
  obtain ⟨d, rfl⟩ := Nat.exists_eq_add_of_le hth
  rw [BitVec.ofNat_add, Nat.add_sub_cancel_left, BitVec.add_comm, BitVec.add_sub_cancel]

/-- The difference of two counters is exact when it fits. -/
theorem toNat_sub_of_le {t h : Nat} (hth : t ≤ h) (hlt : h - t < 2 ^ w) :
    (BitVec.ofNat w h - BitVec.ofNat w t).toNat = h - t := by
  rw [ofNat_sub hth, BitVec.toNat_ofNat, Nat.mod_eq_of_lt hlt]

/-- A counter that is behind the one it is compared with reads as ahead of it by the rest of the range. -/
theorem toNat_sub_of_ge {t h : Nat} (hht : h ≤ t) :
    (BitVec.ofNat w h - BitVec.ofNat w t).toNat = (2 ^ w - (t - h) % 2 ^ w) % 2 ^ w := by
  have hneg : BitVec.ofNat w h - BitVec.ofNat w t = -(BitVec.ofNat w t - BitVec.ofNat w h) := by
    rw [BitVec.neg_sub, BitVec.add_comm, BitVec.sub_eq_add_neg]
  rw [hneg, BitVec.toNat_neg, ofNat_sub hht, BitVec.toNat_ofNat]

/-- Subtracting one from a nonzero word does not wrap. -/
theorem toNat_sub_one {m : BitVec w} (hm : 0 < m.toNat) : (m - 1).toNat = m.toNat - 1 := by
  have hlt := m.isLt
  have h1 : (1 : BitVec w).toNat = 1 := by
    rw [show (1 : BitVec w).toNat = 1 % 2 ^ w by simp]
    exact Nat.mod_eq_of_lt (by omega)
  rw [BitVec.toNat_sub_of_le, h1]
  rw [BitVec.le_def, h1]
  omega

/-- The check `v != 0 && (v & (v - 1)) == 0` accepts the powers of two. -/
theorem isPowerOfTwo_iff (v : BitVec w) : (v ≠ 0 ∧ v &&& (v - 1) = 0) ↔ v.toNat.isPowerOfTwo := by
  rw [← Nat.ne_zero_and_sub_one_eq_zero_iff_isPowerOfTwo, ne_eq, ← BitVec.toNat_inj, ← BitVec.toNat_inj,
    BitVec.toNat_and, show (0 : BitVec w).toNat = 0 by simp]
  refine and_congr_right fun hv => ?_
  rw [toNat_sub_one (Nat.pos_of_ne_zero hv)]

/-- A power of two held in `w` bits divides the range. -/
theorem dvd_range {m : BitVec w} (hm : m.toNat.isPowerOfTwo) : m.toNat ∣ 2 ^ w := by
  obtain ⟨k, hk⟩ := hm
  rw [hk]
  exact Nat.pow_dvd_pow 2 (Nat.le_of_lt ((Nat.pow_lt_pow_iff_right (by omega)).mp (hk ▸ m.isLt)))

/-- Masking with a power of two less one takes the remainder. -/
theorem toNat_and_mask {x m : BitVec w} (hm : m.toNat.isPowerOfTwo) : (x &&& (m - 1)).toNat = x.toNat % m.toNat := by
  rw [BitVec.toNat_and, toNat_sub_one (Nat.pos_of_isPowerOfTwo hm)]
  obtain ⟨k, hk⟩ := hm
  rw [hk, Nat.and_two_pow_sub_one_eq_mod]

/-- Masking a counter takes the remainder of the number of steps counted. -/
theorem ofNat_and_mask {p : Nat} {m : BitVec w} (hm : m.toNat.isPowerOfTwo) :
    (BitVec.ofNat w p &&& (m - 1)).toNat = p % m.toNat := by
  rw [toNat_and_mask hm, BitVec.toNat_ofNat, Nat.mod_mod_of_dvd _ (dvd_range hm)]

/-- Clearing the bits below a power of two leaves the multiple of it that is next below. -/
theorem toNat_and_not_mask {y m : BitVec w} (hm : m.toNat.isPowerOfTwo) :
    (y &&& ~~~(m - 1)).toNat = y.toNat / m.toNat * m.toNat := by
  rw [BitVec.toNat_and, BitVec.toNat_not, toNat_sub_one (Nat.pos_of_isPowerOfTwo hm)]
  have hlt := m.isLt
  have hy := y.isLt
  obtain ⟨k, hk⟩ := hm
  rw [hk] at hlt ⊢
  have hpos : 0 < 2 ^ k := Nat.two_pow_pos k
  have hcompl : 2 ^ w - 1 - (2 ^ k - 1) = 2 ^ w - ((2 ^ k - 1) + 1) := by omega
  rw [hcompl]
  refine Nat.eq_of_testBit_eq fun i => ?_
  rw [Nat.testBit_and, Nat.testBit_two_pow_sub_succ (by omega), Nat.testBit_two_pow_sub_one, Nat.testBit_mul_two_pow,
    Nat.testBit_div_two_pow]
  by_cases hi : k ≤ i
  · rw [Nat.sub_add_cancel hi]
    by_cases hw : i < w
    · simp [hi, hw]
    · have hbit : y.toNat.testBit i = false :=
        Nat.testBit_lt_two_pow (Nat.lt_of_lt_of_le hy (Nat.pow_le_pow_right (by omega) (by omega)))
      simp [hbit]
  · simp [hi, Nat.lt_of_not_le hi]

end WrapCounter
