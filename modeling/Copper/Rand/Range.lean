import Copper.Foundation.Sampling

/-!
# Ranges of words

A range of unsigned numbers is its minimum and what is added to it, modulo `2 ^ w`; a range of signed numbers is one of unsigned
numbers, moved by the least signed number.
-/

namespace Copper

open Sampling (Renames)

section

variable {w : Nat} {min max : BitVec w}

theorem toNat_width (h : min.toNat ≤ max.toNat) : (max - min).toNat = max.toNat - min.toNat :=
  BitVec.toNat_sub_of_le (BitVec.le_def.mpr h)

/-- A value of the range, as the minimum and what is added to it. -/
theorem inside_iff (h : min.toNat ≤ max.toNat) (y : BitVec w) :
    min.toNat ≤ (min + y).toNat ∧ (min + y).toNat ≤ max.toNat ↔ y.toNat < max.toNat - min.toNat + 1 := by
  have hmin := min.isLt
  have hmax := max.isLt
  have hy := y.isLt
  rw [BitVec.toNat_add]
  rcases Nat.lt_or_ge (min.toNat + y.toNat) (2 ^ w) with hlt | hge
  · rw [Nat.mod_eq_of_lt hlt]
    omega
  · rw [Nat.mod_eq_sub_mod hge, Nat.mod_eq_of_lt (by omega)]
    omega

/-- What is added to the minimum names the values of an unsigned range. -/
theorem renames_add (h : min.toNat ≤ max.toNat) :
    Renames (min + ·) (fun y => y.toNat < max.toNat - min.toNat + 1) fun z => min.toNat ≤ z.toNat ∧ z.toNat ≤ max.toNat := by
  constructor
  · intro y y' heq
    exact (BitVec.add_right_inj min).mp heq
  · intro y hy
    exact (inside_iff h y).mpr hy
  · intro z hz
    have hsum : min + (z - min) = z := by
      rw [BitVec.add_comm, BitVec.sub_add_cancel]
    refine ⟨z - min, (inside_iff h _).mp ?_, hsum⟩
    rw [hsum]
    exact hz

/-- The number of values of a range that is not full, as a word. -/
theorem toNat_width_succ (h : min.toNat ≤ max.toNat) (hfull : max - min ≠ BitVec.allOnes w) :
    (max - min + 1).toNat = max.toNat - min.toNat + 1 := by
  have hmax := max.isLt
  have hne : max.toNat - min.toNat ≠ 2 ^ w - 1 := by
    rw [← toNat_width h, ← BitVec.toNat_allOnes]
    exact fun heq => hfull (BitVec.eq_of_toNat_eq heq)
  have hw : 0 < w := by
    rcases Nat.eq_zero_or_pos w with rfl | hpos
    · omega
    · exact hpos
  have hone : (1 : BitVec w).toNat = 1 := BitVec.toNat_one hw
  rw [BitVec.toNat_add, toNat_width h, hone, Nat.mod_eq_of_lt (by omega)]

/-- Every word is some number of the full range. -/
theorem toNat_of_full (h : min.toNat ≤ max.toNat) (hfull : max - min = BitVec.allOnes w) : max.toNat - min.toNat + 1 = 2 ^ w := by
  have hpos := Nat.two_pow_pos w
  rw [← toNat_width h, hfull, BitVec.toNat_allOnes]
  omega

end

/-- Moving a signed number up by `2 ^ w` makes it an unsigned one. -/
theorem toNat_sub_intMin {w : Nat} (x : BitVec (w + 1)) :
    ((x - BitVec.intMin (w + 1)).toNat : Int) = x.toInt + 2 ^ w := by
  have hx := x.isLt
  have hpow : 2 ^ (w + 1) = 2 * 2 ^ w := Nat.pow_succ'
  have hpos := Nat.two_pow_pos w
  have hcast : ((2 ^ w : Nat) : Int) = 2 ^ w := Int.natCast_pow 2 w
  have hmin : (BitVec.intMin (w + 1)).toNat = 2 ^ w := by
    rw [BitVec.toNat_intMin, Nat.add_sub_cancel, Nat.mod_eq_of_lt (by omega)]
  rw [BitVec.toNat_sub, hmin, BitVec.toInt_eq_toNat_cond, ← hcast, hpow]
  rcases Nat.lt_or_ge x.toNat (2 ^ w) with hlt | hge
  · rw [Nat.mod_eq_of_lt (by omega), if_pos (by omega)]
    omega
  · rw [Nat.mod_eq_sub_mod (by omega), Nat.mod_eq_of_lt (by omega), if_neg (by omega)]
    omega

section

variable {w : Nat} {min max : BitVec (w + 1)}

/-- A signed range, as an unsigned one. -/
theorem signed_le_iff : (min - BitVec.intMin (w + 1)).toNat ≤ (max - BitVec.intMin (w + 1)).toNat ↔ min.toInt ≤ max.toInt := by
  have hmin := toNat_sub_intMin min
  have hmax := toNat_sub_intMin max
  omega

theorem signed_width (h : min.toInt ≤ max.toInt) :
    (max - BitVec.intMin (w + 1)).toNat - (min - BitVec.intMin (w + 1)).toNat + 1 = (max.toInt - min.toInt + 1).toNat := by
  have hmin := toNat_sub_intMin min
  have hmax := toNat_sub_intMin max
  omega

/-- The numbers of the unsigned range, moved down, are those of the signed range. -/
theorem renames_intMin :
    Renames (· + BitVec.intMin (w + 1))
      (fun y => (min - BitVec.intMin (w + 1)).toNat ≤ y.toNat ∧ y.toNat ≤ (max - BitVec.intMin (w + 1)).toNat)
      fun z => min.toInt ≤ z.toInt ∧ z.toInt ≤ max.toInt := by
  have hmin := toNat_sub_intMin min
  have hmax := toNat_sub_intMin max
  constructor
  · intro y y' heq
    exact (BitVec.add_left_inj _).mp heq
  · intro y hy
    have hz := toNat_sub_intMin (y + BitVec.intMin (w + 1))
    rw [BitVec.add_sub_cancel] at hz
    omega
  · intro z hz
    have hz' := toNat_sub_intMin z
    exact ⟨z - BitVec.intMin (w + 1), by omega, BitVec.sub_add_cancel z _⟩

end

end Copper
