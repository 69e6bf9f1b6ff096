import Copper.Rand.Masked
import Copper.Rand.Uniform

/-!
# Ranges when the system's generator fails

A call of `cpr_rand_bytes` that fails leaves `cpr_rand_u32` with zero. `cpr_randr_u64` takes a zero, whatever the range;
`cpr__lemireu32_step` takes it only if the width goes into `2 ^ 32`, so that `cpr_randr_u32` draws for ever for any other range.
-/

namespace Copper

/-- From the `n`-th call on, every call of `cpr_rand_bytes` fails, and writes nothing. -/
def FailsFrom {w : Nat} (calls : Nat → RandCall w) (n : Nat) : Prop := ∀ i ≥ n, ∀ v, calls i v = (false, v)

/-- The width goes into the number of words, or one of the first `n` draws, scaled to the width, is not among the first
`2 ^ 32 % width` of its interval. -/
def AcceptsBefore (width : Nat) (calls : Nat → RandCall 32) (n : Nat) : Prop :=
  width ∣ 2 ^ 32 ∨ ∃ i < n, 2 ^ 32 % width ≤ (randU32 (calls i)).toNat * width % 2 ^ 32

/-- Where the generator fails the draw is 0. -/
theorem randU32_of_fails {calls : Nat → RandCall 32} {n i : Nat} (h : FailsFrom calls n) (hi : n ≤ i) :
    randU32 (calls i) = 0 := by
  rw [randU32, h i hi]

/-- Where the generator fails the draw is 0. -/
theorem randU64_of_fails {calls : Nat → RandCall 64} {n i : Nat} (h : FailsFrom calls n) (hi : n ≤ i) :
    randU64 (calls i) = 0 := by
  rw [randU64, h i hi]

/-! ## 32 bits -/

/-- A draw is accepted just if the low half of its product with the width is not too small. -/
theorem lemireu32Step_ne_none_iff {x width : BitVec 32} (hwidth : 0 < width.toNat) :
    lemireu32Step x width ≠ none ↔ 2 ^ 32 % width.toNat ≤ x.toNat * width.toNat % 2 ^ 32 := by
  rw [lemireu32Step_eq hwidth]
  split
  · exact iff_of_true (by simp) ‹_›
  · exact iff_of_false (by simp) ‹_›

section

variable {min max : BitVec 32}

/-- A call returns when one of its draws leads to a value. -/
theorem randrU32_returns_iff (draw : Nat → BitVec 32) :
    (∃ n, randrU32 min max ((List.range n).map draw) ≠ none) ↔ ∃ i, randrU32Step min max (draw i) ≠ none := by
  simp only [randrU32Step_eq, randrU32]
  by_cases hfull : max - min = BitVec.allOnes 32
  · simp only [if_pos hfull, ne_eq, Option.map_eq_none_iff]
    refine (Sampling.exists_sample_iff some draw).trans ?_
    exact exists_congr fun i => by simp
  · simp only [if_neg hfull, ne_eq, Option.map_eq_none_iff]
    exact Sampling.exists_sample_iff (fun x => lemireu32Step x (max - min + 1)) draw

/-- A draw for a range is accepted likewise. -/
theorem randrU32Step_ne_none_iff (h : min.toNat ≤ max.toNat) (x : BitVec 32) :
    randrU32Step min max x ≠ none ↔
      2 ^ 32 % (max.toNat - min.toNat + 1) ≤ x.toNat * (max.toNat - min.toNat + 1) % 2 ^ 32 := by
  rw [randrU32Step_eq]
  by_cases hfull : max - min = BitVec.allOnes 32
  · rw [if_pos hfull, toNat_of_full h hfull, Nat.mod_self]
    exact iff_of_true (by simp) (Nat.zero_le _)
  · have hwidth := toNat_width_succ h hfull
    rw [if_neg hfull, ne_eq, Option.map_eq_none_iff, ← ne_eq, lemireu32Step_ne_none_iff (by omega), hwidth]

/-- If the generator fails from some draw on, a call returns exactly if a draw before is accepted, or a zero would be. -/
theorem randrU32_returns_of_failing (h : min.toNat ≤ max.toNat) {calls : Nat → RandCall 32} {n : Nat} (hfails : FailsFrom calls n) :
    (∃ k, randrU32 min max ((List.range k).map fun i => randU32 (calls i)) ≠ none) ↔
      AcceptsBefore (max.toNat - min.toNat + 1) calls n := by
  rw [randrU32_returns_iff]
  simp only [randrU32Step_ne_none_iff h]
  constructor
  · rintro ⟨i, hi⟩
    rcases Nat.lt_or_ge i n with hlt | hge
    · exact .inr ⟨i, hlt, hi⟩
    · rw [randU32_of_fails hfails hge, show (0 : BitVec 32).toNat = 0 from rfl, Nat.zero_mul, Nat.zero_mod] at hi
      exact .inl (Nat.dvd_of_mod_eq_zero (Nat.le_zero.mp hi))
  · rintro (hdvd | ⟨i, -, hi⟩)
    · refine ⟨n, ?_⟩
      rw [Nat.mod_eq_zero_of_dvd hdvd]
      exact Nat.zero_le _
    · exact ⟨i, hi⟩

/-- A signed range returns when the unsigned one that it is mapped to does. -/
theorem randrI32_ne_none_iff (draws : List (BitVec 32)) :
    randrI32 min max draws ≠ none ↔ randrU32 (min - BitVec.intMin 32) (max - BitVec.intMin 32) draws ≠ none := by
  rw [randrI32, ne_eq, Option.map_eq_none_iff]

end

/-! ## 64 bits -/

section

variable {min max : BitVec 64}

/-- A call returns exactly if one of the draws is accepted. -/
theorem randrU64_returns_iff (draw : Nat → BitVec 64) :
    (∃ n, randrU64 min max ((List.range n).map draw) ≠ none) ↔ ∃ i, randrU64Step min max (draw i) ≠ none := by
  simp only [randrU64Step_eq, randrU64]
  by_cases hfull : max - min = BitVec.allOnes 64
  · simp only [if_pos hfull, ne_eq, Option.map_eq_none_iff]
    refine (Sampling.exists_sample_iff some draw).trans ?_
    exact exists_congr fun i => by simp
  · simp only [if_neg hfull, ne_eq, Option.map_eq_none_iff]
    exact Sampling.exists_sample_iff (maskedStep (pow2Mask (max - min + 1)) (max - min + 1)) draw

/-- Zero is a value of every range. -/
theorem randrU64Step_zero (h : min.toNat ≤ max.toNat) : randrU64Step min max 0 ≠ none := by
  rw [randrU64Step_eq]
  by_cases hfull : max - min = BitVec.allOnes 64
  · rw [if_pos hfull]
    simp
  · have hwidth := toNat_width_succ h hfull
    have hpos : 0 < (max - min + 1).toNat := by omega
    rw [if_neg hfull, maskedStep_eq hpos, show (0 : BitVec 64).toNat = 0 from rfl, Nat.zero_mod, if_pos hpos]
    simp

/-- Zeros are accepted, so that a call returns where the generator fails. -/
theorem randrU64_returns_of_failing (h : min.toNat ≤ max.toNat) {calls : Nat → RandCall 64} {n : Nat} (hfails : FailsFrom calls n) :
    ∃ k, randrU64 min max ((List.range k).map fun i => randU64 (calls i)) ≠ none := by
  refine (randrU64_returns_iff _).mpr ⟨n, ?_⟩
  rw [randU64_of_fails hfails (Nat.le_refl n)]
  exact randrU64Step_zero h

/-- A signed call returns just when the unsigned one does. -/
theorem randrI64_ne_none_iff (draws : List (BitVec 64)) :
    randrI64 min max draws ≠ none ↔ randrU64 (min - BitVec.intMin 64) (max - BitVec.intMin 64) draws ≠ none := by
  rw [randrI64, ne_eq, Option.map_eq_none_iff]

end

/-! ## All four -/

/-- Once the system's generator fails for good, a 32-bit range returns exactly if its width is a power of two or a draw from before
was accepted; a 64-bit range always returns. -/
theorem randr_returns_iff {calls32 : Nat → RandCall 32} {calls64 : Nat → RandCall 64} {n : Nat} (hfails32 : FailsFrom calls32 n)
    (hfails64 : FailsFrom calls64 n) :
    (∀ min max : BitVec 32, min.toNat ≤ max.toNat →
      ((∃ k, randrU32 min max ((List.range k).map fun i => randU32 (calls32 i)) ≠ none) ↔
        AcceptsBefore (max.toNat - min.toNat + 1) calls32 n)) ∧
    (∀ min max : BitVec 32, min.toInt ≤ max.toInt →
      ((∃ k, randrI32 min max ((List.range k).map fun i => randU32 (calls32 i)) ≠ none) ↔
        AcceptsBefore (max.toInt - min.toInt + 1).toNat calls32 n)) ∧
    (∀ min max : BitVec 64, min.toNat ≤ max.toNat →
      ∃ k, randrU64 min max ((List.range k).map fun i => randU64 (calls64 i)) ≠ none) ∧
    (∀ min max : BitVec 64, min.toInt ≤ max.toInt →
      ∃ k, randrI64 min max ((List.range k).map fun i => randU64 (calls64 i)) ≠ none) := by
  refine ⟨fun min max h => randrU32_returns_of_failing h hfails32, fun min max h => ?_,
    fun min max h => randrU64_returns_of_failing h hfails64, fun min max h => ?_⟩
  · rw [← signed_width h]
    simp only [randrI32_ne_none_iff]
    exact randrU32_returns_of_failing (signed_le_iff.mpr h) hfails32
  · simp only [randrI64_ne_none_iff]
    exact randrU64_returns_of_failing (signed_le_iff.mpr h) hfails64

/-- Every call fails. -/
def noEntropy (w : Nat) : Nat → RandCall w := fun _ v => (false, v)

/-- An eight-sided die returns without any randomness. -/
theorem randr_returns_eight :
    (∃ k, randrU32 1 8 ((List.range k).map fun i => randU32 (noEntropy 32 i)) ≠ none) ∧
      ∃ k, randrU64 1 6 ((List.range k).map fun i => randU64 (noEntropy 64 i)) ≠ none :=
  have hreturns := @randr_returns_iff (noEntropy 32) (noEntropy 64) 0 (fun _ _ _ => rfl) fun _ _ _ => rfl
  ⟨(hreturns.1 1 8 (by decide)).mpr (.inl (by decide)), hreturns.2.2.1 1 6 (by decide)⟩

/-- A six-sided die never returns. -/
theorem randr_never_returns_six :
    FailsFrom (noEntropy 32) 0 ∧ ∀ k, randrU32 1 6 ((List.range k).map fun i => randU32 (noEntropy 32 i)) = none := by
  refine ⟨fun _ _ _ => rfl, fun k => ?_⟩
  have hzero : randrU32Step 1 6 0 = none := by decide
  by_contra h
  obtain ⟨i, hi⟩ := (randrU32_returns_iff fun i => randU32 (noEntropy 32 i)).mp ⟨k, h⟩
  exact hi hzero

end Copper
