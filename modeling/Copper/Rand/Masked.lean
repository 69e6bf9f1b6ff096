import Copper.Foundation.Smear
import Copper.Rand.Basic
import Copper.Rand.Range

/-!
# 64-bit ranges are exactly uniform

`cpr__pow2_mask` spreads the highest bit of `width - 1`, so that the mask is the least power of two that is not below the width,
less one. A masked draw is the draw modulo that power; the numbers below the width are all hit by as many draws, and more than half
of the draws are below it.
-/

namespace Copper

open Sampling (hits accepts)

/-! ## The mask -/

/-- The steps of `cpr__pow2_mask` cover all 64 places. -/
theorem smeared_pow2Mask (width : BitVec 64) : Smear.Smeared (width - 1) 64 (pow2Mask width) :=
  (Smear.smeared_one (width - 1)).double.double.double.double.double.double

/-- The greatest number below a width. -/
theorem toNat_sub_one {width : BitVec 64} (hwidth : 0 < width.toNat) : (width - 1).toNat = width.toNat - 1 :=
  BitVec.toNat_sub_of_le (BitVec.le_def.mpr hwidth)

/-- The mask has as many ones as that number has bits. -/
theorem toNat_pow2Mask {width : BitVec 64} (hwidth : 0 < width.toNat) :
    (pow2Mask width).toNat = 2 ^ Nat.size (width.toNat - 1) - 1 := by
  rw [(smeared_pow2Mask width).toNat_eq, toNat_sub_one hwidth]

/-- The mask is one less than a power of two. -/
theorem toNat_pow2Mask_succ {width : BitVec 64} (hwidth : 0 < width.toNat) :
    (pow2Mask width).toNat + 1 = 2 ^ Nat.size (width.toNat - 1) := by
  have hpos := Nat.two_pow_pos (Nat.size (width.toNat - 1))
  rw [toNat_pow2Mask hwidth]
  omega

/-- One past the mask is the least power of two that is not below the width. -/
theorem pow2Mask_isLeast {width : BitVec 64} (hwidth : 0 < width.toNat) :
    IsLeast { m | (∃ k, m = 2 ^ k) ∧ width.toNat ≤ m } ((pow2Mask width).toNat + 1) := by
  have hset : { m | (∃ k, m = 2 ^ k) ∧ width.toNat ≤ m } = { m | (∃ k, m = 2 ^ k) ∧ width.toNat - 1 < m } := by
    ext m
    exact and_congr_right fun _ => by omega
  rw [hset, toNat_pow2Mask_succ hwidth]
  exact Smear.isLeast_size (width.toNat - 1)

/-! ## One step -/

section

variable {width : BitVec 64} (hwidth : 0 < width.toNat)

include hwidth

/-- It goes into the number of draws. -/
theorem pow2Mask_dvd : (pow2Mask width).toNat + 1 ∣ 2 ^ 64 := by
  rw [toNat_pow2Mask_succ hwidth]
  refine Nat.pow_dvd_pow 2 (Nat.size_le.mpr ?_)
  have hlt := width.isLt
  omega

/-- No number below the width is above the mask. -/
theorem width_le_mask : width.toNat ≤ (pow2Mask width).toNat + 1 := (pow2Mask_isLeast hwidth).1.2

/-- It is less than twice the width. -/
theorem mask_lt_two_mul : (pow2Mask width).toNat + 1 < 2 * width.toNat := by
  rw [toNat_pow2Mask_succ hwidth]
  rcases Nat.eq_zero_or_pos (width.toNat - 1) with hone | hpos
  · rw [hone, Nat.size_zero]
    omega
  · have hle := Smear.pow_size_le hpos
    omega

/-- A masked draw. -/
theorem toNat_and_mask (draw : BitVec 64) : (draw &&& pow2Mask width).toNat = draw.toNat % ((pow2Mask width).toNat + 1) := by
  rw [toNat_pow2Mask_succ hwidth, BitVec.toNat_and, toNat_pow2Mask hwidth, Nat.and_two_pow_sub_one_eq_mod]

/-- A draw is masked, and drawn again if it is not below the width. -/
theorem maskedStep_eq (draw : BitVec 64) :
    maskedStep (pow2Mask width) width draw =
      if draw.toNat % ((pow2Mask width).toNat + 1) < width.toNat then some (draw &&& pow2Mask width) else none := by
  simp only [maskedStep, BitVec.lt_def, toNat_and_mask hwidth]

/-- The draws that give a number are those with its remainder. -/
theorem maskedStep_hit {n : Nat} (hn : n < 2 ^ 64) {y : BitVec 64} (hy : y.toNat < width.toNat) :
    maskedStep (pow2Mask width) width (BitVec.ofNat 64 n) = some y ↔ n % ((pow2Mask width).toNat + 1) = y.toNat := by
  have hword : (BitVec.ofNat 64 n).toNat = n := by
    rw [BitVec.toNat_ofNat, Nat.mod_eq_of_lt hn]
  have hmasked := toNat_and_mask hwidth (BitVec.ofNat 64 n)
  rw [hword] at hmasked
  rw [maskedStep_eq hwidth, hword]
  constructor
  · intro h
    split at h
    · obtain rfl := Option.some.inj h
      exact hmasked.symm
    · cases h
  · intro h
    rw [if_pos (by omega), Option.some.injEq]
    exact BitVec.eq_of_toNat_eq (hmasked.trans h)

/-- Every number is given by equally many draws. -/
theorem hits_maskedStep {y : BitVec 64} (hy : y.toNat < width.toNat) :
    hits (maskedStep (pow2Mask width) width) y = 2 ^ 64 / ((pow2Mask width).toNat + 1) := by
  rw [hits, Finset.filter_congr fun n hn => maskedStep_hit hwidth (Finset.mem_range.mp hn) hy]
  exact Sampling.card_residue (Nat.succ_pos _) (pow2Mask_dvd hwidth) (Nat.lt_of_lt_of_le hy (width_le_mask hwidth))

/-- So that as many draws are accepted as the width has of these. -/
theorem accepts_maskedStep :
    accepts (maskedStep (pow2Mask width) width) = width.toNat * (2 ^ 64 / ((pow2Mask width).toNat + 1)) := by
  have haccept : ∀ n ∈ Finset.range (2 ^ 64), (maskedStep (pow2Mask width) width (BitVec.ofNat 64 n)).isSome = true ↔
      n % ((pow2Mask width).toNat + 1) < width.toNat := by
    intro n hn
    rw [maskedStep_eq hwidth, BitVec.toNat_ofNat, Nat.mod_eq_of_lt (Finset.mem_range.mp hn)]
    split
    · exact iff_of_true rfl ‹_›
    · exact iff_of_false Bool.false_ne_true ‹_›
  rw [accepts, Finset.filter_congr haccept]
  exact Sampling.card_residue_lt (Nat.succ_pos _) (pow2Mask_dvd hwidth) (width_le_mask hwidth)

/-- More than half of the draws are accepted. -/
theorem accepts_maskedStep_gt : 2 ^ 64 < 2 * accepts (maskedStep (pow2Mask width) width) := by
  have hdvd := Nat.div_mul_cancel (pow2Mask_dvd hwidth)
  have hlt := mask_lt_two_mul hwidth
  have hpos : 0 < 2 ^ 64 / ((pow2Mask width).toNat + 1) :=
    Nat.div_pos (Nat.le_of_dvd (Nat.two_pow_pos 64) (pow2Mask_dvd hwidth)) (Nat.succ_pos _)
  rw [accepts_maskedStep hwidth]
  calc 2 ^ 64 = 2 ^ 64 / ((pow2Mask width).toNat + 1) * ((pow2Mask width).toNat + 1) := hdvd.symm
    _ < 2 ^ 64 / ((pow2Mask width).toNat + 1) * (2 * width.toNat) := Nat.mul_lt_mul_of_pos_left hlt hpos
    _ = 2 * (width.toNat * (2 ^ 64 / ((pow2Mask width).toNat + 1))) := by
      rw [Nat.mul_comm, Nat.mul_assoc]

/-- What is given is below the width. -/
theorem maskedStep_lt {draw y : BitVec 64} (h : maskedStep (pow2Mask width) width draw = some y) : y.toNat < width.toNat := by
  have hmasked := toNat_and_mask hwidth draw
  rw [maskedStep_eq hwidth] at h
  split at h
  · obtain rfl := Option.some.inj h
    rw [hmasked]
    assumption
  · cases h

end

/-! ## Ranges -/

/-- A step that makes of a word one of the `width` values `inside` a range: all by as many words as the mask leaves for each, more
than half of the words accepted. -/
structure MaskedUniform (step : BitVec 64 → Option (BitVec 64)) (inside : BitVec 64 → Prop) (width : Nat) : Prop where
  even : width ≤ 2 ^ 64 - 1 → ∀ y, inside y → hits step y = 2 ^ 64 / ((pow2Mask (BitVec.ofNat 64 width)).toNat + 1)
  most : width ≤ 2 ^ 64 - 1 → 2 ^ 64 < 2 * accepts step
  within : ∀ x y, step x = some y → inside y
  distinct : width = 2 ^ 64 → Function.Injective step ∧ ∀ x, step x ≠ none

/-- Renaming the values. -/
theorem MaskedUniform.map {step : BitVec 64 → Option (BitVec 64)} {inside inside' : BitVec 64 → Prop} {width : Nat}
    (h : MaskedUniform step inside width) {f : BitVec 64 → BitVec 64} (hf : Sampling.Renames f inside inside') :
    MaskedUniform (fun x => (step x).map f) inside' width := by
  constructor
  · intro hwidth z hz
    exact hf.even (h.even hwidth) hz
  · intro hwidth
    rw [Sampling.accepts_map]
    exact h.most hwidth
  · intro x z hz
    exact hf.within h.within hz
  · intro hwidth
    exact hf.distinct (h.distinct hwidth)

/-- The steps of the masked draw. -/
theorem maskedStep_uniform {width : BitVec 64} (hwidth : 0 < width.toNat) :
    MaskedUniform (maskedStep (pow2Mask width) width) (fun y => y.toNat < width.toNat) width.toNat := by
  constructor
  · intro _ y hy
    rw [BitVec.ofNat_toNat, BitVec.setWidth_eq]
    exact hits_maskedStep hwidth hy
  · intro _
    exact accepts_maskedStep_gt hwidth
  · intro x y hy
    exact maskedStep_lt hwidth hy
  · intro hfull
    exact absurd width.isLt (by omega)

section

variable {min max : BitVec 64}

/-- A range of all words takes a draw as it is; any other goes through the mask. -/
theorem randrU64Step_eq (x : BitVec 64) :
    randrU64Step min max x =
      if max - min = BitVec.allOnes 64 then some (min + x)
      else (maskedStep (pow2Mask (max - min + 1)) (max - min + 1) x).map (min + ·) := by
  unfold randrU64Step randrU64
  dsimp only
  split
  · rfl
  · cases hstep : maskedStep (pow2Mask (max - min + 1)) (max - min + 1) x with
    | none => simp only [Sampling.sample, hstep, Option.map_none]
    | some y => simp only [Sampling.sample, hstep, Option.map_some]

/-- The steps of an unsigned range. -/
theorem randrU64Step_uniform (h : min.toNat ≤ max.toNat) :
    MaskedUniform (randrU64Step min max) (fun y => min.toNat ≤ y.toNat ∧ y.toNat ≤ max.toNat) (max.toNat - min.toNat + 1) := by
  by_cases hfull : max - min = BitVec.allOnes 64
  · have hstep : randrU64Step min max = fun x => some (min + x) := by
      funext x
      rw [randrU64Step_eq, if_pos hfull]
    have hall := toNat_of_full h hfull
    rw [hstep]
    constructor
    · intro hwidth
      omega
    · intro hwidth
      omega
    · intro x y hy
      rw [← Option.some.inj hy, inside_iff h]
      omega
    · intro _
      constructor
      · intro x x' heq
        exact (renames_add h).injective (Option.some.inj heq)
      · intro x hnone
        cases hnone
  · have hstep : randrU64Step min max = fun x =>
        (maskedStep (pow2Mask (max - min + 1)) (max - min + 1) x).map (min + ·) := by
      funext x
      rw [randrU64Step_eq, if_neg hfull]
    have hwidth := toNat_width_succ h hfull
    have hpos : 0 < (max - min + 1).toNat := by omega
    have huniform := maskedStep_uniform hpos
    rw [hwidth] at huniform
    rw [hstep]
    exact huniform.map (renames_add h)

/-- A signed range is an unsigned one, shifted. -/
theorem randrI64Step_eq (x : BitVec 64) :
    randrI64Step min max x
      = (randrU64Step (min - BitVec.intMin 64) (max - BitVec.intMin 64) x).map (· + BitVec.intMin 64) := by
  unfold randrI64Step randrI64 randrU64Step
  dsimp only
  rw [Option.map_map, Option.map_map]
  rfl

/-- The steps of a signed range. -/
theorem randrI64Step_uniform (h : min.toInt ≤ max.toInt) :
    MaskedUniform (randrI64Step min max) (fun y => min.toInt ≤ y.toInt ∧ y.toInt ≤ max.toInt)
      (max.toInt - min.toInt + 1).toNat := by
  have huniform := randrU64Step_uniform (signed_le_iff.mpr h)
  have hstep : randrI64Step min max = fun x =>
      (randrU64Step (min - BitVec.intMin 64) (max - BitVec.intMin 64) x).map (· + BitVec.intMin 64) := by
    funext x
    exact randrI64Step_eq x
  rw [signed_width h] at huniform
  rw [hstep]
  exact huniform.map renames_intMin

end

/-- One past the mask is the least power of two that is not below the width; every value of a 64-bit range, unsigned or signed, is
hit by as many draws as the mask leaves for each, more than half of the draws are accepted, and none leads out of the range; the
full range tells all draws apart. -/
theorem randr64_uniform :
    (∀ width : BitVec 64, 0 < width.toNat →
      IsLeast { m | (∃ k, m = 2 ^ k) ∧ width.toNat ≤ m } ((pow2Mask width).toNat + 1)) ∧
    (∀ min max : BitVec 64, min.toNat ≤ max.toNat →
      MaskedUniform (randrU64Step min max) (fun y => min.toNat ≤ y.toNat ∧ y.toNat ≤ max.toNat)
        (max.toNat - min.toNat + 1)) ∧
    (∀ min max : BitVec 64, min.toInt ≤ max.toInt →
      MaskedUniform (randrI64Step min max) (fun y => min.toInt ≤ y.toInt ∧ y.toInt ≤ max.toInt)
        (max.toInt - min.toInt + 1).toNat) :=
  ⟨fun _ h => pow2Mask_isLeast h, fun _ _ h => randrU64Step_uniform h, fun _ _ h => randrI64Step_uniform h⟩

/-- A die, and a coin that shows -1 and 0. -/
theorem randr64_uniform_simple :
    hits (randrU64Step 1 6) 3 = 2 ^ 61 ∧ 2 ^ 64 < 2 * accepts (randrU64Step 1 6) ∧ hits (randrI64Step (-1) 0) (-1) = 2 ^ 63 := by
  have hdie := randr64_uniform.2.1 1 6 (by decide)
  have hcoin := randr64_uniform.2.2 (-1) 0 (by decide)
  exact ⟨hdie.even (by decide) 3 (by decide), hdie.most (by decide), hcoin.even (by decide) (-1) (by decide)⟩

end Copper
