import Copper.Rand.Basic
import Copper.Rand.Range

/-!
# 32-bit ranges are exactly uniform

Every value of a range is hit by the same number of draws, the draws that are left over are fewer than the values, and the full
range takes every draw for a value of its own. The words of `cpr__lemireu32_step` read as numbers are the multiply and shift of
`Sampling`; a signed range is an unsigned one, moved.
-/

namespace Copper

open Sampling (hits rejects)

/-- A step that makes of a word one of the `width` values `inside` a range, as evenly as the number of words allows. -/
structure ExactlyUniform (step : BitVec 32 → Option (BitVec 32)) (inside : BitVec 32 → Prop) (width : Nat) : Prop where
  even : width ≤ 2 ^ 32 - 1 → ∀ y, inside y → hits step y = 2 ^ 32 / width
  few : width ≤ 2 ^ 32 - 1 → rejects step < width
  within : ∀ x y, step x = some y → inside y
  distinct : width = 2 ^ 32 → Function.Injective step ∧ ∀ x, step x ≠ none

/-- Renaming the values. -/
theorem ExactlyUniform.map {step : BitVec 32 → Option (BitVec 32)} {inside inside' : BitVec 32 → Prop} {width : Nat}
    (h : ExactlyUniform step inside width) {f : BitVec 32 → BitVec 32} (hf : Sampling.Renames f inside inside') :
    ExactlyUniform (fun x => (step x).map f) inside' width := by
  constructor
  · intro hwidth z hz
    exact hf.even (h.even hwidth) hz
  · intro hwidth
    rw [Sampling.rejects_map]
    exact h.few hwidth
  · intro x z hz
    exact hf.within h.within hz
  · intro hwidth
    exact hf.distinct (h.distinct hwidth)

/-! ## One step of the multiply and shift -/

section

variable {x width : BitVec 32}

/-- The words of the step, in numbers. -/
theorem lemireu32Step_eq (hwidth : 0 < width.toNat) :
    lemireu32Step x width =
      if 2 ^ 32 % width.toNat ≤ x.toNat * width.toNat % 2 ^ 32 then some (BitVec.ofNat 32 (x.toNat * width.toNat / 2 ^ 32))
      else none := by
  have hx := x.isLt
  have hw := width.isLt
  have hm : (x.setWidth 64 * width.setWidth 64).toNat = x.toNat * width.toNat := by
    have hlt : x.toNat * width.toNat < 2 ^ 32 * 2 ^ 32 := Nat.mul_lt_mul'' hx hw
    rw [BitVec.toNat_mul, BitVec.toNat_setWidth, BitVec.toNat_setWidth, Nat.mod_eq_of_lt (by omega : x.toNat < 2 ^ 64),
      Nat.mod_eq_of_lt (by omega : width.toNat < 2 ^ 64), Nat.mod_eq_of_lt (by omega)]
  have hlow : ((x.setWidth 64 * width.setWidth 64).setWidth 32).toNat = x.toNat * width.toNat % 2 ^ 32 := by
    rw [BitVec.toNat_setWidth, hm]
  have hhigh : ((x.setWidth 64 * width.setWidth 64) >>> 32).setWidth 32 = BitVec.ofNat 32 (x.toNat * width.toNat / 2 ^ 32) := by
    apply BitVec.eq_of_toNat_eq
    rw [BitVec.toNat_setWidth, BitVec.toNat_ushiftRight, hm, Nat.shiftRight_eq_div_pow, BitVec.toNat_ofNat]
  have hthreshold : ((0 - width) % width).toNat = 2 ^ 32 % width.toNat := by
    have hsub : (2 ^ 32 - width.toNat) % 2 ^ 32 = 2 ^ 32 - width.toNat := Nat.mod_eq_of_lt (by omega)
    rw [BitVec.toNat_umod, BitVec.toNat_sub, show (0 : BitVec 32).toNat = 0 from rfl, Nat.add_zero, hsub,
      ← Nat.mod_eq_sub_mod (Nat.le_of_lt hw)]
  have hbelow := Nat.mod_lt (2 ^ 32) hwidth
  simp only [lemireu32Step, ge_iff_le, BitVec.le_def, hlow, hhigh, hthreshold]
  by_cases hfast : width.toNat ≤ x.toNat * width.toNat % 2 ^ 32
  · rw [if_pos hfast, if_pos (by omega)]
  · rw [if_neg hfast]

/-- What the step makes of a word is below the width. -/
theorem lemireu32Step_lt (hwidth : 0 < width.toNat) {y : BitVec 32} (h : lemireu32Step x width = some y) :
    y.toNat < width.toNat := by
  rw [lemireu32Step_eq hwidth] at h
  split at h
  · obtain rfl := Option.some.inj h
    rw [BitVec.toNat_ofNat]
    refine (Nat.mod_le _ _).trans_lt ?_
    rw [Nat.div_lt_iff_lt_mul (by decide), Nat.mul_comm]
    exact Nat.mul_lt_mul_of_pos_left x.isLt hwidth
  · cases h

variable (width) in

/-- The draws that give a number are those whose product with the width lies in its share and is not too low in it. -/
theorem lemireu32Step_hit (hwidth : 0 < width.toNat) {n : Nat} (hn : n < 2 ^ 32) {y : BitVec 32} :
    lemireu32Step (BitVec.ofNat 32 n) width = some y ↔
      n * width.toNat / 2 ^ 32 = y.toNat ∧ 2 ^ 32 % width.toNat ≤ n * width.toNat % 2 ^ 32 := by
  have hword : (BitVec.ofNat 32 n).toNat = n := by
    rw [BitVec.toNat_ofNat, Nat.mod_eq_of_lt hn]
  have hquot : n * width.toNat / 2 ^ 32 < 2 ^ 32 := by
    rw [Nat.div_lt_iff_lt_mul (by decide)]
    exact Nat.mul_lt_mul'' hn width.isLt
  rw [lemireu32Step_eq hwidth, hword]
  constructor
  · intro h
    split at h
    · obtain rfl := Option.some.inj h
      rw [BitVec.toNat_ofNat, Nat.mod_eq_of_lt hquot]
      exact ⟨rfl, ‹_›⟩
    · cases h
  · rintro ⟨hy, hlow⟩
    rw [if_pos hlow, hy, BitVec.ofNat_toNat, BitVec.setWidth_eq]

/-- Every number is given by equally many draws. -/
theorem hits_lemireu32Step (hwidth : 0 < width.toNat) {y : BitVec 32} (hy : y.toNat < width.toNat) :
    hits (fun x => lemireu32Step x width) y = 2 ^ 32 / width.toNat := by
  rw [hits, Finset.filter_congr fun n hn => lemireu32Step_hit width hwidth (Finset.mem_range.mp hn)]
  exact Sampling.card_hit hwidth hy

/-- The draws that are left over are rejected. -/
theorem rejects_lemireu32Step (hwidth : 0 < width.toNat) :
    rejects (fun x => lemireu32Step x width) = 2 ^ 32 % width.toNat := by
  have hreject : ∀ n ∈ Finset.range (2 ^ 32), (lemireu32Step (BitVec.ofNat 32 n) width).isNone = true ↔
      ¬ 2 ^ 32 % width.toNat ≤ n * width.toNat % 2 ^ 32 := by
    intro n hn
    have hword : (BitVec.ofNat 32 n).toNat = n := by
      rw [BitVec.toNat_ofNat, Nat.mod_eq_of_lt (Finset.mem_range.mp hn)]
    rw [lemireu32Step_eq hwidth, hword]
    by_cases hlow : 2 ^ 32 % width.toNat ≤ n * width.toNat % 2 ^ 32
    · rw [if_pos hlow]
      exact iff_of_false Bool.false_ne_true (not_not.mpr hlow)
    · rw [if_neg hlow]
      exact iff_of_true rfl hlow
  rw [rejects, Finset.filter_congr hreject]
  exact Sampling.card_reject (by decide) hwidth

end

/-! ## Ranges -/

section

variable {min max : BitVec 32}

/-- A range of all words takes a draw as it is; any other goes through the product. -/
theorem randrU32Step_eq (x : BitVec 32) :
    randrU32Step min max x =
      if max - min = BitVec.allOnes 32 then some (min + x) else (lemireu32Step x (max - min + 1)).map (min + ·) := by
  unfold randrU32Step randrU32
  dsimp only
  split
  · rfl
  · cases hstep : lemireu32Step x (max - min + 1) with
    | none => simp only [Sampling.sample, hstep, Option.map_none]
    | some out => simp only [Sampling.sample, hstep, Option.map_some]

/-- The steps of the multiply and shift. -/
theorem lemireu32Step_uniform {width : BitVec 32} (hwidth : 0 < width.toNat) :
    ExactlyUniform (fun x => lemireu32Step x width) (fun y => y.toNat < width.toNat) width.toNat := by
  constructor
  · intro _ y hy
    exact hits_lemireu32Step hwidth hy
  · intro _
    rw [rejects_lemireu32Step hwidth]
    exact Nat.mod_lt _ hwidth
  · intro x y hy
    exact lemireu32Step_lt hwidth hy
  · intro hfull
    exact absurd width.isLt (by omega)

/-- The steps of an unsigned range. -/
theorem randrU32Step_uniform (h : min.toNat ≤ max.toNat) :
    ExactlyUniform (randrU32Step min max) (fun y => min.toNat ≤ y.toNat ∧ y.toNat ≤ max.toNat) (max.toNat - min.toNat + 1) := by
  by_cases hfull : max - min = BitVec.allOnes 32
  · have hstep : randrU32Step min max = fun x => some (min + x) := by
      funext x
      rw [randrU32Step_eq, if_pos hfull]
    have hall := toNat_of_full h hfull
    rw [hstep]
    constructor
    · intro hwidth
      omega
    · intro hwidth
      omega
    · intro x y hy
      rw [← Option.some.inj hy, inside_iff h]
      omega
    · intro _
      constructor
      · intro x x' heq
        exact (renames_add h).injective (Option.some.inj heq)
      · intro x hnone
        cases hnone
  · have hstep : randrU32Step min max = fun x => (lemireu32Step x (max - min + 1)).map (min + ·) := by
      funext x
      rw [randrU32Step_eq, if_neg hfull]
    have hwidth := toNat_width_succ h hfull
    have hpos : 0 < (max - min + 1).toNat := by omega
    have huniform := lemireu32Step_uniform hpos
    rw [hwidth] at huniform
    rw [hstep]
    exact huniform.map (renames_add h)

/-! ## Signed ranges -/

/-- A signed range is an unsigned one, shifted. -/
theorem randrI32Step_eq (x : BitVec 32) :
    randrI32Step min max x
      = (randrU32Step (min - BitVec.intMin 32) (max - BitVec.intMin 32) x).map (· + BitVec.intMin 32) := by
  unfold randrI32Step randrI32 randrU32Step
  dsimp only
  rw [Option.map_map, Option.map_map]
  rfl

/-- The steps of a signed range. -/
theorem randrI32Step_uniform (h : min.toInt ≤ max.toInt) :
    ExactlyUniform (randrI32Step min max) (fun y => min.toInt ≤ y.toInt ∧ y.toInt ≤ max.toInt)
      (max.toInt - min.toInt + 1).toNat := by
  have huniform := randrU32Step_uniform (signed_le_iff.mpr h)
  have hstep : randrI32Step min max = fun x =>
      (randrU32Step (min - BitVec.intMin 32) (max - BitVec.intMin 32) x).map (· + BitVec.intMin 32) := by
    funext x
    exact randrI32Step_eq x
  rw [signed_width h] at huniform
  rw [hstep]
  exact huniform.map renames_intMin

end

/-- Every value of a 32-bit range, unsigned or signed, is hit by as many draws as every other, as many as the number of draws
allows; fewer draws are rejected than the range has values, and none leads out of it; the full range tells all draws apart. -/
theorem randr32_uniform :
    (∀ min max : BitVec 32, min.toNat ≤ max.toNat →
      ExactlyUniform (randrU32Step min max) (fun y => min.toNat ≤ y.toNat ∧ y.toNat ≤ max.toNat)
        (max.toNat - min.toNat + 1)) ∧
    (∀ min max : BitVec 32, min.toInt ≤ max.toInt →
      ExactlyUniform (randrI32Step min max) (fun y => min.toInt ≤ y.toInt ∧ y.toInt ≤ max.toInt)
        (max.toInt - min.toInt + 1).toNat) :=
  ⟨fun _ _ h => randrU32Step_uniform h, fun _ _ h => randrI32Step_uniform h⟩

/-- A die, and a coin that shows -1 and 0. -/
theorem randr32_uniform_simple :
    hits (randrU32Step 1 6) 3 = 715827882 ∧ rejects (randrU32Step 1 6) < 6 ∧ hits (randrI32Step (-1) 0) (-1) = 2 ^ 31 := by
  have hdie := randr32_uniform.1 1 6 (by decide)
  have hcoin := randr32_uniform.2 (-1) 0 (by decide)
  exact ⟨hdie.even (by decide) 3 (by decide), hdie.few (by decide), hcoin.even (by decide) (-1) (by decide)⟩

end Copper
