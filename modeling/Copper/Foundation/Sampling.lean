import Mathlib.Algebra.BigOperators.Group.Finset.Basic
import Mathlib.Algebra.Order.BigOperators.Group.Finset
import Mathlib.Data.Int.CardIntervalMod
import Mathlib.Order.Interval.Finset.Nat

/-!
# Choosing by rejection

A step makes a choice of the word that it draws, or rejects it; a sampler draws until a word is accepted (`sample`). How even the
choice is, is a question of how many of all words lead to each outcome (`hits`) and how many to none (`rejects`).

Multiplying the word by the number of outcomes and taking the high half spreads `N` words over `W` outcomes. The words that lead
to one outcome are those whose multiple of `W` falls into one interval of length `N`; with the first `N % W` numbers of each
interval taken away, there are as many multiples of `W` in each of them (`card_hit`). Keeping the low bits of the word is the
other way: every number below `M` is what as many words leave when divided by `M` (`card_residue`).
-/

namespace Sampling

universe u v

variable {δ : Type u} {α : Type v}

/-- The first of the words drawn that the step accepts: what it makes of it, and the words that are left; nothing if it accepts
none of them. -/
def sample (step : δ → Option α) : List δ → Option (α × List δ)
  | [] => none
  | x :: xs =>
    match step x with
    | some y => some (y, xs)
    | none => sample step xs

/-- A sample is found just if a draw is accepted. -/
theorem sample_ne_none_iff (step : δ → Option α) (xs : List δ) : sample step xs ≠ none ↔ ∃ x ∈ xs, step x ≠ none := by
  induction xs with
  | nil => simp [sample]
  | cons x xs ih =>
    rw [sample, List.exists_mem_cons_iff]
    cases hstep : step x with
    | some y => simp
    | none => simpa using ih

/-- A sampler of an endless sequence of words ends when the step accepts one of them. -/
theorem exists_sample_iff (step : δ → Option α) (draw : Nat → δ) :
    (∃ n, sample step ((List.range n).map draw) ≠ none) ↔ ∃ i, step (draw i) ≠ none := by
  simp only [sample_ne_none_iff]
  constructor
  · rintro ⟨n, x, hx, hstep⟩
    obtain ⟨i, -, rfl⟩ := List.mem_map.mp hx
    exact ⟨i, hstep⟩
  · rintro ⟨i, hi⟩
    exact ⟨i + 1, draw i, List.mem_map_of_mem (List.mem_range.mpr (Nat.lt_succ_self i)), hi⟩

/-! ## Counting words -/

section

variable {w : Nat} {α β : Type}

/-- The number of words from which a step makes `y`. -/
def hits [DecidableEq α] (step : BitVec w → Option α) (y : α) : Nat :=
  ((Finset.range (2 ^ w)).filter fun x => step (BitVec.ofNat w x) = some y).card

/-- The number of words that a step rejects. -/
def rejects (step : BitVec w → Option α) : Nat :=
  ((Finset.range (2 ^ w)).filter fun x => (step (BitVec.ofNat w x)).isNone = true).card

/-- The number of words that a step accepts. -/
def accepts (step : BitVec w → Option α) : Nat :=
  ((Finset.range (2 ^ w)).filter fun x => (step (BitVec.ofNat w x)).isSome = true).card

/-- Renaming the outcomes keeps the counts. -/
theorem hits_map [DecidableEq α] [DecidableEq β] (step : BitVec w → Option α) {f : α → β} (hf : Function.Injective f) (y : α) :
    hits (fun x => (step x).map f) (f y) = hits step y := by
  unfold hits
  congr 1
  refine Finset.filter_congr fun x _ => ?_
  dsimp only
  constructor
  · intro h
    obtain ⟨z, hz, hfz⟩ := Option.map_eq_some_iff.mp h
    rw [hz, hf hfz]
  · intro h
    rw [h, Option.map_some]

/-- What is done with an accepted draw does not change how many are rejected. -/
theorem rejects_map (step : BitVec w → Option α) (f : α → β) : rejects (fun x => (step x).map f) = rejects step := by
  unfold rejects
  simp only [Option.isNone_map]

/-- Nor how many are accepted. -/
theorem accepts_map (step : BitVec w → Option α) (f : α → β) : accepts (fun x => (step x).map f) = accepts step := by
  unfold accepts
  simp only [Option.isSome_map]

/-- A renaming of the outcomes `inside` to those `inside'`, which tells them apart and leaves none out. -/
structure Renames (f : α → β) (inside : α → Prop) (inside' : β → Prop) : Prop where
  injective : Function.Injective f
  into : ∀ y, inside y → inside' (f y)
  onto : ∀ z, inside' z → ∃ y, inside y ∧ f y = z

namespace Renames

variable {step : BitVec w → Option α} {f : α → β} {inside : α → Prop} {inside' : β → Prop} (h : Renames f inside inside')

include h

/-- Equally many draws hit each outcome, if they did before. -/
theorem even [DecidableEq α] [DecidableEq β] {n : Nat} (heven : ∀ y, inside y → hits step y = n) {z : β} (hz : inside' z) :
    hits (fun x => (step x).map f) z = n := by
  obtain ⟨y, hy, rfl⟩ := h.onto z hz
  rw [hits_map step h.injective]
  exact heven y hy

/-- Outcomes stay inside. -/
theorem within (hwithin : ∀ x y, step x = some y → inside y) {x : BitVec w} {z : β} (hz : (step x).map f = some z) : inside' z := by
  obtain ⟨y, hy, rfl⟩ := Option.map_eq_some_iff.mp hz
  exact h.into y (hwithin x y hy)

/-- Different draws have different outcomes, if they had before. -/
theorem distinct (hdistinct : Function.Injective step ∧ ∀ x, step x ≠ none) :
    Function.Injective (fun x => (step x).map f) ∧ ∀ x, (step x).map f ≠ none := by
  constructor
  · intro x x' heq
    exact hdistinct.1 (Option.map_injective h.injective heq)
  · intro x hnone
    exact hdistinct.2 x (Option.map_eq_none_iff.mp hnone)

end Renames

end

/-! ## Multiply and shift -/

section

variable {N W x y : Nat}

/-- The first word whose multiple is at or past `a`. -/
theorem ceil_le_iff (hW : 0 < W) (a : Nat) : (a + (W - 1)) / W ≤ x ↔ a ≤ x * W := by
  rw [Nat.div_le_iff_le_mul_add_pred hW, Nat.mul_comm]
  omega

/-- The words that lead to one outcome, the first `N % W` numbers of each interval taken away. -/
theorem hit_iff (hy : y < W) :
    x < N ∧ x * W / N = y ∧ N % W ≤ x * W % N ↔ y * N + N % W ≤ x * W ∧ x * W < y * N + N := by
  constructor
  · rintro ⟨hx, rfl, hlow⟩
    have hN : 0 < N := Nat.zero_lt_of_lt hx
    have hdiv := Nat.div_add_mod (x * W) N
    have hmod := Nat.mod_lt (x * W) hN
    rw [Nat.mul_comm] at hdiv
    omega
  · rintro ⟨hlow, hhigh⟩
    have hx : x < N := by
      refine Nat.lt_of_mul_lt_mul_right (a := W) (hhigh.trans_le ?_)
      rw [← Nat.succ_mul, Nat.mul_comm N W]
      exact Nat.mul_le_mul_right N hy
    have hquot : x * W / N = y := Nat.div_eq_of_lt_le (by omega) (by rw [Nat.succ_mul]; exact hhigh)
    have hdiv := Nat.div_add_mod (x * W) N
    rw [hquot, Nat.mul_comm] at hdiv
    exact ⟨hx, hquot, by omega⟩

/-- The words that lead to one outcome are a segment as long as `W` goes into `N`. -/
theorem card_hit (hW : 0 < W) (hy : y < W) :
    ((Finset.range N).filter fun x => x * W / N = y ∧ N % W ≤ x * W % N).card = N / W := by
  have hsegment : ((Finset.range N).filter fun x => x * W / N = y ∧ N % W ≤ x * W % N)
      = Finset.Ico ((y * N + N % W + (W - 1)) / W) ((y * N + N % W + (W - 1)) / W + N / W) := by
    ext x
    -- The end of the segment is the first word whose multiple is in the next interval.
    have hnext : (y * N + N % W + (W - 1)) / W + N / W = (y * N + N + (W - 1)) / W := by
      rw [← Nat.add_mul_div_right _ _ hW]
      congr 1
      have hdiv := Nat.div_add_mod N W
      rw [Nat.mul_comm] at hdiv
      omega
    rw [Finset.mem_filter, Finset.mem_range, hit_iff hy, Finset.mem_Ico, hnext, ceil_le_iff hW, ← Nat.not_le, ← Nat.not_le,
      ceil_le_iff hW]
  rw [hsegment, Nat.card_Ico, Nat.add_sub_cancel_left]

/-- What is taken away of all intervals is as much as `N` is past a multiple of `W`. -/
theorem card_reject (hN : 0 < N) (hW : 0 < W) :
    ((Finset.range N).filter fun x => ¬ N % W ≤ x * W % N).card = N % W := by
  have hinto : Set.MapsTo (fun x => x * W / N) ((Finset.range N).filter fun x => N % W ≤ x * W % N) (Finset.range W) := by
    intro x hx
    rw [Finset.mem_coe, Finset.mem_filter, Finset.mem_range] at hx
    rw [Finset.mem_coe, Finset.mem_range, Nat.div_lt_iff_lt_mul hN, Nat.mul_comm]
    exact Nat.mul_lt_mul_of_pos_left hx.1 hW
  have haccept : ((Finset.range N).filter fun x => N % W ≤ x * W % N).card = W * (N / W) := by
    rw [Finset.card_eq_sum_card_fiberwise hinto]
    have hfiber : ∀ y ∈ Finset.range W,
        (((Finset.range N).filter fun x => N % W ≤ x * W % N).filter fun x => x * W / N = y).card = N / W := by
      intro y hy
      rw [Finset.filter_filter]
      simp only [and_comm]
      exact card_hit hW (Finset.mem_range.mp hy)
    rw [Finset.sum_const_nat hfiber, Finset.card_range]
  have hall := Finset.card_filter_add_card_filter_not (s := Finset.range N) (fun x => N % W ≤ x * W % N)
  rw [haccept, Finset.card_range] at hall
  have hdiv := Nat.div_add_mod N W
  omega

end

/-! ## Low bits -/

section

variable {N M W y : Nat}

/-- As many words leave one number as another when divided by `M`. -/
theorem card_residue (hM : 0 < M) (hdvd : M ∣ N) (hy : y < M) : ((Finset.range N).filter fun x => x % M = y).card = N / M := by
  have hcount := Nat.count_modEq_card N hM y
  rw [Nat.count_eq_card_filter_range, Nat.mod_eq_zero_of_dvd hdvd, if_neg (Nat.not_lt_zero _), Nat.add_zero] at hcount
  simp only [Nat.ModEq, Nat.mod_eq_of_lt hy] at hcount
  exact hcount

/-- The words that leave a number below `W`. -/
theorem card_residue_lt (hM : 0 < M) (hdvd : M ∣ N) (hW : W ≤ M) :
    ((Finset.range N).filter fun x => x % M < W).card = W * (N / M) := by
  have hinto : Set.MapsTo (fun x => x % M) ((Finset.range N).filter fun x => x % M < W) (Finset.range W) := by
    intro x hx
    rw [Finset.mem_coe, Finset.mem_filter] at hx
    exact Finset.mem_coe.mpr (Finset.mem_range.mpr hx.2)
  have hfiber : ∀ y ∈ Finset.range W, (((Finset.range N).filter fun x => x % M < W).filter fun x => x % M = y).card = N / M := by
    intro y hy
    have hyW := Finset.mem_range.mp hy
    rw [Finset.filter_filter, ← card_residue hM hdvd (Nat.lt_of_lt_of_le hyW hW)]
    congr 1
    refine Finset.filter_congr fun x _ => ?_
    exact and_iff_right_of_imp fun heq => heq ▸ hyW
  rw [Finset.card_eq_sum_card_fiberwise hinto, Finset.sum_const_nat hfiber, Finset.card_range]

end

end Sampling
