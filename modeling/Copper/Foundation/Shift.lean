import Mathlib.Logic.Function.Basic

/-!
# Shifting a row of slots

Slots `0`, `1`, … that may be empty. `moveUp` carries the item of a slot to the next one, replacing what is there, and does
nothing when the slot is empty. `shift` does so for the slots `top`, …, `0`, from the top down, so that no item is replaced by
one that has yet to move: each slot up to `top` hands its item on, and only what slot `top + 1` held can be lost.
`shiftExcept` is the same when some slots are stuck: an item that stays where it is, is lost when the slot below it hands its
own on (`exists_shiftExcept_succ`).
-/

namespace Slots

universe u

variable {α : Type u}

/-- Carry the item of slot `i` to slot `i + 1`. -/
def moveUp (f : Nat → Option α) (i : Nat) : Nat → Option α :=
  match f i with
  | none => f
  | some a => Function.update (Function.update f i none) (i + 1) (some a)

/-- Carry the items of the slots `top`, …, `0` up, from the top down. -/
def shift (f : Nat → Option α) : Nat → Nat → Option α
  | 0 => moveUp f 0
  | top + 1 => shift (moveUp f (top + 1)) top

/-- Where there is nothing, nothing moves. -/
theorem moveUp_none {f : Nat → Option α} {i : Nat} (h : f i = none) : moveUp f i = f := by
  simp only [moveUp, h]

/-- What is there moves up. -/
theorem moveUp_some {f : Nat → Option α} {i : Nat} {a : α} (h : f i = some a) :
    moveUp f i = Function.update (Function.update f i none) (i + 1) (some a) := by
  simp only [moveUp, h]

/-- What has moved is no longer there. -/
theorem moveUp_self (f : Nat → Option α) (i : Nat) : moveUp f i i = none := by
  cases h : f i with
  | none => rw [moveUp_none h, h]
  | some a => rw [moveUp_some h, Function.update_of_ne (Nat.ne_of_lt (Nat.lt_succ_self i)), Function.update_self]

/-- Above it is what moved, or what was there already. -/
theorem moveUp_succ (f : Nat → Option α) (i : Nat) : moveUp f i (i + 1) = (f i).or (f (i + 1)) := by
  cases h : f i with
  | none => rw [moveUp_none h, Option.none_or]
  | some a => rw [moveUp_some h, Function.update_self, Option.some_or]

/-- All else stays. -/
theorem moveUp_of_ne (f : Nat → Option α) {i j : Nat} (hi : j ≠ i) (hi' : j ≠ i + 1) : moveUp f i j = f j := by
  cases h : f i with
  | none => rw [moveUp_none h]
  | some a => rw [moveUp_some h, Function.update_of_ne hi', Function.update_of_ne hi]

/-- Slots above the row are left alone. -/
theorem shift_above (f : Nat → Option α) {top j : Nat} (hj : top + 1 < j) : shift f top j = f j := by
  induction top generalizing f with
  | zero => exact moveUp_of_ne f (by omega) (by omega)
  | succ top ih => rw [shift, ih _ (by omega), moveUp_of_ne f (by omega) (by omega)]

/-- The slot above the row receives the item of the top slot, and keeps its own when there is none. -/
theorem shift_top (f : Nat → Option α) (top : Nat) : shift f top (top + 1) = (f top).or (f (top + 1)) := by
  cases top with
  | zero => exact moveUp_succ f 0
  | succ top => rw [shift, shift_above _ (by omega), moveUp_succ]

/-- Every other slot of the row receives what the slot below it held. -/
theorem shift_succ (f : Nat → Option α) {top j : Nat} (hj : j < top) : shift f top (j + 1) = f j := by
  induction top generalizing f with
  | zero => exact absurd hj (Nat.not_lt_zero j)
  | succ top ih =>
    rw [shift]
    rcases Nat.eq_or_lt_of_le (Nat.le_of_lt_succ hj) with rfl | hlt
    · rw [shift_top, moveUp_self, Option.or_none, moveUp_of_ne f (by omega) (by omega)]
    · rw [ih _ hlt, moveUp_of_ne f (by omega) (by omega)]

/-! ### Slots that are stuck -/

/-- `shift`, when the slots that are `stuck` hand nothing on. -/
def shiftExcept (stuck : Nat → Bool) (f : Nat → Option α) : Nat → Nat → Option α
  | 0 => if stuck 0 then f else moveUp f 0
  | top + 1 => shiftExcept stuck (if stuck (top + 1) then f else moveUp f (top + 1)) top

/-- What is left in a slot once its turn is over. -/
def left (stuck : Nat → Bool) (f : Nat → Option α) (top i : Nat) : Option α :=
  if i ≤ top ∧ stuck i = false then none else f i

/-- The item of a slot reaches a slot above the bottom one. -/
def Spared (stuck : Nat → Bool) (f : Nat → Option α) (top : Nat) : Nat → Prop
  | 0 => stuck 0 = false
  | k + 1 => top < k ∨ k + 1 ≤ top ∧ stuck (k + 1) = false ∨ stuck k = true ∨ f k = none

variable {stuck : Nat → Bool}

/-- Where nothing is stuck it is a shift. -/
theorem shiftExcept_false (f : Nat → Option α) (top : Nat) : shiftExcept (fun _ => false) f top = shift f top := by
  induction top generalizing f with
  | zero => rfl
  | succ top ih => exact ih _

/-- Above the top all is left. -/
theorem left_above (f : Nat → Option α) {top i : Nat} (hi : top < i) : left stuck f top i = f i :=
  if_neg fun h => Nat.not_le.mpr hi h.1

/-- Above the top all stays. -/
theorem shiftExcept_above (f : Nat → Option α) {top j : Nat} (hj : top + 1 < j) : shiftExcept stuck f top j = f j := by
  induction top generalizing f with
  | zero =>
    unfold shiftExcept
    split
    · rfl
    · exact moveUp_of_ne f (by omega) (by omega)
  | succ top ih =>
    rw [shiftExcept, ih _ (by omega)]
    split
    · rfl
    · exact moveUp_of_ne f (by omega) (by omega)

/-- The slot above the row receives the item of the top slot, unless that is stuck. -/
theorem shiftExcept_top (f : Nat → Option α) (top : Nat) :
    shiftExcept stuck f top (top + 1) = if stuck top then f (top + 1) else (f top).or (f (top + 1)) := by
  cases top with
  | zero =>
    unfold shiftExcept
    split
    · rfl
    · exact moveUp_succ f 0
  | succ top =>
    rw [shiftExcept, shiftExcept_above _ (Nat.lt_succ_self _)]
    split
    · rfl
    · exact moveUp_succ f (top + 1)

/-- A slot of the row receives the item of the slot below it, unless that is stuck, and keeps what is left in it otherwise. -/
theorem shiftExcept_succ (f : Nat → Option α) {top j : Nat} (hj : j ≤ top) :
    shiftExcept stuck f top (j + 1) = if stuck j then left stuck f top (j + 1) else (f j).or (left stuck f top (j + 1)) := by
  induction top generalizing f with
  | zero =>
    obtain rfl : j = 0 := Nat.le_zero.mp hj
    rw [shiftExcept_top, left_above f (Nat.lt_succ_self 0)]
  | succ top ih =>
    rcases Nat.eq_or_lt_of_le hj with rfl | hlt
    · rw [shiftExcept_top, left_above f (Nat.lt_succ_self _)]
    · have hle : j ≤ top := Nat.le_of_lt_succ hlt
      rw [shiftExcept, ih _ hle]
      have hbelow : (if stuck (top + 1) then f else moveUp f (top + 1)) j = f j := by
        split
        · rfl
        · exact moveUp_of_ne f (by omega) (by omega)
      have hleft : left stuck (if stuck (top + 1) then f else moveUp f (top + 1)) top (j + 1)
          = left stuck f (top + 1) (j + 1) := by
        rcases Nat.eq_or_lt_of_le hle with rfl | hlt'
        · rw [left_above _ (Nat.lt_succ_self j), left]
          cases hstuck : stuck (j + 1) with
          | true => simp
          | false => simp [moveUp_self]
        · rw [left, left]
          have hsame : (if stuck (top + 1) then f else moveUp f (top + 1)) (j + 1) = f (j + 1) := by
            split
            · rfl
            · exact moveUp_of_ne f (by omega) (by omega)
          rw [hsame]
          simp [show j + 1 ≤ top by omega, show j + 1 ≤ top + 1 by omega]
      rw [hbelow, hleft]

/-- The bottom slot is left with what does not move. -/
theorem shiftExcept_zero (f : Nat → Option α) (top : Nat) : shiftExcept stuck f top 0 = if stuck 0 then f 0 else none := by
  induction top generalizing f with
  | zero =>
    unfold shiftExcept
    split
    · rfl
    · exact moveUp_self f 0
  | succ top ih =>
    rw [shiftExcept, ih]
    split
    · split
      · rfl
      · exact moveUp_of_ne f (by omega) (by omega)
    · rfl

/-- The items above the bottom slot are those that are spared. -/
theorem exists_shiftExcept_succ (f : Nat → Option α) (top : Nat) (a : α) :
    (∃ i, shiftExcept stuck f top (i + 1) = some a) ↔ ∃ k, f k = some a ∧ Spared stuck f top k := by
  constructor
  · rintro ⟨i, hi⟩
    rcases Nat.lt_or_ge top i with habove | hrow
    · rw [shiftExcept_above f (by omega)] at hi
      exact ⟨i + 1, hi, Or.inl habove⟩
    · rw [shiftExcept_succ f hrow] at hi
      cases hstuck : stuck i with
      | true =>
        rw [hstuck, if_pos rfl, left] at hi
        split at hi
        · cases hi
        · exact ⟨i + 1, hi, Or.inr (Or.inr (Or.inl hstuck))⟩
      | false =>
        rw [hstuck, if_neg (by simp)] at hi
        cases hitem : f i with
        | none =>
          rw [hitem, Option.none_or, left] at hi
          split at hi
          · cases hi
          · exact ⟨i + 1, hi, Or.inr (Or.inr (Or.inr hitem))⟩
        | some b =>
          rw [hitem, Option.some_or] at hi
          refine ⟨i, hitem.trans hi, ?_⟩
          cases i with
          | zero => exact hstuck
          | succ i => exact Or.inr (Or.inl ⟨hrow, hstuck⟩)
  · rintro ⟨k, hk, hspared⟩
    have hmoves : ∀ i ≤ top, stuck i = false → f i = some a → ∃ i, shiftExcept stuck f top (i + 1) = some a := by
      intro i hi hfree hitem
      refine ⟨i, ?_⟩
      rw [shiftExcept_succ f hi, hfree, if_neg (by simp), hitem, Option.some_or]
    cases k with
    | zero => exact hmoves 0 (Nat.zero_le top) hspared hk
    | succ k =>
      rcases hspared with habove | ⟨hrow, hfree⟩ | hstays
      · exact ⟨k, (shiftExcept_above f (by omega)).trans hk⟩
      · exact hmoves (k + 1) hrow hfree hk
      · -- nothing is handed on to slot `k + 1`, whose item moves on or is left in it
        rcases Nat.lt_or_ge top k with habove | hk'
        · exact ⟨k, (shiftExcept_above f (by omega)).trans hk⟩
        by_cases hmove : k + 1 ≤ top ∧ stuck (k + 1) = false
        · exact hmoves (k + 1) hmove.1 hmove.2 hk
        · refine ⟨k, ?_⟩
          rw [shiftExcept_succ f hk', left, if_neg hmove, hk]
          rcases hstays with hstuck | hnone
          · rw [if_pos hstuck]
          · rw [hnone, Option.none_or, ite_self]

end Slots
