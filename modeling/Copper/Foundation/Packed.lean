import Mathlib.Data.List.Basic

/-!
# A list in the first slots of an array

An array of `n` slots that may be empty holds a list when its first slots are the items of the list and the rest are empty
(`pack`). A slot past the end of the list takes the next item, and moving what follows an item down by one removes it.
-/

namespace Packed

universe u

variable {α : Type u}

/-- The array of `n` slots that holds a list. -/
def pack (n : Nat) (l : List α) : List (Option α) := l.map some ++ List.replicate (n - l.length) none

/-- `memmove` within an array: `count` slots from `src` on are copied to `dst` and on. -/
def memmove {β : Type u} (xs : List β) (dst src count : Nat) : List β :=
  xs.take dst ++ (xs.drop src).take count ++ xs.drop (dst + count)

/-- A packed array has all its slots. -/
theorem length_pack {n : Nat} {l : List α} (h : l.length ≤ n) : (pack n l).length = n := by
  rw [pack, List.length_append, List.length_map, List.length_replicate]
  exact Nat.add_sub_cancel' h

/-- A slot holds what the list has at its place. -/
theorem getElem?_pack {n : Nat} {l : List α} (h : l.length ≤ n) (j : Nat) :
    (pack n l)[j]? = if j < n then some l[j]? else none := by
  unfold pack
  by_cases hj : j < l.length
  · rw [List.getElem?_append_left (by rwa [List.length_map]), List.getElem?_map, if_pos (Nat.lt_of_lt_of_le hj h),
      List.getElem?_eq_getElem hj]
    rfl
  · rw [List.getElem?_append_right (by rw [List.length_map]; omega), List.getElem?_replicate, List.length_map,
      List.getElem?_eq_none (by omega)]
    by_cases hn : j < n
    · rw [if_pos (by omega), if_pos hn]
    · rw [if_neg (by omega), if_neg hn]

/-- A slot of a packed list is an entry of it. -/
theorem join_getElem?_pack {n : Nat} {l : List α} (h : l.length ≤ n) (j : Nat) : (pack n l)[j]?.join = l[j]? := by
  rw [getElem?_pack h]
  split
  · rfl
  · rw [List.getElem?_eq_none (by omega)]
    rfl

/-- The slot past the end takes the next item. -/
theorem pack_concat {n : Nat} {l : List α} (h : l.length < n) (a : α) : (pack n l).set l.length (some a) = pack n (l ++ [a]) := by
  refine List.ext_getElem? fun j => ?_
  rw [List.getElem?_set, length_pack (Nat.le_of_lt h), getElem?_pack (Nat.le_of_lt h),
    getElem?_pack (by rw [List.length_append]; exact h)]
  by_cases hj : l.length = j
  · subst hj
    rw [if_pos rfl, if_pos h, if_pos h, List.getElem?_concat_length]
  · rw [if_neg hj]
    rcases Nat.lt_or_gt_of_ne hj with hlt | hgt
    · rw [List.getElem?_eq_none (l := l) (by omega), List.getElem?_eq_none (l := l ++ [a]) (by simp; omega)]
    · rw [List.getElem?_append_left hgt]

/-- Moving what follows an item down by one. -/
theorem getElem?_memmove {β : Type u} {xs : List β} {i count : Nat} (h : i + 1 + count ≤ xs.length) (j : Nat) :
    (memmove xs i (i + 1) count)[j]? = if j < i ∨ i + count ≤ j then xs[j]? else xs[j + 1]? := by
  have hfront : (xs.take i ++ (xs.drop (i + 1)).take count).length = i + count := by
    rw [List.length_append, List.length_take, List.length_take, List.length_drop]
    omega
  have htake : (xs.take i).length = i := by
    rw [List.length_take]
    omega
  unfold memmove
  by_cases hback : i + count ≤ j
  · rw [if_pos (Or.inr hback), List.getElem?_append_right (by omega), hfront, List.getElem?_drop]
    congr 1
    omega
  · rw [List.getElem?_append_left (by omega)]
    by_cases hfirst : j < i
    · rw [if_pos (Or.inl hfirst), List.getElem?_append_left (by omega), List.getElem?_take, if_pos hfirst]
    · rw [if_neg (by omega), List.getElem?_append_right (by omega), htake, List.getElem?_take, if_pos (by omega),
        List.getElem?_drop]
      congr 1
      omega

/-- Moving within an array keeps its length. -/
theorem length_memmove {β : Type u} {xs : List β} {i count : Nat} (h : i + 1 + count ≤ xs.length) :
    (memmove xs i (i + 1) count).length = xs.length := by
  simp only [memmove, List.length_append, List.length_take, List.length_drop]
  omega

/-- Moving what follows an item down by one, and emptying the last slot, removes the item. -/
theorem pack_eraseIdx {n : Nat} {l : List α} (h : l.length ≤ n) {i : Nat} (hi : i < l.length) :
    (memmove (pack n l) i (i + 1) (l.length - i - 1)).set (l.length - 1) none = pack n (l.eraseIdx i) := by
  have hcount : i + 1 + (l.length - i - 1) ≤ (pack n l).length := by
    rw [length_pack h]
    omega
  have hlen : (l.eraseIdx i).length = l.length - 1 := List.length_eraseIdx_of_lt hi
  refine List.ext_getElem? fun j => ?_
  rw [List.getElem?_set, length_memmove hcount, length_pack h, getElem?_memmove hcount,
    getElem?_pack (l := l.eraseIdx i) (by omega), List.getElem?_eraseIdx, getElem?_pack h, getElem?_pack h]
  by_cases hlast : l.length - 1 = j
  · rw [if_pos hlast, if_pos (by omega), if_pos (by omega), if_neg (by omega), List.getElem?_eq_none (by omega)]
  · rw [if_neg hlast]
    by_cases hfirst : j < i
    · rw [if_pos (Or.inl hfirst), if_pos hfirst]
    · rw [if_neg hfirst]
      by_cases hback : i + (l.length - i - 1) ≤ j
      · rw [if_pos (Or.inr hback), List.getElem?_eq_none (i := j) (by omega), List.getElem?_eq_none (i := j + 1) (by omega)]
      · rw [if_neg (by omega), if_pos (by omega), if_pos (by omega)]

end Packed
