import Mathlib.Order.Interval.Finset.Nat
import Mathlib.Logic.Function.Basic

/-!
# Circular arrays

A memory `Nat → α` of which the first `c` cells are used as a ring: position `p` of an endless stream is kept in cell `p % c`.
`Holds c mem p xs` says the stream `xs` is kept from position `p` on; a write outside the window leaves it there
(`Holds.update`), and the two memories that hold the same window and agree elsewhere are one (`Holds.ext`). Straight copies
(`memcpy`) are here too, since a circular copy is at most two of them.
-/

namespace Circular

universe u

variable {α : Type u} {c p q : Nat} {mem : Nat → α} {xs ys : List α}

/-- The cells of positions `p`, `p + 1`, … of the ring hold the items of `xs`. -/
def Holds (c : Nat) (mem : Nat → α) (p : Nat) (xs : List α) : Prop :=
  ∀ i (h : i < xs.length), mem ((p + i) % c) = xs[i]

/-- The `n` items kept from position `p` on. -/
def read (c : Nat) (mem : Nat → α) (p n : Nat) : List α := (List.range n).map fun i => mem ((p + i) % c)

/-- Write the items of `xs` at positions `p`, `p + 1`, …, one after the other. -/
def store (c : Nat) (mem : Nat → α) (p : Nat) : List α → Nat → α
  | [] => mem
  | x :: xs => store c (Function.update mem (p % c) x) (p + 1) xs

/-- Positions less than one turn apart have different cells. -/
theorem cell_ne {a b : Nat} (ha : p ≤ a) (ha' : a < p + c) (hb : p ≤ b) (hb' : b < p + c) (hne : a ≠ b) :
    a % c ≠ b % c := by
  intro h
  exact hne (Nat.mod_injOn_Ico p c (by simp [ha, ha']) (by simp [hb, hb']) h)

theorem holds_nil : Holds c mem p [] := fun i h => absurd h (Nat.not_lt_zero i)

/-- A window is made of its first part and what follows. -/
theorem holds_append : Holds c mem p (xs ++ ys) ↔ Holds c mem p xs ∧ Holds c mem (p + xs.length) ys := by
  constructor
  · intro h
    refine ⟨fun i hi => ?_, fun i hi => ?_⟩
    · rw [h i (by simp; omega), List.getElem_append_left hi]
    · rw [Nat.add_assoc, h (xs.length + i) (by simp; omega), List.getElem_append_right (by omega)]
      simp
  · rintro ⟨hx, hy⟩ i hi
    by_cases hlt : i < xs.length
    · rw [hx i hlt, List.getElem_append_left hlt]
    · have hj : i - xs.length < ys.length := by simp at hi; omega
      rw [List.getElem_append_right (by omega), ← hy _ hj]
      congr 2
      omega

/-- Dropping items of a window moves its start. -/
theorem Holds.drop (h : Holds c mem p xs) {n : Nat} (hn : n ≤ xs.length) : Holds c mem (p + n) (xs.drop n) := by
  rw [← List.take_append_drop n xs] at h
  have h2 := (holds_append.mp h).2
  rwa [List.length_take, Nat.min_eq_left hn] at h2

/-- A write to a position past the window, and less than one turn from its start, leaves the window alone. -/
theorem Holds.update (h : Holds c mem p xs) (v : α) (hq : p + xs.length ≤ q) (hq' : q < p + c) :
    Holds c (Function.update mem (q % c) v) p xs := by
  intro i hi
  rw [Function.update_of_ne (cell_ne (p := p) (by omega) (by omega) (by omega) hq' (by omega)), h i hi]

/-- A write to the position after a window that is not full extends it. -/
theorem Holds.snoc (h : Holds c mem p xs) (v : α) (hlt : xs.length < c) :
    Holds c (Function.update mem ((p + xs.length) % c) v) p (xs ++ [v]) := by
  refine holds_append.mpr ⟨h.update v (Nat.le_refl _) (by omega), fun i hi => ?_⟩
  have hi0 : i = 0 := by simpa using hi
  subst hi0
  simp

/-- Reading a window gives what it holds. -/
theorem Holds.read (h : Holds c mem p xs) {n : Nat} (hn : n ≤ xs.length) : read c mem p n = xs.take n := by
  apply List.ext_getElem
  · simp [Circular.read, Nat.min_eq_left hn]
  · intro i h1 h2
    have hi : i < n := by simpa [Circular.read] using h1
    simp [Circular.read, h i (by omega)]

@[simp] theorem length_read (n : Nat) : (read c mem p n).length = n := by simp [read]

/-- Reading one item more. -/
theorem read_succ (n : Nat) : read c mem p (n + 1) = read c mem p n ++ [mem ((p + n) % c)] := by
  rw [read, List.range_succ, List.map_append]
  rfl

/-- Two memories that hold the same window, and agree off its cells, are the same. -/
theorem Holds.ext {mem' mem₀ : Nat → α} (h : Holds c mem p xs) (h' : Holds c mem' p xs)
    (ho : ∀ j, (∀ k < xs.length, j ≠ (p + k) % c) → mem j = mem₀ j)
    (ho' : ∀ j, (∀ k < xs.length, j ≠ (p + k) % c) → mem' j = mem₀ j) : mem = mem' := by
  funext j
  by_cases hj : ∃ k, k < xs.length ∧ j = (p + k) % c
  · obtain ⟨k, hk, rfl⟩ := hj
    rw [h k hk, h' k hk]
  · have hj' : ∀ k < xs.length, j ≠ (p + k) % c := fun k hk e => hj ⟨k, hk, e⟩
    rw [ho j hj', ho' j hj']

/-- Storing leaves the cells off the window alone. -/
theorem store_of_ne (xs : List α) : ∀ (mem : Nat → α) (p j : Nat),
    (∀ k < xs.length, j ≠ (p + k) % c) → store c mem p xs j = mem j := by
  induction xs with
  | nil => intro mem p j _; rfl
  | cons x xs ih =>
    intro mem p j hj
    rw [store, ih _ _ _ fun k hk => by
      have := hj (k + 1) (by simpa using hk)
      rwa [show p + (k + 1) = p + 1 + k by omega] at this]
    have h0 : j ≠ p % c := by simpa using hj 0 (by simp)
    exact Function.update_of_ne h0 x mem

/-- Storing at most one turn of items makes the window hold them. -/
theorem store_holds (xs : List α) : ∀ (mem : Nat → α) (p : Nat), xs.length ≤ c → Holds c (store c mem p xs) p xs := by
  induction xs with
  | nil => intro mem p _; exact holds_nil
  | cons x xs ih =>
    intro mem p hlen
    rw [List.length_cons] at hlen
    have hone : Holds c (store c mem p (x :: xs)) p [x] := by
      intro i hi
      have hi0 : i = 0 := by simpa using hi
      subst hi0
      rw [store, store_of_ne xs _ _ _ fun k hk => cell_ne (p := p) (by omega) (by omega) (by omega) (by omega) (by omega)]
      simp
    rw [show x :: xs = [x] ++ xs from rfl] at hone ⊢
    exact holds_append.mpr ⟨hone, ih _ _ (by omega)⟩

/-- Storing past a window, less than one turn from its start, leaves the window alone. -/
theorem Holds.store (h : Holds c mem p xs) (hq : p + xs.length ≤ q) (hq' : q + ys.length ≤ p + c) :
    Holds c (store c mem q ys) p xs := by
  intro i hi
  rw [store_of_ne ys _ _ _ fun k hk => cell_ne (p := p) (by omega) (by omega) (by omega) (by omega) (by omega), h i hi]

/-- Storing one item more is one more write. -/
theorem store_snoc (xs : List α) (x : α) : ∀ (mem : Nat → α) (p : Nat),
    store c mem p (xs ++ [x]) = Function.update (store c mem p xs) ((p + xs.length) % c) x := by
  induction xs with
  | nil => intro mem p; rfl
  | cons y xs ih =>
    intro mem p
    rw [List.cons_append, store, ih, store, List.length_cons, show p + 1 + xs.length = p + (xs.length + 1) by omega]

/-! ## Straight copies -/

/-- Copy `src` to the cells from `dst` on. -/
def memcpy (mem : Nat → α) (dst : Nat) (src : List α) : Nat → α := fun j =>
  if dst ≤ j then (src[j - dst]?).getD (mem j) else mem j

/-- The `n` items from cell `src` on. -/
def memread (mem : Nat → α) (src n : Nat) : List α := (List.range n).map fun i => mem (src + i)

theorem memcpy_inside {src : List α} {dst i : Nat} (h : i < src.length) : memcpy mem dst src (dst + i) = src[i] := by
  simp [memcpy, h]

theorem memcpy_outside {src : List α} {dst j : Nat} (h : j < dst ∨ dst + src.length ≤ j) :
    memcpy mem dst src j = mem j := by
  unfold memcpy
  split
  · rw [List.getElem?_eq_none (by omega), Option.getD_none]
  · rfl

/-- The cell of a position less than one turn after `p`, without a division. -/
theorem cell_eq (k : Nat) (hlt : p % c < c) (hk : k ≤ c) :
    (p + k) % c = if k < c - p % c then p % c + k else k - (c - p % c) := by
  have hadd : (p + k) % c = (p % c + k) % c := by rw [Nat.mod_add_mod]
  split
  · rw [hadd, Nat.mod_eq_of_lt (by omega)]
  · rw [hadd, Nat.mod_eq_sub_mod (by omega), Nat.mod_eq_of_lt (by omega)]
    omega

/-- A copy that stays before the end of the ring is a store. -/
theorem memcpy_eq_store (hlt : p % c < c) (hc : xs.length ≤ c - p % c) : memcpy mem (p % c) xs = store c mem p xs := by
  have hcell : ∀ k, k < xs.length → (p + k) % c = p % c + k := fun k hk => by
    rw [cell_eq k hlt (by omega), if_pos (by omega)]
  refine Holds.ext (fun i hi => ?_) (store_holds xs mem p (by omega))
    (fun j hj => memcpy_outside ?_) (fun j hj => store_of_ne xs mem p j hj)
  · rw [hcell i hi, memcpy_inside hi]
  · by_contra hin
    refine hj (j - p % c) (by omega) ?_
    rw [hcell _ (by omega)]
    omega

/-- A copy round the end of the ring is two copies: up to the end, and the rest from cell zero on. -/
theorem memcpy_memcpy_eq_store (hlt : p % c < c) (hlen : xs.length ≤ c) (hc : c - p % c < xs.length) :
    memcpy (memcpy mem (p % c) (xs.take (c - p % c))) 0 (xs.drop (c - p % c)) = store c mem p xs := by
  have hfst : (xs.take (c - p % c)).length = c - p % c := by rw [List.length_take]; omega
  have hsnd : (xs.drop (c - p % c)).length = xs.length - (c - p % c) := List.length_drop
  refine Holds.ext (fun i hi => ?_) (store_holds xs mem p hlen)
    (fun j hj => ?_) (fun j hj => store_of_ne xs mem p j hj)
  · rw [cell_eq i hlt (by omega)]
    split
    · rw [memcpy_outside (Or.inr (by omega)), memcpy_inside (by omega), List.getElem_take]
    · have hin : i - (c - p % c) < (xs.drop (c - p % c)).length := by omega
      rw [← Nat.zero_add (i - (c - p % c)), memcpy_inside hin, List.getElem_drop]
      congr 1
      omega
  · -- a cell off the window lies between the end of the second copy and the start of the first, or past the ring
    have hout : xs.length - (c - p % c) ≤ j ∧ (j < p % c ∨ c ≤ j) := by
      by_contra hin
      by_cases hsmall : j < xs.length - (c - p % c)
      · refine hj (j + (c - p % c)) (by omega) ?_
        rw [cell_eq _ hlt (by omega), if_neg (by omega)]
        omega
      · refine hj (j - p % c) (by omega) ?_
        rw [cell_eq _ hlt (by omega), if_pos (by omega)]
        omega
    rw [memcpy_outside (Or.inr (by omega)), memcpy_outside (by omega)]

/-- A read that stays before the end of the ring is a straight one. -/
theorem memread_eq_read (n : Nat) (hlt : p % c < c) (hc : n ≤ c - p % c) : memread mem (p % c) n = read c mem p n := by
  apply List.map_congr_left
  intro i hi
  rw [List.mem_range] at hi
  rw [cell_eq i hlt (by omega), if_pos (by omega)]

/-- A read round the end of the ring is two straight ones. -/
theorem memread_append_eq_read (n : Nat) (hlt : p % c < c) (hn : n ≤ c) (hc : c - p % c < n) :
    memread mem (p % c) (c - p % c) ++ memread mem 0 (n - (c - p % c)) = read c mem p n := by
  apply List.ext_getElem
  · simp [memread]
    omega
  · intro i h1 h2
    have hi : i < n := by simpa using h2
    simp only [memread, read, List.getElem_append, List.length_map, List.length_range, List.getElem_map,
      List.getElem_range]
    rw [cell_eq i hlt (by omega)]
    split <;> simp

end Circular
