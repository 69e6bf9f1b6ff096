import Mathlib.Data.List.TakeDrop

/-!
# Memory by address

What stands at every address. `write` puts a run of items at an address, `read` takes one; a read sees a write where the two meet
and the memory before it elsewhere (`read_write_within`). A run is terminated by an item that does not occur in it, as a string
is in C (`HoldsString`): its length can then be found by looking for that item (`HoldsString.terminated`).
-/

universe u

abbrev Memory (α : Type u) := Int → α

namespace Memory

variable {α : Type u}

/-- Put items at an address. -/
def write (m : Memory α) (a : Int) (xs : List α) : Memory α := fun b => if a ≤ b then (xs[(b - a).toNat]?).getD (m b) else m b

/-- So many items from an address on. -/
def read (m : Memory α) (a : Int) (n : Nat) : List α := (List.range n).map fun i : Nat => m (a + i)

/-- So many items stand before the first `stop`. -/
def Terminated (m : Memory α) (a : Int) (stop : α) (n : Nat) : Prop := m (a + n) = stop ∧ ∀ i < n, m (a + i) ≠ stop

/-- These items stand there, then `stop`, which is none of them. -/
def HoldsString (m : Memory α) (a : Int) (stop : α) (xs : List α) : Prop := m.read a (xs.length + 1) = xs ++ [stop] ∧ stop ∉ xs

variable {m m' : Memory α} {a b : Int} {xs : List α} {stop : α}

/-- A write changes nothing outside what is written. -/
theorem write_outside (h : b < a ∨ a + xs.length ≤ b) : m.write a xs b = m b := by
  unfold write
  split
  · rw [List.getElem?_eq_none (by omega), Option.getD_none]
  · rfl

/-- What was written is there. -/
theorem write_inside {i : Nat} (h : i < xs.length) : m.write a xs (a + i) = xs[i] := by
  rw [write, if_pos (by omega), show (a + i - a).toNat = i by omega, List.getElem?_eq_getElem h, Option.getD_some]

/-- A read gives as many items as it is asked for. -/
@[simp] theorem length_read (m : Memory α) (a : Int) (n : Nat) : (m.read a n).length = n := by
  rw [read, List.length_map, List.length_range]

/-- An item that is read. -/
theorem getElem?_read {n i : Nat} (h : i < n) : (m.read a n)[i]? = some (m (a + i)) := by
  simp [read, h]

/-- Memories that agree where is read give the same. -/
theorem read_congr {n : Nat} (h : ∀ i < n, m (a + i) = m' (a + i)) : m.read a n = m'.read a n :=
  List.map_congr_left fun i hi => h i (List.mem_range.mp hi)

/-- A read in two parts. -/
theorem read_add (m : Memory α) (a : Int) (i j : Nat) : m.read a (i + j) = m.read a i ++ m.read (a + i) j := by
  rw [read, List.range_add, List.map_append, List.map_map, read, read]
  congr 1
  refine List.map_congr_left fun k _ => ?_
  rw [Function.comp_apply, Int.natCast_add, Int.add_assoc]

/-- The first of what is read. -/
theorem take_read {i n : Nat} (h : i ≤ n) : (m.read a n).take i = m.read a i := by
  obtain ⟨j, rfl⟩ := Nat.exists_eq_add_of_le h
  rw [read_add, List.take_left' (length_read m a i)]

/-- And the rest of it. -/
theorem drop_read {i n : Nat} (h : i ≤ n) : (m.read a n).drop i = m.read (a + i) (n - i) := by
  obtain ⟨j, rfl⟩ := Nat.exists_eq_add_of_le h
  rw [read_add, List.drop_left' (length_read m a i), Nat.add_sub_cancel_left]

/-- What was written is read back. -/
theorem read_write (m : Memory α) (a : Int) (xs : List α) : (m.write a xs).read a xs.length = xs := by
  refine List.ext_getElem? fun i => ?_
  rcases Nat.lt_or_ge i xs.length with hi | hi
  · rw [getElem?_read hi, write_inside hi, List.getElem?_eq_getElem hi]
  · rw [List.getElem?_eq_none hi, List.getElem?_eq_none (by rwa [length_read])]

/-- To write what stands there changes nothing. -/
theorem write_read (m : Memory α) (a : Int) (n : Nat) : m.write a (m.read a n) = m := by
  funext b
  by_cases hin : a ≤ b ∧ b < a + n
  · obtain ⟨i, rfl⟩ := Int.exists_add_of_le hin.1
    have hi : i < n := by omega
    have hitem := getElem?_read (m := m) (a := a) hi
    rw [write, if_pos (by omega), show (a + i - a).toNat = i by omega, hitem, Option.getD_some]
  · exact write_outside (by rw [length_read]; omega)

/-- A write beside a run leaves it alone. -/
theorem read_write_of_disjoint {n : Nat} (h : b + n ≤ a ∨ a + xs.length ≤ b) : (m.write a xs).read b n = m.read b n :=
  read_congr fun i hi => write_outside (by omega)

/-- A write into a run. -/
theorem read_write_within {k n : Nat} (h : k + xs.length ≤ n) :
    (m.write (a + k) xs).read a n = (m.read a n).take k ++ xs ++ (m.read a n).drop (k + xs.length) := by
  obtain ⟨j, rfl⟩ := Nat.exists_eq_add_of_le h
  rw [take_read (by omega), drop_read (by omega), read_add, read_add, read_write_of_disjoint (Or.inl (Int.le_refl _)), read_write,
    read_write_of_disjoint (Or.inr (by omega)), Nat.add_sub_cancel_left]

/-! ## Strings -/

/-- Where a string is held, one ends. -/
theorem HoldsString.terminated (h : m.HoldsString a stop xs) : m.Terminated a stop xs.length := by
  obtain ⟨hread, hstop⟩ := h
  have hget : ∀ i ≤ xs.length, (xs ++ [stop])[i]? = some (m (a + i)) := by
    intro i hi
    rw [← hread, getElem?_read (Nat.lt_succ_of_le hi)]
  refine ⟨?_, fun i hi heq => hstop ?_⟩
  · have hlast := hget xs.length (Nat.le_refl _)
    rw [List.getElem?_concat_length, Option.some.injEq] at hlast
    exact hlast.symm
  · have hitem := hget i (Nat.le_of_lt hi)
    rw [List.getElem?_append_left hi, heq] at hitem
    exact List.mem_of_getElem? hitem

/-- The items of a string. -/
theorem HoldsString.read (h : m.HoldsString a stop xs) : m.read a xs.length = xs := by
  rw [← take_read (Nat.le_succ _), h.1, List.take_left]

/-- A string in two parts. -/
theorem HoldsString.read_append {ys : List α} (h : m.HoldsString a stop (xs ++ ys)) :
    m.read a xs.length = xs ∧ m.read (a + xs.length) ys.length = ys := by
  have hread := h.read
  rw [List.length_append, read_add] at hread
  exact List.append_inj hread (length_read m a xs.length)

end Memory
