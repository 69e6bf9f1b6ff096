import Mathlib.Data.List.Basic

/-!
# A cursor that writes to an array

An array and a place in it. `put` stores an item there and moves on, and is undefined (`none`) at the end of the array: a
program whose writes are puts of one cursor stays inside the array exactly when it is defined.
-/

universe u

/-- The items before the cursor, and those from it on. -/
structure Cursor (α : Type u) where
  done : List α
  rest : List α

namespace Cursor

variable {α : Type u}

/-- The cursor at the start of an array. -/
def start (cells : List α) : Cursor α := ⟨[], cells⟩

/-- The whole array. -/
def cells (c : Cursor α) : List α := c.done ++ c.rest

/-- Store an item and move on. -/
def put (c : Cursor α) (a : α) : Option (Cursor α) :=
  match c.rest with
  | [] => none
  | _ :: rest => some ⟨c.done ++ [a], rest⟩

/-- Store items, one after the other. -/
def putAll (c : Cursor α) : List α → Option (Cursor α)
  | [] => some c
  | a :: as => (c.put a).bind fun c => c.putAll as

/-- Storing a list of one item. -/
theorem putAll_singleton (c : Cursor α) (a : α) : c.putAll [a] = c.put a :=
  Option.bind_fun_some (c.put a)

/-- Storing two items. -/
theorem putAll_pair {c d e : Cursor α} {a b : α} (ha : c.put a = some d) (hb : d.put b = some e) : c.putAll [a, b] = some e := by
  rw [putAll, ha, Option.bind_some, putAll_singleton, hb]

/-- Storing items one list after the other. -/
theorem putAll_append (xs ys : List α) (c : Cursor α) : c.putAll (xs ++ ys) = (c.putAll xs).bind fun c => c.putAll ys := by
  induction xs generalizing c with
  | nil => rfl
  | cons x xs ih => simp only [List.cons_append, putAll, ih, Option.bind_assoc]

/-- Items that fit are stored where the cursor was. -/
theorem putAll_eq_some {xs : List α} {c : Cursor α} (h : xs.length ≤ c.rest.length) :
    c.putAll xs = some ⟨c.done ++ xs, c.rest.drop xs.length⟩ := by
  induction xs generalizing c with
  | nil => simp [putAll]
  | cons x xs ih =>
    obtain ⟨done, rest⟩ := c
    cases rest with
    | nil => simp at h
    | cons r rest =>
      rw [List.length_cons, List.length_cons] at h
      simp only [putAll, put, Option.bind_some]
      rw [ih (by simpa using h)]
      simp

/-- Items that do not fit are not. -/
theorem putAll_eq_none {xs : List α} {c : Cursor α} (h : c.rest.length < xs.length) : c.putAll xs = none := by
  induction xs generalizing c with
  | nil => simp at h
  | cons x xs ih =>
    obtain ⟨done, rest⟩ := c
    cases rest with
    | nil => rfl
    | cons r rest =>
      rw [List.length_cons, List.length_cons] at h
      simp only [putAll, put, Option.bind_some]
      exact ih (by simpa using h)

/-- What a successful `putAll` leaves. -/
theorem putAll_some {xs : List α} {c d : Cursor α} (h : c.putAll xs = some d) :
    xs.length ≤ c.rest.length ∧ d = ⟨c.done ++ xs, c.rest.drop xs.length⟩ := by
  rcases Nat.lt_or_ge c.rest.length xs.length with hlt | hle
  · rw [putAll_eq_none hlt] at h
    cases h
  · rw [putAll_eq_some hle] at h
    exact ⟨hle, (Option.some.inj h).symm⟩

end Cursor
