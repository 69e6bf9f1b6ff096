import Mathlib.Data.List.Basic

/-!
# Bounded queues

A queue that never holds more than `cap` items. What it holds at most is part of the type, so that no operation can build a
queue that is too long.
-/

universe u

/-- A queue of at most `cap` items, the front first. -/
@[ext] structure BoundedQueue (α : Type u) (cap : Nat) where
  items : List α
  fits : items.length ≤ cap

namespace BoundedQueue

variable {α : Type u} {cap : Nat}

/-- The queue that holds nothing. -/
def empty : BoundedQueue α cap := ⟨[], Nat.zero_le _⟩

def length (q : BoundedQueue α cap) : Nat := q.items.length

/-- How many items still fit. -/
def room (q : BoundedQueue α cap) : Nat := cap - q.length

/-- Append the first items of `xs`, as many as fit. -/
def push (q : BoundedQueue α cap) (xs : List α) : BoundedQueue α cap where
  items := q.items ++ xs.take q.room
  fits := by
    have := q.fits
    simp only [List.length_append, List.length_take, room, length]
    omega

/-- Remove the first `n` items, or all of them. -/
def pop (q : BoundedQueue α cap) (n : Nat) : BoundedQueue α cap where
  items := q.items.drop n
  fits := by
    have := q.fits
    rw [List.length_drop]
    omega

/-- The first `n` items, or all of them. -/
def front (q : BoundedQueue α cap) (n : Nat) : List α := q.items.take n

/-- A push appends the items that fit. -/
@[simp] theorem items_push (q : BoundedQueue α cap) (xs : List α) : (q.push xs).items = q.items ++ xs.take q.room := rfl

/-- A pop drops the first items. -/
@[simp] theorem items_pop (q : BoundedQueue α cap) (n : Nat) : (q.pop n).items = q.items.drop n := rfl

/-- Pushing nothing changes nothing. -/
@[simp] theorem push_nil (q : BoundedQueue α cap) : q.push [] = q := BoundedQueue.ext (by simp)

/-- Popping nothing changes nothing. -/
@[simp] theorem pop_zero (q : BoundedQueue α cap) : q.pop 0 = q := BoundedQueue.ext (by simp)

/-- Only the items that fit matter to a push. -/
theorem push_take (q : BoundedQueue α cap) (xs : List α) : q.push (xs.take (min xs.length q.room)) = q.push xs := by
  refine BoundedQueue.ext ?_
  rw [items_push, items_push, Nat.min_comm, ← List.take_take, List.take_length, List.take_take, Nat.min_self]

/-- Popping more than there is pops everything. -/
theorem pop_min (q : BoundedQueue α cap) (n : Nat) : q.pop (min n q.length) = q.pop n := by
  refine BoundedQueue.ext ?_
  rw [items_pop, items_pop, List.drop_eq_drop_iff, length]
  omega

/-- The front is never longer than the queue. -/
theorem front_min (q : BoundedQueue α cap) (n : Nat) : q.front (min n q.length) = q.front n := by
  rw [front, front, ← List.take_take, length, List.take_length]

end BoundedQueue
