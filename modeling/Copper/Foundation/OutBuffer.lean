import Mathlib.Data.List.TakeDrop

/-!
# An output buffer

Items are put into a buffer one after the other. After some of them it overflows and drains what it holds to a receiver, which may
take fewer than there are: then the put stops with the item that it was at. What the buffer still holds when it is closed is
drained once more, and nobody hears how much of that the receiver took. Where it overflows, and how much is taken, is a pattern
over how many items were put so far. Items are of any type.
-/

universe u

/-- After which items a buffer overflows, how many the receiver takes there, and how many of so many when it is closed. -/
structure Drain where
  overflows : Nat → Bool
  takes : Nat → Nat
  closes : Nat → Nat

/-- What a buffer holds, and how many items were put into it so far. -/
structure OutBuffer (α : Type u) where
  held : List α
  count : Nat

/-- What a put does: what reaches the receiver, the buffer it leaves, and how many items it accepts. -/
structure OutBuffer.Put (α : Type u) where
  out : List α
  buffer : OutBuffer α
  accepted : Nat

namespace Drain

/-- How many items a buffer holds once so many were put into it, if nothing was refused. -/
def waiting (d : Drain) : Nat → Nat
  | 0 => 0
  | k + 1 => if d.overflows (k + 1) then 0 else d.waiting k + 1

/-- Between so many items and so many, every drain takes all that the buffer holds. -/
def Through (d : Drain) (m n : Nat) : Prop :=
  ∀ k, m ≤ k → k < n → d.overflows (k + 1) = true → d.waiting k + 1 ≤ d.takes (k + 1)

/-- Once so many items were put, the drain at the close takes what is left. -/
def ClosesAll (d : Drain) (n : Nat) : Prop := d.waiting n ≤ d.closes (d.waiting n)

variable {d : Drain}

/-- No more waits than was put. -/
theorem waiting_le (d : Drain) (n : Nat) : d.waiting n ≤ n := by
  induction n with
  | zero => exact Nat.le_refl 0
  | succ n ih =>
    rw [waiting]
    split
    · exact Nat.zero_le _
    · exact Nat.succ_le_succ ih

/-- From a count to itself nothing has to go through. -/
theorem Through.refl (d : Drain) (n : Nat) : d.Through n n := fun _ h h' => absurd h (Nat.not_le.mpr h')

/-- Bytes go through one by one. -/
theorem through_succ_iff {m n : Nat} (h : m < n) :
    d.Through m n ↔ (d.overflows (m + 1) = true → d.waiting m + 1 ≤ d.takes (m + 1)) ∧ d.Through (m + 1) n := by
  constructor
  · intro hthrough
    exact ⟨hthrough m (Nat.le_refl m) h, fun k hk => hthrough k (Nat.le_of_succ_le hk)⟩
  · rintro ⟨hfirst, hrest⟩ k hk hkn
    rcases Nat.eq_or_lt_of_le hk with rfl | hk
    · exact hfirst
    · exact hrest k hk hkn

/-- A part of it. -/
theorem Through.mono {k l m n : Nat} (h : d.Through l n) (hl : l ≤ k) (hm : m ≤ n) : d.Through k m :=
  fun j hj hjm => h j (Nat.le_trans hl hj) (Nat.lt_of_lt_of_le hjm hm)

/-- In two parts. -/
theorem through_iff_split {l m n : Nat} (h : l ≤ m) (h' : m ≤ n) : d.Through l n ↔ d.Through l m ∧ d.Through m n := by
  constructor
  · intro hthrough
    exact ⟨hthrough.mono (Nat.le_refl l) h', hthrough.mono h (Nat.le_refl n)⟩
  · rintro ⟨hfirst, hrest⟩ k hk hkn
    rcases Nat.lt_or_ge k m with hkm | hkm
    · exact hfirst k hk hkm
    · exact hrest k hkm hkn

end Drain

namespace OutBuffer

variable {α : Type u} {d : Drain}

/-- With nothing in it. -/
def empty : OutBuffer α := ⟨[], 0⟩

/-- One item after the other. -/
def put (d : Drain) : List α → OutBuffer α → Put α
  | [], b => ⟨[], b, 0⟩
  | x :: xs, b =>
    let held := b.held ++ [x]
    let count := b.count + 1
    if d.overflows count then
      if held.length ≤ d.takes count then
        let r := put d xs ⟨[], count⟩
        ⟨held ++ r.out, r.buffer, r.accepted + 1⟩
      else
        ⟨held.take (d.takes count), ⟨held.drop (d.takes count), count⟩, 0⟩
    else
      let r := put d xs ⟨held, count⟩
      ⟨r.out, r.buffer, r.accepted + 1⟩

/-- What reaches the receiver when the buffer is closed. -/
def close (d : Drain) (b : OutBuffer α) : List α := b.held.take (d.closes b.held.length)

/-- The buffer holds what the pattern says, if nothing was refused. -/
def Even (d : Drain) (b : OutBuffer α) : Prop := b.held.length = d.waiting b.count

/-- An empty buffer is even. -/
theorem even_empty (d : Drain) : Even d (empty : OutBuffer α) := rfl

/-! ## A put -/

/-- A put that accepts all leaves every item with the receiver or in the buffer, in order. -/
structure Put.Whole (d : Drain) (b : OutBuffer α) (xs : List α) (r : Put α) : Prop where
  accepted : r.accepted = xs.length
  kept : r.out ++ r.buffer.held = b.held ++ xs
  count : r.buffer.count = b.count + xs.length
  even : Even d r.buffer

/-- An item that gets through, with or without a drain, before the others. -/
theorem Put.Whole.cons {b b' : OutBuffer α} {x : α} {xs : List α} {r : Put α} (hr : r.Whole d b' xs) (out : List α)
    (hkept : out ++ b'.held = b.held ++ [x]) (hcount : b'.count = b.count + 1) :
    Put.Whole d b (x :: xs) ⟨out ++ r.out, r.buffer, r.accepted + 1⟩ where
  accepted := by rw [hr.accepted, List.length_cons]
  kept := by rw [List.append_assoc, hr.kept, ← List.append_assoc, hkept, List.append_assoc, List.singleton_append]
  count := by rw [hr.count, hcount, List.length_cons, Nat.add_assoc, Nat.add_comm 1]
  even := hr.even

/-- Every item is accepted if every drain on the way takes all that there is; else some item is not. -/
theorem put_spec {b : OutBuffer α} (hb : Even d b) (xs : List α) :
    d.Through b.count (b.count + xs.length) ∧ (put d xs b).Whole d b xs ∨
      ¬ d.Through b.count (b.count + xs.length) ∧ (put d xs b).accepted < xs.length := by
  induction xs generalizing b with
  | nil => exact Or.inl ⟨Drain.Through.refl d _, rfl, by simp [put], rfl, hb⟩
  | cons x xs ih =>
    have hcount : b.count + (x :: xs).length = b.count + 1 + xs.length := by
      rw [List.length_cons]
      omega
    have hheld : (b.held ++ [x]).length = d.waiting b.count + 1 := by
      rw [List.length_append, List.length_singleton, hb]
    rw [hcount, Drain.through_succ_iff (by omega)]
    by_cases hover : d.overflows (b.count + 1) = true
    · by_cases htakes : d.waiting b.count + 1 ≤ d.takes (b.count + 1)
      · have heven : Even d (⟨[], b.count + 1⟩ : OutBuffer α) := by
          simp only [Even, Drain.waiting, hover, if_true, List.length_nil]
        simp only [put, if_pos hover, if_pos (hheld.symm ▸ htakes)]
        rcases ih heven with ⟨hthrough, hwhole⟩ | ⟨hthrough, hless⟩
        · exact Or.inl ⟨⟨fun _ => htakes, hthrough⟩, hwhole.cons _ (List.append_nil _) rfl⟩
        · exact Or.inr ⟨fun h => hthrough h.2, Nat.succ_lt_succ hless⟩
      · refine Or.inr ⟨fun h => htakes (h.1 hover), ?_⟩
        simp only [put, if_pos hover, if_neg (hheld.symm ▸ htakes)]
        exact Nat.succ_pos _
    · have heven : Even d (⟨b.held ++ [x], b.count + 1⟩ : OutBuffer α) := by
        simp only [Even, Drain.waiting, hover, if_false, Bool.false_eq_true, hheld]
      simp only [put, if_neg hover]
      rcases ih heven with ⟨hthrough, hwhole⟩ | ⟨hthrough, hless⟩
      · refine Or.inl ⟨⟨fun h => absurd h hover, hthrough⟩, ?_⟩
        simpa only [List.nil_append] using hwhole.cons [] (List.nil_append _) rfl
      · exact Or.inr ⟨fun h => hthrough h.2, Nat.succ_lt_succ hless⟩

/-- With drains that take everything, all is accepted, whatever the buffer held. -/
theorem put_lossless (hd : ∀ k, k ≤ d.takes k) {b : OutBuffer α} (hb : b.held.length ≤ b.count) (xs : List α) :
    (put d xs b).accepted = xs.length ∧ (put d xs b).out ++ (put d xs b).buffer.held = b.held ++ xs ∧
      (put d xs b).buffer.held.length ≤ (put d xs b).buffer.count := by
  induction xs generalizing b with
  | nil => exact ⟨rfl, by simp [put], hb⟩
  | cons x xs ih =>
    have hheld : (b.held ++ [x]).length ≤ b.count + 1 := by
      rw [List.length_append, List.length_singleton]
      exact Nat.succ_le_succ hb
    by_cases hover : d.overflows (b.count + 1) = true
    · have hdrained : ([] : List α).length ≤ b.count + 1 := Nat.zero_le _
      obtain ⟨haccepted, hkept, hcount⟩ := @ih ⟨[], b.count + 1⟩ hdrained
      simp only [put, if_pos hover, if_pos (Nat.le_trans hheld (hd _))]
      refine ⟨by rw [haccepted, List.length_cons], ?_, hcount⟩
      rw [List.append_assoc, hkept, List.nil_append, List.append_assoc, List.singleton_append]
    · obtain ⟨haccepted, hkept, hcount⟩ := @ih ⟨b.held ++ [x], b.count + 1⟩ hheld
      simp only [put, if_neg hover]
      refine ⟨by rw [haccepted, List.length_cons], ?_, hcount⟩
      rw [hkept, List.append_assoc, List.singleton_append]

/-! ## The close -/

/-- What was put and what the close takes are all the items just if the close takes all that is left. -/
theorem out_append_close_eq_iff {b : OutBuffer α} (hb : Even d b) {out xs : List α} (h : out ++ b.held = xs) :
    out ++ close d b = xs ↔ d.ClosesAll b.count := by
  rw [← h, List.append_cancel_left_eq, close, List.take_eq_self_iff, Drain.ClosesAll, ← hb]

end OutBuffer
