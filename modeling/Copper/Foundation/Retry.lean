import Mathlib.Algebra.BigOperators.Group.List.Basic
import Mathlib.Algebra.GroupWithZero.Nat
import Mathlib.Algebra.Order.Group.Nat
import Mathlib.Data.Set.Finite.Basic

/-!
# Retrying until everything is done

A loop wants `left` items done, starting at `pos`, by calls that may each do fewer than they are asked for. A result that makes
`progress` moves the loop on by that much, which may be nothing; any other result is handed to `stop`, with the results after it.
The results are a list, and a loop that comes to its end has not returned. A loop on an endless sequence of results that never
returns makes no progress from some result on (`eventually_zero`).
-/

namespace Retry

universe u v w

variable {ι : Type u} {σ : Type v} {ο : Type w}

/-- The loop. -/
def loop (progress : ι → Option Nat) (put : ι → Nat → Nat → σ → σ) (stop : ι → List ι → Nat → Nat → σ → Option ο) (done : σ → ο) :
    List ι → Nat → Nat → σ → Option ο
  | [], _, left, s => if left = 0 then some (done s) else none
  | r :: rs, pos, left, s =>
    if left = 0 then some (done s)
    else
      match progress r with
      | some n => loop progress put stop done rs (pos + min n left) (left - min n left) (put r pos (min n left) s)
      | none => stop r rs pos left s

/-- How much progress results make together. -/
def total (progress : ι → Option Nat) (rs : List ι) : Nat := (rs.map fun r => (progress r).getD 0).sum

/-- Results that all make progress, but do not do everything. -/
def Short (progress : ι → Option Nat) (rs : List ι) (left : Nat) : Prop :=
  (∀ r ∈ rs, progress r ≠ none) ∧ total progress rs < left

section

variable {progress : ι → Option Nat} {put : ι → Nat → Nat → σ → σ} {stop : ι → List ι → Nat → Nat → σ → Option ο} {done : σ → ο}

/-! ## What a loop keeps -/

/-- What every call keeps holds when the loop is done, or when it stops. -/
theorem loop_keeps (Inv : Nat → Nat → σ → Prop) {Post : ο → Prop}
    (hput : ∀ r n pos left s, progress r = some n → Inv pos left s →
      Inv (pos + min n left) (left - min n left) (put r pos (min n left) s))
    (hdone : ∀ pos s, Inv pos 0 s → Post (done s))
    (hstop : ∀ r rs pos left s o, Inv pos left s → progress r = none → stop r rs pos left s = some o → Post o)
    {rs : List ι} {pos left : Nat} {s : σ} {o : ο} (hs : Inv pos left s) (h : loop progress put stop done rs pos left s = some o) :
    Post o := by
  induction rs generalizing pos left s with
  | nil =>
    rw [loop] at h
    split at h
    · rename_i hleft
      subst hleft
      cases h
      exact hdone pos s hs
    · cases h
  | cons r rs ih =>
    rw [loop] at h
    split at h
    · rename_i hleft
      subst hleft
      cases h
      exact hdone pos s hs
    · cases hr : progress r with
      | some n =>
        rw [hr] at h
        exact ih (hput r n pos left s hr hs) h
      | none =>
        rw [hr] at h
        exact hstop r rs pos left s o hs hr h

/-! ## When a loop returns -/

/-- With no results everything is left. -/
theorem Short.nil {left : Nat} (h : left ≠ 0) : Short progress [] left := ⟨by simp, Nat.pos_of_ne_zero h⟩

/-- Results are too short just if the first leaves something, and the others are too short for that. -/
theorem short_cons {r : ι} {rs : List ι} {left n : Nat} (hr : progress r = some n) :
    Short progress (r :: rs) left ↔ left ≠ 0 ∧ Short progress rs (left - min n left) := by
  have htotal : total progress (r :: rs) = n + total progress rs := by
    rw [total, List.map_cons, List.sum_cons, hr]
    rfl
  unfold Short
  rw [htotal, List.forall_mem_cons, hr]
  constructor
  · rintro ⟨⟨-, hall⟩, hlt⟩
    exact ⟨by omega, hall, by omega⟩
  · rintro ⟨-, hall, hlt⟩
    exact ⟨⟨by simp, hall⟩, by omega⟩

/-- Results that start with one that stops the loop are not just too short. -/
theorem not_short_cons {r : ι} {rs : List ι} {left : Nat} (hr : progress r = none) : ¬ Short progress (r :: rs) left :=
  fun h => h.1 r List.mem_cons_self hr

/-- Results that neither do everything nor stop the loop; `Pending` says when `stop` has not returned. -/
def Unfinished (progress : ι → Option Nat) (Pending : ι → List ι → Nat → Prop) (rs : List ι) (left : Nat) : Prop :=
  Short progress rs left ∨
    ∃ a r b, rs = a ++ r :: b ∧ Short progress a left ∧ progress r = none ∧ Pending r b (left - total progress a)

/-- After a result that brings something the loop is unfinished just if something is left, for which the other results are not
enough. -/
theorem unfinished_cons_some {Pending : ι → List ι → Nat → Prop} {r : ι} {rs : List ι} {left n : Nat} (hr : progress r = some n) :
    Unfinished progress Pending (r :: rs) left ↔ left ≠ 0 ∧ Unfinished progress Pending rs (left - min n left) := by
  have htotal : ∀ a, total progress (r :: a) = n + total progress a := by
    intro a
    rw [total, List.map_cons, List.sum_cons, hr]
    rfl
  unfold Unfinished
  rw [short_cons hr]
  constructor
  · rintro (⟨hleft, hshort⟩ | ⟨a, r', b, heq, hshort, hnone, hpending⟩)
    · exact ⟨hleft, .inl hshort⟩
    · cases a with
      | nil =>
        obtain ⟨rfl, -⟩ := List.cons.inj heq
        rw [hr] at hnone
        cases hnone
      | cons r'' a =>
        obtain ⟨rfl, hrs⟩ := List.cons.inj heq
        obtain ⟨hleft, hshort⟩ := (short_cons hr).mp hshort
        have hlt := hshort.2
        rw [htotal, show left - (n + total progress a) = left - min n left - total progress a by omega] at hpending
        exact ⟨hleft, .inr ⟨a, r', b, hrs, hshort, hnone, hpending⟩⟩
  · rintro ⟨hleft, hshort | ⟨a, r', b, rfl, hshort, hnone, hpending⟩⟩
    · exact .inl ⟨hleft, hshort⟩
    · have hlt := hshort.2
      refine .inr ⟨r :: a, r', b, rfl, (short_cons hr).mpr ⟨hleft, hshort⟩, hnone, ?_⟩
      rw [htotal, show left - (n + total progress a) = left - min n left - total progress a by omega]
      exact hpending

/-- After a result that stops the loop it is unfinished just if something was left, and what follows has not returned. -/
theorem unfinished_cons_none {Pending : ι → List ι → Nat → Prop} {r : ι} {rs : List ι} {left : Nat} (hr : progress r = none) :
    Unfinished progress Pending (r :: rs) left ↔ left ≠ 0 ∧ Pending r rs left := by
  unfold Unfinished
  constructor
  · rintro (hshort | ⟨a, r', b, heq, hshort, -, hpending⟩)
    · exact absurd hshort (not_short_cons hr)
    · cases a with
      | nil =>
        obtain ⟨rfl, rfl⟩ := List.cons.inj heq
        exact ⟨Nat.ne_of_gt hshort.2, hpending⟩
      | cons r'' a =>
        obtain ⟨rfl, -⟩ := List.cons.inj heq
        exact absurd hshort (not_short_cons hr)
  · rintro ⟨hleft, hpending⟩
    exact .inr ⟨[], r, rs, rfl, Short.nil hleft, hr, hpending⟩

/-- The results on which a loop has not returned. -/
theorem loop_eq_none_iff {Pending : ι → List ι → Nat → Prop}
    (hstop : ∀ r rs pos left s, progress r = none → left ≠ 0 → (stop r rs pos left s = none ↔ Pending r rs left)) {rs : List ι}
    {pos left : Nat} {s : σ} : loop progress put stop done rs pos left s = none ↔ Unfinished progress Pending rs left := by
  induction rs generalizing pos left s with
  | nil =>
    rw [loop]
    split
    · rename_i hleft
      refine iff_of_false (by simp) ?_
      rintro (hshort | ⟨a, r, b, heq, -⟩)
      · exact Nat.not_lt_zero _ (hleft ▸ hshort.2)
      · simp at heq
    · rename_i hleft
      exact iff_of_true rfl (.inl (Short.nil hleft))
  | cons r rs ih =>
    rw [loop]
    cases hr : progress r with
    | some n =>
      rw [unfinished_cons_some hr]
      split
      · exact iff_of_false (by simp) fun h => h.1 ‹_›
      · rename_i hleft
        exact ih.trans (and_iff_right hleft).symm
    | none =>
      rw [unfinished_cons_none hr]
      split
      · exact iff_of_false (by simp) fun h => h.1 ‹_›
      · rename_i hleft
        exact (hstop r rs pos left s hr hleft).trans (and_iff_right hleft).symm

/-! ## Fewer and more results -/

/-- Where something is unfinished, something is left. -/
theorem Unfinished.ne_zero {Pending : ι → List ι → Nat → Prop} {rs : List ι} {left : Nat} (h : Unfinished progress Pending rs left) :
    left ≠ 0 := by
  rcases h with hshort | ⟨a, r, b, -, hshort, -⟩
  · exact Nat.ne_of_gt (Nat.zero_lt_of_lt hshort.2)
  · exact Nat.ne_of_gt (Nat.zero_lt_of_lt hshort.2)

/-- A loop that has not returned had not returned before. -/
theorem Unfinished.of_append {Pending : ι → List ι → Nat → Prop}
    (hpending : ∀ r a b left, progress r = none → Pending r (a ++ b) left → Pending r a left) {rs rs' : List ι} {left : Nat}
    (h : Unfinished progress Pending (rs ++ rs') left) : Unfinished progress Pending rs left := by
  induction rs generalizing left with
  | nil => exact .inl (Short.nil h.ne_zero)
  | cons r rs ih =>
    rw [List.cons_append] at h
    cases hr : progress r with
    | some n =>
      obtain ⟨hleft, h⟩ := (unfinished_cons_some hr).mp h
      exact (unfinished_cons_some hr).mpr ⟨hleft, ih h⟩
    | none =>
      obtain ⟨hleft, h⟩ := (unfinished_cons_none hr).mp h
      exact (unfinished_cons_none hr).mpr ⟨hleft, hpending r rs rs' left hr h⟩

/-- The first of some results that are too short are too short. -/
theorem Short.of_append {a b : List ι} {left : Nat} (h : Short progress (a ++ b) left) : Short progress a left := by
  obtain ⟨hall, hsum⟩ := h
  rw [total, List.map_append, List.sum_append] at hsum
  exact ⟨fun x hx => hall x (List.mem_append_left b hx), Nat.lt_of_le_of_lt (Nat.le_add_right _ _) hsum⟩

/-- Results that bring nothing are too short for anything. -/
theorem short_idle {zs : List ι} (hzs : ∀ z ∈ zs, progress z = some 0) {left : Nat} (hleft : left ≠ 0) : Short progress zs left := by
  induction zs with
  | nil => exact Short.nil hleft
  | cons z zs ih =>
    rw [short_cons (hzs z List.mem_cons_self), Nat.zero_min, Nat.sub_zero]
    exact ⟨hleft, ih fun x hx => hzs x (List.mem_cons_of_mem z hx)⟩

/-- Results that are too short stay so when some follow that bring nothing. -/
theorem Short.append_idle {zs : List ι} (hzs : ∀ z ∈ zs, progress z = some 0) {rs : List ι} {left : Nat}
    (h : Short progress rs left) : Short progress (rs ++ zs) left := by
  induction rs generalizing left with
  | nil => exact short_idle hzs (Nat.ne_of_gt (Nat.zero_lt_of_lt h.2))
  | cons r rs ih =>
    obtain ⟨n, hr⟩ := Option.ne_none_iff_exists'.mp (h.1 r List.mem_cons_self)
    obtain ⟨hleft, h⟩ := (short_cons hr).mp h
    exact (short_cons hr).mpr ⟨hleft, ih h⟩

/-- A loop that has not returned does not return by results that make no progress. -/
theorem Unfinished.append_idle {Pending : ι → List ι → Nat → Prop} {zs : List ι} (hzs : ∀ z ∈ zs, progress z = some 0)
    (hpending : ∀ r a left, left ≠ 0 → progress r = none → Pending r a left → Pending r (a ++ zs) left) {rs : List ι} {left : Nat}
    (h : Unfinished progress Pending rs left) : Unfinished progress Pending (rs ++ zs) left := by
  induction rs generalizing left with
  | nil => exact .inl (short_idle hzs h.ne_zero)
  | cons r rs ih =>
    rw [List.cons_append]
    cases hr : progress r with
    | some n =>
      obtain ⟨hleft, h⟩ := (unfinished_cons_some hr).mp h
      exact (unfinished_cons_some hr).mpr ⟨hleft, ih h⟩
    | none =>
      obtain ⟨hleft, h⟩ := (unfinished_cons_none hr).mp h
      exact (unfinished_cons_none hr).mpr ⟨hleft, hpending r rs left hleft hr h⟩

end

/-! ## Endless sequences of results -/

/-- The first results of a sequence. -/
def first (results : Nat → ι) (n : Nat) : List ι := (List.range n).map results

/-- The first results, and those that come after them. -/
theorem first_add (results : Nat → ι) (m n : Nat) :
    first results (m + n) = first results m ++ first (fun i => results (m + i)) n := by
  rw [first, List.range_add, List.map_append, List.map_map]
  rfl

/-- A result is among the first just if its number is. -/
theorem mem_first {results : Nat → ι} {n : Nat} {r : ι} : r ∈ first results n ↔ ∃ i < n, results i = r := by
  rw [first, List.mem_map]
  simp only [List.mem_range]

/-- Numbers whose sums stay below a bound are zero from some point on. -/
theorem eventually_zero {f : Nat → Nat} {bound : Nat} (h : ∀ n, ((List.range n).map f).sum < bound) : ∃ n, ∀ i ≥ n, f i = 0 := by
  induction bound generalizing f with
  | zero => exact absurd (h 0) (Nat.not_lt_zero _)
  | succ bound ih =>
    by_cases hzero : ∀ i, f i = 0
    · exact ⟨0, fun i _ => hzero i⟩
    · push Not at hzero
      obtain ⟨k, hk⟩ := hzero
      -- After a number that is not zero, the sums stay below one less.
      obtain ⟨n, hn⟩ := ih (f := fun i => f (k + 1 + i)) fun n => by
        have hsum := h (k + 1 + n)
        rw [List.range_add, List.map_append, List.sum_append, List.map_map, List.range_succ, List.map_append, List.sum_append,
          List.map_singleton, List.sum_singleton] at hsum
        have hshift : ((List.range n).map (f ∘ (k + 1 + ·))).sum = ((List.range n).map fun i => f (k + 1 + i)).sum := rfl
        omega
      refine ⟨k + 1 + n, fun i hi => ?_⟩
      have hi' := hn (i - (k + 1)) (by omega)
      rwa [Nat.add_sub_cancel' (by omega)] at hi'

section

variable {progress : ι → Option Nat} {results : Nat → ι}

/-- Results that never do everything make no progress from some point on. -/
theorem exists_idle {left : Nat} (h : ∀ n, Short progress (first results n) left) : ∃ n, ∀ i ≥ n, progress (results i) = some 0 := by
  have hsum : ∀ n, ((List.range n).map fun i => (progress (results i)).getD 0).sum < left := by
    intro n
    have hlt := (h n).2
    rw [total, first, List.map_map] at hlt
    exact hlt
  obtain ⟨n, hn⟩ := eventually_zero hsum
  refine ⟨n, fun i hi => ?_⟩
  obtain ⟨m, hm⟩ := Option.ne_none_iff_exists'.mp ((h (i + 1)).1 (results i) (mem_first.mpr ⟨i, Nat.lt_succ_self i, rfl⟩))
  have hzero := hn i hi
  rw [hm] at hzero ⊢
  exact congrArg some hzero

/-- A loop that never returns makes some progress all the time, or came to a result that `stop` never returns from. -/
theorem unfinished_cases {Pending : ι → List ι → Nat → Prop} {left : Nat}
    (h : ∀ n, Unfinished progress Pending (first results n) left) :
    (∀ n, Short progress (first results n) left) ∨
      ∃ k, progress (results k) = none ∧
        ∀ n, Pending (results k) (first (fun i => results (k + 1 + i)) n) (left - total progress (first results k)) := by
  by_cases hall : ∀ i, progress (results i) ≠ none
  · refine .inl fun n => (h n).resolve_right ?_
    rintro ⟨a, r, b, heq, -, hnone, -⟩
    have hmem : r ∈ first results n := by
      rw [heq]
      exact List.mem_append_right a List.mem_cons_self
    obtain ⟨i, -, rfl⟩ := mem_first.mp hmem
    exact hall i hnone
  · push Not at hall
    classical
    refine .inr ⟨Nat.find hall, Nat.find_spec hall, fun n => ?_⟩
    have hbefore : ∀ i < Nat.find hall, progress (results i) ≠ none := fun i hi => Nat.find_min hall hi
    have hnone := Nat.find_spec hall
    generalize Nat.find hall = k at hbefore hnone
    have hn := h (k + (n + 1))
    have hsplit : first results (k + (n + 1)) = first results k ++ results k :: first (fun i => results (k + 1 + i)) n := by
      rw [first_add, Nat.add_comm n 1, first_add (fun i => results (k + i)) 1 n]
      simp only [first, List.range_one, List.map_singleton, Nat.add_zero, List.singleton_append, Nat.add_assoc]
    rw [hsplit] at hn
    have hfirst : ∀ r ∈ first results k, progress r ≠ none := by
      intro r hr
      obtain ⟨i, hi, rfl⟩ := mem_first.mp hr
      exact hbefore i hi
    rcases hn with hshort | ⟨a, r, b, heq, hshort, hr, hpending⟩
    · exact absurd hnone (hshort.1 _ (List.mem_append_right _ List.mem_cons_self))
    · -- The first result without progress is the same in both.
      have hcut : first results k = a ∧ results k :: first (fun i => results (k + 1 + i)) n = r :: b := by
        rcases List.append_eq_append_iff.mp heq with ⟨c, hac, hcb⟩ | ⟨c, hac, hcb⟩
        · cases c with
          | nil =>
            rw [List.append_nil] at hac
            exact ⟨hac.symm, hcb⟩
          | cons x c =>
            obtain ⟨rfl, -⟩ := List.cons.inj hcb
            exact absurd hnone (hshort.1 _ (hac ▸ List.mem_append_right _ List.mem_cons_self))
        · cases c with
          | nil =>
            rw [List.append_nil] at hac
            exact ⟨hac, hcb.symm⟩
          | cons x c =>
            obtain ⟨rfl, -⟩ := List.cons.inj hcb
            exact absurd hr (hfirst _ (hac ▸ List.mem_append_right _ List.mem_cons_self))
      obtain ⟨rfl, htail⟩ := hcut
      obtain ⟨rfl, rfl⟩ := List.cons.inj htail
      exact hpending

end

end Retry
