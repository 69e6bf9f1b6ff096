import Copper.Atomic.Backends
import Copper.Foundation.CriticalSection
import Mathlib.Data.BitVec

/-!
# The atomics over a mutex are linearizable

Where the compiler has no atomics, a call locks the mutex of its atomic, reads and writes the value in steps of their own,
unlocks, and returns what it computed in between. Whatever the interleaving, the calls return and leave what they would one at
a time, in the order in which they locked (`fallback_linearizable`).
-/

namespace Copper

open Critical Transition

variable {w : Nat}

instance : Inhabited (AtomicReply w) := ⟨.none⟩

/-- What a call does between `cpr_mutex_lock` and `cpr_mutex_unlock`; `i->value += value` reads the value a second time. -/
def fallbackSection : AtomicOp w → Access (BitVec w) (AtomicReply w)
  | .load => .read fun v => .ret (.value v)
  | .store value => .write value (.ret .none)
  | .exchange value => .read fun prev => .write value (.ret (.value prev))
  | .compareExchange expected desired =>
    .read fun actual =>
      if actual = expected then .write desired (.ret (.swapped true expected)) else .ret (.swapped false actual)
  | .fetchAdd value => .read fun prev => .read fun current => .write (current + value) (.ret (.value prev))
  | .fetchSub value => .read fun prev => .read fun current => .write (current - value) (.ret (.value prev))
  | .fetchAnd value => .read fun prev => .read fun current => .write (current &&& value) (.ret (.value prev))
  | .fetchOr value => .read fun prev => .read fun current => .write (current ||| value) (.ret (.value prev))
  | .fetchXor value => .read fun prev => .read fun current => .write (current ^^^ value) (.ret (.value prev))

/-- Threads `τ` that call the functions of one atomic. -/
def fallbackSystem (τ : Type) [DecidableEq τ] (stored : BitVec w) :
    System (Critical.State τ (BitVec w) (Access (BitVec w) (AtomicReply w)) (AtomicOp w) (AtomicReply w))
      (Critical.Event τ (AtomicOp w)) :=
  Critical.system τ (Access.body fallbackSection) true stored

/-- The operations, one at a time. -/
def atomicMachine (w : Nat) : Machine (BitVec w) (AtomicOp w) (AtomicReply w) := ⟨fun stored op => op.apply stored⟩

/-- A section that nothing interrupts does what the operation is to do. -/
theorem exec_fallbackSection (op : AtomicOp w) (stored : BitVec w) : (fallbackSection op).exec stored = op.apply stored := by
  cases op with
  | compareExchange expected desired =>
    rw [fallbackSection, Access.exec, AtomicOp.apply]
    split
    · rw [Access.exec, Access.exec]
    · rw [Access.exec]
  | _ => rfl

theorem machine_fallbackSection : Access.machine fallbackSection = atomicMachine w := by
  unfold Access.machine atomicMachine
  congr 1
  funext stored op
  exact exec_fallbackSection op stored

/-- On the unsigned types, that is what the third branch of the source computes. -/
theorem fallback_computes {ty : AtomicType} (hunsigned : ty.signed = false) (stored : BitVec ty.bits) (op : AtomicOp ty.bits) :
    atomicCall .mutex ty stored op = some ((atomicMachine ty.bits).next stored op) := by
  rw [atomicCall_eq, hunsigned]
  refine (backendApply_eq_iff .mutex false stored op).mpr ?_
  cases op <;> simp [InRange]

/-- Additions, one at a time, add up. -/
theorem run_fetchAdds (vs : List (BitVec w)) : ∀ stored : BitVec w,
    ((atomicMachine w).run stored (vs.map .fetchAdd)).2 = stored + vs.sum := by
  induction vs with
  | nil => simp [Machine.run]
  | cons v vs ih =>
    intro stored
    rw [List.map_cons, Machine.run, ih, List.sum_cons]
    exact BitVec.add_assoc stored v vs.sum

/-- The calls on a `CprAtomicU32` or a `CprAtomicU64` over a mutex, in any interleaving of any threads: a call that has
returned has a place of its own in the order in which calls locked, and returned what the operations, one at a time in that
order, return there; and when no call is in its section, the value is as they leave it. Only additions: the value is the sum.
-/
theorem fallback_linearizable {τ : Type} [DecidableEq τ] {ty : AtomicType} (hunsigned : ty.signed = false)
    {stored : BitVec ty.bits}
    {s : Critical.State τ (BitVec ty.bits) (Access (BitVec ty.bits) (AtomicReply ty.bits)) (AtomicOp ty.bits)
      (AtomicReply ty.bits)}
    (hs : (fallbackSystem τ stored).Reachable s) :
    (∀ v op, atomicCall .mutex ty v op = some ((atomicMachine ty.bits).next v op)) ∧
    (∀ r ∈ s.returned, ∃ n o, r.answer = some (n, o) ∧ s.entered[n]? = some (r.thread, r.input) ∧
      ((atomicMachine ty.bits).run stored (s.entered.map Prod.snd)).1[n]? = some o) ∧
    (tickets s.returned).Nodup ∧
    (s.holder = none → s.shared = ((atomicMachine ty.bits).run stored (s.entered.map Prod.snd)).2) ∧
    (s.holder = none → ∀ vs : List (BitVec ty.bits), s.entered.map Prod.snd = vs.map .fetchAdd → s.shared = stored + vs.sum) := by
  obtain ⟨hanswers, honce, hshared⟩ := Access.linearizable hs
  rw [machine_fallbackSection] at hanswers hshared
  refine ⟨fallback_computes hunsigned, hanswers, honce, hshared, fun hfree vs hvs => ?_⟩
  rw [hshared hfree, hvs]
  exact run_fetchAdds vs stored

/-- Two threads add 2 and 3; the second waits while the first is between its reads. -/
def twoAdds : List (Critical.Event Bool (AtomicOp 32)) :=
  [.call false (.fetchAdd 2), .call true (.fetchAdd 3), .lock false, .step false, .step false, .step false, .unlock false, .lock true,
    .step true, .ret false, .step true, .step true, .unlock true, .ret true]

theorem fallback_linearizable_twoAdds :
    AtomicType.u32.signed = false ∧
      ∃ s, (fallbackSystem Bool (0 : BitVec 32)).Reachable s ∧ s.returned.length = 2 ∧ s.shared = 0 + [2, 3].sum := by
  have hs : ∃ s, System.replay (Critical.next (Access.body fallbackSection) true) (.initial 0) twoAdds = some s ∧
      s.holder = none ∧ s.entered.map Prod.snd = [.fetchAdd 2, .fetchAdd 3] ∧ s.returned.length = 2 :=
    ⟨_, rfl, rfl, rfl, rfl⟩
  obtain ⟨s, hreplay, hfree, hentered, hreturned⟩ := hs
  have hreachable : (fallbackSystem Bool (0 : BitVec 32)).Reachable s := ⟨_, twoAdds, rfl, System.run_of_replay _ hreplay⟩
  have hsum := (@fallback_linearizable Bool _ .u32 rfl _ s hreachable).2.2.2.2 hfree [2, 3] hentered
  exact ⟨rfl, s, hreachable, hreturned, hsum⟩

end Copper
