import Copper.Thread.Invariant

/-!
# What holds of every interleaving of threads

Nothing is used after it was freed or closed, freed twice or forgotten (`thrds_accounted`), and what was asked for is done once
(`thrds_run_once`).
-/

namespace Copper.Thread

open Fs (Platform)
open Ledger Transition

/-- The invariant holds initially and is kept by every step. -/
theorem thrdInv_inductive (platform : Platform) : (thrds platform).Inductive ThrdInv where
  init s hs := by
    cases hs
    exact {
      fault := rfl
      blocks := Owned.none.of_eq (by funext p; cases p <;> rfl)
      kernel := Owned.none.of_eq (by funext p; cases p <;> rfl)
      history := ⟨fun _ => ⟨fun _ => rfl, fun _ => rfl⟩, fun _ _ => rfl, nofun, fun _ => rfl, nofun⟩ }
  step s e t hs h := by
    cases e with
    | create i e => exact hs.createNext h
    | join i e => exact hs.releaseNext h
    | detach i e => exact hs.releaseNext h
    | getId i thread => exact hs.getIdNext h
    | thread tid e => exact hs.trampolineNext h

/-- The invariant holds in every state that is reached. -/
theorem thrdInv_of_reachable {platform : Platform} {s : ThrdState} (h : (thrds platform).Reachable s) : ThrdInv s :=
  h.invariant (thrdInv_inductive platform)

/-- In every reachable state of every interleaving nothing has been read or freed that was not allocated, and no closed kernel object
used; every allocated block belongs to one call, one handle that the program holds or one thread, and every open kernel object to one
call or handle, or the system refused to give it up. So when no call is under way and every handle has been given back, no kernel
object is open that the system did not keep, and when every thread is past its copy no memory is left allocated. -/
theorem thrds_accounted {platform : Platform} {s : ThrdState} (h : (thrds platform).Reachable s) :
    s.fault = false ∧
      (∀ a b, s.heap a = some b → ∃! p, s.blockAt p = some (a, b)) ∧
      (∀ tid, s.opened tid = some () → ∃! p, s.kernelAt p = some (tid, ())) ∧
      ((∀ i, s.callers i = .idle) → (∀ a, s.held a = none) →
        (∀ tid, s.opened tid = some () → s.abandoned tid = true) ∧
          ((∀ tid, (s.threads tid).pointer = none) → ∀ a, s.heap a = none)) := by
  have hinv := thrdInv_of_reachable h
  refine ⟨hinv.fault, fun a b => hinv.blocks.existsUnique, fun tid => hinv.kernel.existsUnique, fun hidle hheld => ⟨?_, ?_⟩⟩
  · intro tid htid
    obtain ⟨p, hp⟩ := hinv.kernel.covered tid () htid
    cases p with
    | caller i =>
      rw [ThrdState.kernelAt, hidle] at hp
      cases hp
    | handle a =>
      rw [ThrdState.kernelAt, hheld] at hp
      cases hp
    | abandoned tid' =>
      rw [ThrdState.kernelAt] at hp
      split at hp
      · cases hp
        assumption
      · cases hp
  · intro hpast
    refine hinv.blocks.eq_none fun p => ?_
    cases p with
    | thread i => rw [ThrdState.blockAt, hidle]; rfl
    | trampoline i => rw [ThrdState.blockAt, hidle]; rfl
    | handle a => rw [ThrdState.blockAt, hheld]; rfl
    | start tid => rw [ThrdState.blockAt, hpast]; rfl

/-- Two threads are created and a third is not, for want of memory for its trampoline. The first is joined when it has returned, and
the block of its handle is the one that the second is given. -/
def runTwoThreads : List ThrdEvent :=
  [.create 0 (.call (some 7) 1), .create 0 (.mallocThread (some 64)), .create 1 (.call (some 7) 2),
    .create 0 (.mallocTrampoline (some 32)), .create 0 (.spawn (some 5)), .create 1 (.mallocThread (some 96)), .thread 5 .copy,
    .create 1 (.mallocTrampoline none), .thread 5 .free, .join 0 (.call (some 64)), .thread 5 .call, .thread 5 .ret,
    .join 0 (.answer true), .create 1 (.call (some 8) 3), .create 1 (.mallocThread (some 64)),
    .create 1 (.mallocTrampoline (some 32)), .create 1 (.spawn (some 6)), .detach 1 (.call (some 64)), .thread 6 .copy,
    .detach 1 (.answer true), .thread 6 .free]

/-- What a replay shows is shown by a reachable state. -/
theorem thrds_reachable_of_replay {α : Type} (platform : Platform) (f : ThrdState → α) (v : α) (es : List ThrdEvent)
    (h : (System.replay (thrdNext platform) .start es).map f = some v) : ∃ s, (thrds platform).Reachable s ∧ f s = v := by
  obtain ⟨t, ht, rfl⟩ := Option.map_eq_some_iff.mp h
  exact ⟨t, ⟨_, es, rfl, System.run_of_replay es ht⟩, rfl⟩

theorem thrds_accounted_two : ∃ s, (thrds .posix).Reachable s ∧
    s.returned = [(0, .created 64), (1, .failed ⟨.errOom, "out of memory"⟩), (0, .joined 5), (1, .created 64), (1, .detached)] ∧
    s.fault = false ∧
      (∀ a b, s.heap a = some b → ∃! p, s.blockAt p = some (a, b)) ∧
      (∀ tid, s.opened tid = some () → ∃! p, s.kernelAt p = some (tid, ())) ∧
      ((∀ i, s.callers i = .idle) → (∀ a, s.held a = none) →
        (∀ tid, s.opened tid = some () → s.abandoned tid = true) ∧
          ((∀ tid, (s.threads tid).pointer = none) → ∀ a, s.heap a = none)) := by
  obtain ⟨s, hs, hv⟩ := thrds_reachable_of_replay .posix (fun s => s.returned)
    [(0, .created 64), (1, .failed ⟨.errOom, "out of memory"⟩), (0, .joined 5), (1, .created 64), (1, .detached)] runTwoThreads
    (by decide)
  exact ⟨s, hs, hv, thrds_accounted hs⟩

/-- In every reachable state of every interleaving a thread has called its function once if it has come so far and not at all before,
the function and the argument being those that the `cpr_thrd_create` which started it was given; and where `cpr_thrd_join` has
succeeded, the thread has called its function and returned. -/
theorem thrds_run_once {platform : Platform} {s : ThrdState} (h : (thrds platform).Reachable s) :
    (∀ tid, s.callsOf tid = if (s.threads tid).called then (s.spawned tid).toList else []) ∧
      (∀ tid, (s.threads tid).called = true → ∃ job, s.spawned tid = some job ∧ s.callsOf tid = [job]) ∧
      ∀ i tid, (i, .joined tid) ∈ s.returned → s.threads tid = .done ∧ (s.callsOf tid).length = 1 := by
  have hinv := (thrdInv_of_reachable h).history
  have honce : ∀ tid, (s.threads tid).called = true → ∃ job, s.spawned tid = some job ∧ s.callsOf tid = [job] := by
    intro tid hcalled
    have hne : s.spawned tid ≠ none := fun hnone => by
      rw [(hinv.absent tid).mpr hnone] at hcalled
      cases hcalled
    obtain ⟨job, hjob⟩ := Option.ne_none_iff_exists'.mp hne
    refine ⟨job, hjob, ?_⟩
    rw [hinv.calls tid, hcalled, if_pos rfl, hjob]
    rfl
  refine ⟨hinv.calls, honce, fun i tid hi => ?_⟩
  have hdone := hinv.joined i tid hi
  obtain ⟨job, -, hcalls⟩ := honce tid (by rw [hdone]; rfl)
  exact ⟨hdone, by rw [hcalls]; rfl⟩

theorem thrds_run_once_two : ∃ s, (thrds .windows).Reachable s ∧ (s.callsOf 5, s.callsOf 6) = ([⟨7, 1⟩], []) ∧
    (∀ tid, s.callsOf tid = if (s.threads tid).called then (s.spawned tid).toList else []) ∧
      (∀ tid, (s.threads tid).called = true → ∃ job, s.spawned tid = some job ∧ s.callsOf tid = [job]) ∧
      ∀ i tid, (i, .joined tid) ∈ s.returned → s.threads tid = .done ∧ (s.callsOf tid).length = 1 := by
  obtain ⟨s, hs, hv⟩ := thrds_reachable_of_replay .windows (fun s => (s.callsOf 5, s.callsOf 6)) ([⟨7, 1⟩], []) runTwoThreads
    (by decide)
  exact ⟨s, hs, hv, thrds_run_once hs⟩

end Copper.Thread
