import Copper.Thread.Steps
import Copper.Foundation.Owned

/-!
# Who owns what

Every allocated block belongs to one place: to the call of `cpr_thrd_create`, `cpr_thrd_join` or `cpr_thrd_detach` that is about to
free it or to hand it on, to the program that holds the handle, or to the thread that has yet to free its trampoline. Every open
kernel object belongs to a handle, or to a call that has taken one, or is one that the system refused to give up.
-/

namespace Copper.Thread

open Fs (Platform)
open Ledger

/-- The places of blocks. -/
inductive BlockPlace where
  | thread (i : Nat)
  | trampoline (i : Nat)
  | handle (a : Nat)
  | start (tid : Nat)
  deriving DecidableEq

/-- The places of kernel objects. -/
inductive KernelPlace where
  | caller (i : Nat)
  | handle (a : Nat)
  | abandoned (tid : Nat)
  deriving DecidableEq

/-- The `CprThread` of a call. -/
def CallerPc.threadBlock : CallerPc → Option (Nat × Block)
  | .allocTrampoline _ a => some (a, .thread none)
  | .spawning _ a _ => some (a, .thread none)
  | .releasing _ a tid => some (a, .thread (some tid))
  | _ => none

/-- The `CprThreadTrampoline` of a call. -/
def CallerPc.trampolineBlock : CallerPc → Option (Nat × Block)
  | .spawning job _ a => some (a, .trampoline job)
  | _ => none

/-- The kernel object of a call. -/
def CallerPc.kernel : CallerPc → Option (Nat × Unit)
  | .releasing _ _ tid => some (tid, ())
  | _ => none

/-- The trampoline that a thread has yet to free. -/
def ThreadPc.pointer : ThreadPc → Option Nat
  | .entered a => some a
  | .copied a _ => some a
  | _ => none

/-- The job that a thread has copied. -/
def ThreadPc.job : ThreadPc → Option Job
  | .copied _ job => some job
  | .freed job => some job
  | .running job => some job
  | _ => none

/-- The thread has called its function. -/
def ThreadPc.called : ThreadPc → Bool
  | .running _ => true
  | .done => true
  | _ => false

namespace ThrdState

variable (s : ThrdState)

/-- Which block is whose. -/
def blockAt : BlockPlace → Option (Nat × Block)
  | .thread i => (s.callers i).threadBlock
  | .trampoline i => (s.callers i).trampolineBlock
  | .handle a => (s.held a).map fun tid => (a, .thread (some tid))
  | .start tid => (s.threads tid).pointer.bind fun a => (s.spawned tid).map fun job => (a, .trampoline job)

/-- Which kernel object is whose. -/
def kernelAt : KernelPlace → Option (Nat × Unit)
  | .caller i => (s.callers i).kernel
  | .handle a => (s.held a).map fun tid => (tid, ())
  | .abandoned tid => if s.abandoned tid then some (tid, ()) else none

/-- The jobs that a thread has been called for. -/
def callsOf (tid : Nat) : List Job := (s.calls.filter fun c => c.1 = tid).map Prod.snd

end ThrdState

/-- What the history says of the threads. -/
structure ThrdHistory (s : ThrdState) : Prop where
  absent : ∀ tid, s.threads tid = .absent ↔ s.spawned tid = none
  opened : ∀ tid, s.threads tid = .absent → s.opened tid = none
  job : ∀ tid job, (s.threads tid).job = some job → s.spawned tid = some job
  calls : ∀ tid, s.callsOf tid = if (s.threads tid).called then (s.spawned tid).toList else []
  joined : ∀ i tid, (i, .joined tid) ∈ s.returned → s.threads tid = .done

structure ThrdInv (s : ThrdState) : Prop where
  fault : s.fault = false
  blocks : Owned s.heap s.blockAt
  kernel : Owned s.opened s.kernelAt
  history : ThrdHistory s

/-! ## How the places move -/

section

variable (s : ThrdState)

/-- Moving a caller changes which blocks are its. -/
theorem blockAt_setCaller (i : Nat) (pc : CallerPc) :
    (s.setCaller i pc).blockAt =
      Function.update (Function.update s.blockAt (.thread i) pc.threadBlock) (.trampoline i) pc.trampolineBlock := by
  funext p
  cases p with
  | thread j => by_cases hj : j = i <;> simp [ThrdState.blockAt, ThrdState.setCaller, hj]
  | trampoline j => by_cases hj : j = i <;> simp [ThrdState.blockAt, ThrdState.setCaller, hj]
  | handle a => simp [ThrdState.blockAt, ThrdState.setCaller]
  | start tid => simp [ThrdState.blockAt, ThrdState.setCaller]

/-- Giving a handle to a holder, or taking it, changes whose the block is. -/
theorem blockAt_held (a : Nat) (x : Option Nat) :
    ({ s with held := Function.update s.held a x } : ThrdState).blockAt =
      Function.update s.blockAt (.handle a) (x.map fun tid => (a, .thread (some tid))) := by
  funext p
  cases p with
  | handle c =>
    by_cases hc : c = a
    · subst hc
      simp [ThrdState.blockAt]
    · simp [ThrdState.blockAt, hc]
  | thread j => simp [ThrdState.blockAt]
  | trampoline j => simp [ThrdState.blockAt]
  | start tid => simp [ThrdState.blockAt]

/-- Moving a thread changes which block is its. -/
theorem blockAt_setThread (tid : Nat) (pc : ThreadPc) :
    (s.setThread tid pc).blockAt =
      Function.update s.blockAt (.start tid) (pc.pointer.bind fun a => (s.spawned tid).map fun job => (a, .trampoline job)) := by
  funext p
  cases p with
  | start tid' =>
    by_cases ht : tid' = tid
    · subst ht
      simp [ThrdState.blockAt, ThrdState.setThread]
    · simp [ThrdState.blockAt, ThrdState.setThread, ht]
  | thread j => simp [ThrdState.blockAt, ThrdState.setThread]
  | trampoline j => simp [ThrdState.blockAt, ThrdState.setThread]
  | handle a => simp [ThrdState.blockAt, ThrdState.setThread]

/-- Moving a caller changes which kernel object is its. -/
theorem kernelAt_setCaller (i : Nat) (pc : CallerPc) :
    (s.setCaller i pc).kernelAt = Function.update s.kernelAt (.caller i) pc.kernel := by
  funext p
  cases p with
  | caller j => by_cases hj : j = i <;> simp [ThrdState.kernelAt, ThrdState.setCaller, hj]
  | handle a => simp [ThrdState.kernelAt, ThrdState.setCaller]
  | abandoned tid => rw [Function.update_of_ne (by nofun)]; rfl

/-- Giving a handle to a holder, or taking it, changes whose the kernel object is. -/
theorem kernelAt_held (a : Nat) (x : Option Nat) :
    ({ s with held := Function.update s.held a x } : ThrdState).kernelAt =
      Function.update s.kernelAt (.handle a) (x.map fun tid => (tid, ())) := by
  funext p
  cases p with
  | handle c =>
    by_cases hc : c = a
    · subst hc
      simp [ThrdState.kernelAt]
    · simp [ThrdState.kernelAt, hc]
  | caller j => simp [ThrdState.kernelAt]
  | abandoned tid => rw [Function.update_of_ne (by nofun)]; rfl

/-- An abandoned kernel object is nobody's. -/
theorem kernelAt_abandon (tid : Nat) :
    (s.abandon tid).kernelAt = Function.update s.kernelAt (.abandoned tid) (some (tid, ())) := by
  funext p
  cases p with
  | abandoned tid' =>
    by_cases ht : tid' = tid
    · subst ht
      simp [ThrdState.kernelAt, ThrdState.abandon]
    · rw [Function.update_of_ne (by simpa using ht)]
      simp only [ThrdState.kernelAt, ThrdState.abandon, Function.update_of_ne ht]
  | caller j => simp [ThrdState.kernelAt, ThrdState.abandon]
  | handle a => simp [ThrdState.kernelAt, ThrdState.abandon]

end

/-- A block that is allocated is freed. -/
theorem ThrdState.free_of_live {s : ThrdState} {a : Nat} {b : Block} (h : s.heap a = some b) :
    s.free a = { s with heap := Function.update s.heap a none } := by
  unfold free
  rw [h]

/-- A block that is allocated is stored to. -/
theorem ThrdState.store_of_live {s : ThrdState} {a : Nat} {b : Block} (h : s.heap a = some b) (b' : Block) :
    s.store a b' = { s with heap := Function.update s.heap a (some b') } := by
  unfold store
  rw [h]

/-- A step that starts no thread and moves none keeps the history, if a join it ends is of a thread that has returned. -/
theorem ThrdHistory.of_caller {s t : ThrdState} (h : ThrdHistory s) (hthreads : t.threads = s.threads)
    (hspawned : t.spawned = s.spawned) (hcalls : t.calls = s.calls)
    (hopened : ∀ tid, s.opened tid = none → t.opened tid = none)
    (hreturned : ∀ i tid, (i, .joined tid) ∈ t.returned → (i, .joined tid) ∈ s.returned ∨ s.threads tid = .done) :
    ThrdHistory t where
  absent tid := by rw [hthreads, hspawned]; exact h.absent tid
  opened tid := by rw [hthreads]; exact fun ht => hopened tid (h.opened tid ht)
  job tid job := by rw [hthreads, hspawned]; exact h.job tid job
  calls tid := by rw [ThrdState.callsOf, hcalls, hthreads, hspawned]; exact h.calls tid
  joined i tid hi := by
    rw [hthreads]
    exact (hreturned i tid hi).elim (h.joined i tid) id

/-- Giving up a thread leaves the heap. -/
theorem thrdGiveUp_heap (platform : Platform) (s : ThrdState) (kind : Release) (tid : Nat) (ok : Bool) :
    (thrdGiveUp platform s kind tid ok).heap = s.heap := by
  unfold thrdGiveUp
  split
  · rfl
  · split <;> rfl

/-- And the threads. -/
theorem thrdGiveUp_threads (platform : Platform) (s : ThrdState) (kind : Release) (tid : Nat) (ok : Bool) :
    (thrdGiveUp platform s kind tid ok).threads = s.threads := by
  unfold thrdGiveUp
  split
  · rfl
  · split <;> rfl

/-- What a call returns is history. -/
theorem ThrdInv.ret {s : ThrdState} {i : Nat} (h : ThrdInv (s.setCaller i .idle)) {r : ThrdReply}
    (hr : ∀ tid, r = .joined tid → s.threads tid = .done) : ThrdInv (s.reply i r) where
  fault := h.fault
  blocks := h.blocks
  kernel := h.kernel
  history := h.history.of_caller rfl rfl rfl (fun _ ht => ht) fun j tid hj => by
    rcases List.mem_append.mp hj with hj | hj
    · exact .inl hj
    · obtain ⟨-, hr'⟩ := Prod.mk.inj (List.mem_singleton.mp hj)
      exact .inr (hr tid hr'.symm)

/-- A call that fails keeps the invariant, as one that is over does. -/
theorem ThrdInv.fail {s : ThrdState} {i : Nat} (h : ThrdInv (s.setCaller i .idle)) (code : CprResult) (message : String) :
    ThrdInv (s.fail i code message) := h.ret (by rintro tid ⟨⟩)

namespace ThrdInv

variable {s : ThrdState} (h : ThrdInv s)

include h

/-- A caller moves on, and the memory with it. -/
theorem setCaller {heap : Nat → Option Block} {i : Nat} {pc : CallerPc}
    (hblocks : Owned heap (Function.update (Function.update s.blockAt (.thread i) pc.threadBlock) (.trampoline i) pc.trampolineBlock))
    (hkernel : (s.callers i).kernel = pc.kernel) : ThrdInv ({ s with heap := heap }.setCaller i pc) where
  fault := h.fault
  blocks := (blockAt_setCaller { s with heap := heap } i pc).symm ▸ hblocks
  kernel := by
    have hown : Function.update s.kernelAt (.caller i) pc.kernel = s.kernelAt := Owned.update_same hkernel
    exact (kernelAt_setCaller { s with heap := heap } i pc).symm ▸ hown.symm ▸ h.kernel
  history := h.history.of_caller rfl rfl rfl (fun _ ht => ht) fun _ _ hj => .inl hj

/-- A caller that has nothing moves on. -/
theorem setCaller_idle {i : Nat} {pc : CallerPc} (hthread : (s.callers i).threadBlock = none)
    (htrampoline : (s.callers i).trampolineBlock = none) (hkernel : (s.callers i).kernel = none)
    (hpc : pc.threadBlock = none ∧ pc.trampolineBlock = none ∧ pc.kernel = none) : ThrdInv (s.setCaller i pc) := by
  obtain ⟨h1, h2, h3⟩ := hpc
  have hown : Function.update s.blockAt (.thread i) none = s.blockAt := Owned.update_same hthread
  have hown' : Function.update s.blockAt (.trampoline i) none = s.blockAt := Owned.update_same htrampoline
  refine h.setCaller ?_ (hkernel.trans h3.symm)
  rw [h1, h2, hown, hown']
  exact h.blocks

/-- A handle that a call has is not one that the program holds. -/
theorem held_of_thread {i a : Nat} {b : Block} (hthread : s.blockAt (.thread i) = some (a, b)) : s.held a = none := by
  cases ha : s.held a with
  | none => rfl
  | some tid =>
    have hhandle : s.blockAt (.handle a) = some (a, .thread (some tid)) := by
      rw [ThrdState.blockAt, ha]
      rfl
    exact absurd (h.blocks.unique _ _ _ _ _ hthread hhandle) (by nofun)

/-- The system has started the thread. -/
theorem spawn {i tid thread trampoline : Nat} {job : Job} (hpc : s.callers i = .spawning job thread trampoline)
    (habsent : s.threads tid = .absent) :
    ThrdInv { { s with heap := Function.update s.heap thread (some (.thread (some tid))) }.reply i (.created thread) with
      opened := Function.update s.opened tid (some ())
      threads := Function.update s.threads tid (.entered trampoline)
      held := Function.update s.held thread (some tid)
      spawned := Function.update s.spawned tid (some job) } where
  fault := h.fault
  blocks := by
    have hthread : s.blockAt (.thread i) = some (thread, .thread none) := congrArg CallerPc.threadBlock hpc
    have htrampoline : s.blockAt (.trampoline i) = some (trampoline, .trampoline job) := congrArg CallerPc.trampolineBlock hpc
    have hhandle : s.blockAt (.handle thread) = none := by
      rw [ThrdState.blockAt, h.held_of_thread hthread]
      rfl
    have hstart : s.blockAt (.start tid) = none := by
      rw [ThrdState.blockAt, habsent]
      rfl
    have hstore := h.blocks.store hthread (.thread (some tid))
    have hmove := hstore.move (q := .handle thread) (Function.update_self ..) (by
      rw [Function.update_of_ne (by nofun)]
      exact hhandle)
    have hmove' := hmove.move (p := .trampoline i) (q := .start tid) (by
      rw [Function.update_of_ne (by nofun), Function.update_of_ne (by nofun), Function.update_of_ne (by nofun)]
      exact htrampoline) (by
      rw [Function.update_of_ne (by nofun), Function.update_of_ne (by nofun), Function.update_of_ne (by nofun)]
      exact hstart)
    refine hmove'.of_eq ?_
    funext p
    cases p with
    | thread j =>
      by_cases hj : j = i
      · subst hj
        simp [ThrdState.blockAt, ThrdState.reply, ThrdState.setCaller, CallerPc.threadBlock]
      · simp [ThrdState.blockAt, ThrdState.reply, ThrdState.setCaller, hj]
    | trampoline j =>
      by_cases hj : j = i
      · subst hj
        simp [ThrdState.blockAt, ThrdState.reply, ThrdState.setCaller, CallerPc.trampolineBlock]
      · simp [ThrdState.blockAt, ThrdState.reply, ThrdState.setCaller, hj]
    | handle a =>
      by_cases ha : a = thread
      · subst ha
        simp [ThrdState.blockAt]
      · simp [ThrdState.blockAt, ha]
    | start tid' =>
      by_cases ht : tid' = tid
      · subst ht
        simp [ThrdState.blockAt, ThreadPc.pointer]
      · simp [ThrdState.blockAt, ht]
  kernel := by
    have hthread : s.blockAt (.thread i) = some (thread, .thread none) := congrArg CallerPc.threadBlock hpc
    have hhandle : s.kernelAt (.handle thread) = none := by
      rw [ThrdState.kernelAt, h.held_of_thread hthread]
      rfl
    refine (h.kernel.acquire () (h.history.opened tid habsent) hhandle).of_eq ?_
    funext p
    cases p with
    | caller j =>
      by_cases hj : j = i
      · subst hj
        simp [ThrdState.kernelAt, ThrdState.reply, ThrdState.setCaller, hpc, CallerPc.kernel]
      · simp [ThrdState.kernelAt, ThrdState.reply, ThrdState.setCaller, hj]
    | handle a =>
      by_cases ha : a = thread
      · subst ha
        simp [ThrdState.kernelAt]
      · simp [ThrdState.kernelAt, ha]
    | abandoned tid' =>
      rw [Function.update_of_ne (by nofun)]
      rfl
  history := {
    absent := fun tid' => by
      by_cases ht : tid' = tid
      · subst ht
        simp
      · simp only [Function.update_of_ne ht]
        exact h.history.absent tid'
    opened := fun tid' => by
      by_cases ht : tid' = tid
      · subst ht
        simp
      · simp only [Function.update_of_ne ht]
        exact h.history.opened tid'
    job := fun tid' job' => by
      by_cases ht : tid' = tid
      · subst ht
        simp [ThreadPc.job]
      · simp only [Function.update_of_ne ht]
        exact h.history.job tid' job'
    calls := fun tid' => by
      have hcalls := h.history.calls tid'
      by_cases ht : tid' = tid
      · subst ht
        rw [habsent] at hcalls
        simp only [Function.update_self]
        exact hcalls
      · simp only [Function.update_of_ne ht]
        exact hcalls
    joined := fun j tid' hj => by
      rcases List.mem_append.mp hj with hj | hj
      · have hdone := h.history.joined j tid' hj
        have ht : tid' ≠ tid := by
          rintro rfl
          rw [habsent] at hdone
          cases hdone
        simp only [Function.update_of_ne ht]
        exact hdone
      · cases List.mem_singleton.mp hj }

/-- A step of `cpr_thrd_create` keeps the invariant. -/
theorem createNext {platform : Platform} {t : ThrdState} {i : Nat} {e : CreateEvent} (hnext : thrdCreateNext platform s i e = some t) :
    ThrdInv t := by
  cases e with
  | call fn arg =>
    simp only [thrdCreateNext] at hnext
    split at hnext
    · rename_i hpc
      have hmoves : ∀ pc : CallerPc, pc.threadBlock = none ∧ pc.trampolineBlock = none ∧ pc.kernel = none →
          ThrdInv (s.setCaller i pc) := fun pc =>
        h.setCaller_idle (congrArg CallerPc.threadBlock hpc) (congrArg CallerPc.trampolineBlock hpc) (congrArg CallerPc.kernel hpc)
      cases fn with
      | none =>
        cases hnext
        exact (hmoves .idle ⟨rfl, rfl, rfl⟩).fail _ _
      | some fn =>
        cases hnext
        exact hmoves _ ⟨rfl, rfl, rfl⟩
    · cases hnext
  | mallocThread a =>
    simp only [thrdCreateNext] at hnext
    split at hnext
    · rename_i job hpc
      have hthread : s.blockAt (.thread i) = none := congrArg CallerPc.threadBlock hpc
      have htrampoline : s.blockAt (.trampoline i) = none := congrArg CallerPc.trampolineBlock hpc
      have hkernel : (s.callers i).kernel = none := congrArg CallerPc.kernel hpc
      cases a with
      | none =>
        cases hnext
        exact ThrdInv.fail (h.setCaller_idle hthread htrampoline hkernel ⟨rfl, rfl, rfl⟩) _ _
      | some a =>
        dsimp only at hnext
        split at hnext
        · rename_i ha
          cases hnext
          have hown := h.blocks.acquire (.thread none) ha hthread
          refine h.setCaller ?_ hkernel
          rw [Owned.update_same (p := BlockPlace.trampoline i)]
          · exact hown
          · rw [Function.update_of_ne (by nofun)]
            exact htrampoline
        · cases hnext
    · cases hnext
  | mallocTrampoline a =>
    simp only [thrdCreateNext] at hnext
    split at hnext
    · rename_i job thread hpc
      have hthread : s.blockAt (.thread i) = some (thread, .thread none) := congrArg CallerPc.threadBlock hpc
      have htrampoline : s.blockAt (.trampoline i) = none := congrArg CallerPc.trampolineBlock hpc
      have hkernel : (s.callers i).kernel = none := congrArg CallerPc.kernel hpc
      cases a with
      | none =>
        cases hnext
        have hown := h.blocks.release hthread
        rw [ThrdState.free_of_live (h.blocks.holds _ _ _ hthread)]
        refine ThrdInv.fail (h.setCaller ?_ hkernel) _ _
        rw [Owned.update_same (p := BlockPlace.trampoline i)]
        · exact hown
        · rw [Function.update_of_ne (by nofun)]
          exact htrampoline
      | some a =>
        dsimp only at hnext
        split at hnext
        · rename_i ha
          cases hnext
          have hown := h.blocks.acquire (.trampoline job) ha htrampoline
          have hown' : Function.update s.blockAt (.thread i) (some (thread, .thread none)) = s.blockAt := Owned.update_same hthread
          refine h.setCaller ?_ hkernel
          exact hown'.symm ▸ hown
        · cases hnext
    · cases hnext
  | spawn tid =>
    simp only [thrdCreateNext] at hnext
    split at hnext
    · rename_i job thread trampoline hpc
      have hthread : s.blockAt (.thread i) = some (thread, .thread none) := congrArg CallerPc.threadBlock hpc
      have htrampoline : s.blockAt (.trampoline i) = some (trampoline, .trampoline job) := congrArg CallerPc.trampolineBlock hpc
      have hkernel : (s.callers i).kernel = none := congrArg CallerPc.kernel hpc
      cases tid with
      | none =>
        cases hnext
        have hown := h.blocks.release htrampoline
        have hthread' : Function.update s.blockAt (.trampoline i) none (.thread i) = some (thread, .thread none) := by
          rw [Function.update_of_ne (by nofun)]
          exact hthread
        rw [ThrdState.free_of_live (h.blocks.holds _ _ _ htrampoline), ThrdState.free_of_live (hown.holds _ _ _ hthread')]
        refine ThrdInv.fail (h.setCaller ?_ hkernel) _ _
        exact Function.update_comm (BlockPlace.noConfusion : BlockPlace.trampoline i ≠ .thread i) _ _ s.blockAt ▸ hown.release hthread'
      | some tid =>
        dsimp only at hnext
        split at hnext
        · rename_i habsent
          cases hnext
          rw [ThrdState.store_of_live (h.blocks.holds _ _ _ hthread)]
          exact h.spawn hpc habsent
        · cases hnext
    · cases hnext

/-- What a handle that the program holds refers to can be read. -/
theorem handleOf_held {a tid : Nat} (hheld : s.held a = some tid) : s.handleOf a = some tid := by
  have hhandle : s.blockAt (.handle a) = some (a, .thread (some tid)) := by
    rw [ThrdState.blockAt, hheld]
    rfl
  rw [ThrdState.handleOf, h.blocks.holds _ _ _ hhandle]

/-- The program gives a handle to `cpr_thrd_join` or `cpr_thrd_detach`. -/
theorem take {kind : Release} {i a tid : Nat} (hpc : s.callers i = .idle) (hheld : s.held a = some tid) :
    ThrdInv (({ s with held := Function.update s.held a none } : ThrdState).setCaller i (.releasing kind a tid)) where
  fault := h.fault
  blocks := by
    have hhandle : s.blockAt (.handle a) = some (a, .thread (some tid)) := by
      rw [ThrdState.blockAt, hheld]
      rfl
    have hthread : s.blockAt (.thread i) = none := congrArg CallerPc.threadBlock hpc
    have htrampoline : s.blockAt (.trampoline i) = none := congrArg CallerPc.trampolineBlock hpc
    refine (h.blocks.move hhandle hthread).of_eq ?_
    rw [blockAt_setCaller, blockAt_held]
    refine Owned.update_same ?_
    rw [Function.update_of_ne BlockPlace.noConfusion, Function.update_of_ne BlockPlace.noConfusion]
    exact htrampoline
  kernel := by
    have hhandle : s.kernelAt (.handle a) = some (tid, ()) := by
      rw [ThrdState.kernelAt, hheld]
      rfl
    have hkernel : s.kernelAt (.caller i) = none := congrArg CallerPc.kernel hpc
    refine (h.kernel.move hhandle hkernel).of_eq ?_
    rw [kernelAt_setCaller, kernelAt_held]
    rfl
  history := h.history.of_caller rfl rfl rfl (fun _ ht => ht) fun _ _ hj => .inl hj

/-- The memory of a call of `cpr_thrd_join` or `cpr_thrd_detach` that ends. -/
theorem blocks_end {kind : Release} {i a tid : Nat} (hpc : s.callers i = .releasing kind a tid) :
    Owned (Function.update s.heap a none) (s.setCaller i .idle).blockAt := by
  have hthread : s.blockAt (.thread i) = some (a, .thread (some tid)) := congrArg CallerPc.threadBlock hpc
  have htrampoline : s.blockAt (.trampoline i) = none := congrArg CallerPc.trampolineBlock hpc
  refine (h.blocks.release hthread).of_eq ?_
  rw [blockAt_setCaller]
  refine Owned.update_same ?_
  rw [Function.update_of_ne BlockPlace.noConfusion]
  exact htrampoline

/-- The kernel object is closed, or the system keeps it. -/
theorem giveUp (platform : Platform) {kind : Release} {i a tid : Nat} (ok : Bool) (hpc : s.callers i = .releasing kind a tid) :
    ThrdInv (({ thrdGiveUp platform s kind tid ok with heap := Function.update s.heap a none } : ThrdState).setCaller i .idle) := by
  have hkernel : s.kernelAt (.caller i) = some (tid, ()) := congrArg CallerPc.kernel hpc
  have hclose : ThrdInv (({ s.close tid with heap := Function.update s.heap a none } : ThrdState).setCaller i .idle) := {
    fault := h.fault
    blocks := h.blocks_end hpc
    kernel := by
      rw [kernelAt_setCaller]
      exact h.kernel.release hkernel
    history := h.history.of_caller rfl rfl rfl (fun tid' ht => by
      by_cases hne : tid' = tid
      · rw [hne]
        exact Function.update_self ..
      · exact (Function.update_of_ne hne ..).trans ht) fun _ _ hj => .inl hj }
  have habandon : ThrdInv (({ s.abandon tid with heap := Function.update s.heap a none } : ThrdState).setCaller i .idle) := {
    fault := h.fault
    blocks := h.blocks_end hpc
    kernel := by
      have hgone : s.kernelAt (.abandoned tid) = none := by
        cases hab : s.abandoned tid with
        | false =>
          rw [ThrdState.kernelAt, hab]
          rfl
        | true =>
          have howns : s.kernelAt (.abandoned tid) = some (tid, ()) := by
            rw [ThrdState.kernelAt, hab]
            rfl
          exact absurd (h.kernel.unique _ _ _ _ _ hkernel howns) nofun
      refine (h.kernel.move hkernel hgone).of_eq ?_
      have hab := kernelAt_abandon s tid
      rw [kernelAt_setCaller, Function.update_comm KernelPlace.noConfusion, ← hab]
      rfl
    history := h.history.of_caller rfl rfl rfl (fun _ ht => ht) fun _ _ hj => .inl hj }
  cases kind with
  | join =>
    cases platform with
    | windows => exact hclose
    | posix =>
      cases ok with
      | true => exact hclose
      | false => exact habandon
  | detach =>
    cases ok with
    | true => cases platform <;> exact hclose
    | false => cases platform <;> exact habandon

/-- A step of `cpr_thrd_join` or `cpr_thrd_detach` keeps the invariant. -/
theorem releaseNext {platform : Platform} {kind : Release} {t : ThrdState} {i : Nat} {e : ReleaseEvent}
    (hnext : thrdReleaseNext platform kind s i e = some t) : ThrdInv t := by
  cases e with
  | call thread =>
    simp only [thrdReleaseNext] at hnext
    split at hnext
    · rename_i hpc
      have hthread : s.blockAt (.thread i) = none := congrArg CallerPc.threadBlock hpc
      have htrampoline : s.blockAt (.trampoline i) = none := congrArg CallerPc.trampolineBlock hpc
      have hkernel : s.kernelAt (.caller i) = none := congrArg CallerPc.kernel hpc
      cases thread with
      | none =>
        cases hnext
        exact ThrdInv.fail (h.setCaller_idle hthread htrampoline hkernel ⟨rfl, rfl, rfl⟩) _ _
      | some thread =>
        dsimp only at hnext
        cases hheld : s.held thread with
        | none =>
          rw [hheld, if_pos rfl] at hnext
          cases hnext
        | some tid =>
          rw [hheld, if_neg nofun, h.handleOf_held hheld] at hnext
          cases hnext
          exact h.take hpc hheld
    · cases hnext
  | answer ok =>
    simp only [thrdReleaseNext] at hnext
    split at hnext
    · rename_i kind' thread tid hpc
      split at hnext
      · cases hnext
      rename_i hkind
      obtain rfl : kind' = kind := Decidable.not_not.mp hkind
      split at hnext
      · rename_i hopened
        have hkernel : s.kernelAt (.caller i) = some (tid, ()) := congrArg CallerPc.kernel hpc
        exact absurd ((h.kernel.holds _ _ _ hkernel).symm.trans hopened) nofun
      split at hnext
      · cases hnext
      rename_i hwaits
      cases hnext
      have hlive : (thrdGiveUp platform s kind' tid ok).heap thread = some (.thread (some tid)) := by
        have hthread : s.blockAt (.thread i) = some (thread, .thread (some tid)) := congrArg CallerPc.threadBlock hpc
        rw [thrdGiveUp_heap]
        exact h.blocks.holds _ _ _ hthread
      have hgone := h.giveUp platform ok hpc
      rw [ThrdState.free_of_live hlive, thrdGiveUp_heap]
      cases ok with
      | false => exact hgone.fail _ _
      | true =>
        refine hgone.ret fun tid' hr => ?_
        show (thrdGiveUp platform s kind' tid true).threads tid' = .done
        rw [thrdGiveUp_threads]
        cases kind' with
        | detach => cases hr
        | join =>
          cases hr
          exact Decidable.byContradiction fun hne => hwaits ⟨rfl, rfl, hne⟩
    · cases hnext

/-- A step of `cpr_thrd_get_id` keeps the invariant. -/
theorem getIdNext {t : ThrdState} {i : Nat} {thread : Option Nat} (hnext : thrdGetIdNext s i thread = some t) : ThrdInv t := by
  unfold thrdGetIdNext at hnext
  split at hnext
  · rename_i hpc
    have hidle : ThrdInv (s.setCaller i .idle) :=
      h.setCaller_idle (congrArg CallerPc.threadBlock hpc) (congrArg CallerPc.trampolineBlock hpc) (congrArg CallerPc.kernel hpc)
        ⟨rfl, rfl, rfl⟩
    cases thread with
    | none =>
      cases hnext
      exact hidle.ret (by rintro tid ⟨⟩)
    | some thread =>
      dsimp only at hnext
      cases hheld : s.held thread with
      | none =>
        rw [hheld, if_pos rfl] at hnext
        cases hnext
      | some tid =>
        rw [hheld, if_neg nofun, h.handleOf_held hheld] at hnext
        cases hnext
        exact hidle.ret (by rintro tid ⟨⟩)
  · cases hnext

/-- A thread moves on, and the memory and the calls with it. -/
theorem setThread {heap : Nat → Option Block} {tid : Nat} {job : Job} {pc : ThreadPc} {calls : List (Nat × Job)}
    (hspawned : s.spawned tid = some job) (hdone : s.threads tid ≠ .done)
    (hblocks : Owned heap (Function.update s.blockAt (.start tid) (pc.pointer.map fun a => (a, .trampoline job))))
    (habsent : pc ≠ .absent) (hjob : ∀ job', pc.job = some job' → job' = job)
    (hother : ∀ tid' ≠ tid, ({ s with calls := calls } : ThrdState).callsOf tid' = s.callsOf tid')
    (hcalls : ({ s with calls := calls } : ThrdState).callsOf tid = if pc.called then [job] else []) :
    ThrdInv (({ s with heap := heap, calls := calls } : ThrdState).setThread tid pc) where
  fault := h.fault
  blocks := by
    refine hblocks.of_eq ?_
    rw [blockAt_setThread, show ThrdState.spawned _ tid = some job from hspawned]
    cases pc.pointer <;> rfl
  kernel := h.kernel
  history := {
    absent := fun tid' => by
      by_cases ht : tid' = tid
      · subst ht
        simp [ThrdState.setThread, habsent, hspawned]
      · simp only [ThrdState.setThread, Function.update_of_ne ht]
        exact h.history.absent tid'
    opened := fun tid' => by
      by_cases ht : tid' = tid
      · subst ht
        simp [ThrdState.setThread, habsent]
      · simp only [ThrdState.setThread, Function.update_of_ne ht]
        exact h.history.opened tid'
    job := fun tid' job' => by
      by_cases ht : tid' = tid
      · subst ht
        simp only [ThrdState.setThread, Function.update_self]
        intro hj
        rw [hjob job' hj]
        exact hspawned
      · simp only [ThrdState.setThread, Function.update_of_ne ht]
        exact h.history.job tid' job'
    calls := fun tid' => by
      by_cases ht : tid' = tid
      · subst ht
        simp only [ThrdState.setThread, Function.update_self, hspawned]
        exact hcalls
      · simp only [ThrdState.setThread, Function.update_of_ne ht]
        exact (hother tid' ht).trans (h.history.calls tid')
    joined := fun j tid' hj => by
      have hj' := h.history.joined j tid' hj
      have ht : tid' ≠ tid := by
        rintro rfl
        exact hdone hj'
      simp only [ThrdState.setThread, Function.update_of_ne ht]
      exact hj' }

/-- A thread that the system has started was started for some job. -/
theorem spawned_of_not_absent (tid : Nat) (hne : s.threads tid ≠ .absent) : ∃ job, s.spawned tid = some job :=
  Option.ne_none_iff_exists'.mp fun hnone => hne ((h.history.absent tid).mpr hnone)

/-- A step of `cpr__thread_trampoline` keeps the invariant. -/
theorem trampolineNext {t : ThrdState} {tid : Nat} {e : TrampolineEvent} (hnext : Thread.trampolineNext s tid e = some t) :
    ThrdInv t := by
  have hcalls := h.history.calls tid
  cases e with
  | copy =>
    simp only [Thread.trampolineNext] at hnext
    split at hnext
    · rename_i trampoline hpc
      obtain ⟨job, hspawned⟩ := h.spawned_of_not_absent tid (by rw [hpc]; nofun)
      have hstart : s.blockAt (.start tid) = some (trampoline, .trampoline job) := by
        rw [ThrdState.blockAt, hpc, hspawned]
        rfl
      rw [h.blocks.holds _ _ _ hstart] at hnext
      cases hnext
      rw [hpc] at hcalls
      have hblocks : Owned s.heap (Function.update s.blockAt (.start tid) (some (trampoline, .trampoline job))) :=
        h.blocks.of_eq (Owned.update_same hstart)
      refine h.setThread hspawned (by rw [hpc]; nofun) hblocks nofun ?_ (fun _ _ => rfl) hcalls
      rintro job' ⟨⟩
      rfl
    · cases hnext
  | free =>
    simp only [Thread.trampolineNext] at hnext
    split at hnext
    · rename_i trampoline job hpc
      have hspawned : s.spawned tid = some job := h.history.job tid job (by rw [hpc]; rfl)
      have hstart : s.blockAt (.start tid) = some (trampoline, .trampoline job) := by
        rw [ThrdState.blockAt, hpc, hspawned]
        rfl
      rw [ThrdState.free_of_live (h.blocks.holds _ _ _ hstart)] at hnext
      cases hnext
      rw [hpc] at hcalls
      refine h.setThread hspawned (by rw [hpc]; nofun) (h.blocks.release hstart) nofun ?_ (fun _ _ => rfl) hcalls
      rintro job' ⟨⟩
      rfl
    · cases hnext
  | call =>
    simp only [Thread.trampolineNext] at hnext
    split at hnext
    · rename_i job hpc
      have hspawned : s.spawned tid = some job := h.history.job tid job (by rw [hpc]; rfl)
      have hstart : s.blockAt (.start tid) = none := by
        rw [ThrdState.blockAt, hpc]
        rfl
      cases hnext
      rw [hpc] at hcalls
      have hblocks : Owned s.heap (Function.update s.blockAt (.start tid) none) := h.blocks.of_eq (Owned.update_same hstart)
      show ThrdInv (({ s with calls := s.calls ++ [(tid, job)] } : ThrdState).setThread tid (.running job))
      refine h.setThread hspawned (by rw [hpc]; nofun) hblocks nofun ?_ ?_ ?_
      · rintro job' ⟨⟩
        rfl
      · intro tid' ht
        simp [ThrdState.callsOf, List.filter_append, Ne.symm ht]
      · rw [ThrdState.callsOf] at hcalls ⊢
        rw [List.filter_append, List.map_append, hcalls]
        simp [ThreadPc.called]
    · cases hnext
  | ret =>
    simp only [Thread.trampolineNext] at hnext
    split at hnext
    · rename_i job hpc
      have hspawned : s.spawned tid = some job := h.history.job tid job (by rw [hpc]; rfl)
      have hstart : s.blockAt (.start tid) = none := by
        rw [ThrdState.blockAt, hpc]
        rfl
      cases hnext
      rw [hpc, hspawned] at hcalls
      have hblocks : Owned s.heap (Function.update s.blockAt (.start tid) none) := h.blocks.of_eq (Owned.update_same hstart)
      exact h.setThread hspawned (by rw [hpc]; nofun) hblocks nofun nofun (fun _ _ => rfl) hcalls
    · cases hnext

end ThrdInv

end Copper.Thread
