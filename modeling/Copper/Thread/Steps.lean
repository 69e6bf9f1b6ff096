import Copper.Fs.Path
import Copper.Foundation.Transition
import Mathlib.Logic.Function.Basic

/-!
# Threads

The life of a thread in `thread.c`: `cpr_thrd_create` allocates the handle and the trampoline and asks the system for a thread, the
thread copies the trampoline, frees it and calls the function, and the handle is given back by `cpr_thrd_join` or
`cpr_thrd_detach`. Any number of callers and of threads take the steps of their calls in any order; `malloc` may fail, and answers
with any address that is not in use, also one that has been freed. A read or a `free` of memory that is not allocated, and a use of
a kernel object that has been closed, is a fault.
-/

namespace Copper.Thread

open Fs (Platform)

/-- A function, and its argument. -/
structure Job where
  fn : Nat
  arg : Nat
  deriving DecidableEq, Repr

/-- What an allocated block holds: a `CprThread`, whose handle `cpr_thrd_create` has stored or not, or a `CprThreadTrampoline`. -/
inductive Block where
  | thread (handle : Option Nat)
  | trampoline (job : Job)
  deriving DecidableEq, Repr

/-- The two ways to give a handle back. -/
inductive Release where
  | join
  | detach
  deriving DecidableEq, Repr

/-- Where a caller is: between calls, before the two allocations of `cpr_thrd_create`, before the thread is started, or in
`cpr_thrd_join` or `cpr_thrd_detach` with the kernel object it has read from the handle. -/
inductive CallerPc where
  | idle
  | allocThread (job : Job)
  | allocTrampoline (job : Job) (thread : Nat)
  | spawning (job : Job) (thread trampoline : Nat)
  | releasing (kind : Release) (thread tid : Nat)
  deriving DecidableEq, Repr

/-- Where a thread is in `cpr__thread_trampoline`; `absent` is one that the system has not started. -/
inductive ThreadPc where
  | absent
  | entered (trampoline : Nat)
  | copied (trampoline : Nat) (job : Job)
  | freed (job : Job)
  | running (job : Job)
  | done
  deriving DecidableEq, Repr

/-- What a call returns. The thread that was joined is history. -/
inductive ThrdReply where
  | created (thread : Nat)
  | joined (tid : Nat)
  | detached
  | id (n : Nat)
  | failed (error : CprError)
  deriving DecidableEq, Repr

/-- The memory, the kernel objects that are open, the callers and the threads. `held` are the handles that the program has been given
and has not given back. Which thread each is of is history, as are the jobs that threads were started for, the kernel objects that
the system refused to give up, the functions called and what was returned. -/
structure ThrdState where
  heap : Nat → Option Block
  opened : Nat → Option Unit
  callers : Nat → CallerPc
  threads : Nat → ThreadPc
  held : Nat → Option Nat
  fault : Bool
  spawned : Nat → Option Job
  abandoned : Nat → Bool
  calls : List (Nat × Job)
  returned : List (Nat × ThrdReply)

namespace ThrdState

variable (s : ThrdState)

def start : ThrdState where
  heap := fun _ => none
  opened := fun _ => none
  callers := fun _ => .idle
  threads := fun _ => .absent
  held := fun _ => none
  fault := false
  spawned := fun _ => none
  abandoned := fun _ => false
  calls := []
  returned := []

def setCaller (i : Nat) (pc : CallerPc) : ThrdState := { s with callers := Function.update s.callers i pc }

def setThread (tid : Nat) (pc : ThreadPc) : ThrdState := { s with threads := Function.update s.threads tid pc }

/-- The end of a call. -/
def reply (i : Nat) (r : ThrdReply) : ThrdState := { s.setCaller i .idle with returned := s.returned ++ [(i, r)] }

/-- `cpr__set_error`, and the end of the call. -/
def fail (i : Nat) (code : CprResult) (message : String) : ThrdState := s.reply i (.failed ⟨code, message⟩)

def crash : ThrdState := { s with fault := true }

/-- A `malloc` that answers with the address `a`, and what is stored there at once. -/
def malloc (a : Nat) (b : Block) : ThrdState := { s with heap := Function.update s.heap a (some b) }

/-- `free`. -/
def free (a : Nat) : ThrdState :=
  match s.heap a with
  | none => s.crash
  | some _ => { s with heap := Function.update s.heap a none }

/-- A store to an allocated block. -/
def store (a : Nat) (b : Block) : ThrdState :=
  match s.heap a with
  | none => s.crash
  | some _ => { s with heap := Function.update s.heap a (some b) }

/-- `thread->handle`, if it can be read. -/
def handleOf (thread : Nat) : Option Nat :=
  match s.heap thread with
  | some (.thread handle) => handle
  | _ => none

/-- The kernel object is given up. -/
def close (tid : Nat) : ThrdState := { s with opened := Function.update s.opened tid none }

/-- The system refuses to give the kernel object up. -/
def abandon (tid : Nat) : ThrdState := { s with abandoned := Function.update s.abandoned tid true }

end ThrdState

/-- A step of `cpr_thrd_create`: the call, the two allocations, and the answer of the system, which starts a thread or not. -/
inductive CreateEvent where
  | call (fn : Option Nat) (arg : Nat)
  | mallocThread (a : Option Nat)
  | mallocTrampoline (a : Option Nat)
  | spawn (tid : Option Nat)
  deriving DecidableEq, Repr

/-- A step of `cpr_thrd_join` or `cpr_thrd_detach`: the call, and the answer of the system. -/
inductive ReleaseEvent where
  | call (thread : Option Nat)
  | answer (ok : Bool)
  deriving DecidableEq, Repr

inductive TrampolineEvent where
  | copy
  | free
  | call
  | ret
  deriving DecidableEq, Repr

inductive ThrdEvent where
  | create (i : Nat) (e : CreateEvent)
  | join (i : Nat) (e : ReleaseEvent)
  | detach (i : Nat) (e : ReleaseEvent)
  | getId (i : Nat) (thread : Option Nat)
  | thread (tid : Nat) (e : TrampolineEvent)
  deriving DecidableEq, Repr

/-- A step of `cpr_thrd_create`. The function that is NULL is none. -/
def thrdCreateNext (platform : Platform) (s : ThrdState) (i : Nat) : CreateEvent → Option ThrdState
  | .call fn arg =>
    match s.callers i with
    | .idle =>
      match fn with
      | none => some (s.fail i .errInvalid "fn is NULL")
      | some fn => some (s.setCaller i (.allocThread ⟨fn, arg⟩))
    | _ => none
  | .mallocThread a =>
    match s.callers i with
    | .allocThread job =>
      match a with
      | none => some (s.fail i .errOom "out of memory")
      | some a => if s.heap a = none then some ((s.malloc a (.thread none)).setCaller i (.allocTrampoline job a)) else none
    | _ => none
  | .mallocTrampoline a =>
    match s.callers i with
    | .allocTrampoline job thread =>
      match a with
      | none => some ((s.free thread).fail i .errOom "out of memory")
      | some a => if s.heap a = none then some ((s.malloc a (.trampoline job)).setCaller i (.spawning job thread a)) else none
    | _ => none
  | .spawn tid =>
    match s.callers i with
    | .spawning job thread trampoline =>
      match tid with
      | none =>
        let s := (s.free trampoline).free thread
        some (s.fail i .errSync (match platform with | .windows => "CreateThread failed" | .posix => "pthread_create failed"))
      | some tid =>
        if s.threads tid = .absent then
          let s := s.store thread (.thread (some tid))
          some { s.reply i (.created thread) with
            opened := Function.update s.opened tid (some ())
            threads := Function.update s.threads tid (.entered trampoline)
            held := Function.update s.held thread (some tid)
            spawned := Function.update s.spawned tid (some job) }
        else none
    | _ => none

/-- What the system's answer to `cpr_thrd_join` or `cpr_thrd_detach` does to the kernel object: `CloseHandle` closes it also after a
wait that failed. -/
def thrdGiveUp (platform : Platform) (s : ThrdState) (kind : Release) (tid : Nat) (ok : Bool) : ThrdState :=
  match kind, platform with
  | .join, .windows => s.close tid
  | _, _ => if ok then s.close tid else s.abandon tid

/-- The text of the error when the system refuses. -/
def releaseMessage : Platform → Release → String
  | .windows, .join => "WaitForSingleObject failed"
  | .windows, .detach => "CloseHandle failed"
  | .posix, .join => "pthread_join failed"
  | .posix, .detach => "pthread_detach failed"

/-- What a call returns when the system does not refuse. -/
def Release.reply (tid : Nat) : Release → ThrdReply
  | .join => .joined tid
  | .detach => .detached

/-- A step of `cpr_thrd_join` or `cpr_thrd_detach`. A caller passes NULL or a handle that the program holds, and the program then holds
it no more; a wait that succeeds does so when the thread has returned. -/
def thrdReleaseNext (platform : Platform) (kind : Release) (s : ThrdState) (i : Nat) : ReleaseEvent → Option ThrdState
  | .call thread =>
    match s.callers i with
    | .idle =>
      match thread with
      | none => some (s.fail i .errInvalid "thread is NULL")
      | some thread =>
        if s.held thread = none then none
        else
          match s.handleOf thread with
          | none => some s.crash
          | some tid =>
            some { s.setCaller i (.releasing kind thread tid) with held := Function.update s.held thread none }
    | _ => none
  | .answer ok =>
    match s.callers i with
    | .releasing kind' thread tid =>
      if kind' ≠ kind then none
      else if s.opened tid = none then some s.crash
      else if kind = .join ∧ ok = true ∧ s.threads tid ≠ .done then none
      else
        let s := (thrdGiveUp platform s kind tid ok).free thread
        some (if ok then s.reply i (kind.reply tid) else s.fail i .errSync (releaseMessage platform kind))
    | _ => none

/-- A step of `cpr_thrd_join`. -/
def thrdJoinNext (platform : Platform) : ThrdState → Nat → ReleaseEvent → Option ThrdState := thrdReleaseNext platform .join

/-- A step of `cpr_thrd_detach`. -/
def thrdDetachNext (platform : Platform) : ThrdState → Nat → ReleaseEvent → Option ThrdState := thrdReleaseNext platform .detach

/-- `cpr_thrd_get_id` of NULL or of a handle that the program holds. -/
def thrdGetIdNext (s : ThrdState) (i : Nat) (thread : Option Nat) : Option ThrdState :=
  match s.callers i with
  | .idle =>
    match thread with
    | none => some (s.reply i (.id 0))
    | some thread =>
      if s.held thread = none then none
      else
        match s.handleOf thread with
        | none => some s.crash
        | some tid => some (s.reply i (.id tid))
  | _ => none

/-- A step of `cpr__thread_trampoline`. -/
def trampolineNext (s : ThrdState) (tid : Nat) : TrampolineEvent → Option ThrdState
  | .copy =>
    match s.threads tid with
    | .entered trampoline =>
      match s.heap trampoline with
      | some (.trampoline job) => some (s.setThread tid (.copied trampoline job))
      | _ => some s.crash
    | _ => none
  | .free =>
    match s.threads tid with
    | .copied trampoline job => some ((s.free trampoline).setThread tid (.freed job))
    | _ => none
  | .call =>
    match s.threads tid with
    | .freed job => some { s.setThread tid (.running job) with calls := s.calls ++ [(tid, job)] }
    | _ => none
  | .ret =>
    match s.threads tid with
    | .running _ => some (s.setThread tid .done)
    | _ => none

/-- A step of the system. -/
def thrdNext (platform : Platform) (s : ThrdState) : ThrdEvent → Option ThrdState
  | .create i e => thrdCreateNext platform s i e
  | .join i e => thrdJoinNext platform s i e
  | .detach i e => thrdDetachNext platform s i e
  | .getId i thread => thrdGetIdNext s i thread
  | .thread tid e => trampolineNext s tid e

/-- Every interleaving of the calls of any number of callers and of the threads they create. -/
def thrds (platform : Platform) : Transition.System ThrdState ThrdEvent := .ofNext (fun s => s = .start) (thrdNext platform)

end Copper.Thread
