import Copper.Atomic.Basic
import Copper.RingBuf.Basic

/-!
# What the atomics of a ring buffer record

Where atomics are built on a mutex, the calls of `sync.c` record an error if the system's call fails. Initialising an atomic
gives up then; its load and its store pay no attention. On Windows none of these calls fails.
-/

namespace Copper

/-- A call on a mutex that is not NULL; `fails` is whether the system's call does. -/
def mutexCall (message : String) (fails : Bool) : Outcome Unit Bool :=
  if fails then .fail () false .errSync message else { result := true, state := () }

/-- `cpr_mutex_init`. -/
def mutexInit : Bool → Outcome Unit Bool := mutexCall "failed to initialize mutex"

/-- `cpr_mutex_lock`. -/
def mutexLock : Bool → Outcome Unit Bool := mutexCall "failed to lock mutex"

/-- `cpr_mutex_unlock`. -/
def mutexUnlock : Bool → Outcome Unit Bool := mutexCall "failed to unlock mutex"

/-- Whether the system's calls fail for a load or a store. -/
structure MutexFailures where
  lock : Bool := false
  unlock : Bool := false
  deriving DecidableEq, Repr

/-- What initialising an atomic records. -/
def initError (b : AtomicBackend) (initFails : Bool) : Option CprError :=
  match b with
  | .mutex => (mutexInit initFails).error
  | .gcc | .msvc => none

/-- What a load or a store of an atomic records last. -/
def accessError (b : AtomicBackend) (fails : MutexFailures) : Option CprError :=
  match b with
  | .mutex => (mutexUnlock fails.unlock).error.or (mutexLock fails.lock).error
  | .gcc | .msvc => none

/-- What a mutex call records is `CPR_ERR_SYNC`. -/
theorem mutexCall_code {message : String} {fails : Bool} {e : CprError} (h : (mutexCall message fails).error = some e) :
    e.code = .errSync := by
  cases fails with
  | false => cases h
  | true =>
    cases h
    rfl

/-- What the initialisation of an atomic records is `CPR_ERR_SYNC`. -/
theorem initError_code {b : AtomicBackend} {initFails : Bool} {e : CprError} (h : initError b initFails = some e) :
    e.code = .errSync := by
  cases b with
  | mutex => exact mutexCall_code h
  | gcc => cases h
  | msvc => cases h

/-- What an access to an atomic records is `CPR_ERR_SYNC`. -/
theorem accessError_code {b : AtomicBackend} {fails : MutexFailures} {e : CprError} (h : accessError b fails = some e) :
    e.code = .errSync := by
  cases b with
  | mutex =>
    rcases Option.or_eq_some_iff.mp h with h | ⟨-, h⟩
    · exact mutexCall_code h
    · exact mutexCall_code h
  | gcc => cases h
  | msvc => cases h

/-- `cpr_ringbuf_init`, on the atomics of a backend. -/
def ringbufInitOn (b : AtomicBackend) (rbNull : Bool) (buf : Option (Nat → UInt8)) (bufSize : BitVec 32)
    (headFails tailFails : Bool) : Outcome (Option RingBuffer) Bool :=
  ringbufInit rbNull buf bufSize (initError b headFails) (initError b tailFails)

/-- `cpr_ringbuf_write_all`, on the atomics of a backend: it loads the tail, and stores the head if it writes. -/
def ringbufWriteAllOn (b : AtomicBackend) (rb : Option RingBuffer) (data : DataArg) (tail head : MutexFailures) :
    Outcome (Option RingBuffer) Bool :=
  let o := ringbufWriteAll rb data
  { o with error := o.error.or ((if o.result then accessError b head else none).or (accessError b tail)) }

/-- `cpr_ringbuf_read_all`, on the atomics of a backend: it loads the head, and stores the tail if it reads. -/
def ringbufReadAllOn (b : AtomicBackend) (rb : Option RingBuffer) (out : OutArg) (head tail : MutexFailures) :
    Outcome (Option RingBuffer) (Bool × List UInt8) :=
  let o := ringbufReadAll rb out
  { o with error := o.error.or ((if o.result.1 then accessError b tail else none).or (accessError b head)) }

end Copper
