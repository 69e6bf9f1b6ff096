import Copper.Defs
import Copper.Foundation.Circular
import Copper.Foundation.Counter

/-!
# The ring buffer

`ringbuf.c`, function by function. The four counters are 32-bit words and wrap; `buf` is the memory at `rb->buf`, of which the
functions may touch the first `capacity` cells. A call that reads or writes is one definition with the mode it works in (as
much as possible, or all or nothing), and the functions of the API are that definition under their own names.
-/

namespace Copper

open Circular (memcpy memread)

/-- `CprRingBuffer`. -/
structure RingBuffer where
  buf : Nat → UInt8
  capacity : BitVec 32
  mask : BitVec 32
  head : BitVec 32
  tail : BitVec 32
  headCache : BitVec 32
  tailCache : BitVec 32

/-- `cpr_ringbuf_init`. The two atomics are initialised by calls that fail only where they are built on a mutex; `initHead` and
`initTail` are the errors they record, if they fail. -/
def ringbufInit (rbNull : Bool) (buf : Option (Nat → UInt8)) (bufSize : BitVec 32) (initHead initTail : Option CprError) :
    Outcome (Option RingBuffer) Bool :=
  match buf with
  | none => .fail none false .errInvalid "NULL argument"
  | some mem =>
    if rbNull then
      .fail none false .errInvalid "NULL argument"
    else if bufSize = 0 ∨ bufSize &&& (bufSize - 1) ≠ 0 then
      .fail none false .errInvalid "buf_size must be a nonzero power of two"
    else if initHead.isSome then
      { result := false, state := none, error := initHead }
    else if initTail.isSome then
      { result := false, state := none, error := initTail }
    else
      { result := true
        state := some {
          buf := mem, capacity := bufSize, mask := bufSize - 1, head := 0, tail := 0, headCache := 0, tailCache := 0 } }

/-! ## Wraparound-safe helpers -/

/-- `cpr__ringbuf_copy_in`: the first `n` bytes of `src` go to the cells from position `pos` on. -/
def ringbufCopyIn (rb : RingBuffer) (pos : BitVec 32) (src : List UInt8) (n : Nat) : RingBuffer :=
  let idx := (pos &&& rb.mask).toNat
  let untilWrap := rb.capacity.toNat - idx
  if n ≤ untilWrap then
    { rb with buf := memcpy rb.buf idx (src.take n) }
  else
    { rb with buf := memcpy (memcpy rb.buf idx (src.take untilWrap)) 0 ((src.drop untilWrap).take (n - untilWrap)) }

/-- `cpr__ringbuf_copy_out`: the `n` bytes from position `pos` on. -/
def ringbufCopyOut (rb : RingBuffer) (pos : BitVec 32) (n : Nat) : List UInt8 :=
  let idx := (pos &&& rb.mask).toNat
  let untilWrap := rb.capacity.toNat - idx
  if n ≤ untilWrap then
    memread rb.buf idx n
  else
    memread rb.buf idx untilWrap ++ memread rb.buf 0 (n - untilWrap)

/-! ## Producer and consumer -/

/-- How a call treats a request that is larger than what the buffer can take or give. -/
inductive Mode where
  /-- `cpr_ringbuf_write`, `cpr_ringbuf_read`: as much as possible. -/
  | upTo
  /-- `cpr_ringbuf_write_all`, `cpr_ringbuf_read_all`: all, or nothing. -/
  | all
  deriving DecidableEq, Repr

/-- How many bytes a call for `requested` bytes moves when `limit` are possible; `none` when it returns before it copies. -/
def Mode.count : Mode → Nat → Nat → Option Nat
  | .upTo, requested, limit =>
    let n := if requested < limit then requested else limit
    if n = 0 then none else some n
  | .all, requested, limit => if limit < requested then none else some requested

/-- `capacity - (head_cache - tail)`: what the producer may write, by the tail it has loaded. -/
def RingBuffer.freeSpace (rb : RingBuffer) (tail : BitVec 32) : Nat :=
  let used := rb.headCache - tail
  (rb.capacity - used).toNat

/-- `head - tail_cache`: what the consumer may read, by the head it has loaded. -/
def RingBuffer.available (rb : RingBuffer) (head : BitVec 32) : Nat :=
  let used := head - rb.tailCache
  used.toNat

/-- The producer's call after its check for NULL: how many bytes it wrote, `none` for the early return. -/
def ringbufPut (m : Mode) (rb : RingBuffer) (data : List UInt8) : RingBuffer × Option Nat :=
  match m.count data.length (rb.freeSpace rb.tail) with
  | none => (rb, none)
  | some n =>
    let rb := ringbufCopyIn rb rb.headCache data n
    let rb := { rb with headCache := rb.headCache + BitVec.ofNat 32 n }
    ({ rb with head := rb.headCache }, some n)

/-- The consumer's call after its check for NULL: the bytes it stored, `none` for the early return. -/
def ringbufGet (m : Mode) (rb : RingBuffer) (outSize : Nat) : RingBuffer × Option (List UInt8) :=
  match m.count outSize (rb.available rb.head) with
  | none => (rb, none)
  | some n =>
    let out := ringbufCopyOut rb rb.tailCache n
    let rb := { rb with tailCache := rb.tailCache + BitVec.ofNat 32 n }
    ({ rb with tail := rb.tailCache }, some out)

/-- `cpr_ringbuf_write`. -/
def ringbufWrite (rb : Option RingBuffer) (data : DataArg) : Outcome (Option RingBuffer) Nat :=
  match rb with
  | none => .fail none 0 .errInvalid "NULL argument"
  | some rb =>
    if data.missing then
      .fail (some rb) 0 .errInvalid "NULL argument"
    else
      let (rb', n) := ringbufPut .upTo rb data.toList
      { result := n.getD 0, state := some rb' }

/-- `cpr_ringbuf_write_all`. -/
def ringbufWriteAll (rb : Option RingBuffer) (data : DataArg) : Outcome (Option RingBuffer) Bool :=
  match rb with
  | none => .fail none false .errInvalid "NULL argument"
  | some rb =>
    if data.missing then
      .fail (some rb) false .errInvalid "NULL argument"
    else
      let (rb', n) := ringbufPut .all rb data.toList
      { result := n.isSome, state := some rb' }

/-- `cpr_ringbuf_read`: the count it returns, and the bytes it stored to `out`. -/
def ringbufRead (rb : Option RingBuffer) (out : OutArg) : Outcome (Option RingBuffer) (Nat × List UInt8) :=
  match rb with
  | none => .fail none (0, []) .errInvalid "NULL argument"
  | some rb =>
    if out.missing then
      .fail (some rb) (0, []) .errInvalid "NULL argument"
    else
      let (rb', bytes) := ringbufGet .upTo rb out.size
      { result := ((bytes.map List.length).getD 0, bytes.getD []), state := some rb' }

/-- `cpr_ringbuf_read_all`: whether it succeeded, and the bytes it stored to `out`. -/
def ringbufReadAll (rb : Option RingBuffer) (out : OutArg) : Outcome (Option RingBuffer) (Bool × List UInt8) :=
  match rb with
  | none => .fail none (false, []) .errInvalid "NULL argument"
  | some rb =>
    if out.missing then
      .fail (some rb) (false, []) .errInvalid "NULL argument"
    else
      let (rb', bytes) := ringbufGet .all rb out.size
      { result := (bytes.isSome, bytes.getD []), state := some rb' }

/-! ## Introspection -/

/-- The value `cpr_ringbuf_size` computes from the head and the tail it has loaded. -/
def sizeOf32 (head tail : BitVec 32) : Nat := (head - tail).toNat

/-- The value `cpr_ringbuf_free` computes from a size, in `size_t`. -/
def freeOfSize (p : PtrWidth) (capacity : BitVec 32) (size : Nat) : Nat :=
  (BitVec.ofNat p.bits capacity.toNat - BitVec.ofNat p.bits size).toNat

/-- `cpr_ringbuf_size`. -/
def ringbufSize (rb : RingBuffer) : Nat := sizeOf32 rb.head rb.tail

/-- `cpr_ringbuf_free`. -/
def ringbufFree (p : PtrWidth) (rb : RingBuffer) : Nat := freeOfSize p rb.capacity (ringbufSize rb)

/-- `cpr_ringbuf_capacity`. -/
def ringbufCapacity (rb : RingBuffer) : Nat := rb.capacity.toNat

end Copper
