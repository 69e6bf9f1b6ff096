import Copper.RingBuf.Basic
import Copper.Foundation.Transition

/-!
# One producer, one consumer, any number of observers

The calls of `Basic.lean` taken apart into the steps other threads can fall between: the atomic load of the counter of the other
side, each byte of a copy, the update of the caller's own cache, and the atomic store that publishes it. Loads and stores are
sequentially consistent, so a step is one move of one thread on one shared buffer. An observer calls `cpr_ringbuf_size` or
`cpr_ringbuf_free`: two loads, two steps.

Besides the buffer and where each thread is, a state keeps history no step reads: the bytes accepted by writes whose head store
has happened, the bytes delivered by completed reads, and what the observers' calls returned.
-/

namespace Copper

/-- Where the producer is. `data` is what the call was given, `pos` the position it copies to, `n` the number of bytes it moves,
`i` how many of them it has copied. -/
inductive ProducerPc where
  | idle
  | loading (m : Mode) (data : List UInt8)
  | copying (data : List UInt8) (pos : BitVec 32) (n i : Nat)
  | storing (data : List UInt8) (pos : BitVec 32) (n : Nat)

/-- Where the consumer is. `out` is what it has copied so far. -/
inductive ConsumerPc where
  | idle
  | loading (m : Mode) (outSize : Nat)
  | copying (pos : BitVec 32) (n : Nat) (out : List UInt8)
  | storing (pos : BitVec 32) (n : Nat) (out : List UInt8)

/-- What an observer asks for. -/
inductive Query where
  | size
  | free
  deriving DecidableEq, Repr

/-- Where an observer is: between calls, or between the two loads of a call. `seen` is history: the number of bytes accepted
when it loaded the head. -/
inductive ObserverPc where
  | idle
  | loaded (query : Query) (head : BitVec 32) (seen : Nat)

structure SpscState where
  rb : RingBuffer
  producer : ProducerPc
  consumer : ConsumerPc
  observers : Nat → ObserverPc
  accepted : List UInt8
  delivered : List UInt8
  returned : List (Query × Nat)

inductive ProducerEvent where
  | call (m : Mode) (data : DataArg)
  | loadTail
  | copyByte
  | moveCache
  | storeHead
  deriving DecidableEq, Repr

inductive ConsumerEvent where
  | call (m : Mode) (out : OutArg)
  | loadHead
  | copyByte
  | moveCache
  | storeTail
  deriving DecidableEq, Repr

inductive ObserverEvent where
  | loadHead (query : Query)
  | loadTail
  deriving DecidableEq, Repr

inductive SpscEvent where
  | producer (e : ProducerEvent)
  | consumer (e : ConsumerEvent)
  | observer (i : Nat) (e : ObserverEvent)
  deriving DecidableEq, Repr

/-- The cell of byte `k` of a copy of `n` bytes at position `pos`: the two `memcpy` calls of `cpr__ringbuf_copy_in` and
`cpr__ringbuf_copy_out`, byte by byte. -/
def copyCell (rb : RingBuffer) (pos : BitVec 32) (n k : Nat) : Nat :=
  let idx := (pos &&& rb.mask).toNat
  let untilWrap := rb.capacity.toNat - idx
  if n ≤ untilWrap then idx + k
  else if k < untilWrap then idx + k
  else k - untilWrap

/-- A step of `cpr_ringbuf_write` or `cpr_ringbuf_write_all`. -/
def producerNext (s : SpscState) : ProducerEvent → Option SpscState
  | .call m data =>
    match s.producer with
    | .idle => some (if data.missing then s else { s with producer := .loading m data.toList })
    | _ => none
  | .loadTail =>
    match s.producer with
    | .loading m data =>
      match m.count data.length (s.rb.freeSpace s.rb.tail) with
      | none => some { s with producer := .idle }
      | some n => some { s with producer := .copying data s.rb.headCache n 0 }
    | _ => none
  | .copyByte =>
    match s.producer with
    | .copying data pos n i =>
      if i < n then
        (data[i]?).map fun b =>
          { s with
            rb := { s.rb with buf := Function.update s.rb.buf (copyCell s.rb pos n i) b }
            producer := .copying data pos n (i + 1) }
      else none
    | _ => none
  | .moveCache =>
    match s.producer with
    | .copying data pos n i =>
      if i = n then
        some { s with
          rb := { s.rb with headCache := s.rb.headCache + BitVec.ofNat 32 n }
          producer := .storing data pos n }
      else none
    | _ => none
  | .storeHead =>
    match s.producer with
    | .storing data _ n =>
      some { s with
        rb := { s.rb with head := s.rb.headCache }
        producer := .idle
        accepted := s.accepted ++ data.take n }
    | _ => none

/-- A step of `cpr_ringbuf_read` or `cpr_ringbuf_read_all`. -/
def consumerNext (s : SpscState) : ConsumerEvent → Option SpscState
  | .call m out =>
    match s.consumer with
    | .idle => some (if out.missing then s else { s with consumer := .loading m out.size })
    | _ => none
  | .loadHead =>
    match s.consumer with
    | .loading m outSize =>
      match m.count outSize (s.rb.available s.rb.head) with
      | none => some { s with consumer := .idle }
      | some n => some { s with consumer := .copying s.rb.tailCache n [] }
    | _ => none
  | .copyByte =>
    match s.consumer with
    | .copying pos n out =>
      if out.length < n then
        some { s with consumer := .copying pos n (out ++ [s.rb.buf (copyCell s.rb pos n out.length)]) }
      else none
    | _ => none
  | .moveCache =>
    match s.consumer with
    | .copying pos n out =>
      if out.length = n then
        some { s with
          rb := { s.rb with tailCache := s.rb.tailCache + BitVec.ofNat 32 n }
          consumer := .storing pos n out }
      else none
    | _ => none
  | .storeTail =>
    match s.consumer with
    | .storing _ _ out =>
      some { s with
        rb := { s.rb with tail := s.rb.tailCache }
        consumer := .idle
        delivered := s.delivered ++ out }
    | _ => none

/-- The value a query returns from the head and the tail it has loaded. -/
def Query.value (p : PtrWidth) (capacity head tail : BitVec 32) : Query → Nat
  | .size => sizeOf32 head tail
  | .free => freeOfSize p capacity (sizeOf32 head tail)

/-- A step of `cpr_ringbuf_size` or `cpr_ringbuf_free`, by observer `i`. -/
def observerNext (p : PtrWidth) (s : SpscState) (i : Nat) : ObserverEvent → Option SpscState
  | .loadHead query =>
    match s.observers i with
    | .idle => some { s with observers := Function.update s.observers i (.loaded query s.rb.head s.accepted.length) }
    | _ => none
  | .loadTail =>
    match s.observers i with
    | .loaded query head _ =>
      some { s with
        observers := Function.update s.observers i .idle
        returned := (query, query.value p s.rb.capacity head s.rb.tail) :: s.returned }
    | _ => none

/-- A step of the system. -/
def spscNext (p : PtrWidth) (s : SpscState) : SpscEvent → Option SpscState
  | .producer e => producerNext s e
  | .consumer e => consumerNext s e
  | .observer i e => observerNext p s i e

/-- The state before any call: the buffer is as `ringbufInit` left it. -/
def SpscState.start (rb : RingBuffer) : SpscState where
  rb := rb
  producer := .idle
  consumer := .idle
  observers := fun _ => .idle
  accepted := []
  delivered := []
  returned := []

/-- A buffer as `ringbufInit` leaves it, of any capacity it accepts, and no call under way. -/
def SpscState.Initial (s : SpscState) : Prop :=
  ∃ mem bufSize rb, (ringbufInit false (some mem) bufSize none none).state = some rb ∧ s = .start rb

/-- Every interleaving of the calls of one producer, one consumer and the observers. -/
def spsc (p : PtrWidth) : Transition.System SpscState SpscEvent := .ofNext SpscState.Initial (spscNext p)

/-- What the events of a list lead to, on a buffer of `bufSize` zero bytes. -/
def spscReplay (p : PtrWidth) (bufSize : BitVec 32) (es : List SpscEvent) : Option SpscState :=
  (ringbufInit false (some fun _ => 0) bufSize none none).state.bind fun rb =>
    Transition.System.replay (spscNext p) (.start rb) es

/-- What a replay shows is shown by a reachable state. -/
theorem spsc_reachable_of_replay {α : Type} (p : PtrWidth) (f : SpscState → α) (v : α) (bufSize : BitVec 32)
    (es : List SpscEvent) (h : (spscReplay p bufSize es).map f = some v) : ∃ s, (spsc p).Reachable s ∧ f s = v := by
  obtain ⟨t, ht, rfl⟩ := Option.map_eq_some_iff.mp h
  obtain ⟨rb, hrb, ht⟩ := Option.bind_eq_some_iff.mp ht
  exact ⟨t, ⟨_, es, ⟨_, bufSize, rb, hrb, rfl⟩, Transition.System.run_of_replay es ht⟩, rfl⟩

end Copper
