import Copper.RingBuf.Lemmas
import Copper.Foundation.BoundedQueue
import Copper.Foundation.Transition

/-!
# The ring buffer is a bounded byte queue

Used by one thread, the ring buffer answers every sequence of calls as a queue of at most `capacity` bytes does, for as long as
the calls go on: `Represents` ties the wrapped counters to the bytes of the queue through the number `t` of bytes read so far,
which never wraps.
-/

namespace Copper

open Circular (Holds)

/-- A call of the API with the arguments a caller may pass: a buffer of any size to write from, any size to read. -/
inductive RingOp where
  | write (data : List UInt8)
  | writeAll (data : List UInt8)
  | read (outSize : Nat)
  | readAll (outSize : Nat)
  | size
  | free
  | capacity
  deriving DecidableEq, Repr

/-- What a call returns; a read returns the bytes it stored as well. -/
inductive RingReply where
  | count (n : Nat)
  | flag (ok : Bool)
  | bytes (n : Nat) (out : List UInt8)
  | flagBytes (ok : Bool) (out : List UInt8)
  deriving DecidableEq, Repr

/-- The calls on a ring buffer. -/
def ringMachine (p : PtrWidth) : Transition.Machine RingBuffer RingOp RingReply where
  next rb
    | .write data =>
      let o := ringbufWrite (some rb) (.bytes data)
      (.count o.result, o.state.getD rb)
    | .writeAll data =>
      let o := ringbufWriteAll (some rb) (.bytes data)
      (.flag o.result, o.state.getD rb)
    | .read n =>
      let o := ringbufRead (some rb) (.room n)
      (.bytes o.result.1 o.result.2, o.state.getD rb)
    | .readAll n =>
      let o := ringbufReadAll (some rb) (.room n)
      (.flagBytes o.result.1 o.result.2, o.state.getD rb)
    | .size => (.count (ringbufSize rb), rb)
    | .free => (.count (ringbufFree p rb), rb)
    | .capacity => (.count (ringbufCapacity rb), rb)

/-- A write of everything, by its parts. -/
theorem ringMachine_writeAll (p : PtrWidth) (rb : RingBuffer) (data : List UInt8) :
    (ringMachine p).next rb (.writeAll data) =
      (.flag (ringbufPut .all rb data).2.isSome, (ringbufPut .all rb data).1) := rfl

/-- A read of everything, by its parts. -/
theorem ringMachine_readAll (p : PtrWidth) (rb : RingBuffer) (n : Nat) :
    (ringMachine p).next rb (.readAll n) =
      (.flagBytes (ringbufGet .all rb n).2.isSome ((ringbufGet .all rb n).2.getD []), (ringbufGet .all rb n).1) := rfl

/-- The same calls on a queue of at most `cap` bytes. -/
def queueMachine (cap : Nat) : Transition.Machine (BoundedQueue UInt8 cap) RingOp RingReply where
  next q
    | .write data => (.count (min data.length (cap - q.length)), q.push data)
    | .writeAll data => if data.length ≤ cap - q.length then (.flag true, q.push data) else (.flag false, q)
    | .read n => (.bytes (min n q.length) (q.front n), q.pop n)
    | .readAll n => if n ≤ q.length then (.flagBytes true (q.front n), q.pop n) else (.flagBytes false [], q)
    | .size => (.count q.length, q)
    | .free => (.count (cap - q.length), q)
    | .capacity => (.count cap, q)

/-- The buffer, after `t` bytes have been read from it, holds the bytes of the queue and no call is under way. -/
structure Represents {cap : Nat} (t : Nat) (rb : RingBuffer) (q : BoundedQueue UInt8 cap) : Prop where
  wf : rb.WellFormed
  capacity : rb.capacity.toNat = cap
  head : rb.head = BitVec.ofNat 32 (t + q.length)
  tail : rb.tail = BitVec.ofNat 32 t
  headCache : rb.headCache = BitVec.ofNat 32 (t + q.length)
  tailCache : rb.tailCache = BitVec.ofNat 32 t
  bytes : Holds cap rb.buf t q.items

namespace Represents

variable {cap t : Nat} {rb : RingBuffer} {q : BoundedQueue UInt8 cap}

/-- A buffer that has just been initialised holds the empty queue. -/
theorem init {buf : Option (Nat → UInt8)} {bufSize : BitVec 32} {rbNull : Bool} {eh et : Option CprError}
    (h : (ringbufInit rbNull buf bufSize eh et).state = some rb) :
    Represents 0 rb (BoundedQueue.empty : BoundedQueue UInt8 bufSize.toNat) := by
  obtain ⟨hwf, hc, hh, ht, hhc, htc⟩ := ringbufInit_some h
  exact ⟨hwf, by rw [hc], hh, ht, hhc, htc, Circular.holds_nil⟩

/-- What the producer sees as free is the room of the queue. -/
theorem freeSpace (h : Represents t rb q) : rb.freeSpace rb.tail = q.room := by
  have hfit := q.fits
  rw [h.tail, freeSpace_eq h.headCache (by omega) (by rw [h.capacity]; exact Nat.add_le_add_left hfit t), h.capacity]
  simp [BoundedQueue.room]

/-- What the consumer sees is the length of the queue. -/
theorem available (h : Represents t rb q) : rb.available rb.head = q.length := by
  have hfit := q.fits
  rw [h.head, available_eq h.tailCache (by omega) (by rw [h.capacity]; exact Nat.add_le_add_left hfit t)]
  omega

/-- The size call returns the length of the queue. -/
theorem size (h : Represents t rb q) : ringbufSize rb = q.length := by
  have hfit := q.fits
  rw [ringbufSize, sizeOf32, h.head, h.tail,
    count_diff rb (by omega) (by rw [h.capacity]; exact Nat.add_le_add_left hfit t)]
  omega

/-- The free call returns the room of the queue: the subtraction in `size_t` does not wrap. -/
theorem free (h : Represents t rb q) (p : PtrWidth) : ringbufFree p rb = q.room := by
  have hfit := q.fits
  have hlt := rb.capacity.isLt
  have hp := p.range_le
  rw [ringbufFree, freeOfSize, h.size, WrapCounter.toNat_sub_of_le (by rw [h.capacity]; exact hfit) (by omega),
    h.capacity, BoundedQueue.room]

/-- The producer's call: it moves the number of bytes its mode gives for the room of the queue, and the buffer then holds
the queue with those bytes pushed. -/
theorem put (h : Represents t rb q) (m : Mode) (data : List UInt8) :
    (ringbufPut m rb data).2 = m.count data.length q.room ∧
      Represents t (ringbufPut m rb data).1 (q.push (data.take ((m.count data.length q.room).getD 0))) := by
  have hfit := q.fits
  cases hn : m.count data.length q.room with
  | none =>
    simp only [ringbufPut, h.freeSpace, hn, Option.getD_none, List.take_zero, true_and, BoundedQueue.push_nil]
    exact h
  | some n =>
    obtain ⟨hd, hr⟩ := Mode.count_le hn
    have hroom : q.length + n ≤ cap := by
      have : q.length ≤ cap := hfit
      simp only [BoundedQueue.room] at hr
      omega
    have hl : (data.take n).length = n := by rw [List.length_take]; omega
    have htake : (data.take n).take q.room = data.take n := by
      rw [List.take_take, Nat.min_eq_right hr]
    have hlen : t + (q.push (data.take n)).length = t + q.length + n := by
      rw [BoundedQueue.length, BoundedQueue.items_push, htake, List.length_append, hl, ← Nat.add_assoc]
      rfl
    rw [ringbufPut_some h.wf h.headCache (by rw [h.freeSpace, hn]) (by rw [h.capacity]; omega), Option.getD_some]
    refine ⟨rfl, ⟨h.wf.pow2, h.wf.mask⟩, h.capacity, by rw [hlen], h.tail, by rw [hlen], h.tailCache, ?_⟩
    rw [BoundedQueue.items_push, htake, h.capacity]
    refine Circular.holds_append.mpr ⟨h.bytes.store (Nat.le_refl _) ?_, Circular.store_holds _ _ _ (by omega)⟩
    rw [hl, Nat.add_assoc]
    exact Nat.add_le_add_left hroom t

/-- The consumer's call: it stores the first bytes of the queue, as many as its mode gives for the length of the queue, and
the buffer then holds the rest. -/
theorem get (h : Represents t rb q) (m : Mode) (outSize : Nat) :
    (ringbufGet m rb outSize).2 = (m.count outSize q.length).map q.front ∧
      Represents (t + (m.count outSize q.length).getD 0) (ringbufGet m rb outSize).1
        (q.pop ((m.count outSize q.length).getD 0)) := by
  have hfit := q.fits
  cases hn : m.count outSize q.length with
  | none =>
    simp only [ringbufGet, h.available, hn, Option.getD_none, Option.map_none, true_and, BoundedQueue.pop_zero]
    exact h
  | some n =>
    obtain ⟨-, hl⟩ := Mode.count_le hn
    have hcap : n ≤ rb.capacity.toNat := by rw [h.capacity]; exact Nat.le_trans hl hfit
    have hlen : t + n + (q.pop n).length = t + q.length := by
      rw [BoundedQueue.length, BoundedQueue.items_pop, List.length_drop, Nat.add_assoc]
      exact congrArg (t + ·) (Nat.add_sub_cancel' hl)
    rw [ringbufGet_some h.wf h.tailCache (by rw [h.available, hn]) hcap, Option.getD_some]
    refine ⟨?_, ⟨h.wf.pow2, h.wf.mask⟩, h.capacity, by rw [hlen]; exact h.head, rfl, by rw [hlen]; exact h.headCache, rfl,
      h.bytes.drop hl⟩
    rw [h.capacity, h.bytes.read hl]
    rfl

/-! ### The four calls -/

/-- A write pushes what fits. -/
theorem put_upTo (h : Represents t rb q) (data : List UInt8) :
    (ringbufPut .upTo rb data).2.getD 0 = min data.length q.room ∧
      Represents t (ringbufPut .upTo rb data).1 (q.push data) := by
  obtain ⟨hc, hr⟩ := h.put .upTo data
  have hn : (Mode.upTo.count data.length q.room).getD 0 = min data.length q.room := by
    rw [Mode.count_upTo]
    split
    · rename_i h0
      exact h0.symm
    · rfl
  rw [hn, BoundedQueue.push_take] at hr
  exact ⟨by rw [hc, hn], hr⟩

/-- A write of everything that fits pushes it all. -/
theorem put_all (h : Represents t rb q) {data : List UInt8} (hd : data.length ≤ q.room) :
    (ringbufPut .all rb data).2 = some data.length ∧ Represents t (ringbufPut .all rb data).1 (q.push data) := by
  obtain ⟨hc, hr⟩ := h.put .all data
  rw [Mode.count_all, if_pos hd] at hc hr
  rw [Option.getD_some, List.take_length] at hr
  exact ⟨hc, hr⟩

/-- One that does not fit changes nothing. -/
theorem put_all_refused (h : Represents t rb q) {data : List UInt8} (hd : ¬data.length ≤ q.room) :
    ringbufPut .all rb data = (rb, none) := by
  simp only [ringbufPut, h.freeSpace, Mode.count_all, if_neg hd]

/-- A read pops what there is. -/
theorem get_upTo (h : Represents t rb q) (n : Nat) :
    ((ringbufGet .upTo rb n).2.map List.length).getD 0 = min n q.length ∧ (ringbufGet .upTo rb n).2.getD [] = q.front n ∧
      Represents (t + min n q.length) (ringbufGet .upTo rb n).1 (q.pop n) := by
  obtain ⟨hc, hr⟩ := h.get .upTo n
  have hn : (Mode.upTo.count n q.length).getD 0 = min n q.length := by
    rw [Mode.count_upTo]
    split
    · rename_i h0
      exact h0.symm
    · rfl
  have hout : (ringbufGet .upTo rb n).2.getD [] = q.front n := by
    rw [hc, Mode.count_upTo]
    split
    · rename_i h0
      rw [← q.front_min, h0]
      rfl
    · exact q.front_min n
  rw [hn, BoundedQueue.pop_min] at hr
  refine ⟨?_, hout, hr⟩
  rw [show (0 : Nat) = ([] : List UInt8).length from rfl, Option.getD_map, hout]
  exact List.length_take

/-- A read of everything that is there pops it all. -/
theorem get_all (h : Represents t rb q) {n : Nat} (hn : n ≤ q.length) :
    (ringbufGet .all rb n).2 = some (q.front n) ∧ Represents (t + n) (ringbufGet .all rb n).1 (q.pop n) := by
  obtain ⟨hc, hr⟩ := h.get .all n
  rw [Mode.count_all, if_pos hn] at hc hr
  exact ⟨hc, hr⟩

/-- One of more than there is changes nothing. -/
theorem get_all_refused (h : Represents t rb q) {n : Nat} (hn : ¬n ≤ q.length) : ringbufGet .all rb n = (rb, none) := by
  simp only [ringbufGet, h.available, Mode.count_all, if_neg hn]

/-! ### The two modes compared -/

/-- Writing nothing under the all-or-nothing mode stores the counters it found. -/
theorem put_all_nil (h : Represents t rb q) : (ringbufPut .all rb []).1 = rb := by
  rw [ringbufPut_some h.wf h.headCache (Mode.count_all 0 _) (Nat.zero_le _)]
  have hh := h.head
  have hc := h.headCache
  cases rb
  simp only at hh hc
  simp [Circular.store, hh, hc]

/-- Reading nothing under the all-or-nothing mode stores the counters it found. -/
theorem get_all_zero (h : Represents t rb q) : (ringbufGet .all rb 0).1 = rb := by
  rw [ringbufGet_some h.wf h.tailCache (Mode.count_all 0 _) (Nat.zero_le _)]
  have ht := h.tail
  have hc := h.tailCache
  cases rb
  simp only at ht hc
  simp [ht, hc]

/-- When everything fits, the two modes of writing leave the same buffer. -/
theorem put_all_eq_upTo (h : Represents t rb q) {data : List UInt8} (hd : data.length ≤ q.room) :
    (ringbufPut .all rb data).1 = (ringbufPut .upTo rb data).1 := by
  by_cases h0 : data.length = 0
  · rw [List.eq_nil_of_length_eq_zero h0, h.put_all_nil, ringbufPut, List.length_nil, Mode.count_upTo, Nat.zero_min]
    rfl
  · have hc : Mode.all.count data.length (rb.freeSpace rb.tail) = Mode.upTo.count data.length (rb.freeSpace rb.tail) := by
      rw [h.freeSpace, Mode.count_all, if_pos hd, Mode.count_upTo, Nat.min_eq_left hd, if_neg h0]
    simp only [ringbufPut, hc]

/-- When that many bytes are there, the two modes of reading leave the same buffer. -/
theorem get_all_eq_upTo (h : Represents t rb q) {n : Nat} (hn : n ≤ q.length) :
    (ringbufGet .all rb n).1 = (ringbufGet .upTo rb n).1 := by
  by_cases h0 : n = 0
  · rw [h0, h.get_all_zero, ringbufGet, Mode.count_upTo, Nat.zero_min]
    rfl
  · have hc : Mode.all.count n (rb.available rb.head) = Mode.upTo.count n (rb.available rb.head) := by
      rw [h.available, Mode.count_all, if_pos hn, Mode.count_upTo, Nat.min_eq_left hn, if_neg h0]
    simp only [ringbufGet, hc]

/-- A `ringbufWriteAll` that succeeds leaves what `ringbufWrite` leaves; one that is refused leaves the buffer as it was. -/
theorem writeAll_state (h : Represents t rb q) (data : List UInt8) :
    (ringbufWriteAll (some rb) (.bytes data)).state =
      if (ringbufWriteAll (some rb) (.bytes data)).result then (ringbufWrite (some rb) (.bytes data)).state
      else some rb := by
  show some (ringbufPut .all rb data).1 =
    if (ringbufPut .all rb data).2.isSome then some (ringbufPut .upTo rb data).1 else some rb
  by_cases hd : data.length ≤ q.room
  · rw [(h.put_all hd).1, h.put_all_eq_upTo hd]
    rfl
  · rw [h.put_all_refused hd]
    rfl

/-- A `ringbufReadAll` that succeeds leaves what `ringbufRead` leaves; one that is refused leaves the buffer as it was. -/
theorem readAll_state (h : Represents t rb q) (n : Nat) :
    (ringbufReadAll (some rb) (.room n)).state =
      if (ringbufReadAll (some rb) (.room n)).result.1 then (ringbufRead (some rb) (.room n)).state else some rb := by
  show some (ringbufGet .all rb n).1 =
    if (ringbufGet .all rb n).2.isSome then some (ringbufGet .upTo rb n).1 else some rb
  by_cases hn : n ≤ q.length
  · rw [(h.get_all hn).1, h.get_all_eq_upTo hn]
    rfl
  · rw [h.get_all_refused hn]
    rfl

end Represents

/-- The ring buffer answers like the queue it represents, whatever the call, and goes on representing it. -/
theorem ring_simulates_queue (p : PtrWidth) (cap : Nat) :
    (ringMachine p).Simulates (queueMachine cap) (fun rb q => ∃ t, Represents t rb q) := by
  rintro rb q op ⟨t, h⟩
  cases op with
  | write data =>
    obtain ⟨hc, hr⟩ := h.put_upTo data
    exact ⟨congrArg RingReply.count hc, t, hr⟩
  | writeAll data =>
    rw [ringMachine_writeAll]
    by_cases hd : data.length ≤ cap - q.length
    · obtain ⟨hc, hr⟩ := h.put_all hd
      simp only [queueMachine, if_pos hd, hc]
      exact ⟨rfl, t, hr⟩
    · simp only [queueMachine, if_neg hd, h.put_all_refused hd]
      exact ⟨rfl, t, h⟩
  | read n =>
    obtain ⟨hc, hout, hr⟩ := h.get_upTo n
    exact ⟨congrArg₂ RingReply.bytes hc hout, _, hr⟩
  | readAll n =>
    rw [ringMachine_readAll]
    by_cases hn : n ≤ q.length
    · obtain ⟨hc, hr⟩ := h.get_all hn
      simp only [queueMachine, if_pos hn, hc]
      exact ⟨rfl, _, hr⟩
    · simp only [queueMachine, if_neg hn, h.get_all_refused hn]
      exact ⟨rfl, t, h⟩
  | size => exact ⟨congrArg RingReply.count h.size, t, h⟩
  | free => exact ⟨congrArg RingReply.count (h.free p), t, h⟩
  | capacity => exact ⟨congrArg RingReply.count h.capacity, t, h⟩

/-- Every run of calls on a buffer that has just been initialised is answered as a queue of at most `bufSize` bytes answers
it. In the state the run leaves, an all-or-nothing call that succeeds leaves the buffer its partial sibling leaves, and one that
is refused leaves the buffer as it was. -/
theorem ringbuf_refines_queue (p : PtrWidth) (mem : Nat → UInt8) (bufSize : BitVec 32) (rb : RingBuffer)
    (hinit : (ringbufInit false (some mem) bufSize none none).state = some rb) (ops : List RingOp) :
    ((ringMachine p).run rb ops).1 = ((queueMachine bufSize.toNat).run .empty ops).1 ∧
      ∀ rb', ((ringMachine p).run rb ops).2 = rb' →
        (∀ data, (ringbufWriteAll (some rb') (.bytes data)).state =
          if (ringbufWriteAll (some rb') (.bytes data)).result then (ringbufWrite (some rb') (.bytes data)).state
          else some rb') ∧
        (∀ n, (ringbufReadAll (some rb') (.room n)).state =
          if (ringbufReadAll (some rb') (.room n)).result.1 then (ringbufRead (some rb') (.room n)).state
          else some rb') := by
  obtain ⟨hrun, t, h⟩ := (ring_simulates_queue p bufSize.toNat).run ops rb .empty ⟨0, .init hinit⟩
  refine ⟨hrun, ?_⟩
  rintro _ rfl
  exact ⟨h.writeAll_state, h.readAll_state⟩

/-- `ringbuf_refines_queue` on a buffer of four bytes, for a run that wraps round its end. -/
theorem ringbuf_refines_queue_four :
    ∃ rb, (ringbufInit false (some fun _ => 0) 4 none none).state = some rb ∧
      ((ringMachine .w64).run rb [.write [1, 2, 3], .read 2, .writeAll [4, 5, 6], .size, .readAll 9, .read 4]).1 =
        [.count 3, .bytes 2 [1, 2], .flag true, .count 4, .flagBytes false [], .bytes 4 [3, 4, 5, 6]] :=
  ⟨_, rfl, (ringbuf_refines_queue .w64 (fun _ => 0) 4 _ rfl _).1.trans (by decide)⟩

end Copper
