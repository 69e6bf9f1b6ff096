import Copper.RingBuf.Basic

/-!
# Positions and cells of the ring buffer

The counters count bytes, and a buffer that `ringbufInit` accepted masks a count down to its cell: copying in is a circular
store, copying out a circular read, and the differences of counters the functions compute are the true numbers of bytes.
-/

namespace Copper

open Circular (Holds store)

/-- What `ringbufInit` establishes and no operation changes: the capacity is a power of two, and the mask belongs to it. -/
structure RingBuffer.WellFormed (rb : RingBuffer) : Prop where
  pow2 : rb.capacity.toNat.isPowerOfTwo
  mask : rb.mask = rb.capacity - 1

/-- The fields `ringbufInit` sets when it succeeds. -/
theorem ringbufInit_some {rbNull : Bool} {buf : Option (Nat → UInt8)} {bufSize : BitVec 32} {eh et : Option CprError}
    {rb : RingBuffer} (h : (ringbufInit rbNull buf bufSize eh et).state = some rb) :
    rb.WellFormed ∧ rb.capacity = bufSize ∧ rb.head = 0 ∧ rb.tail = 0 ∧ rb.headCache = 0 ∧ rb.tailCache = 0 := by
  unfold ringbufInit at h
  split at h
  · cases h
  · split at h
    · cases h
    split at h
    · cases h
    rename_i hsize
    split at h
    · cases h
    split at h
    · cases h
    cases h
    push Not at hsize
    exact ⟨⟨(WrapCounter.isPowerOfTwo_iff _).mp hsize, rfl⟩, rfl, rfl, rfl, rfl, rfl⟩

namespace RingBuffer.WellFormed

variable {rb : RingBuffer} (h : rb.WellFormed)

include h

theorem capacity_pos : 0 < rb.capacity.toNat := Nat.pos_of_isPowerOfTwo h.pow2

/-- The mask cuts a count down to its cell. -/
theorem cell (p : Nat) : (BitVec.ofNat 32 p &&& rb.mask).toNat = p % rb.capacity.toNat := by
  rw [h.mask, WrapCounter.ofNat_and_mask h.pow2]

theorem cell_lt (p : Nat) : p % rb.capacity.toNat < rb.capacity.toNat := Nat.mod_lt _ h.capacity_pos

end RingBuffer.WellFormed

/-- Copying in stores the bytes circularly, from the cell of the count `p` on. -/
theorem ringbufCopyIn_eq_store {rb : RingBuffer} (h : rb.WellFormed) (p : Nat) (src : List UInt8) {n : Nat}
    (hn : n ≤ src.length) (hcap : n ≤ rb.capacity.toNat) :
    ringbufCopyIn rb (BitVec.ofNat 32 p) src n = { rb with buf := store rb.capacity.toNat rb.buf p (src.take n) } := by
  have hlen : (src.take n).length = n := by rw [List.length_take]; omega
  have hlt := h.cell_lt p
  simp only [ringbufCopyIn, h.cell]
  split
  · rename_i hle
    rw [Circular.memcpy_eq_store hlt (by omega)]
  · rename_i hgt
    have h1 : src.take (rb.capacity.toNat - p % rb.capacity.toNat)
        = (src.take n).take (rb.capacity.toNat - p % rb.capacity.toNat) := by
      rw [List.take_take, Nat.min_eq_left (by omega)]
    rw [h1, ← List.drop_take, Circular.memcpy_memcpy_eq_store hlt (by omega) (by omega)]

/-- Copying out reads the bytes circularly, from the cell of the count `p` on. -/
theorem ringbufCopyOut_eq_read {rb : RingBuffer} (h : rb.WellFormed) (p : Nat) {n : Nat} (hcap : n ≤ rb.capacity.toNat) :
    ringbufCopyOut rb (BitVec.ofNat 32 p) n = Circular.read rb.capacity.toNat rb.buf p n := by
  have hlt := h.cell_lt p
  simp only [ringbufCopyOut, h.cell]
  split
  · rename_i hle
    exact Circular.memread_eq_read n hlt hle
  · rename_i hgt
    exact Circular.memread_append_eq_read n hlt hcap (by omega)

/-- The number of bytes between two counts that are no further apart than the capacity. -/
theorem count_diff (rb : RingBuffer) {t h : Nat} (hth : t ≤ h) (hcap : h ≤ t + rb.capacity.toNat) :
    (BitVec.ofNat 32 h - BitVec.ofNat 32 t).toNat = h - t :=
  WrapCounter.toNat_sub_of_le hth (by have := rb.capacity.isLt; omega)

/-- The producer's free space is the capacity less the bytes between the tail it loaded and its own count. -/
theorem freeSpace_eq {rb : RingBuffer} {t h : Nat} (hc : rb.headCache = BitVec.ofNat 32 h) (hth : t ≤ h)
    (hcap : h ≤ t + rb.capacity.toNat) : rb.freeSpace (BitVec.ofNat 32 t) = rb.capacity.toNat - (h - t) := by
  have hd := count_diff rb hth hcap
  rw [RingBuffer.freeSpace, hc, BitVec.toNat_sub_of_le (by rw [BitVec.le_def, hd]; omega), hd]

/-- The bytes available to the consumer are those between its own count and the head it loaded. -/
theorem available_eq {rb : RingBuffer} {t h : Nat} (hc : rb.tailCache = BitVec.ofNat 32 t) (hth : t ≤ h)
    (hcap : h ≤ t + rb.capacity.toNat) : rb.available (BitVec.ofNat 32 h) = h - t := by
  rw [RingBuffer.available, hc, count_diff rb hth hcap]

/-- Moving a cache forward by `n` bytes. -/
theorem count_add {c : BitVec 32} {h : Nat} (hc : c = BitVec.ofNat 32 h) (n : Nat) :
    c + BitVec.ofNat 32 n = BitVec.ofNat 32 (h + n) := by
  rw [hc, BitVec.ofNat_add]

/-! ## How many bytes a call moves -/

/-- A partial call moves the smaller of the two numbers, and returns early when that is zero. -/
theorem Mode.count_upTo (r l : Nat) : Mode.upTo.count r l = if min r l = 0 then none else some (min r l) := by
  have hmin : (if r < l then r else l) = min r l := by split <;> omega
  simp only [Mode.count, hmin]

/-- An all-or-nothing call goes through exactly when what is asked for is possible. -/
theorem Mode.count_all (r l : Nat) : Mode.all.count r l = if r ≤ l then some r else none := by
  simp only [Mode.count]
  split
  · rw [if_neg (by omega)]
  · rw [if_pos (by omega)]

/-- A call moves no more than was asked for, and no more than is possible. -/
theorem Mode.count_le {m : Mode} {r l n : Nat} (h : m.count r l = some n) : n ≤ r ∧ n ≤ l := by
  cases m with
  | upTo =>
    rw [Mode.count_upTo] at h
    split at h
    · cases h
    · cases h
      omega
  | all =>
    rw [Mode.count_all] at h
    split at h
    · cases h
      omega
    · cases h

/-! ## The two calls, when they move bytes -/

/-- A producer's call that moves `n` bytes, from a buffer to which `h` bytes have been written before. -/
theorem ringbufPut_some {m : Mode} {rb : RingBuffer} (hwf : rb.WellFormed) {data : List UInt8} {h n : Nat}
    (hc : rb.headCache = BitVec.ofNat 32 h) (hn : m.count data.length (rb.freeSpace rb.tail) = some n)
    (hcap : n ≤ rb.capacity.toNat) :
    ringbufPut m rb data =
      ({ rb with
          buf := store rb.capacity.toNat rb.buf h (data.take n)
          head := BitVec.ofNat 32 (h + n)
          headCache := BitVec.ofNat 32 (h + n) }, some n) := by
  simp only [ringbufPut, hn, hc, ringbufCopyIn_eq_store hwf h data (Mode.count_le hn).1 hcap, BitVec.ofNat_add]

/-- A consumer's call that moves `n` bytes, from a buffer from which `t` bytes have been read before. -/
theorem ringbufGet_some {m : Mode} {rb : RingBuffer} (hwf : rb.WellFormed) {outSize t n : Nat}
    (hc : rb.tailCache = BitVec.ofNat 32 t) (hn : m.count outSize (rb.available rb.head) = some n)
    (hcap : n ≤ rb.capacity.toNat) :
    ringbufGet m rb outSize =
      ({ rb with tail := BitVec.ofNat 32 (t + n), tailCache := BitVec.ofNat 32 (t + n) },
        some (Circular.read rb.capacity.toNat rb.buf t n)) := by
  simp only [ringbufGet, hn, hc, ringbufCopyOut_eq_read hwf t hcap, BitVec.ofNat_add]

end Copper
