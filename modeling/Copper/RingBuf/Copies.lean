import Copper.RingBuf.Lemmas

/-!
# Circular copies

What the two copies of the ring buffer do, cell by cell, from any 32-bit position: copying in writes the cells of its window and no
other, copying out reads them, and neither of the one or two `memcpy`s of a copy goes past the end of the buffer.
-/

namespace Copper

open Circular (Holds memcpy memread store)

/-- The cells that the `memcpy`s of a copy go over: where each starts, and how many it takes. -/
def copySpans (rb : RingBuffer) (pos : BitVec 32) (n : Nat) : List (Nat × Nat) :=
  let idx := (pos &&& rb.mask).toNat
  let untilWrap := rb.capacity.toNat - idx
  if n ≤ untilWrap then [(idx, n)] else [(idx, untilWrap), (0, n - untilWrap)]

/-- The cell of the byte `k` of a copy. -/
def windowCell (rb : RingBuffer) (pos : BitVec 32) (k : Nat) : Nat := (pos.toNat + k) % rb.capacity.toNat

/-- A copy of `n` bytes is exact, and changes nothing else. -/
structure CopiesExactly (rb : RingBuffer) (pos : BitVec 32) (src : List UInt8) (n : Nat) : Prop where
  set : ∀ k < n, some ((ringbufCopyIn rb pos src n).buf (windowCell rb pos k)) = src[k]?
  kept : ∀ j, (∀ k < n, j ≠ windowCell rb pos k) → (ringbufCopyIn rb pos src n).buf j = rb.buf j
  fields : ringbufCopyIn rb pos src n = { rb with buf := (ringbufCopyIn rb pos src n).buf }
  inside : ∀ span ∈ copySpans rb pos n, span.1 + span.2 ≤ rb.capacity.toNat
  out : ringbufCopyOut rb pos n = (List.range n).map fun k => rb.buf (windowCell rb pos k)
  out_in : ringbufCopyOut (ringbufCopyIn rb pos src n) pos n = src.take n

variable {rb : RingBuffer} {n : Nat}

/-- Copying in is a `memcpy` to each span, of what the spans before have left of the source. -/
theorem ringbufCopyIn_spans (rb : RingBuffer) (pos : BitVec 32) (src : List UInt8) (n : Nat) :
    (ringbufCopyIn rb pos src n).buf =
      ((copySpans rb pos n).foldl (fun acc span => (memcpy acc.1 span.1 (acc.2.take span.2), acc.2.drop span.2)) (rb.buf, src)).1 := by
  unfold ringbufCopyIn copySpans
  dsimp only
  split <;> rfl

/-- Copying out is a `memcpy` from each span. -/
theorem ringbufCopyOut_spans (rb : RingBuffer) (pos : BitVec 32) (n : Nat) :
    ringbufCopyOut rb pos n = (copySpans rb pos n).flatMap fun span => memread rb.buf span.1 span.2 := by
  unfold ringbufCopyOut copySpans
  dsimp only
  split
  · rw [List.flatMap_singleton]
  · rw [List.flatMap_cons, List.flatMap_singleton]

theorem ofNat_pos (pos : BitVec 32) : BitVec.ofNat 32 pos.toNat = pos := by
  rw [BitVec.ofNat_toNat, BitVec.setWidth_eq]

theorem copySpans_inside (h : rb.WellFormed) (pos : BitVec 32) (hn : n ≤ rb.capacity.toNat) :
    ∀ span ∈ copySpans rb pos n, span.1 + span.2 ≤ rb.capacity.toNat := by
  have hcell : (pos &&& rb.mask).toNat < rb.capacity.toNat := by
    rw [← ofNat_pos pos, h.cell]
    exact h.cell_lt _
  unfold copySpans
  dsimp only
  split
  · refine List.forall_mem_singleton.mpr ?_
    dsimp only
    omega
  · refine List.forall_mem_cons.mpr ⟨?_, List.forall_mem_singleton.mpr ?_⟩
    · dsimp only
      omega
    · dsimp only
      omega

/-- A position that wraps around has the cell of the count that it stands for. -/
theorem windowCell_add (h : rb.WellFormed) (pos : BitVec 32) (k : Nat) :
    ((pos + BitVec.ofNat 32 k) &&& rb.mask).toNat = windowCell rb pos k := by
  have hadd : pos + BitVec.ofNat 32 k = BitVec.ofNat 32 (pos.toNat + k) := by
    rw [BitVec.ofNat_add, ofNat_pos]
  rw [hadd, h.cell, windowCell]

/-- Copying in from a position is copying in from the count that it is. -/
theorem ringbufCopyIn_pos (h : rb.WellFormed) (pos : BitVec 32) {src : List UInt8} (hsrc : n ≤ src.length)
    (hn : n ≤ rb.capacity.toNat) :
    ringbufCopyIn rb pos src n = { rb with buf := store rb.capacity.toNat rb.buf pos.toNat (src.take n) } := by
  have hin := ringbufCopyIn_eq_store h pos.toNat src hsrc hn
  rwa [ofNat_pos] at hin

theorem ringbufCopyOut_pos (h : rb.WellFormed) (pos : BitVec 32) (hn : n ≤ rb.capacity.toNat) :
    ringbufCopyOut rb pos n = Circular.read rb.capacity.toNat rb.buf pos.toNat n := by
  have hout := ringbufCopyOut_eq_read h pos.toNat hn
  rwa [ofNat_pos] at hout

/-- For every position, source and content, a copy of no more than the capacity is exact, and its positions wrap around to the cells
it goes over. -/
theorem ringbuf_copies_exactly (h : rb.WellFormed) (pos : BitVec 32) {src : List UInt8} (hsrc : n ≤ src.length)
    (hn : n ≤ rb.capacity.toNat) :
    CopiesExactly rb pos src n ∧ ∀ k, ((pos + BitVec.ofNat 32 k) &&& rb.mask).toNat = windowCell rb pos k := by
  have hin := ringbufCopyIn_pos h pos hsrc hn
  have hlen : (src.take n).length = n := List.length_take_of_le hsrc
  have hholds : Holds rb.capacity.toNat (ringbufCopyIn rb pos src n).buf pos.toNat (src.take n) := by
    rw [hin]
    exact Circular.store_holds (src.take n) rb.buf pos.toNat (hlen.symm ▸ hn)
  refine ⟨⟨fun k hk => ?_, fun j hj => ?_, ?_, copySpans_inside h pos hn, ringbufCopyOut_pos h pos hn, ?_⟩, windowCell_add h pos⟩
  · have hk' : k < (src.take n).length := hlen.symm ▸ hk
    rw [windowCell, hholds k hk', List.getElem_take, List.getElem?_eq_getElem]
  · rw [hin]
    exact Circular.store_of_ne _ _ _ _ (by rwa [hlen])
  · rw [hin]
  · have hwf : (ringbufCopyIn rb pos src n).WellFormed := by
      rw [hin]
      exact ⟨h.pow2, h.mask⟩
    have hcap : (ringbufCopyIn rb pos src n).capacity = rb.capacity := by rw [hin]
    rw [ringbufCopyOut_pos hwf pos (hcap.symm ▸ hn), hcap, hholds.read (Nat.le_of_eq hlen.symm), List.take_take, Nat.min_self]

/-- Three bytes from the last position of the counter on, in a buffer of four. -/
theorem ringbuf_copies_exactly_wrapped :
    let rb : RingBuffer := ⟨fun _ => 0, 4, 3, 0, 0, 0, 0⟩
    CopiesExactly rb 0xFFFFFFFF [1, 2, 3] 3 ∧ ∀ k, ((0xFFFFFFFF + BitVec.ofNat 32 k) &&& rb.mask).toNat = windowCell rb 0xFFFFFFFF k :=
  ringbuf_copies_exactly ⟨⟨2, rfl⟩, rfl⟩ 0xFFFFFFFF (by decide) (by decide)

end Copper
