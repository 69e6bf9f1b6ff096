import Copper.RingBuf.Invariant
import Mathlib.Order.CompletePartialOrder

/-!
# What holds of every interleaving

The buffer is a FIFO channel (`spsc_fifo`), the two parties never touch the same cell (`spsc_race_free`), and a call that no
other thread interrupts does what its sequential model does (`producer_alone`, `consumer_alone`).
-/

namespace Copper

open Circular (Holds store)

/-- In every reachable state of every interleaving, the bytes delivered by completed reads are a prefix of the bytes accepted by
writes whose head store has happened: none is lost, duplicated, reordered or read before it was written. -/
theorem spsc_fifo {p : PtrWidth} {s : SpscState} (h : (spsc p).Reachable s) : s.delivered <+: s.accepted :=
  (spscInv_of_reachable h).fifo

/-- A run on a buffer of two bytes: the second write goes round its end while the second read is under way. -/
def runOnTwo : List SpscEvent :=
  [.producer (.call .upTo (.bytes [1, 2])), .producer .loadTail, .producer .copyByte, .producer .copyByte,
    .producer .moveCache, .producer .storeHead, .consumer (.call .all (.room 1)), .consumer .loadHead, .consumer .copyByte,
    .consumer .moveCache, .consumer .storeTail, .producer (.call .all (.bytes [3])), .producer .loadTail,
    .consumer (.call .upTo (.room 9)), .consumer .loadHead, .consumer .copyByte, .producer .copyByte]

theorem spsc_fifo_runOnTwo : ∃ s, (spsc .w64).Reachable s ∧ (s.accepted, s.delivered) = ([1, 2], [1]) ∧
    s.delivered <+: s.accepted := by
  obtain ⟨s, hs, hv⟩ := spsc_reachable_of_replay .w64 (fun s => (s.accepted, s.delivered)) ([1, 2], [1]) 2 runOnTwo
    (by decide)
  exact ⟨s, hs, hv, spsc_fifo hs⟩

/-! ## Cells -/

/-- The cells the producer is about to write, is writing, or has written and not yet published. -/
def SpscState.producerCells (s : SpscState) : Set Nat :=
  match s.producer with
  | .copying _ pos n _ => { c | ∃ k < n, c = copyCell s.rb pos n k }
  | .storing _ pos n => { c | ∃ k < n, c = copyCell s.rb pos n k }
  | _ => ∅

/-- The cells the consumer reads in a call it has not finished. -/
def SpscState.consumerCells (s : SpscState) : Set Nat :=
  match s.consumer with
  | .copying pos n _ => { c | ∃ k < n, c = copyCell s.rb pos n k }
  | .storing pos n _ => { c | ∃ k < n, c = copyCell s.rb pos n k }
  | _ => ∅

/-- The cells of the published unread bytes: those from the tail up to the head. -/
def SpscState.publishedCells (s : SpscState) : Set Nat :=
  { c | ∃ k < (s.rb.head - s.rb.tail).toNat, c = ((s.rb.tail + BitVec.ofNat 32 k) &&& s.rb.mask).toNat }

namespace SpscInv

variable {s : SpscState} (hs : SpscInv s)

include hs

/-- Every cell of the producer is that of a free position: one past the bytes accepted, less than a turn after the first unread
byte. -/
theorem producerCells_sub {c : Nat} (hc : c ∈ s.producerCells) :
    ∃ q, s.headCount ≤ q ∧ q < s.tailCount + s.rb.capacity.toNat ∧ c = q % s.rb.capacity.toNat := by
  have hp := hs.producer
  have hle := hs.le
  unfold SpscState.producerCells at hc
  split at hc
  · rename_i data pos n i hpc
    rw [hpc] at hp
    obtain ⟨-, hpos, -, -, hroom, -⟩ := hp
    obtain ⟨k, hk, rfl⟩ := hc
    exact ⟨s.headCount + k, by omega, by omega, by rw [hpos, copyCell_eq hs.wf _ (by omega) hk]⟩
  · rename_i data pos n hpc
    rw [hpc] at hp
    obtain ⟨-, hpos, -, hroom, -⟩ := hp
    obtain ⟨k, hk, rfl⟩ := hc
    exact ⟨s.headCount + k, by omega, by omega, by rw [hpos, copyCell_eq hs.wf _ (by omega) hk]⟩
  · exact absurd hc (Set.notMem_empty c)

/-- Every cell of the consumer is that of an unread byte. -/
theorem consumerCells_sub {c : Nat} (hc : c ∈ s.consumerCells) :
    ∃ q, s.tailCount ≤ q ∧ q < s.headCount ∧ c = q % s.rb.capacity.toNat := by
  have hp := hs.consumer
  have hbound := hs.bound
  have hlen := s.length_unread
  unfold SpscState.consumerCells at hc
  split at hc
  · rename_i pos n out hpc
    rw [hpc] at hp
    obtain ⟨-, hpos, hn, -, -⟩ := hp
    obtain ⟨k, hk, rfl⟩ := hc
    exact ⟨s.tailCount + k, by omega, by omega, by rw [hpos, copyCell_eq hs.wf _ (by omega) hk]⟩
  · rename_i pos n out hpc
    rw [hpc] at hp
    obtain ⟨-, hpos, hn, -, -⟩ := hp
    obtain ⟨k, hk, rfl⟩ := hc
    exact ⟨s.tailCount + k, by omega, by omega, by rw [hpos, copyCell_eq hs.wf _ (by omega) hk]⟩
  · exact absurd hc (Set.notMem_empty c)

/-- The published cells are those of the unread bytes. -/
theorem publishedCells_sub {c : Nat} (hc : c ∈ s.publishedCells) :
    ∃ q, s.tailCount ≤ q ∧ q < s.headCount ∧ c = q % s.rb.capacity.toNat := by
  obtain ⟨k, hk, rfl⟩ := hc
  have hle := hs.le
  rw [hs.head, hs.tail, count_diff s.rb hle hs.bound] at hk
  refine ⟨s.tailCount + k, by omega, by omega, ?_⟩
  rw [hs.tail, ← BitVec.ofNat_add, hs.wf.cell]

/-- Positions of the producer and unread positions have different cells. -/
theorem free_ne_unread {a b : Nat} (ha : s.headCount ≤ a) (ha' : a < s.tailCount + s.rb.capacity.toNat)
    (hb : s.tailCount ≤ b) (hb' : b < s.headCount) : a % s.rb.capacity.toNat ≠ b % s.rb.capacity.toNat := by
  have hbound := hs.bound
  exact Circular.cell_ne (p := s.tailCount) (by omega) ha' hb (by omega) (by omega)

/-- The bytes between the tail and the producer's cache are no more than the capacity. -/
theorem used_le : (s.rb.headCache - s.rb.tail).toNat ≤ s.rb.capacity.toNat := by
  have hp := hs.producer
  have hle := hs.le
  have hbound := hs.bound
  rw [hs.tail]
  cases hpc : s.producer with
  | idle =>
    rw [hpc] at hp
    rw [hp, count_diff s.rb hle hbound]
    omega
  | loading m data =>
    rw [hpc] at hp
    rw [hp, count_diff s.rb hle hbound]
    omega
  | copying data pos n i =>
    rw [hpc] at hp
    rw [hp.1, count_diff s.rb hle hbound]
    omega
  | storing data pos n =>
    rw [hpc] at hp
    obtain ⟨hcache, -, -, hroom, -⟩ := hp
    rw [hcache, count_diff s.rb (by omega) hroom]
    omega

end SpscInv

/-- In every reachable state of every interleaving, the cells of the producer's unfinished write are neither cells of published
unread bytes nor cells of the consumer's unfinished read, and the bytes between the tail and the producer's cache, counted
modulo `2 ^ 32`, are at most the capacity, so that `capacity - used` does not wrap. -/
theorem spsc_race_free {p : PtrWidth} {s : SpscState} (h : (spsc p).Reachable s) :
    Disjoint s.producerCells s.publishedCells ∧ Disjoint s.producerCells s.consumerCells ∧
      (s.rb.headCache - s.rb.tail).toNat ≤ s.rb.capacity.toNat := by
  have hs := spscInv_of_reachable h
  refine ⟨Set.disjoint_left.mpr fun c hc hc' => ?_, Set.disjoint_left.mpr fun c hc hc' => ?_, hs.used_le⟩
  · obtain ⟨a, ha, ha', rfl⟩ := hs.producerCells_sub hc
    obtain ⟨b, hb, hb', he⟩ := hs.publishedCells_sub hc'
    exact hs.free_ne_unread ha ha' hb hb' he
  · obtain ⟨a, ha, ha', rfl⟩ := hs.producerCells_sub hc
    obtain ⟨b, hb, hb', he⟩ := hs.consumerCells_sub hc'
    exact hs.free_ne_unread ha ha' hb hb' he

theorem spsc_race_free_runOnTwo : ∃ s, (spsc .w64).Reachable s ∧ s.rb.headCache = 2 ∧
    Disjoint s.producerCells s.publishedCells ∧ Disjoint s.producerCells s.consumerCells ∧
      (s.rb.headCache - s.rb.tail).toNat ≤ s.rb.capacity.toNat := by
  obtain ⟨s, hs, hv⟩ := spsc_reachable_of_replay .w64 (fun s => s.rb.headCache) 2 2 runOnTwo (by decide)
  exact ⟨s, hs, hv, spsc_race_free hs⟩

/-! ## A call that no other thread interrupts -/

/-- A step of the function is one of the system. -/
theorem spsc_step {p : PtrWidth} {s t : SpscState} {e : SpscEvent} (h : spscNext p s e = some t) : (spsc p).step s e t := h

namespace ProducerSteps

variable {p : PtrWidth} {s : SpscState}

/-- The producer begins a call. -/
theorem call (hpc : s.producer = .idle) (m : Mode) (data : List UInt8) :
    (spsc p).step s (.producer (.call m (.bytes data))) { s with producer := .loading m data } := by
  refine spsc_step ?_
  simp only [spscNext, producerNext, hpc]
  rfl

/-- It sees the tail, and returns with nothing done. -/
theorem loadTail_early {m : Mode} {data : List UInt8} (hpc : s.producer = .loading m data)
    (hn : m.count data.length (s.rb.freeSpace s.rb.tail) = none) :
    (spsc p).step s (.producer .loadTail) { s with producer := .idle } := by
  refine spsc_step ?_
  simp only [spscNext, producerNext, hpc, hn]

/-- It sees the tail, and goes on to copy. -/
theorem loadTail {m : Mode} {data : List UInt8} {n : Nat} (hpc : s.producer = .loading m data)
    (hn : m.count data.length (s.rb.freeSpace s.rb.tail) = some n) :
    (spsc p).step s (.producer .loadTail) { s with producer := .copying data s.rb.headCache n 0 } := by
  refine spsc_step ?_
  simp only [spscNext, producerNext, hpc, hn]

/-- It copies a byte into its cell. -/
theorem copyByte {data : List UInt8} {pos : BitVec 32} {n i : Nat} (hpc : s.producer = .copying data pos n i) (hi : i < n)
    (hd : i < data.length) :
    (spsc p).step s (.producer .copyByte) { s with
      rb := { s.rb with buf := Function.update s.rb.buf (copyCell s.rb pos n i) data[i] }
      producer := .copying data pos n (i + 1) } := by
  refine spsc_step ?_
  simp only [spscNext, producerNext, hpc, if_pos hi, List.getElem?_eq_getElem hd, Option.map_some]

/-- It moves its own count once all bytes are copied. -/
theorem moveCache {data : List UInt8} {pos : BitVec 32} {n : Nat} (hpc : s.producer = .copying data pos n n) :
    (spsc p).step s (.producer .moveCache) { s with
      rb := { s.rb with headCache := s.rb.headCache + BitVec.ofNat 32 n }
      producer := .storing data pos n } := by
  refine spsc_step ?_
  simp only [spscNext, producerNext, hpc, if_true]

/-- It stores the head, and the call ends. -/
theorem storeHead {data : List UInt8} {pos : BitVec 32} {n : Nat} (hpc : s.producer = .storing data pos n) :
    (spsc p).step s (.producer .storeHead) { s with
      rb := { s.rb with head := s.rb.headCache }
      producer := .idle
      accepted := s.accepted ++ data.take n } := by
  refine spsc_step ?_
  simp only [spscNext, producerNext, hpc]

/-- The copy loop, run alone, stores the bytes circularly. -/
theorem copyBytes (hwf : s.rb.WellFormed) {data : List UInt8} {h n : Nat} (hn : n ≤ data.length)
    (hcap : n ≤ s.rb.capacity.toNat) (i : Nat) (hi : i ≤ n) :
    ∃ es, (spsc p).Run { s with producer := .copying data (BitVec.ofNat 32 h) n 0 } es { s with
      rb := { s.rb with buf := store s.rb.capacity.toNat s.rb.buf h (data.take i) }
      producer := .copying data (BitVec.ofNat 32 h) n i } := by
  induction i with
  | zero => exact ⟨[], .nil⟩
  | succ i ih =>
    obtain ⟨es, hr⟩ := ih (by omega)
    have hd : i < data.length := by omega
    have hlen : (data.take i).length = i := by rw [List.length_take]; omega
    have hcell : copyCell s.rb (BitVec.ofNat 32 h) n i = (h + (data.take i).length) % s.rb.capacity.toNat := by
      rw [copyCell_eq hwf _ hcap (by omega), hlen]
    refine ⟨es ++ [.producer .copyByte], ?_⟩
    rw [List.take_succ_eq_append_getElem hd, Circular.store_snoc, ← hcell]
    exact hr.snoc (copyByte rfl (by omega) hd)

end ProducerSteps

/-- A producer's call that runs from start to end without a step of another thread leaves the buffer that the sequential model
of the call leaves, and accepts the bytes it says it wrote. -/
theorem producer_alone {p : PtrWidth} {s : SpscState} (hs : SpscInv s) (hidle : s.producer = .idle) (m : Mode)
    (data : List UInt8) :
    ∃ es, (spsc p).Run s es { s with
      rb := (ringbufPut m s.rb data).1
      accepted := s.accepted ++ data.take ((ringbufPut m s.rb data).2.getD 0) } := by
  have hc : s.rb.headCache = BitVec.ofNat 32 s.headCount := by
    have hp := hs.producer
    rwa [hidle] at hp
  have hcall := Transition.System.Run.single (ProducerSteps.call (p := p) hidle m data)
  cases hn : m.count data.length (s.rb.freeSpace s.rb.tail) with
  | none =>
    refine ⟨[.producer (.call m (.bytes data)), .producer .loadTail], ?_⟩
    simp only [ringbufPut, hn, Option.getD_none, List.take_zero, List.append_nil, hidle]
    exact hcall.snoc (ProducerSteps.loadTail_early rfl hn)
  | some n =>
    have hcap : n ≤ s.rb.capacity.toNat := by
      have hfree := hs.freeSpace hc
      have := (Mode.count_le hn).2
      omega
    have hload := hcall.snoc (ProducerSteps.loadTail rfl hn)
    obtain ⟨es, hcopy⟩ := ProducerSteps.copyBytes (p := p) (h := s.headCount) hs.wf (Mode.count_le hn).1 hcap n (Nat.le_refl n)
    rw [hc] at hload
    have hrun := ((hload.trans hcopy).snoc (ProducerSteps.moveCache rfl)).snoc (ProducerSteps.storeHead rfl)
    rw [ringbufPut_some hs.wf hc hn hcap, hidle, ← count_add hc n]
    exact ⟨_, hrun⟩

namespace ConsumerSteps

variable {p : PtrWidth} {s : SpscState}

/-- The consumer begins a call. -/
theorem call (hpc : s.consumer = .idle) (m : Mode) (outSize : Nat) :
    (spsc p).step s (.consumer (.call m (.room outSize))) { s with consumer := .loading m outSize } := by
  refine spsc_step ?_
  simp only [spscNext, consumerNext, hpc]
  rfl

/-- It sees the head, and returns with nothing done. -/
theorem loadHead_early {m : Mode} {outSize : Nat} (hpc : s.consumer = .loading m outSize)
    (hn : m.count outSize (s.rb.available s.rb.head) = none) :
    (spsc p).step s (.consumer .loadHead) { s with consumer := .idle } := by
  refine spsc_step ?_
  simp only [spscNext, consumerNext, hpc, hn]

/-- It sees the head, and goes on to copy. -/
theorem loadHead {m : Mode} {outSize n : Nat} (hpc : s.consumer = .loading m outSize)
    (hn : m.count outSize (s.rb.available s.rb.head) = some n) :
    (spsc p).step s (.consumer .loadHead) { s with consumer := .copying s.rb.tailCache n [] } := by
  refine spsc_step ?_
  simp only [spscNext, consumerNext, hpc, hn]

/-- It copies a byte out of its cell. -/
theorem copyByte {pos : BitVec 32} {n : Nat} {out : List UInt8} (hpc : s.consumer = .copying pos n out)
    (hi : out.length < n) :
    (spsc p).step s (.consumer .copyByte)
      { s with consumer := .copying pos n (out ++ [s.rb.buf (copyCell s.rb pos n out.length)]) } := by
  refine spsc_step ?_
  simp only [spscNext, consumerNext, hpc, if_pos hi]

/-- It moves its own count once all bytes are copied. -/
theorem moveCache {pos : BitVec 32} {n : Nat} {out : List UInt8} (hpc : s.consumer = .copying pos n out)
    (hi : out.length = n) :
    (spsc p).step s (.consumer .moveCache) { s with
      rb := { s.rb with tailCache := s.rb.tailCache + BitVec.ofNat 32 n }
      consumer := .storing pos n out } := by
  refine spsc_step ?_
  simp only [spscNext, consumerNext, hpc, if_pos hi]

/-- It stores the tail, and the call ends. -/
theorem storeTail {pos : BitVec 32} {n : Nat} {out : List UInt8} (hpc : s.consumer = .storing pos n out) :
    (spsc p).step s (.consumer .storeTail) { s with
      rb := { s.rb with tail := s.rb.tailCache }
      consumer := .idle
      delivered := s.delivered ++ out } := by
  refine spsc_step ?_
  simp only [spscNext, consumerNext, hpc]

/-- The copy loop, run alone, reads the bytes circularly. -/
theorem copyBytes (hwf : s.rb.WellFormed) {t n : Nat} (hcap : n ≤ s.rb.capacity.toNat) (i : Nat) (hi : i ≤ n) :
    ∃ es, (spsc p).Run { s with consumer := .copying (BitVec.ofNat 32 t) n [] } es
      { s with consumer := .copying (BitVec.ofNat 32 t) n (Circular.read s.rb.capacity.toNat s.rb.buf t i) } := by
  induction i with
  | zero => exact ⟨[], .nil⟩
  | succ i ih =>
    obtain ⟨es, hr⟩ := ih (by omega)
    have hlen : (Circular.read s.rb.capacity.toNat s.rb.buf t i).length = i := Circular.length_read i
    have hstep := hr.snoc (copyByte rfl (by rw [hlen]; omega))
    rw [hlen, copyCell_eq hwf t hcap (by omega), ← Circular.read_succ] at hstep
    exact ⟨_, hstep⟩

end ConsumerSteps

/-- A consumer's call that runs from start to end without a step of another thread leaves the buffer that the sequential model
of the call leaves, and delivers the bytes it says it stored. -/
theorem consumer_alone {p : PtrWidth} {s : SpscState} (hs : SpscInv s) (hidle : s.consumer = .idle) (m : Mode)
    (outSize : Nat) :
    ∃ es, (spsc p).Run s es { s with
      rb := (ringbufGet m s.rb outSize).1
      delivered := s.delivered ++ (ringbufGet m s.rb outSize).2.getD [] } := by
  have hc : s.rb.tailCache = BitVec.ofNat 32 s.tailCount := by
    have hp := hs.consumer
    rwa [hidle] at hp
  have hcall := Transition.System.Run.single (ConsumerSteps.call (p := p) hidle m outSize)
  cases hn : m.count outSize (s.rb.available s.rb.head) with
  | none =>
    refine ⟨[.consumer (.call m (.room outSize)), .consumer .loadHead], ?_⟩
    simp only [ringbufGet, hn, Option.getD_none, List.append_nil, hidle]
    exact hcall.snoc (ConsumerSteps.loadHead_early rfl hn)
  | some n =>
    have hcap : n ≤ s.rb.capacity.toNat := by
      have havail := hs.available hc
      have hbound := hs.bound
      have := (Mode.count_le hn).2
      omega
    have hload := hcall.snoc (ConsumerSteps.loadHead rfl hn)
    obtain ⟨es, hcopy⟩ := ConsumerSteps.copyBytes (p := p) (t := s.tailCount) hs.wf hcap n (Nat.le_refl n)
    rw [hc] at hload
    have hrun := ((hload.trans hcopy).snoc (ConsumerSteps.moveCache rfl (Circular.length_read n))).snoc
      (ConsumerSteps.storeTail rfl)
    rw [ringbufGet_some hs.wf hc hn hcap, hidle, ← count_add hc n]
    exact ⟨_, hrun⟩

end Copper
