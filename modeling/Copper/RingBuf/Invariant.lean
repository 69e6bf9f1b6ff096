import Copper.RingBuf.Steps
import Copper.RingBuf.Lemmas

/-!
# The invariant of the shared ring buffer

With `t` bytes delivered and `h` accepted, the counters are `t` and `h` cut down to 32 bits, at most `capacity` bytes are
unread, and the cells of the unread bytes hold them. A thread in the middle of a call has reserved bytes of its own: the
producer the free cells it fills, from `h` on, the consumer the unread bytes it copies, from `t` on. What the other thread does
meanwhile only frees cells or adds bytes, so the reservation stands. Each party's clause speaks of its own cache and of the two
counts alone, which is why a step of the other party keeps it.
-/

namespace Copper

open Circular (Holds)

/-- The number of bytes delivered. -/
abbrev SpscState.tailCount (s : SpscState) : Nat := s.delivered.length

/-- The number of bytes accepted. -/
abbrev SpscState.headCount (s : SpscState) : Nat := s.accepted.length

/-- The bytes accepted and not delivered. -/
def SpscState.unread (s : SpscState) : List UInt8 := s.accepted.drop s.tailCount

/-- What holds of the producer, with `t` bytes delivered and `h` accepted. -/
def ProducerOk (cap : Nat) (buf : Nat → UInt8) (headCache : BitVec 32) (t h : Nat) : ProducerPc → Prop
  | .idle => headCache = BitVec.ofNat 32 h
  | .loading _ _ => headCache = BitVec.ofNat 32 h
  | .copying data pos n i =>
    headCache = BitVec.ofNat 32 h ∧ pos = BitVec.ofNat 32 h ∧ i ≤ n ∧ n ≤ data.length ∧ h + n ≤ t + cap ∧
      Holds cap buf h (data.take i)
  | .storing data pos n =>
    headCache = BitVec.ofNat 32 (h + n) ∧ pos = BitVec.ofNat 32 h ∧ n ≤ data.length ∧ h + n ≤ t + cap ∧
      Holds cap buf h (data.take n)

/-- What holds of the consumer, with `t` bytes delivered and `unread` to be read. -/
def ConsumerOk (tailCache : BitVec 32) (t : Nat) (unread : List UInt8) : ConsumerPc → Prop
  | .idle => tailCache = BitVec.ofNat 32 t
  | .loading _ _ => tailCache = BitVec.ofNat 32 t
  | .copying pos n out =>
    tailCache = BitVec.ofNat 32 t ∧ pos = BitVec.ofNat 32 t ∧ n ≤ unread.length ∧ out.length ≤ n ∧ out <+: unread
  | .storing pos n out =>
    tailCache = BitVec.ofNat 32 (t + n) ∧ pos = BitVec.ofNat 32 t ∧ n ≤ unread.length ∧ out.length = n ∧ out <+: unread

/-- What holds of an observer: the head it loaded counts `seen` bytes, no more than `capacity` beyond those delivered. -/
def ObserverOk (cap t : Nat) : ObserverPc → Prop
  | .idle => True
  | .loaded _ head seen => head = BitVec.ofNat 32 seen ∧ seen ≤ t + cap

/-- The invariant of every reachable state. -/
structure SpscInv (s : SpscState) : Prop where
  wf : s.rb.WellFormed
  fifo : s.delivered <+: s.accepted
  bound : s.headCount ≤ s.tailCount + s.rb.capacity.toNat
  head : s.rb.head = BitVec.ofNat 32 s.headCount
  tail : s.rb.tail = BitVec.ofNat 32 s.tailCount
  window : Holds s.rb.capacity.toNat s.rb.buf s.tailCount s.unread
  producer : ProducerOk s.rb.capacity.toNat s.rb.buf s.rb.headCache s.tailCount s.headCount s.producer
  consumer : ConsumerOk s.rb.tailCache s.tailCount s.unread s.consumer
  observers : ∀ i, ObserverOk s.rb.capacity.toNat s.tailCount (s.observers i)

/-- The cell of byte `k` of a copy at the count `p` is the cell of the count `p + k`. -/
theorem copyCell_eq {rb : RingBuffer} (hwf : rb.WellFormed) (p : Nat) {n k : Nat} (hn : n ≤ rb.capacity.toNat) (hk : k < n) :
    copyCell rb (BitVec.ofNat 32 p) n k = (p + k) % rb.capacity.toNat := by
  have hlt := hwf.cell_lt p
  simp only [copyCell, hwf.cell, Circular.cell_eq k hlt (by omega)]
  split
  · rw [if_pos (by omega)]
  · rfl

/-- A proper prefix of a list, and the item after it. -/
theorem prefix_snoc {α : Type} {l out : List α} (h : out <+: l) (hlt : out.length < l.length) :
    out ++ [l[out.length]] <+: l := by
  obtain ⟨rest, rfl⟩ := h
  cases rest with
  | nil => simp at hlt
  | cons x rest => exact ⟨rest, by simp⟩

/-! ## How the clauses move with the counts -/

/-- Delivering bytes frees cells, and keeps the producer's clause. -/
theorem ProducerOk.mono {cap t t' h : Nat} {buf : Nat → UInt8} {hc : BitVec 32} {pc : ProducerPc}
    (hp : ProducerOk cap buf hc t h pc) (ht : t ≤ t') : ProducerOk cap buf hc t' h pc := by
  cases pc with
  | idle => exact hp
  | loading m data => exact hp
  | copying data pos n i =>
    obtain ⟨h1, h2, h3, h4, h5, h6⟩ := hp
    exact ⟨h1, h2, h3, h4, by omega, h6⟩
  | storing data pos n =>
    obtain ⟨h1, h2, h3, h4, h5⟩ := hp
    exact ⟨h1, h2, h3, by omega, h5⟩

/-- Accepting bytes keeps the consumer's clause. -/
theorem ConsumerOk.mono {t : Nat} {tc : BitVec 32} {unread more : List UInt8} {pc : ConsumerPc}
    (hp : ConsumerOk tc t unread pc) : ConsumerOk tc t (unread ++ more) pc := by
  cases pc with
  | idle => exact hp
  | loading m n => exact hp
  | copying pos n out =>
    obtain ⟨h1, h2, h3, h4, h5⟩ := hp
    exact ⟨h1, h2, by rw [List.length_append]; omega, h4, h5.trans (List.prefix_append _ _)⟩
  | storing pos n out =>
    obtain ⟨h1, h2, h3, h4, h5⟩ := hp
    exact ⟨h1, h2, by rw [List.length_append]; omega, h4, h5.trans (List.prefix_append _ _)⟩

theorem ObserverOk.mono {cap t t' : Nat} {pc : ObserverPc} (hp : ObserverOk cap t pc) (ht : t ≤ t') :
    ObserverOk cap t' pc := by
  cases pc with
  | idle => trivial
  | loaded q head seen => exact ⟨hp.1, by have := hp.2; omega⟩

theorem SpscState.length_unread (s : SpscState) : s.unread.length = s.headCount - s.tailCount := List.length_drop

/-- The initial states satisfy the invariant. -/
theorem SpscInv.init {p : PtrWidth} {s : SpscState} (h : (spsc p).init s) : SpscInv s := by
  obtain ⟨mem, bufSize, rb, hrb, rfl⟩ := h
  obtain ⟨hwf, -, hh, ht, hhc, htc⟩ := ringbufInit_some hrb
  exact ⟨hwf, List.prefix_refl _, Nat.zero_le _, hh, ht, Circular.holds_nil, hhc, htc, fun _ => trivial⟩

namespace SpscInv

variable {s t : SpscState} (hs : SpscInv s)

include hs

theorem le : s.tailCount ≤ s.headCount := hs.fifo.length_le

theorem freeSpace (hc : s.rb.headCache = BitVec.ofNat 32 s.headCount) :
    s.rb.freeSpace s.rb.tail = s.rb.capacity.toNat - (s.headCount - s.tailCount) := by
  rw [hs.tail]
  exact freeSpace_eq hc hs.le hs.bound

theorem available (hc : s.rb.tailCache = BitVec.ofNat 32 s.tailCount) :
    s.rb.available s.rb.head = s.headCount - s.tailCount := by
  rw [hs.head]
  exact available_eq hc hs.le hs.bound

/-! ## Every step keeps the invariant -/

/-- The producer copies a byte to a cell past the unread bytes, and less than one turn from where they start. -/
theorem produceByte {data : List UInt8} {pos : BitVec 32} {n i : Nat} (hpc : s.producer = .copying data pos n i) (hlt : i < n)
    (hi : i < data.length) :
    SpscInv { s with
      rb := { s.rb with buf := Function.update s.rb.buf (copyCell s.rb pos n i) data[i] }
      producer := .copying data pos n (i + 1) } := by
  have hp := hs.producer
  have hle := hs.le
  rw [hpc] at hp
  obtain ⟨hc, hpos, -, hn, hroom, hheld⟩ := hp
  have hlen : (data.take i).length = i := by
    rw [List.length_take]
    omega
  have hcell : copyCell s.rb pos n i = (s.headCount + (data.take i).length) % s.rb.capacity.toNat := by
    rw [hpos, copyCell_eq hs.wf _ (by omega) hlt, hlen]
  refine { hs with wf := ⟨hs.wf.pow2, hs.wf.mask⟩, window := ?_, producer := ⟨hc, hpos, hlt, hn, hroom, ?_⟩ }
  · rw [hcell]
    refine hs.window.update _ ?_ ?_
    · rw [s.length_unread]
      omega
    · omega
  · have hsnoc := hheld.snoc data[i] (by omega)
    rw [← hcell] at hsnoc
    rwa [List.take_succ_eq_append_getElem hi]

/-- The producer stores the head: the bytes it has copied are accepted. -/
theorem publish {data : List UInt8} {pos : BitVec 32} {n : Nat} (hpc : s.producer = .storing data pos n) :
    SpscInv { s with
      rb := { s.rb with head := s.rb.headCache }
      producer := .idle
      accepted := s.accepted ++ data.take n } := by
  have hp := hs.producer
  have hle := hs.le
  rw [hpc] at hp
  obtain ⟨hc, hpos, hn, hroom, hheld⟩ := hp
  have hlen : (s.accepted ++ data.take n).length = s.headCount + n := by
    rw [List.length_append, List.length_take, Nat.min_eq_left hn]
  have hunread : (s.accepted ++ data.take n).drop s.tailCount = s.unread ++ data.take n :=
    List.drop_append_of_le_length hle
  refine ⟨⟨hs.wf.pow2, hs.wf.mask⟩, hs.fifo.trans (List.prefix_append _ _), ?_, ?_, hs.tail, ?_, ?_, ?_, hs.observers⟩
  · show (s.accepted ++ data.take n).length ≤ _
    rw [hlen]
    exact hroom
  · show s.rb.headCache = BitVec.ofNat 32 (s.accepted ++ data.take n).length
    rw [hlen, hc]
  · show Holds _ _ _ ((s.accepted ++ data.take n).drop s.tailCount)
    rw [hunread]
    refine Circular.holds_append.mpr ⟨hs.window, ?_⟩
    rwa [s.length_unread, Nat.add_sub_cancel' hle]
  · show s.rb.headCache = BitVec.ofNat 32 (s.accepted ++ data.take n).length
    rw [hlen, hc]
  · show ConsumerOk _ _ ((s.accepted ++ data.take n).drop s.tailCount) _
    rw [hunread]
    exact hs.consumer.mono

/-- The consumer copies the byte that comes next. -/
theorem consumeByte {pos : BitVec 32} {n : Nat} {out : List UInt8} (hpc : s.consumer = .copying pos n out)
    (hlt : out.length < n) :
    SpscInv { s with consumer := .copying pos n (out ++ [s.rb.buf (copyCell s.rb pos n out.length)]) } := by
  have hc := hs.consumer
  have hbound := hs.bound
  have hlen := s.length_unread
  rw [hpc] at hc
  obtain ⟨hcache, hpos, hn, hi, hout⟩ := hc
  have hin : out.length < s.unread.length := by omega
  have hbyte : s.rb.buf (copyCell s.rb pos n out.length) = s.unread[out.length] := by
    rw [hpos, copyCell_eq hs.wf _ (by omega) hlt]
    exact hs.window _ hin
  have hout' : out ++ [s.rb.buf (copyCell s.rb pos n out.length)] <+: s.unread := by
    rw [hbyte]
    exact prefix_snoc hout hin
  exact { hs with consumer := ⟨hcache, hpos, hn, by rw [List.length_append]; exact hlt, hout'⟩ }

/-- The consumer stores the tail: the bytes it has copied are delivered. -/
theorem release {pos : BitVec 32} {n : Nat} {out : List UInt8} (hpc : s.consumer = .storing pos n out) :
    SpscInv { s with
      rb := { s.rb with tail := s.rb.tailCache }
      consumer := .idle
      delivered := s.delivered ++ out } := by
  have hc := hs.consumer
  have hbound := hs.bound
  rw [hpc] at hc
  obtain ⟨hcache, hpos, hn, hi, hout⟩ := hc
  have hdel : (s.delivered ++ out).length = s.tailCount + n := by rw [List.length_append, hi]
  have hunread : s.accepted.drop (s.tailCount + n) = s.unread.drop n := by rw [SpscState.unread, List.drop_drop]
  have hsplit : s.accepted = s.delivered ++ s.unread := (List.prefix_iff_eq_append.mp hs.fifo).symm
  refine ⟨⟨hs.wf.pow2, hs.wf.mask⟩, ?_, ?_, hs.head, ?_, ?_, ?_, ?_, fun i => ?_⟩
  · show s.delivered ++ out <+: s.accepted
    rw [hsplit]
    exact (List.prefix_append_right_inj _).mpr hout
  · show s.headCount ≤ (s.delivered ++ out).length + s.rb.capacity.toNat
    rw [hdel]
    omega
  · show s.rb.tailCache = BitVec.ofNat 32 (s.delivered ++ out).length
    rw [hdel, hcache]
  · show Holds _ _ (s.delivered ++ out).length (s.accepted.drop (s.delivered ++ out).length)
    rw [hdel, hunread]
    exact hs.window.drop hn
  · show ProducerOk _ _ _ (s.delivered ++ out).length _ _
    exact hs.producer.mono (by rw [hdel]; exact Nat.le_add_right _ n)
  · show s.rb.tailCache = BitVec.ofNat 32 (s.delivered ++ out).length
    rw [hdel, hcache]
  · show ObserverOk _ (s.delivered ++ out).length _
    exact (hs.observers i).mono (by rw [hdel]; exact Nat.le_add_right _ n)

/-- A step of the producer keeps the invariant. -/
theorem producerNext {e : ProducerEvent} (h : Copper.producerNext s e = some t) : SpscInv t := by
  have hp := hs.producer
  have hle := hs.le
  have hbound := hs.bound
  cases e with
  | call m data =>
    simp only [Copper.producerNext] at h
    split at h
    · rename_i hpc
      rw [hpc] at hp
      cases h
      split
      · exact hs
      · exact { hs with producer := hp }
    · cases h
  | loadTail =>
    simp only [Copper.producerNext] at h
    split at h
    · rename_i m data hpc
      rw [hpc] at hp
      have hfree := hs.freeSpace hp
      split at h
      · cases h
        exact { hs with producer := hp }
      · rename_i n hn
        cases h
        obtain ⟨hd, hl⟩ := Mode.count_le hn
        have hroom : s.headCount + n ≤ s.tailCount + s.rb.capacity.toNat := by omega
        exact { hs with producer := ⟨hp, hp, Nat.zero_le _, hd, hroom, Circular.holds_nil⟩ }
    · cases h
  | copyByte =>
    simp only [Copper.producerNext] at h
    split at h
    · rename_i data pos n i hpc
      rw [hpc] at hp
      obtain ⟨-, -, -, hn, -, -⟩ := hp
      split at h
      · rename_i hlt
        have hi : i < data.length := by omega
        rw [List.getElem?_eq_getElem hi, Option.map_some] at h
        cases h
        exact hs.produceByte hpc hlt hi
      · cases h
    · cases h
  | moveCache =>
    simp only [Copper.producerNext] at h
    split at h
    · rename_i data pos n i hpc
      rw [hpc] at hp
      obtain ⟨hc, hpos, hi, hn, hroom, hheld⟩ := hp
      split at h
      · rename_i hin
        cases h
        subst hin
        exact { hs with wf := ⟨hs.wf.pow2, hs.wf.mask⟩, producer := ⟨count_add hc i, hpos, hn, hroom, hheld⟩ }
      · cases h
    · cases h
  | storeHead =>
    simp only [Copper.producerNext] at h
    split at h
    · rename_i data pos n hpc
      cases h
      exact hs.publish hpc
    · cases h

/-- A step of the consumer keeps the invariant. -/
theorem consumerNext {e : ConsumerEvent} (h : Copper.consumerNext s e = some t) : SpscInv t := by
  have hc := hs.consumer
  have hle := hs.le
  have hbound := hs.bound
  have hlen := s.length_unread
  cases e with
  | call m out =>
    simp only [Copper.consumerNext] at h
    split at h
    · rename_i hpc
      rw [hpc] at hc
      cases h
      split
      · exact hs
      · exact { hs with consumer := hc }
    · cases h
  | loadHead =>
    simp only [Copper.consumerNext] at h
    split at h
    · rename_i m outSize hpc
      rw [hpc] at hc
      have havail := hs.available hc
      split at h
      · cases h
        exact { hs with consumer := hc }
      · rename_i n hn
        cases h
        obtain ⟨-, hl⟩ := Mode.count_le hn
        have hn' : n ≤ s.unread.length := by omega
        exact { hs with consumer := ⟨hc, hc, hn', Nat.zero_le _, List.nil_prefix⟩ }
    · cases h
  | copyByte =>
    simp only [Copper.consumerNext] at h
    split at h
    · rename_i pos n out hpc
      split at h
      · rename_i hlt
        cases h
        exact hs.consumeByte hpc hlt
      · cases h
    · cases h
  | moveCache =>
    simp only [Copper.consumerNext] at h
    split at h
    · rename_i pos n out hpc
      rw [hpc] at hc
      obtain ⟨hcache, hpos, hn, hi, hout⟩ := hc
      split at h
      · rename_i hin
        cases h
        exact { hs with wf := ⟨hs.wf.pow2, hs.wf.mask⟩, consumer := ⟨count_add hcache n, hpos, hn, hin, hout⟩ }
      · cases h
    · cases h
  | storeTail =>
    simp only [Copper.consumerNext] at h
    split at h
    · rename_i pos n out hpc
      cases h
      exact hs.release hpc
    · cases h

/-- A step of an observer keeps the invariant. -/
theorem observerNext {p : PtrWidth} {i : Nat} {e : ObserverEvent} (h : Copper.observerNext p s i e = some t) :
    SpscInv t := by
  have hbound := hs.bound
  cases e with
  | loadHead query =>
    simp only [Copper.observerNext] at h
    split at h
    · cases h
      refine { hs with observers := fun j => ?_ }
      by_cases hj : j = i
      · subst hj
        simp only [Function.update_self]
        exact ⟨hs.head, hbound⟩
      · simp only [Function.update_of_ne hj]
        exact hs.observers j
    · cases h
  | loadTail =>
    simp only [Copper.observerNext] at h
    split at h
    · cases h
      refine { hs with observers := fun j => ?_ }
      by_cases hj : j = i
      · subst hj
        simp only [Function.update_self]
        trivial
      · simp only [Function.update_of_ne hj]
        exact hs.observers j
    · cases h

end SpscInv

/-- The invariant holds initially and is kept by every step. -/
theorem spscInv_inductive (p : PtrWidth) : (spsc p).Inductive SpscInv where
  init _ := SpscInv.init
  step s e t hs h := by
    cases e with
    | producer e => exact hs.producerNext h
    | consumer e => exact hs.consumerNext h
    | observer i e => exact hs.observerNext h

/-- The invariant holds of every reachable state. -/
theorem spscInv_of_reachable {p : PtrWidth} {s : SpscState} (h : (spsc p).Reachable s) : SpscInv s :=
  h.invariant (spscInv_inductive p)

end Copper
