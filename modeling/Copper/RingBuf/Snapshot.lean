import Copper.RingBuf.Invariant

/-!
# What an observer may see

`cpr_ringbuf_size` loads the head and then, in another step, the tail. Nothing stops the consumer from delivering bytes in
between that were accepted after the head was loaded: the tail is then past the head it is subtracted from, and the difference
wraps. `Query.value_le_iff` says for which distances the value is still at most the capacity, and `snapshot_bounded` carries it
to whole runs.
-/

namespace Copper

/-- The tail passed the head an observer loaded by `k` bytes: by none, up to whole turns of the counters, or by nearly a whole
turn. -/
def PassedHarmlessly (cap k : Nat) : Prop := k % 2 ^ 32 = 0 ∨ 2 ^ 32 ≤ k % 2 ^ 32 + cap

/-- An observer's second load finds a tail that has not passed the head of its first load, or has passed it harmlessly. Steps
other than an observer's second load are free. -/
def SnapshotTimely (s : SpscState) : SpscEvent → Prop
  | .observer i .loadTail =>
    match s.observers i with
    | .loaded _ _ seen => PassedHarmlessly s.rb.capacity.toNat (s.tailCount - seen)
    | .idle => True
  | _ => True

/-- The size computed from a head and a tail, by how far the tail is past the head. -/
theorem sizeOf32_le_iff {cap : BitVec 32} {seen t : Nat} (h : seen ≤ t + cap.toNat) :
    sizeOf32 (BitVec.ofNat 32 seen) (BitVec.ofNat 32 t) ≤ cap.toNat ↔ PassedHarmlessly cap.toNat (t - seen) := by
  have hcap := cap.isLt
  unfold sizeOf32 PassedHarmlessly
  rcases Nat.le_total t seen with hle | hle
  · rw [WrapCounter.toNat_sub_of_le hle (by omega)]
    omega
  · rw [WrapCounter.toNat_sub_of_ge hle]
    omega

/-- In `size_t`, the capacity less a size stays at most the capacity exactly when the size does. -/
theorem freeOfSize_le_iff (p : PtrWidth) (cap head tail : BitVec 32) :
    freeOfSize p cap (sizeOf32 head tail) ≤ cap.toNat ↔ sizeOf32 head tail ≤ cap.toNat := by
  have hcap := cap.isLt
  have hrange := p.range_le
  have hsize : sizeOf32 head tail < 2 ^ 32 := (head - tail).isLt
  unfold freeOfSize
  rcases Nat.le_total (sizeOf32 head tail) cap.toNat with hle | hle
  · rw [WrapCounter.toNat_sub_of_le hle (by omega)]
    exact ⟨fun _ => hle, fun _ => Nat.sub_le _ _⟩
  · rw [WrapCounter.toNat_sub_of_ge hle, Nat.mod_eq_of_lt (a := sizeOf32 head tail - cap.toNat) (by omega)]
    rcases Nat.eq_or_lt_of_le hle with heq | hlt
    · rw [← heq, Nat.sub_self, Nat.sub_zero, Nat.mod_self]
      exact ⟨fun _ => Nat.le_refl _, fun _ => Nat.zero_le _⟩
    · rw [Nat.mod_eq_of_lt (by omega)]
      omega

/-- What an observer returns is at most the capacity exactly when the tail has not passed the head it loaded, or harmlessly. -/
theorem Query.value_le_iff (p : PtrWidth) (q : Query) (cap : BitVec 32) {seen t : Nat} (h : seen ≤ t + cap.toNat) :
    q.value p cap (BitVec.ofNat 32 seen) (BitVec.ofNat 32 t) ≤ cap.toNat ↔ PassedHarmlessly cap.toNat (t - seen) := by
  cases q with
  | size => exact sizeOf32_le_iff h
  | free => exact (freeOfSize_le_iff p cap _ _).trans (sizeOf32_le_iff h)

/-- Everything the observers were told lies between zero and the capacity. -/
def SpscState.Bounded (s : SpscState) : Prop := ∀ r ∈ s.returned, r.2 ≤ s.rb.capacity.toNat

/-! ## What a step does to what was returned -/

/-- A step of the producer changes neither the capacity nor what was returned. -/
theorem producerNext_frame {s t : SpscState} {e : ProducerEvent} (h : producerNext s e = some t) :
    t.rb.capacity = s.rb.capacity ∧ t.returned = s.returned := by
  cases e with
  | call m data =>
    simp only [producerNext] at h
    split at h <;> cases h
    split <;> exact ⟨rfl, rfl⟩
  | loadTail =>
    simp only [producerNext] at h
    split at h
    · split at h <;> cases h <;> exact ⟨rfl, rfl⟩
    · cases h
  | copyByte =>
    simp only [producerNext] at h
    split at h
    · split at h
      · obtain ⟨b, -, rfl⟩ := Option.map_eq_some_iff.mp h
        exact ⟨rfl, rfl⟩
      · cases h
    · cases h
  | moveCache =>
    simp only [producerNext] at h
    split at h
    · split at h <;> cases h
      exact ⟨rfl, rfl⟩
    · cases h
  | storeHead =>
    simp only [producerNext] at h
    split at h <;> cases h
    exact ⟨rfl, rfl⟩

/-- A step of the consumer changes neither the capacity nor what was returned. -/
theorem consumerNext_frame {s t : SpscState} {e : ConsumerEvent} (h : consumerNext s e = some t) :
    t.rb.capacity = s.rb.capacity ∧ t.returned = s.returned := by
  cases e with
  | call m out =>
    simp only [consumerNext] at h
    split at h <;> cases h
    split <;> exact ⟨rfl, rfl⟩
  | loadHead =>
    simp only [consumerNext] at h
    split at h
    · split at h <;> cases h <;> exact ⟨rfl, rfl⟩
    · cases h
  | copyByte =>
    simp only [consumerNext] at h
    split at h
    · split at h <;> cases h
      exact ⟨rfl, rfl⟩
    · cases h
  | moveCache =>
    simp only [consumerNext] at h
    split at h
    · split at h <;> cases h
      exact ⟨rfl, rfl⟩
    · cases h
  | storeTail =>
    simp only [consumerNext] at h
    split at h <;> cases h
    exact ⟨rfl, rfl⟩

/-- Whatever was returned stays in range, and a second load adds a value that is in range exactly when it is timely. -/
theorem SpscInv.bounded_iff {p : PtrWidth} {s t : SpscState} {e : SpscEvent} (hs : SpscInv s)
    (h : (spsc p).step s e t) : t.Bounded ↔ s.Bounded ∧ SnapshotTimely s e := by
  have hstep : spscNext p s e = some t := h
  cases e with
  | producer e =>
    obtain ⟨hcap, hret⟩ := producerNext_frame hstep
    rw [SpscState.Bounded, SpscState.Bounded, hcap, hret]
    exact ⟨fun hb => ⟨hb, trivial⟩, fun hb => hb.1⟩
  | consumer e =>
    obtain ⟨hcap, hret⟩ := consumerNext_frame hstep
    rw [SpscState.Bounded, SpscState.Bounded, hcap, hret]
    exact ⟨fun hb => ⟨hb, trivial⟩, fun hb => hb.1⟩
  | observer i e =>
    cases e with
    | loadHead query =>
      simp only [spscNext, Copper.observerNext] at hstep
      split at hstep <;> cases hstep
      exact ⟨fun hb => ⟨hb, trivial⟩, fun hb => hb.1⟩
    | loadTail =>
      have ho := hs.observers i
      simp only [spscNext, Copper.observerNext] at hstep
      split at hstep <;> cases hstep
      rename_i query head seen hpc
      rw [hpc] at ho
      obtain ⟨hhead, hseen⟩ := ho
      have hvalue := query.value_le_iff p s.rb.capacity hseen
      rw [← hhead, ← hs.tail] at hvalue
      simp only [SpscState.Bounded, SnapshotTimely, hpc, List.forall_mem_cons, hvalue]
      exact and_comm

/-- In every run, every value the observers are returned lies between zero and the capacity exactly when each observer's second
load finds a tail that has not passed the head it loaded, or has passed it harmlessly. -/
theorem snapshot_bounded {p : PtrWidth} {s t : SpscState} {es : List SpscEvent} (hinit : (spsc p).init s)
    (hrun : (spsc p).Run s es t) : t.Bounded ↔ ((spsc p).restrict SnapshotTimely).Run s es t := by
  refine hrun.holds_iff_restrict (spscInv_inductive p).step (fun u e v hu huv => hu.bounded_iff huv) (SpscInv.init hinit) ?_
  obtain ⟨mem, bufSize, rb, -, rfl⟩ := hinit
  exact fun r hr => absurd hr List.not_mem_nil

/-- A buffer of one byte: an observer loads the head, a byte goes in and out, and the observer loads the tail. -/
def runOvertaken : List SpscEvent :=
  [.observer 0 (.loadHead .size), .producer (.call .all (.bytes [7])), .producer .loadTail, .producer .copyByte,
    .producer .moveCache, .producer .storeHead, .consumer (.call .all (.room 1)), .consumer .loadHead, .consumer .copyByte,
    .consumer .moveCache, .consumer .storeTail, .observer 0 .loadTail]

/-- The observer of `runOvertaken` is told that a buffer of one byte holds `2 ^ 32 - 1`. -/
theorem snapshot_overtaken : ∃ s, (spsc .w64).Reachable s ∧ s.rb.capacity = 1 ∧ s.returned = [(.size, 4294967295)] ∧
    ¬ s.Bounded := by
  obtain ⟨s, hs, hv⟩ := spsc_reachable_of_replay .w64 (fun s => (s.rb.capacity, s.returned))
    (1, [(.size, 4294967295)]) 1 runOvertaken (by decide)
  obtain ⟨hcap, hret⟩ := Prod.mk.inj hv
  refine ⟨s, hs, hcap, hret, fun hb => ?_⟩
  rw [SpscState.Bounded, hcap, hret] at hb
  exact absurd (hb _ List.mem_cons_self) (by decide)

/-- Loads with nothing between them are timely. -/
theorem snapshot_bounded_quiet : ∃ s t, (spsc .w64).init s ∧
    (spsc .w64).Run s [.observer 0 (.loadHead .free), .observer 0 .loadTail] t ∧ t.returned = [(.free, 4)] ∧
    (t.Bounded ↔ ((spsc .w64).restrict SnapshotTimely).Run s [.observer 0 (.loadHead .free), .observer 0 .loadTail] t) := by
  have hinit : (spsc .w64).init (.start ⟨fun _ => 0, 4, 3, 0, 0, 0, 0⟩) := ⟨fun _ => 0, 4, _, rfl, rfl⟩
  have hrun : (spsc .w64).Run (.start ⟨fun _ => 0, 4, 3, 0, 0, 0, 0⟩) [.observer 0 (.loadHead .free), .observer 0 .loadTail] _ :=
    Transition.System.run_of_replay _ rfl
  exact ⟨_, _, hinit, hrun, rfl, snapshot_bounded hinit hrun⟩

end Copper
