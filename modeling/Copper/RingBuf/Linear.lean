import Copper.RingBuf.Spsc

/-!
# One call after the other

A run of the producer and the consumer beside the queue it stands for. A call takes effect on the queue in its last step, the early
return or the store that publishes it, so that effects have the order of the calls where these do not overlap. An all-or-nothing call
does exactly what the queue allows there; the others move at least what was possible when they were made, and no more than what is
possible now (`spsc_linearizable`). No party waits for the other: every step of a call brings it nearer its end, whatever the other
party does or leaves undone (`spsc_wait_free`).
-/

namespace Copper

open Transition

/-! ## The queue -/

/-- How many bytes a call may move that asked for so many, when `least` were possible at its start and `room` are now; one that
returns early finds that none are. -/
def Mode.Moves (m : Mode) (requested least room : Nat) : Option Nat → Prop
  | none => m.count requested room = none
  | some n => ∃ limit, least ≤ limit ∧ limit ≤ room ∧ m.count requested limit = some n

/-- The effect of a call: what it asked for, what it moved, `none` for the early return, and what was possible when it was made. -/
inductive QueueEffect where
  | wrote (m : Mode) (data : List UInt8) (n : Option Nat) (least : Nat)
  | read (m : Mode) (outSize : Nat) (out : Option (List UInt8)) (least : Nat)
  deriving DecidableEq, Repr

/-- What effects do to a queue of at most `cap` bytes. -/
def queueSystem (cap : Nat) : System (List UInt8) QueueEffect where
  init q := q = []
  step q e q' :=
    match e with
    | .wrote m data n least => m.Moves data.length least (cap - q.length) n ∧ q' = q ++ data.take (n.getD 0)
    | .read m outSize out least =>
      m.Moves outSize least q.length (out.map List.length) ∧ out.getD [] <+: q ∧ q' = q.drop (out.getD []).length

/-! ## Runs beside their effects -/

/-- A state, and its history: the calls that the parties made last, with what was possible then, how many they made, and the effects
of those that have ended. -/
structure SpscTrace where
  s : SpscState
  producing : Mode × List UInt8 × Nat
  consuming : Mode × Nat × Nat
  writes : Nat
  reads : Nat
  effects : List QueueEffect

namespace SpscTrace

variable (t : SpscTrace)

/-- How many bytes can be written. -/
def room : Nat := t.s.rb.capacity.toNat - t.s.unread.length

/-- The effect of a step, if it ends a call. -/
def effect : SpscEvent → List QueueEffect
  | .producer .loadTail =>
    match t.s.producer with
    | .loading m data =>
      if m.count data.length (t.s.rb.freeSpace t.s.rb.tail) = none then [.wrote m data none t.producing.2.2] else []
    | _ => []
  | .producer .storeHead =>
    match t.s.producer with
    | .storing data _ n => [.wrote t.producing.1 data (some n) t.producing.2.2]
    | _ => []
  | .consumer .loadHead =>
    match t.s.consumer with
    | .loading m outSize =>
      if m.count outSize (t.s.rb.available t.s.rb.head) = none then [.read m outSize none t.consuming.2.2] else []
    | _ => []
  | .consumer .storeTail =>
    match t.s.consumer with
    | .storing _ _ out => [.read t.consuming.1 t.consuming.2.1 (some out) t.consuming.2.2]
    | _ => []
  | _ => []

/-- The history after a step to `s`. -/
def after (s : SpscState) : SpscEvent → SpscTrace
  | .producer (.call m data) =>
    if data.missing then { t with s := s }
    else { t with s := s, producing := (m, data.toList, t.room), writes := t.writes + 1 }
  | .consumer (.call m out) =>
    if out.missing then { t with s := s }
    else { t with s := s, consuming := (m, out.size, t.s.unread.length), reads := t.reads + 1 }
  | e => { t with s := s, effects := t.effects ++ t.effect e }

/-- A step, with its history. -/
def next (p : PtrWidth) (e : SpscEvent) : Option SpscTrace :=
  (spscNext p t.s e).map fun s => t.after s e

end SpscTrace

/-- Where a run starts, before any call. -/
def SpscTrace.start (s : SpscState) : SpscTrace where
  s := s
  producing := (.upTo, [], 0)
  consuming := (.upTo, 0, 0)
  writes := 0
  reads := 0
  effects := []

/-- Every interleaving, with its history. -/
def spscTraces (p : PtrWidth) : System SpscTrace SpscEvent :=
  .ofNext (fun t => ∃ s : SpscState, s.Initial ∧ t = .start s) fun t e => t.next p e

/-- How many of some effects are writes. -/
def writesIn (es : List QueueEffect) : Nat := es.countP fun e => match e with | .wrote .. => true | _ => false

def readsIn (es : List QueueEffect) : Nat := es.countP fun e => match e with | .read .. => true | _ => false

/-! ## The invariant -/

/-- What holds of the producer's call, with its history. -/
def ProducerTraced (room : Nat) (call : Mode × List UInt8 × Nat) : ProducerPc → Prop
  | .idle => True
  | .loading m data => call.1 = m ∧ call.2.1 = data ∧ call.2.2 ≤ room
  | .copying data _ n _ => call.2.1 = data ∧ call.1.Moves data.length call.2.2 room (some n)
  | .storing data _ n => call.2.1 = data ∧ call.1.Moves data.length call.2.2 room (some n)

/-- What holds of the consumer's call, with `unread` bytes to read. -/
def ConsumerTraced (unread : Nat) (call : Mode × Nat × Nat) : ConsumerPc → Prop
  | .idle => True
  | .loading m outSize => call.1 = m ∧ call.2.1 = outSize ∧ call.2.2 ≤ unread
  | .copying _ n _ => call.1.Moves call.2.1 call.2.2 unread (some n)
  | .storing _ n _ => call.1.Moves call.2.1 call.2.2 unread (some n)

/-- A call under way has not had its effect. -/
def ProducerPc.pending : ProducerPc → Nat
  | .idle => 0
  | _ => 1

def ConsumerPc.pending : ConsumerPc → Nat
  | .idle => 0
  | _ => 1

structure TraceInv (cap : Nat) (t : SpscTrace) : Prop where
  inv : SpscInv t.s
  capacity : t.s.rb.capacity.toNat = cap
  run : (queueSystem cap).Run [] t.effects t.s.unread
  writes : t.writes = writesIn t.effects + t.s.producer.pending
  reads : t.reads = readsIn t.effects + t.s.consumer.pending
  producer : ProducerTraced t.room t.producing t.s.producer
  consumer : ConsumerTraced t.s.unread.length t.consuming t.s.consumer

theorem Mode.Moves.mono {m : Mode} {requested least room room' n : Nat} (h : m.Moves requested least room (some n)) (hr : room ≤ room') :
    m.Moves requested least room' (some n) := by
  obtain ⟨limit, hleast, hlimit, hn⟩ := h
  exact ⟨limit, hleast, Nat.le_trans hlimit hr, hn⟩

/-- What the consumer does meanwhile only makes room. -/
theorem ProducerTraced.mono {room room' : Nat} {call : Mode × List UInt8 × Nat} {pc : ProducerPc}
    (h : ProducerTraced room call pc) (hr : room ≤ room') : ProducerTraced room' call pc := by
  cases pc with
  | idle => trivial
  | loading m data => exact ⟨h.1, h.2.1, Nat.le_trans h.2.2 hr⟩
  | copying data pos n i => exact ⟨h.1, Mode.Moves.mono h.2 hr⟩
  | storing data pos n => exact ⟨h.1, Mode.Moves.mono h.2 hr⟩

/-- What the producer does meanwhile only adds bytes. -/
theorem ConsumerTraced.mono {unread unread' : Nat} {call : Mode × Nat × Nat} {pc : ConsumerPc}
    (h : ConsumerTraced unread call pc) (hr : unread ≤ unread') : ConsumerTraced unread' call pc := by
  cases pc with
  | idle => trivial
  | loading m outSize => exact ⟨h.1, h.2.1, Nat.le_trans h.2.2 hr⟩
  | copying pos n out => exact Mode.Moves.mono h hr
  | storing pos n out => exact Mode.Moves.mono h hr

theorem writesIn_wrote (es : List QueueEffect) (m : Mode) (data : List UInt8) (n : Option Nat) (least : Nat) :
    writesIn (es ++ [.wrote m data n least]) = writesIn es + 1 := by
  simp [writesIn]

theorem writesIn_read (es : List QueueEffect) (m : Mode) (outSize : Nat) (out : Option (List UInt8)) (least : Nat) :
    writesIn (es ++ [.read m outSize out least]) = writesIn es := by
  simp [writesIn]

theorem readsIn_wrote (es : List QueueEffect) (m : Mode) (data : List UInt8) (n : Option Nat) (least : Nat) :
    readsIn (es ++ [.wrote m data n least]) = readsIn es := by
  simp [readsIn]

theorem readsIn_read (es : List QueueEffect) (m : Mode) (outSize : Nat) (out : Option (List UInt8)) (least : Nat) :
    readsIn (es ++ [.read m outSize out least]) = readsIn es + 1 := by
  simp [readsIn]

namespace TraceInv

variable {p : PtrWidth} {cap : Nat} {t t' : SpscTrace} (h : TraceInv cap t)

include h

/-- What the producer finds free is the room of the queue. -/
theorem freeSpace (hc : t.s.rb.headCache = BitVec.ofNat 32 t.s.headCount) : t.s.rb.freeSpace t.s.rb.tail = t.room := by
  rw [h.inv.freeSpace hc, SpscTrace.room, t.s.length_unread]

/-- What the consumer finds available is what the queue holds. -/
theorem available (hc : t.s.rb.tailCache = BitVec.ofNat 32 t.s.tailCount) :
    t.s.rb.available t.s.rb.head = t.s.unread.length := by
  rw [h.inv.available hc, t.s.length_unread]

/-- The end of a producer's call, whether it moved bytes or not, is its effect. -/
theorem wrote {s : SpscState} {m : Mode} {data : List UInt8} {n : Option Nat} {least : Nat} (hinv : SpscInv s)
    (hcap : s.rb.capacity = t.s.rb.capacity) (hmoves : m.Moves data.length least t.room n)
    (hq : s.unread = t.s.unread ++ data.take (n.getD 0)) (hpending : t.s.producer.pending = 1) (hidle : s.producer = .idle)
    (hconsumer : s.consumer = t.s.consumer) : TraceInv cap { t with s := s, effects := t.effects ++ [.wrote m data n least] } where
  inv := hinv
  capacity := (congrArg BitVec.toNat hcap).trans h.capacity
  run := by
    rw [SpscTrace.room, h.capacity] at hmoves
    exact h.run.snoc ⟨hmoves, hq⟩
  writes := by rw [writesIn_wrote, hidle, h.writes, hpending]; rfl
  reads := by rw [readsIn_wrote, hconsumer]; exact h.reads
  producer := by rw [hidle]; trivial
  consumer := by
    rw [hconsumer, hq]
    exact h.consumer.mono (by rw [List.length_append]; exact Nat.le_add_right _ _)

/-- The end of a consumer's call is its effect. -/
theorem readOut {s : SpscState} {m : Mode} {outSize : Nat} {out : Option (List UInt8)} {least : Nat} (hinv : SpscInv s)
    (hcap : s.rb.capacity = t.s.rb.capacity) (hmoves : m.Moves outSize least t.s.unread.length (out.map List.length))
    (hout : out.getD [] <+: t.s.unread) (hq : s.unread = t.s.unread.drop (out.getD []).length)
    (hpending : t.s.consumer.pending = 1) (hidle : s.consumer = .idle) (hproducer : s.producer = t.s.producer) :
    TraceInv cap { t with s := s, effects := t.effects ++ [.read m outSize out least] } where
  inv := hinv
  capacity := (congrArg BitVec.toNat hcap).trans h.capacity
  run := h.run.snoc ⟨hmoves, hout, hq⟩
  writes := by rw [writesIn_read, hproducer]; exact h.writes
  reads := by rw [readsIn_read, hidle, h.reads, hpending]; rfl
  producer := by
    rw [hproducer]
    refine h.producer.mono ?_
    rw [SpscTrace.room, SpscTrace.room, hcap, hq, List.length_drop]
    omega
  consumer := by rw [hidle]; trivial

/-- A step that ends no call leaves the queue and the effects. -/
theorem quiet {s : SpscState} (hinv : SpscInv s) (hcap : s.rb.capacity = t.s.rb.capacity) (hq : s.unread = t.s.unread)
    (hw : s.producer.pending = t.s.producer.pending) (hr : s.consumer.pending = t.s.consumer.pending)
    (hp : ProducerTraced t.room t.producing s.producer) (hc : ConsumerTraced t.s.unread.length t.consuming s.consumer) :
    TraceInv cap { t with s := s, effects := t.effects ++ [] } where
  inv := hinv
  capacity := (congrArg BitVec.toNat hcap).trans h.capacity
  run := by rw [List.append_nil, hq]; exact h.run
  writes := by rw [List.append_nil, hw]; exact h.writes
  reads := by rw [List.append_nil, hr]; exact h.reads
  producer := by rw [SpscTrace.room, hcap, hq]; exact hp
  consumer := by rw [hq]; exact hc

/-- A step of the producer keeps the invariant. -/
theorem producerNext {e : ProducerEvent} (hnext : t.next p (.producer e) = some t') : TraceInv cap t' := by
  have hp := h.producer
  have hok := h.inv.producer
  obtain ⟨s', hs, rfl⟩ := Option.map_eq_some_iff.mp hnext
  have hinv := h.inv.producerNext hs
  clear hnext
  cases e with
  | call m data =>
    simp only [spscNext, Copper.producerNext] at hs
    split at hs
    · rename_i hpc
      cases hs
      have hw := h.writes
      rw [hpc] at hw
      cases hm : data.missing
      · simp only [SpscTrace.after, hm, Bool.false_eq_true, if_false] at hinv ⊢
        exact { h with inv := hinv, writes := congrArg (· + 1) hw, producer := ⟨rfl, rfl, Nat.le_refl _⟩ }
      · simp only [SpscTrace.after, hm, if_true]
        exact h
    · cases hs
  | loadTail =>
    simp only [spscNext, Copper.producerNext] at hs
    split at hs
    · rename_i m data hpc
      rw [hpc] at hp hok
      have hroom := h.freeSpace hok
      obtain ⟨hm, hdata, hleast⟩ := hp
      split at hs
      · rename_i hn
        cases hs
        have heffect : t.effect (.producer .loadTail) = [.wrote m data none t.producing.2.2] := by
          simp only [SpscTrace.effect, hpc, hn, if_true]
        show TraceInv cap { t with s := _, effects := t.effects ++ t.effect _ }
        rw [heffect]
        exact h.wrote hinv rfl (hroom ▸ hn) (List.append_nil _).symm (by rw [hpc]; rfl) rfl rfl
      · rename_i n hn
        cases hs
        have heffect : t.effect (.producer .loadTail) = [] := by
          simp only [SpscTrace.effect, hpc, hn]
          rfl
        show TraceInv cap { t with s := _, effects := t.effects ++ t.effect _ }
        rw [heffect]
        exact h.quiet hinv rfl rfl (by rw [hpc]; rfl) rfl ⟨hdata, _, hleast, Nat.le_refl _, hm ▸ hroom ▸ hn⟩ h.consumer
    · cases hs
  | copyByte =>
    simp only [spscNext, Copper.producerNext] at hs
    split at hs
    · rename_i data pos n i hpc
      split at hs
      · obtain ⟨b, -, rfl⟩ := Option.map_eq_some_iff.mp hs
        rw [hpc] at hp
        exact h.quiet hinv rfl rfl (by rw [hpc]; rfl) rfl hp h.consumer
      · cases hs
    · cases hs
  | moveCache =>
    simp only [spscNext, Copper.producerNext] at hs
    split at hs
    · rename_i data pos n i hpc
      split at hs
      · cases hs
        rw [hpc] at hp
        exact h.quiet hinv rfl rfl (by rw [hpc]; rfl) rfl hp h.consumer
      · cases hs
    · cases hs
  | storeHead =>
    simp only [spscNext, Copper.producerNext] at hs
    split at hs
    · rename_i data pos n hpc
      rw [hpc] at hp
      cases hs
      have heffect : t.effect (.producer .storeHead) = [.wrote t.producing.1 data (some n) t.producing.2.2] := by
        simp only [SpscTrace.effect, hpc]
      show TraceInv cap { t with s := _, effects := t.effects ++ t.effect _ }
      rw [heffect]
      exact h.wrote hinv rfl hp.2 (List.drop_append_of_le_length h.inv.le) (by rw [hpc]; rfl) rfl rfl
    · cases hs

/-- A step of the consumer keeps the invariant. -/
theorem consumerNext {e : ConsumerEvent} (hnext : t.next p (.consumer e) = some t') : TraceInv cap t' := by
  have hc := h.consumer
  have hok := h.inv.consumer
  obtain ⟨s', hs, rfl⟩ := Option.map_eq_some_iff.mp hnext
  have hinv := h.inv.consumerNext hs
  clear hnext
  cases e with
  | call m out =>
    simp only [spscNext, Copper.consumerNext] at hs
    split at hs
    · rename_i hpc
      cases hs
      have hr := h.reads
      rw [hpc] at hr
      cases hm : out.missing
      · simp only [SpscTrace.after, hm, Bool.false_eq_true, if_false] at hinv ⊢
        exact { h with inv := hinv, reads := congrArg (· + 1) hr, consumer := ⟨rfl, rfl, Nat.le_refl _⟩ }
      · simp only [SpscTrace.after, hm, if_true]
        exact h
    · cases hs
  | loadHead =>
    simp only [spscNext, Copper.consumerNext] at hs
    split at hs
    · rename_i m outSize hpc
      rw [hpc] at hc hok
      have havail := h.available hok
      obtain ⟨hm, hsize, hleast⟩ := hc
      split at hs
      · rename_i hn
        cases hs
        have heffect : t.effect (.consumer .loadHead) = [.read m outSize none t.consuming.2.2] := by
          simp only [SpscTrace.effect, hpc, hn, if_true]
        show TraceInv cap { t with s := _, effects := t.effects ++ t.effect _ }
        rw [heffect]
        exact h.readOut hinv rfl (havail ▸ hn) List.nil_prefix rfl (by rw [hpc]; rfl) rfl rfl
      · rename_i n hn
        cases hs
        have heffect : t.effect (.consumer .loadHead) = [] := by
          simp only [SpscTrace.effect, hpc, hn]
          rfl
        show TraceInv cap { t with s := _, effects := t.effects ++ t.effect _ }
        rw [heffect]
        exact h.quiet hinv rfl rfl rfl (by rw [hpc]; rfl) h.producer
          ⟨_, hleast, Nat.le_refl _, hm ▸ hsize ▸ havail ▸ hn⟩
    · cases hs
  | copyByte =>
    simp only [spscNext, Copper.consumerNext] at hs
    split at hs
    · rename_i pos n out hpc
      split at hs
      · cases hs
        rw [hpc] at hc
        exact h.quiet hinv rfl rfl rfl (by rw [hpc]; rfl) h.producer hc
      · cases hs
    · cases hs
  | moveCache =>
    simp only [spscNext, Copper.consumerNext] at hs
    split at hs
    · rename_i pos n out hpc
      split at hs
      · cases hs
        rw [hpc] at hc
        exact h.quiet hinv rfl rfl rfl (by rw [hpc]; rfl) h.producer hc
      · cases hs
    · cases hs
  | storeTail =>
    simp only [spscNext, Copper.consumerNext] at hs
    split at hs
    · rename_i pos n out hpc
      rw [hpc] at hc hok
      obtain ⟨-, -, -, hlen, hout⟩ := hok
      cases hs
      have heffect : t.effect (.consumer .storeTail) = [.read t.consuming.1 t.consuming.2.1 (some out) t.consuming.2.2] := by
        simp only [SpscTrace.effect, hpc]
      show TraceInv cap { t with s := _, effects := t.effects ++ t.effect _ }
      rw [heffect]
      refine h.readOut hinv rfl ?_ hout ?_ (by rw [hpc]; rfl) rfl rfl
      · rw [Option.map_some, hlen]
        exact hc
      · rw [SpscState.unread, SpscState.unread, List.drop_drop, Option.getD_some, SpscState.tailCount, List.length_append]
    · cases hs

/-- A step of an observer keeps the invariant. -/
theorem observerNext {i : Nat} {e : ObserverEvent} (hnext : t.next p (.observer i e) = some t') : TraceInv cap t' := by
  obtain ⟨s', hs, rfl⟩ := Option.map_eq_some_iff.mp hnext
  have hinv := h.inv.observerNext hs
  clear hnext
  cases e with
  | loadHead query =>
    simp only [spscNext, Copper.observerNext] at hs
    split at hs
    · cases hs
      exact h.quiet hinv rfl rfl rfl rfl h.producer h.consumer
    · cases hs
  | loadTail =>
    simp only [spscNext, Copper.observerNext] at hs
    split at hs
    · cases hs
      exact h.quiet hinv rfl rfl rfl rfl h.producer h.consumer
    · cases hs

end TraceInv

theorem SpscTrace.after_s (t : SpscTrace) (s : SpscState) (e : SpscEvent) : (t.after s e).s = s := by
  unfold SpscTrace.after
  split <;> first | rfl | split <;> rfl

/-- The history is one of the run: it follows every step, and leaves the steps as they are. -/
theorem spscTraces_follow {p : PtrWidth} {s s' : SpscState} {es : List SpscEvent} (h : (spsc p).Run s es s') :
    ∃ t, (spscTraces p).Run (.start s) es t ∧ t.s = s' := by
  induction h with
  | nil => exact ⟨_, .nil, rfl⟩
  | @snoc u s' es e _ hst ih =>
    obtain ⟨t, ht, rfl⟩ := ih
    have hstep : spscNext p t.s e = some s' := hst
    refine ⟨t.after s' e, ht.snoc ?_, t.after_s s' e⟩
    show t.next p e = some _
    rw [SpscTrace.next, hstep, Option.map_some]

/-- At the start of a run nothing is queued and no call has been made. -/
theorem TraceInv.start {p : PtrWidth} {s : SpscState} (h : (spsc p).init s) :
    TraceInv s.rb.capacity.toNat (.start s) := by
  have hinv := SpscInv.init h
  obtain ⟨mem, bufSize, rb, -, rfl⟩ := h
  exact ⟨hinv, rfl, .nil, rfl, rfl, trivial, trivial⟩

/-- Every step of a run with its history keeps the invariant. -/
theorem TraceInv.next {p : PtrWidth} {cap : Nat} {t t' : SpscTrace} {e : SpscEvent} (h : TraceInv cap t)
    (hnext : t.next p e = some t') : TraceInv cap t' := by
  cases e with
  | producer e => exact h.producerNext hnext
  | consumer e => exact h.consumerNext hnext
  | observer i e => exact h.observerNext hnext

/-! ## Every run is one of the queue -/

/-- In every interleaving the calls that have ended, in the order in which they ended, are a run of the queue that leaves what the
buffer holds unread; and they are all the calls made so far but the one that each party may be in. -/
theorem spsc_linearizable {p : PtrWidth} {s s' : SpscState} {es : List SpscEvent} (hinit : (spsc p).init s)
    (hrun : (spsc p).Run s es s') :
    ∃ t, (spscTraces p).Run (.start s) es t ∧ t.s = s' ∧
      (queueSystem s.rb.capacity.toNat).Run [] t.effects s'.unread ∧
      t.writes = writesIn t.effects + s'.producer.pending ∧ t.reads = readsIn t.effects + s'.consumer.pending := by
  obtain ⟨t, ht, rfl⟩ := spscTraces_follow hrun
  have hstep : ∀ u e v, TraceInv s.rb.capacity.toNat u → (spscTraces p).step u e v → TraceInv s.rb.capacity.toNat v :=
    fun u e v hu huv => hu.next huv
  have hinv := ht.keeps hstep (TraceInv.start hinit)
  exact ⟨t, ht, rfl, hinv.run, hinv.writes, hinv.reads⟩

/-- The run of `runOnTwo` on a buffer of two bytes. -/
theorem spsc_linearizable_runOnTwo : ∃ s s', (spsc .w64).Run s runOnTwo s' ∧ s'.unread = [2] ∧
    ∃ t, (spscTraces .w64).Run (.start s) runOnTwo t ∧ t.s = s' ∧
      (queueSystem s.rb.capacity.toNat).Run [] t.effects s'.unread ∧
      t.writes = writesIn t.effects + s'.producer.pending ∧ t.reads = readsIn t.effects + s'.consumer.pending := by
  have hinit : (spsc .w64).init (.start ⟨fun _ => 0, 2, 1, 0, 0, 0, 0⟩) := ⟨fun _ => 0, 2, _, rfl, rfl⟩
  have hrun : (spsc .w64).Run (.start ⟨fun _ => 0, 2, 1, 0, 0, 0, 0⟩) runOnTwo _ := System.run_of_replay _ rfl
  exact ⟨_, _, hrun, rfl, spsc_linearizable hinit hrun⟩

/-! ## No party waits -/

/-- A bound on the steps the producer still takes in its call. -/
def ProducerPc.rank : ProducerPc → Nat
  | .idle => 0
  | .loading _ data => data.length + 3
  | .copying _ _ n i => n - i + 2
  | .storing _ _ _ => 1

/-- A bound on the steps the consumer still takes in its call. -/
def ConsumerPc.rank : ConsumerPc → Nat
  | .idle => 0
  | .loading _ outSize => outSize + 3
  | .copying _ n out => n - out.length + 2
  | .storing _ _ _ => 1

theorem ProducerPc.rank_eq_zero (pc : ProducerPc) : pc.rank = 0 ↔ pc = .idle := by
  cases pc <;> simp [rank]

theorem ConsumerPc.rank_eq_zero (pc : ConsumerPc) : pc.rank = 0 ↔ pc = .idle := by
  cases pc <;> simp [rank]

def SpscState.producerRank (s : SpscState) : Nat := s.producer.rank

def SpscState.consumerRank (s : SpscState) : Nat := s.consumer.rank

def SpscEvent.isProducer : SpscEvent → Bool
  | .producer _ => true
  | _ => false

def SpscEvent.isConsumer : SpscEvent → Bool
  | .consumer _ => true
  | _ => false

/-- A step of the producer within a call brings it nearer the end. -/
theorem producerNext_rank {s t : SpscState} {e : ProducerEvent} (h : producerNext s e = some t)
    (hpc : s.producer.rank ≠ 0) : t.producer.rank < s.producer.rank := by
  cases e with
  | call m data =>
    simp only [producerNext] at h
    split at h
    · rename_i hidle
      exact absurd ((s.producer.rank_eq_zero).mpr hidle) hpc
    · cases h
  | loadTail =>
    simp only [producerNext] at h
    split at h
    · rename_i m data hpc
      rw [hpc]
      split at h
      · cases h
        exact Nat.succ_pos _
      · rename_i n hn
        cases h
        have := (Mode.count_le hn).1
        simp only [ProducerPc.rank]
        omega
    · cases h
  | copyByte =>
    simp only [producerNext] at h
    split at h
    · rename_i data pos n i hpc
      rw [hpc]
      split at h
      · obtain ⟨b, -, rfl⟩ := Option.map_eq_some_iff.mp h
        simp only [ProducerPc.rank]
        omega
      · cases h
    · cases h
  | moveCache =>
    simp only [producerNext] at h
    split at h
    · rename_i data pos n i hpc
      rw [hpc]
      split at h
      · cases h
        simp only [ProducerPc.rank]
        omega
      · cases h
    · cases h
  | storeHead =>
    simp only [producerNext] at h
    split at h
    · rename_i data pos n hpc
      rw [hpc]
      cases h
      exact Nat.one_pos
    · cases h

/-- A step of the consumer within a call brings it nearer the end. -/
theorem consumerNext_rank {s t : SpscState} {e : ConsumerEvent} (h : consumerNext s e = some t)
    (hpc : s.consumer.rank ≠ 0) : t.consumer.rank < s.consumer.rank := by
  cases e with
  | call m out =>
    simp only [consumerNext] at h
    split at h
    · rename_i hidle
      exact absurd ((s.consumer.rank_eq_zero).mpr hidle) hpc
    · cases h
  | loadHead =>
    simp only [consumerNext] at h
    split at h
    · rename_i m outSize hpc
      rw [hpc]
      split at h
      · cases h
        exact Nat.succ_pos _
      · rename_i n hn
        cases h
        have := (Mode.count_le hn).1
        simp only [ConsumerPc.rank, List.length_nil]
        omega
    · cases h
  | copyByte =>
    simp only [consumerNext] at h
    split at h
    · rename_i pos n out hpc
      rw [hpc]
      split at h
      · cases h
        simp only [ConsumerPc.rank, List.length_append, List.length_singleton]
        omega
      · cases h
    · cases h
  | moveCache =>
    simp only [consumerNext] at h
    split at h
    · rename_i pos n out hpc
      rw [hpc]
      split at h
      · cases h
        simp only [ConsumerPc.rank]
        omega
      · cases h
    · cases h
  | storeTail =>
    simp only [consumerNext] at h
    split at h
    · rename_i pos n out hpc
      rw [hpc]
      cases h
      exact Nat.one_pos
    · cases h

/-- The producer's steps leave the consumer where it is. -/
theorem producerNext_consumer {s t : SpscState} {e : ProducerEvent} (h : producerNext s e = some t) : t.consumer = s.consumer := by
  cases e with
  | call m data =>
    simp only [producerNext] at h
    split at h <;> cases h
    split <;> rfl
  | loadTail =>
    simp only [producerNext] at h
    split at h
    · split at h <;> cases h <;> rfl
    · cases h
  | copyByte =>
    simp only [producerNext] at h
    split at h
    · split at h
      · obtain ⟨b, -, rfl⟩ := Option.map_eq_some_iff.mp h
        rfl
      · cases h
    · cases h
  | moveCache =>
    simp only [producerNext] at h
    split at h
    · split at h <;> cases h
      rfl
    · cases h
  | storeHead =>
    simp only [producerNext] at h
    split at h <;> cases h
    rfl

/-- The consumer's steps leave the producer where it is. -/
theorem consumerNext_producer {s t : SpscState} {e : ConsumerEvent} (h : consumerNext s e = some t) : t.producer = s.producer := by
  cases e with
  | call m out =>
    simp only [consumerNext] at h
    split at h <;> cases h
    split <;> rfl
  | loadHead =>
    simp only [consumerNext] at h
    split at h
    · split at h <;> cases h <;> rfl
    · cases h
  | copyByte =>
    simp only [consumerNext] at h
    split at h
    · split at h <;> cases h
      rfl
    · cases h
  | moveCache =>
    simp only [consumerNext] at h
    split at h
    · split at h <;> cases h
      rfl
    · cases h
  | storeTail =>
    simp only [consumerNext] at h
    split at h <;> cases h
    rfl

/-- An observer's steps leave both where they are. -/
theorem observerNext_parties {p : PtrWidth} {s t : SpscState} {i : Nat} {e : ObserverEvent} (h : observerNext p s i e = some t) :
    t.producer = s.producer ∧ t.consumer = s.consumer := by
  cases e <;> simp only [observerNext] at h <;> split at h <;> cases h <;> exact ⟨rfl, rfl⟩

section

variable {p : PtrWidth} {s t : SpscState} {e : SpscEvent} (h : (spsc p).step s e t)

include h

theorem spsc_step_producer (he : e.isProducer = true) (hpc : s.producerRank ≠ 0) : t.producerRank < s.producerRank := by
  cases e with
  | producer e => exact producerNext_rank h hpc
  | consumer e => cases he
  | observer i e => cases he

theorem spsc_step_consumer (he : e.isConsumer = true) (hpc : s.consumerRank ≠ 0) : t.consumerRank < s.consumerRank := by
  cases e with
  | producer e => cases he
  | consumer e => exact consumerNext_rank h hpc
  | observer i e => cases he

theorem spsc_step_producer_other (he : e.isProducer = false) : t.producer = s.producer := by
  cases e with
  | producer e => cases he
  | consumer e => exact consumerNext_producer h
  | observer i e => exact (observerNext_parties h).1

theorem spsc_step_consumer_other (he : e.isConsumer = false) : t.consumer = s.consumer := by
  cases e with
  | producer e => exact producerNext_consumer h
  | consumer e => cases he
  | observer i e => exact (observerNext_parties h).2

end

namespace SpscInv

variable {s : SpscState} (hs : SpscInv s)

include hs

/-- The producer is never stuck in a call. -/
theorem producer_enabled (p : PtrWidth) (hpc : s.producer ≠ .idle) : ∃ e t, (spsc p).step s (.producer e) t := by
  have hp := hs.producer
  cases h : s.producer with
  | idle => exact absurd h hpc
  | loading m data =>
    cases hn : m.count data.length (s.rb.freeSpace s.rb.tail) with
    | none => exact ⟨_, _, ProducerSteps.loadTail_early h hn⟩
    | some n => exact ⟨_, _, ProducerSteps.loadTail h hn⟩
  | copying data pos n i =>
    rw [h] at hp
    obtain ⟨-, -, hi, hn, -⟩ := hp
    rcases Nat.lt_or_eq_of_le hi with hlt | rfl
    · exact ⟨_, _, ProducerSteps.copyByte h hlt (Nat.lt_of_lt_of_le hlt hn)⟩
    · exact ⟨_, _, ProducerSteps.moveCache h⟩
  | storing data pos n => exact ⟨_, _, ProducerSteps.storeHead h⟩

/-- The consumer is never stuck in a call. -/
theorem consumer_enabled (p : PtrWidth) (hpc : s.consumer ≠ .idle) : ∃ e t, (spsc p).step s (.consumer e) t := by
  have hc := hs.consumer
  cases h : s.consumer with
  | idle => exact absurd h hpc
  | loading m outSize =>
    cases hn : m.count outSize (s.rb.available s.rb.head) with
    | none => exact ⟨_, _, ConsumerSteps.loadHead_early h hn⟩
    | some n => exact ⟨_, _, ConsumerSteps.loadHead h hn⟩
  | copying pos n out =>
    rw [h] at hc
    obtain ⟨-, -, -, hle, -⟩ := hc
    rcases Nat.lt_or_eq_of_le hle with hlt | heq
    · exact ⟨_, _, ConsumerSteps.copyByte h hlt⟩
    · exact ⟨_, _, ConsumerSteps.moveCache h heq⟩
  | storing pos n out => exact ⟨_, _, ConsumerSteps.storeTail h⟩

end SpscInv

/-- Wherever a run has come to, a party in the middle of a call can take its next step, and once it has taken `rank` steps, with
whatever steps of others between them and however few, it has been at the end of the call: a call for `k` bytes takes at most
`k + 3` steps after its check for NULL. -/
theorem spsc_wait_free {p : PtrWidth} {s : SpscState} (h : (spsc p).Reachable s) :
    ((s.producer ≠ .idle → ∃ e t, (spsc p).step s (.producer e) t) ∧
      (s.consumer ≠ .idle → ∃ e t, (spsc p).step s (.consumer e) t)) ∧
    ∀ es t, (spsc p).Run s es t →
      (s.producerRank ≤ es.countP SpscEvent.isProducer →
        ∃ es₁ es₂ u, es = es₁ ++ es₂ ∧ (spsc p).Run s es₁ u ∧ u.producer = .idle) ∧
      (s.consumerRank ≤ es.countP SpscEvent.isConsumer →
        ∃ es₁ es₂ u, es = es₁ ++ es₂ ∧ (spsc p).Run s es₁ u ∧ u.consumer = .idle) := by
  have hs := spscInv_of_reachable h
  refine ⟨⟨hs.producer_enabled p, hs.consumer_enabled p⟩, fun es t hrun => ⟨fun hlong => ?_, fun hlong => ?_⟩⟩
  · have hother : ∀ s e t, (spsc p).step s e t → e.isProducer = false → t.producerRank = s.producerRank :=
      fun s e t hst he => congrArg ProducerPc.rank (spsc_step_producer_other hst he)
    obtain ⟨es₁, es₂, u, hes, hu, hzero⟩ := hrun.passes_zero (fun s e t hst => spsc_step_producer hst) hother hlong
    exact ⟨es₁, es₂, u, hes, hu, u.producer.rank_eq_zero.mp hzero⟩
  · have hother : ∀ s e t, (spsc p).step s e t → e.isConsumer = false → t.consumerRank = s.consumerRank :=
      fun s e t hst he => congrArg ConsumerPc.rank (spsc_step_consumer_other hst he)
    obtain ⟨es₁, es₂, u, hes, hu, hzero⟩ := hrun.passes_zero (fun s e t hst => spsc_step_consumer hst) hother hlong
    exact ⟨es₁, es₂, u, hes, hu, u.consumer.rank_eq_zero.mp hzero⟩

/-- Both parties are in the middle of a call. -/
theorem spsc_wait_free_runOnTwo : ∃ s, (spsc .w64).Reachable s ∧ (s.producerRank, s.consumerRank) = (2, 2) ∧
    ((s.producer ≠ .idle → ∃ e t, (spsc .w64).step s (.producer e) t) ∧
      (s.consumer ≠ .idle → ∃ e t, (spsc .w64).step s (.consumer e) t)) ∧
    ∀ es t, (spsc .w64).Run s es t →
      (s.producerRank ≤ es.countP SpscEvent.isProducer →
        ∃ es₁ es₂ u, es = es₁ ++ es₂ ∧ (spsc .w64).Run s es₁ u ∧ u.producer = .idle) ∧
      (s.consumerRank ≤ es.countP SpscEvent.isConsumer →
        ∃ es₁ es₂ u, es = es₁ ++ es₂ ∧ (spsc .w64).Run s es₁ u ∧ u.consumer = .idle) := by
  obtain ⟨s, hs, hv⟩ := spsc_reachable_of_replay .w64 (fun s => (s.producerRank, s.consumerRank)) (2, 2) 2 runOnTwo (by decide)
  exact ⟨s, hs, hv, spsc_wait_free hs⟩

end Copper
