import Copper.Log.Threads
import Copper.Log.TimeRoll

/-!
# A time-rolled file at the boundary of two periods

A call reads the clock before it takes the mutex, so a record stamped in one period may reach the sink after a record stamped
in the next. The sink then rotates back, and once more for the next record (`time_rolled_rotates_back`). In a run that crosses
one boundary it rotates at most once exactly when no record that is due is older than the last one written
(`time_rolled_once_iff`).
-/

namespace Copper

open Critical Transition

variable {φ δ : Type} {w : Nat} {p : Period} {localtime : TimeConversion} {config : FileSinkConfig w} {path : Path} {files : Files}

/-- A file sink, and the functions that formatters point to, which do nothing to the files. -/
def fileCallbacks (localtime : TimeConversion) (sink : LogSink φ) (format : φ → LogMessage → List UInt8 → δ → Int × List UInt8 × δ) :
    LogCallbacks Unit φ (δ × SinkRun w) where
  sink := fun _ => sink
  format := fun fn msg buf s =>
    let (len, out, d) := format fn msg buf s.1
    (len, out, (d, s.2))
  write := fun _ msg text s => (s.1, s.2.write localtime ⟨msg.timeMs, text⟩)

/-- A sink just opened on `path`, when the clock read `opened`. -/
structure SinkRun.OpenedAt (localtime : TimeConversion) (config : FileSinkConfig w) (files : Files) (path : Path) (opened : UInt64)
    (s : SinkRun w) : Prop where
  named : config.path = some path
  sink : logFileSink .works localtime opened (some config) files = { result := some s.sink, state := s.files }
  closed : s.closed = []
  live : s.live = ⟨openedContent config files path, []⟩

/-- The readings of the clock by calls that the logger's level does not drop. -/
def readings {τ : Type} (l : Logger Unit φ) (es : List (Critical.Event τ LogCall)) : List UInt64 :=
  es.filterMap fun e =>
    match e with
    | .call _ c => if l.drops c.level then none else some c.now
    | _ => none

/-- Two times of one period: they agree in its date, and in the field that the sink compares. -/
def InOnePeriod (p : Period) (localtime : TimeConversion) (x y : UInt64) : Prop :=
  p.of (timeLocal localtime x) = p.of (timeLocal localtime y) ∧ p.field (timeLocal localtime x) = p.field (timeLocal localtime y)

/-- The readings fall in two periods, one before a boundary and one after it. -/
def TwoPeriods (p : Period) (localtime : TimeConversion) (rs : List UInt64) : Prop :=
  ∃ boundary, ∀ x ∈ rs, ∀ y ∈ rs, (x < boundary ↔ y < boundary) → InOnePeriod p localtime x y

/-- The stamp of the last record written, or the reading the sink was opened with. -/
def SinkRun.lastStamp (opened : UInt64) (s : SinkRun w) : UInt64 := (s.live.records.getLast?.map LogRecord.timeMs).getD opened

/-- A record that is due is no older than the last one written. -/
def SinkRun.InOrder (p : Period) (localtime : TimeConversion) (opened : UInt64) (s : SinkRun w) (stamp : UInt64) : Prop :=
  p.field (timeLocal localtime stamp) ≠ p.current s.sink → s.lastStamp opened ≤ stamp

/-- The condition on a step: a `write` is in order. -/
def WritesInOrder {τ : Type} (p : Period) (localtime : TimeConversion) (opened : UInt64)
    (s : Critical.State τ (LogShared Unit (δ × SinkRun w)) (LogLocals Unit φ) LogCall (Report Unit φ)) :
    Critical.Event τ LogCall → Prop
  | .step t =>
    ∀ c n x i k len out, s.phase t = .inside c n x → x.pc = .writing i k len out →
      s.shared.mem.2.InOrder p localtime opened x.msg.timeMs
  | _ => True

/-! ## One write -/

/-- The readings of a run: none before the one that the sink was opened with, and one field on each side of a boundary. -/
structure Readings (p : Period) (localtime : TimeConversion) (opened boundary : UInt64) (R : UInt64 → Prop) : Prop where
  first : R opened
  after : ∀ x, R x → opened ≤ x
  field : ∀ x y, R x → R y → (x < boundary ↔ y < boundary) → p.field (timeLocal localtime x) = p.field (timeLocal localtime y)

/-- What holds of the sink whatever the order of the writes: it remembers the field of the last stamp, which is the first
field until it rotates, and the second field after it has rotated once. -/
structure SinkRun.AtBoundary (p : Period) (localtime : TimeConversion) (config : FileSinkConfig w) (path : Path)
    (opened boundary : UInt64) (R : UInt64 → Prop) (s : SinkRun w) : Prop where
  tracks : s.Tracks config path
  stamp : R (s.lastStamp opened)
  current : p.current s.sink = p.field (timeLocal localtime (s.lastStamp opened))
  fresh : s.closed = [] → p.current s.sink = p.field (timeLocal localtime opened)
  late : s.closed.length = 1 → ¬ s.lastStamp opened < boundary ∧ opened < boundary ∧
    p.current s.sink ≠ p.field (timeLocal localtime opened)

theorem SinkRun.lastStamp_snoc {opened : UInt64} {s : SinkRun w} {start : Content} {rs : List LogRecord} {r : LogRecord}
    (h : s.live = ⟨start, rs ++ [r]⟩) : s.lastStamp opened = r.timeMs := by
  rw [lastStamp, h, List.getLast?_concat]
  rfl

namespace SinkRun.AtBoundary

variable {opened boundary : UInt64} {R : UInt64 → Prop} {s : SinkRun w} (hR : Readings p localtime opened boundary R)
  (hs : s.AtBoundary p localtime config path opened boundary R)

include hR hs

/-- A stamp of the field that the sink does not remember, before it has rotated: it is past the boundary, and the first
reading is not. -/
theorem crosses {x : UInt64} (hx : R x) (hclosed : s.closed = []) (hfield : p.field (timeLocal localtime x) ≠ p.current s.sink) :
    ¬ x < boundary ∧ opened < boundary := by
  rw [hs.fresh hclosed] at hfield
  have hsides : ¬ (x < boundary ↔ opened < boundary) := fun h => hfield (hR.field _ _ hx hR.first h)
  have hle := hR.after _ hx
  simp only [UInt64.lt_iff_toNat_lt, UInt64.le_iff_toNat_le] at *
  omega

omit hR in
/-- The field of a stamp that is due is not the field of the last one. -/
theorem field_ne {x : UInt64} (hfield : p.field (timeLocal localtime x) ≠ p.current s.sink) :
    p.field (timeLocal localtime x) ≠ p.field (timeLocal localtime (s.lastStamp opened)) :=
  hs.current ▸ hfield

/-- A stamp that is due keeps the sink from a second rotation exactly when it is no older than the last one. -/
theorem rotates_once {x : UInt64} (hx : R x) (hfield : p.field (timeLocal localtime x) ≠ p.current s.sink) :
    s.closed.length + 1 ≤ 1 ↔ s.closed.length ≤ 1 ∧ s.lastStamp opened ≤ x := by
  have hne := hs.field_ne hfield
  have hsides : ¬ (x < boundary ↔ s.lastStamp opened < boundary) := fun h => hne (hR.field _ _ hx hs.stamp h)
  constructor
  · intro hlen
    have hclosed : s.closed = [] := List.eq_nil_of_length_eq_zero (by omega)
    obtain ⟨hafter, -⟩ := hs.crosses hR hx hclosed hfield
    refine ⟨by omega, ?_⟩
    simp only [UInt64.lt_iff_toNat_lt, UInt64.le_iff_toNat_le] at *
    omega
  · rintro ⟨hlen, hle⟩
    by_contra hmore
    obtain ⟨hlast, -, -⟩ := hs.late (by omega)
    simp only [UInt64.lt_iff_toNat_lt, UInt64.le_iff_toNat_le] at *
    omega

/-- What a write keeps, and when it keeps the sink from rotating twice. -/
theorem write (hmode : config.rollMode = p.rollMode) {r : LogRecord} (hr : R r.timeMs) :
    (s.write localtime r).AtBoundary p localtime config path opened boundary R ∧
      ((s.write localtime r).closed.length ≤ 1 ↔ s.closed.length ≤ 1 ∧ s.InOrder p localtime opened r.timeMs) := by
  have hmode' : s.sink.rollMode = p.rollMode := hs.tracks.rollMode.trans hmode
  have hdue_iff := FileSink.due_period localtime hmode' r.timeMs
  by_cases hdue : s.sink.Due localtime r.timeMs
  · have hfield := hdue_iff.mp hdue
    have hwrite := hs.tracks.write_of_due hdue
    have hclosed : (s.write localtime r).closed = s.live :: s.closed := by rw [hwrite]
    have hlive : (s.write localtime r).live = ⟨[], [] ++ [r]⟩ := by
      rw [hwrite]
      rfl
    have hlast : (s.write localtime r).lastStamp opened = r.timeMs := lastStamp_snoc hlive
    have hstamped : p.current ((fileRotate .works s.sink s.files).1.stamped localtime r.timeMs)
        = p.field (timeLocal localtime r.timeMs) := FileSink.current_stamped (by rwa [fileRotate_sink]) r.timeMs
    have hcurrent : p.current (s.write localtime r).sink = p.field (timeLocal localtime r.timeMs) := by
      rw [hwrite]
      cases p <;> exact hstamped
    refine ⟨⟨(hs.tracks.write_rotated hdue).1, ?_, ?_, ?_, ?_⟩, ?_⟩
    · rwa [hlast]
    · rw [hcurrent, hlast]
    · intro h
      rw [hclosed] at h
      cases h
    · intro h
      rw [hclosed, List.length_cons] at h
      have hempty : s.closed = [] := List.eq_nil_of_length_eq_zero (by omega)
      rw [hlast, hcurrent, ← hs.fresh hempty]
      exact ⟨(hs.crosses hR hr hempty hfield).1, (hs.crosses hR hr hempty hfield).2, hfield⟩
    · rw [hclosed, List.length_cons, hs.rotates_once hR hr hfield]
      exact and_congr_right fun _ => ⟨fun h _ => h, fun h => h hfield⟩
  · have hfield : p.field (timeLocal localtime r.timeMs) = p.current s.sink := not_not.mp fun hne => hdue (hdue_iff.mpr hne)
    have hwrite := hs.tracks.write_of_not_due hdue
    have hclosed : (s.write localtime r).closed = s.closed := by rw [hwrite]
    have hlast : (s.write localtime r).lastStamp opened = r.timeMs := lastStamp_snoc (by rw [hwrite])
    have hcurrent : p.current (s.write localtime r).sink = p.current s.sink := by
      rw [hwrite]
      cases p <;> rfl
    refine ⟨⟨(hs.tracks.write_kept hdue).1, ?_, ?_, ?_, ?_⟩, ?_⟩
    · rwa [hlast]
    · rw [hcurrent, hlast, hfield]
    · rw [hclosed, hcurrent]
      exact hs.fresh
    · rw [hclosed, hcurrent, hlast]
      intro h
      obtain ⟨-, hopened, hne⟩ := hs.late h
      refine ⟨fun hbefore => hne ?_, hopened, hne⟩
      rw [← hfield]
      exact hR.field _ _ hr hR.first (iff_of_true hbefore hopened)
    · rw [hclosed]
      exact ⟨fun h => ⟨h, fun hne => absurd hfield hne⟩, And.left⟩

end SinkRun.AtBoundary

/-- A sink just opened. -/
theorem SinkRun.OpenedAt.atBoundary {opened boundary : UInt64} {R : UInt64 → Prop} (hR : Readings p localtime opened boundary R)
    {s : SinkRun w} (h : s.OpenedAt localtime config files path opened) (hmode : config.rollMode = p.rollMode) :
    s.AtBoundary p localtime config path opened boundary R := by
  have htracks := (SinkRun.Opened.tracks (s := s) ⟨h.named, ⟨opened, h.sink⟩, h.closed, h.live⟩).1
  have hlast : s.lastStamp opened = opened := by
    rw [lastStamp, h.live]
    rfl
  have hcurrent : p.current s.sink = p.field (timeLocal localtime opened) := by
    have hsink := h.sink
    rw [logFileSink_works opened h.named, Outcome.mk.injEq, Option.some.injEq] at hsink
    rw [← hsink.1]
    cases p <;> rfl
  refine ⟨htracks, ?_, ?_, fun _ => hcurrent, fun hlen => ?_⟩
  · rw [hlast]
    exact hR.first
  · rw [hlast, hcurrent]
  · rw [h.closed] at hlen
    cases hlen

/-! ## Every interleaving -/

section

variable {τ : Type} {sink : LogSink φ} {format : φ → LogMessage → List UInt8 → δ → Int × List UInt8 × δ} {l : Logger Unit φ}
  {opened boundary : UInt64} {R : UInt64 → Prop}
  {s s' : Critical.State τ (LogShared Unit (δ × SinkRun w)) (LogLocals Unit φ) LogCall (Report Unit φ)}

/-- Only a step out of a `write` touches the sink. -/
theorem sink_logNext {x : LogLocals Unit φ} {f : LogShared Unit (δ × SinkRun w) → LogLocals Unit φ × LogShared Unit (δ × SinkRun w)}
    (h : logNext (fileCallbacks localtime sink format) l x = some f) (s : LogShared Unit (δ × SinkRun w)) :
    (∃ i k len out, x.pc = .writing i k len out ∧
      (f s).2.mem.2 = s.mem.2.write localtime ⟨x.msg.timeMs, out.take len.toNat⟩) ∨
    ((∀ i k len out, x.pc ≠ .writing i k len out) ∧ (f s).2.mem.2 = s.mem.2) := by
  unfold logNext at h
  split at h
  · rename_i hpc
    refine Or.inr ⟨fun _ _ _ _ hw => (by rw [hpc] at hw; cases hw), ?_⟩
    split at h
    · cases h
    · split at h
      · cases h
        rfl
      · split at h
        · cases h
          rfl
        · cases h
          rfl
  · rename_i hpc
    cases h
    exact Or.inr ⟨fun _ _ _ _ hw => (by rw [hpc] at hw; cases hw), rfl⟩
  · rename_i i k len out hpc
    cases h
    exact Or.inl ⟨i, k, len, out, hpc, rfl⟩

/-- The stamps that are on their way to the sink are readings. -/
structure Stamped (p : Period) (localtime : TimeConversion) (config : FileSinkConfig w) (path : Path) (opened boundary : UInt64)
    (R : UInt64 → Prop) (s : Critical.State τ (LogShared Unit (δ × SinkRun w)) (LogLocals Unit φ) LogCall (Report Unit φ)) :
    Prop where
  sink : s.shared.mem.2.AtBoundary p localtime config path opened boundary R
  waiting : ∀ t c, s.phase t = .waiting c → R c.now
  inside : ∀ t c n x, s.phase t = .inside c n x → R x.msg.timeMs

/-- The clock readings of an event are readings. -/
def ReadsIn (l : Logger Unit φ) (R : UInt64 → Prop) : Critical.Event τ LogCall → Prop
  | .call _ c => l.drops c.level = false → R c.now
  | _ => True

variable [DecidableEq τ]

/-- A thread that moves on, and what the sink is left with. -/
theorem Stamped.setPhase (hs : Stamped p localtime config path opened boundary R s) {t : τ}
    {ph : Phase (LogLocals Unit φ) LogCall (Report Unit φ)} (hphase : s'.phase = Function.update s.phase t ph)
    (hsink : s'.shared.mem.2.AtBoundary p localtime config path opened boundary R)
    (hwaiting : ∀ c, ph = .waiting c → R c.now) (hinside : ∀ c n x, ph = .inside c n x → R x.msg.timeMs) :
    Stamped p localtime config path opened boundary R s' := by
  refine ⟨hsink, fun t' c h => ?_, fun t' c n x h => ?_⟩
  · rw [hphase] at h
    by_cases ht : t' = t
    · rw [ht, Function.update_self] at h
      exact hwaiting c h
    · rw [Function.update_of_ne ht] at h
      exact hs.waiting t' c h
  · rw [hphase] at h
    by_cases ht : t' = t
    · rw [ht, Function.update_self] at h
      exact hinside c n x h
    · rw [Function.update_of_ne ht] at h
      exact hs.inside t' c n x h

/-- What an event keeps, and when it keeps the sink from rotating twice. -/
theorem Stamped.step (hR : Readings p localtime opened boundary R) (hmode : config.rollMode = p.rollMode)
    (hs : Stamped p localtime config path opened boundary R s) {e : Critical.Event τ LogCall} (hreads : ReadsIn l R e)
    (hst : Step (logBody (fileCallbacks localtime sink format) l) s e s') :
    Stamped p localtime config path opened boundary R s' ∧
      (s'.shared.mem.2.closed.length ≤ 1 ↔
        s.shared.mem.2.closed.length ≤ 1 ∧ WritesInOrder p localtime opened s e) := by
  cases hst with
  | call _ henters =>
    refine ⟨hs.setPhase rfl hs.sink (fun c hc => ?_) (fun c n x hc => ?_), (and_iff_left trivial).symm⟩
    · cases hc
      exact hreads (by simpa only [logBody, Bool.not_eq_true'] using henters)
    · cases hc
  | skip _ => exact ⟨⟨hs.sink, hs.waiting, hs.inside⟩, (and_iff_left trivial).symm⟩
  | @lock t c hwaiting _ =>
    refine ⟨hs.setPhase rfl hs.sink (fun c hc => ?_) (fun c n x hc => ?_), (and_iff_left trivial).symm⟩
    · cases hc
    · cases hc
      exact hs.waiting t c hwaiting
  | @step t c n x f hinside hf =>
    have hstamp := hs.inside t c n x hinside
    have hmsg := (received_logNext hf s.shared).2.1
    have hnext : ∀ c' n' x', (.inside c n (f s.shared).1 : Phase (LogLocals Unit φ) LogCall (Report Unit φ)) = .inside c' n' x' →
        R x'.msg.timeMs := by
      intro c' n' x' h
      cases h
      rw [hmsg]
      exact hstamp
    rcases sink_logNext hf s.shared with ⟨i, k, len, out, hpc, hwrite⟩ | ⟨hpc, hkept⟩
    · obtain ⟨hsink, honce⟩ := hs.sink.write hR hmode (r := ⟨x.msg.timeMs, out.take len.toNat⟩) hstamp
      rw [← hwrite] at hsink honce
      refine ⟨hs.setPhase rfl hsink (fun c hc => by cases hc) hnext, honce.trans (and_congr_right fun _ => ?_)⟩
      constructor
      · intro horder c' n' x' i' k' len' out' hinside' _
        rw [hinside] at hinside'
        cases hinside'
        exact horder
      · intro horder
        exact horder c n x i k len out hinside hpc
    · have hwrites : WritesInOrder p localtime opened s (.step t) := by
        intro c' n' x' i' k' len' out' hinside' hpc'
        rw [hinside] at hinside'
        cases hinside'
        exact absurd hpc' (hpc i' k' len' out')
      refine ⟨hs.setPhase rfl (hkept ▸ hs.sink) (fun c hc => by cases hc) hnext, ?_⟩
      rw [← hkept]
      exact (and_iff_left hwrites).symm
  | unlock _ _ =>
    refine ⟨hs.setPhase rfl hs.sink (fun c hc => by cases hc) (fun c n x hc => by cases hc), (and_iff_left trivial).symm⟩
  | ret _ =>
    refine ⟨hs.setPhase rfl hs.sink (fun c hc => by cases hc) (fun c n x hc => by cases hc), (and_iff_left trivial).symm⟩

/-- The threads of a thread-safe logger whose sink is a file that rolls by the day or by the hour, in any interleaving: while
the clock does not go back and its readings, from the one that the sink was opened with on, fall in two periods, the sink
rotates at most once exactly when every record that is due, when it is written, is no older than the one written before it. -/
theorem time_rolled_once_iff {d : δ} {run : SinkRun w} {es : List (Critical.Event τ LogCall)} (hmode : config.rollMode = p.rollMode)
    (hsafe : l.threadSafe = true) (hopen : run.OpenedAt localtime config files path opened)
    (hrun : (loggerSystem τ (fileCallbacks localtime sink format) l (d, run)).Run (.initial ⟨(d, run), []⟩) es s)
    (hclock : (opened :: readings l es).Pairwise (· ≤ ·)) (htwo : TwoPeriods p localtime (opened :: readings l es)) :
    s.shared.mem.2.closed.length ≤ 1 ↔
      ((loggerSystem τ (fileCallbacks localtime sink format) l (d, run)).restrict (WritesInOrder p localtime opened)).Run
        (.initial ⟨(d, run), []⟩) es s := by
  obtain ⟨boundary, hboundary⟩ := htwo
  have hR : Readings p localtime opened boundary (· ∈ opened :: readings l es) := by
    refine ⟨List.mem_cons_self, fun x hx => ?_, fun x y hx hy h => (hboundary x hx y hy h).2⟩
    rcases List.mem_cons.mp hx with rfl | hx
    · exact UInt64.le_refl _
    · exact List.rel_of_pairwise_cons hclock hx
  have hreads : ∀ e ∈ es, ReadsIn l (· ∈ opened :: readings l es) e := by
    intro e he
    cases e with
    | call t c =>
      intro hpass
      refine List.mem_cons_of_mem _ (List.mem_filterMap.mpr ⟨_, he, ?_⟩)
      dsimp only
      rw [hpass, if_neg Bool.false_ne_true]
    | lock t => trivial
    | step t => trivial
    | unlock t => trivial
    | ret t => trivial
  have hinit : Stamped p localtime config path opened boundary (· ∈ opened :: readings l es)
      (.initial ⟨(d, run), []⟩ : Critical.State τ (LogShared Unit (δ × SinkRun w)) (LogLocals Unit φ) LogCall (Report Unit φ)) :=
    ⟨hopen.atBoundary hR hmode, fun _ _ h => (by cases h), fun _ _ _ _ h => (by cases h)⟩
  have hstep : ∀ (u v : Critical.State τ (LogShared Unit (δ × SinkRun w)) (LogLocals Unit φ) LogCall (Report Unit φ))
      (e : Critical.Event τ LogCall), Stamped p localtime config path opened boundary (· ∈ opened :: readings l es) u →
      ((loggerSystem τ (fileCallbacks localtime sink format) l (d, run)).restrict fun _ e =>
        ReadsIn l (· ∈ opened :: readings l es) e).step u e v →
      Stamped p localtime config path opened boundary (· ∈ opened :: readings l es) v ∧
        (v.shared.mem.2.closed.length ≤ 1 ↔ u.shared.mem.2.closed.length ≤ 1 ∧ WritesInOrder p localtime opened u e) := by
    rintro u v e hu ⟨huv, hread⟩
    unfold loggerSystem at huv
    rw [hsafe] at huv
    exact hu.step hR hmode hread (step_of_next huv)
  have hiff := (hrun.restrict hreads).holds_iff_restrict (P := fun u => u.shared.mem.2.closed.length ≤ 1)
    (fun u e v hu huv => (hstep u v e hu huv).1) (fun u e v hu huv => (hstep u v e hu huv).2) hinit (by
      show run.closed.length ≤ 1
      rw [hopen.closed]
      exact Nat.zero_le _)
  refine hiff.trans ⟨fun h => ?_, fun h => ?_⟩
  · refine h.mono ?_
    rintro u e v ⟨⟨huv, -⟩, horder⟩
    exact ⟨huv, horder⟩
  · refine (h.restrict hreads).mono ?_
    rintro u e v ⟨⟨huv, horder⟩, hread⟩
    exact ⟨⟨huv, hread⟩, horder⟩

end

/-! ## The last moment of a period, and the first of the next -/

/-- A sink that takes every record, and a logger that writes to it. -/
def boundaryLogger : Logger Unit Unit := ⟨0, true, (), Packed.pack logMaxSinks [()], 1⟩

def boundaryCallbacks : LogCallbacks Unit Unit (Unit × SinkRun 64) :=
  fileCallbacks gmtime64 ⟨0, none⟩ fun _ msg _ d => (1, msg.message, d)

/-- The first moment of the second period after the epoch. -/
def Period.boundary : Period → UInt64
  | .daily => 86400000
  | .hourly => 3600000

/-- A call that logs one byte. -/
def stampedCall (now : UInt64) : LogCall := ⟨2, none, 0, none, 1, [7], now, []⟩

/-- The steps of a call from the mutex on. -/
def boundarySection (t : Bool) : List (Critical.Event Bool LogCall) :=
  [.lock t, .step t, .step t, .step t, .unlock t]

/-- Two threads read the clock, one just before the boundary and one at it, and then take the mutex: the one that read first,
or the other. -/
def boundaryRun (p : Period) (first : Bool) : List (Critical.Event Bool LogCall) :=
  [.call false (stampedCall (p.boundary - 1)), .call true (stampedCall p.boundary)] ++ boundarySection first ++ boundarySection !first

/-- Two readings of one period, and one past both. -/
theorem twoPeriods_three {localtime : TimeConversion} {p : Period} {x y z : UInt64} (h : InOnePeriod p localtime x y)
    (hx : x < z) (hy : y < z) : TwoPeriods p localtime [x, y, z] := by
  have hside : ∀ a ∈ [x, y, z], (a < z ∧ InOnePeriod p localtime x a) ∨ a = z := by
    intro a ha
    rcases List.mem_cons.mp ha with rfl | ha
    · exact Or.inl ⟨hx, rfl, rfl⟩
    · rcases List.mem_cons.mp ha with rfl | ha
      · exact Or.inl ⟨hy, h⟩
      · exact Or.inr (List.mem_singleton.mp ha)
  refine ⟨z, fun a ha b hb hiff => ?_⟩
  rcases hside a ha with ⟨haz, hfields⟩ | haz
  · rcases hside b hb with ⟨-, hfields'⟩ | hbz
    · exact ⟨hfields.1.symm.trans hfields'.1, hfields.2.symm.trans hfields'.2⟩
    · exact absurd (hiff.mp haz) (hbz ▸ UInt64.lt_irrefl z)
  · rcases hside b hb with ⟨hbz, -⟩ | hbz
    · exact absurd (hiff.mpr hbz) (haz ▸ UInt64.lt_irrefl z)
    · rw [haz, hbz]
      exact ⟨rfl, rfl⟩

theorem boundaryRun_clock (p : Period) (first : Bool) :
    (0 :: readings boundaryLogger (boundaryRun p first)).Pairwise (· ≤ ·) ∧
      TwoPeriods p gmtime64 (0 :: readings boundaryLogger (boundaryRun p first)) := by
  have hreadings : readings boundaryLogger (boundaryRun p first) = [p.boundary - 1, p.boundary] := by
    cases p <;> cases first <;> rfl
  rw [hreadings]
  have hperiod : InOnePeriod p gmtime64 0 (p.boundary - 1) := by
    unfold InOnePeriod
    cases p <;> decide
  have hlt : 0 < p.boundary ∧ p.boundary - 1 < p.boundary := by cases p <;> decide
  exact ⟨by cases p <;> decide, twoPeriods_three hperiod hlt.1 hlt.2⟩

theorem periodSinkOpened_openedAt (p : Period) : (periodSinkOpened p).OpenedAt gmtime64 (periodSink p) (fun _ => none) [97] 0 :=
  ⟨rfl, logFileSink_works 0 rfl _, rfl, rfl⟩

/-- A run of the two threads, and how often the sink rotates in it. -/
theorem boundaryRun_run (p : Period) (first : Bool) :
    ∃ s, (loggerSystem Bool boundaryCallbacks boundaryLogger ((), periodSinkOpened p)).Run (.initial ⟨((), periodSinkOpened p), []⟩)
      (boundaryRun p first) s ∧ s.shared.mem.2.closed.length = if first then 2 else 1 := by
  have hs : ∃ s, System.replay (Critical.next (logBody boundaryCallbacks boundaryLogger) true)
      (.initial ⟨((), periodSinkOpened p), []⟩) (boundaryRun p first) = some s ∧
        s.shared.mem.2.closed.length = if first then 2 else 1 := by
    cases p <;> cases first <;> exact ⟨_, rfl, rfl⟩
  obtain ⟨s, hreplay, hclosed⟩ := hs
  exact ⟨s, System.run_of_replay _ hreplay, hclosed⟩

/-- The thread that read the clock first writes first. -/
theorem time_rolled_once_in_order : ∃ s,
    ((loggerSystem Bool boundaryCallbacks boundaryLogger ((), periodSinkOpened .hourly)).restrict
      (WritesInOrder .hourly gmtime64 0)).Run (.initial ⟨((), periodSinkOpened .hourly), []⟩) (boundaryRun .hourly false) s ∧
      s.shared.mem.2.closed.length = 1 := by
  obtain ⟨s, hrun, hclosed⟩ := boundaryRun_run .hourly false
  obtain ⟨hclock, htwo⟩ := boundaryRun_clock .hourly false
  exact ⟨s, (time_rolled_once_iff rfl rfl (periodSinkOpened_openedAt .hourly) hrun hclock htwo).mp (Nat.le_of_eq hclosed), hclosed⟩

/-- By the hour and by the day, in universal time: the thread that read the clock second writes its record first, and the sink
rotates for it, and again for the record of the thread that read it first. -/
theorem time_rolled_rotates_back :
    (∃ s, (loggerSystem Bool boundaryCallbacks boundaryLogger ((), periodSinkOpened .hourly)).Run
        (.initial ⟨((), periodSinkOpened .hourly), []⟩) (boundaryRun .hourly true) s ∧
      (0 :: readings boundaryLogger (boundaryRun .hourly true)).Pairwise (· ≤ ·) ∧
      TwoPeriods .hourly gmtime64 (0 :: readings boundaryLogger (boundaryRun .hourly true)) ∧ s.shared.mem.2.closed.length = 2) ∧
    (∃ s, (loggerSystem Bool boundaryCallbacks boundaryLogger ((), periodSinkOpened .daily)).Run
        (.initial ⟨((), periodSinkOpened .daily), []⟩) (boundaryRun .daily true) s ∧
      (0 :: readings boundaryLogger (boundaryRun .daily true)).Pairwise (· ≤ ·) ∧
      TwoPeriods .daily gmtime64 (0 :: readings boundaryLogger (boundaryRun .daily true)) ∧ s.shared.mem.2.closed.length = 2) := by
  obtain ⟨s, hrun, hclosed⟩ := boundaryRun_run .hourly true
  obtain ⟨s', hrun', hclosed'⟩ := boundaryRun_run .daily true
  exact ⟨⟨s, hrun, (boundaryRun_clock .hourly true).1, (boundaryRun_clock .hourly true).2, hclosed⟩,
    ⟨s', hrun', (boundaryRun_clock .daily true).1, (boundaryRun_clock .daily true).2, hclosed'⟩⟩

end Copper
