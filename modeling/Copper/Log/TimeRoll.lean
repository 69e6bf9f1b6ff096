import Copper.Log.Rotate
import Mathlib.Data.List.Chain

/-!
# The periods of a time-rolled file

A sink that rolls by day or by hour remembers the day of the year, or the hour of the day, of its latest record, and rotates
when the next one differs. Two records a year, or a day, apart may agree in that field and still belong to different periods
(`time_rolled_periods_mixed`); a run in which no two consecutive records do so keeps the periods apart
(`time_rolled_periods`).
-/

namespace Copper

/-- The two ways to roll by time. -/
inductive Period where
  | daily
  | hourly
  deriving DecidableEq, Repr

namespace Period

def rollMode : Period → RollMode
  | .daily => .daily
  | .hourly => .hourly

/-- The field of a date that the sink compares. -/
def field (dt : DateTime) : Period → Nat
  | .daily => dt.yday.toNat
  | .hourly => dt.hour.toNat

/-- What the sink remembers. -/
def current {w : Nat} (fs : FileSink w) : Period → Nat
  | .daily => fs.currentDay.toNat
  | .hourly => fs.currentHour.toNat

/-- The period a date belongs to: its calendar date, and for hourly rolling the hour. -/
def of (dt : DateTime) : Period → Int16 × UInt8 × UInt8 × Option UInt8
  | .daily => (dt.year, dt.month, dt.day, none)
  | .hourly => (dt.year, dt.month, dt.day, some dt.hour)

end Period

variable {w : Nat} {localtime : TimeConversion} {config : FileSinkConfig w} {path : Path} {files : Files} {p : Period}

/-- The two records belong to the same period. -/
def SamePeriod (p : Period) (localtime : TimeConversion) (a b : LogRecord) : Prop :=
  p.of (timeLocal localtime a.timeMs) = p.of (timeLocal localtime b.timeMs)

/-- The two records agree in the field the sink compares. -/
def SameField (p : Period) (localtime : TimeConversion) (a b : LogRecord) : Prop :=
  p.field (timeLocal localtime a.timeMs) = p.field (timeLocal localtime b.timeMs)

/-- The records of each generation belong to one period. -/
def SinkRun.OnePeriod (p : Period) (localtime : TimeConversion) (s : SinkRun w) : Prop :=
  ∀ g ∈ s.live :: s.closed, ∀ a ∈ g.records, ∀ b ∈ g.records, SamePeriod p localtime a b

variable (localtime) in
/-- A sink that rolls by a period rotates when the field it compares differs from the one it remembers. -/
theorem FileSink.due_period {fs : FileSink w} (hmode : fs.rollMode = p.rollMode) (timeMs : UInt64) :
    fs.Due localtime timeMs ↔ p.field (timeLocal localtime timeMs) ≠ p.current fs := by
  cases p with
  | daily =>
    rw [Due, hmode]
    exact (not_congr UInt16.toNat_inj).symm
  | hourly =>
    rw [Due, hmode]
    exact (not_congr UInt8.toNat_inj).symm

theorem FileSink.current_stamped {fs : FileSink w} (hmode : fs.rollMode = p.rollMode) (timeMs : UInt64) :
    p.current (fs.stamped localtime timeMs) = p.field (timeLocal localtime timeMs) := by
  cases p with
  | daily => simp only [stamped, hmode, Period.rollMode, Period.current, Period.field]
  | hourly => simp only [stamped, hmode, Period.rollMode, Period.current, Period.field]

/-- What a time-rolled sink remembers of the records `rs` written so far: the field of the last one, which is the last of the
live generation too. -/
structure SinkRun.TimeRolled (p : Period) (localtime : TimeConversion) (config : FileSinkConfig w) (path : Path)
    (rs : List LogRecord) (s : SinkRun w) : Prop where
  tracks : s.Tracks config path
  last : rs.getLast? = s.live.records.getLast?
  current : ∀ a ∈ rs.getLast?, p.current s.sink = p.field (timeLocal localtime a.timeMs)

/-- A generation of one period takes a record of the period of its last record, and no other. -/
theorem onePeriod_snoc {rs : List LogRecord} (h : ∀ a ∈ rs, ∀ b ∈ rs, SamePeriod p localtime a b) (r : LogRecord) :
    (∀ a ∈ rs ++ [r], ∀ b ∈ rs ++ [r], SamePeriod p localtime a b) ↔ ∀ a ∈ rs.getLast?, SamePeriod p localtime a r := by
  constructor
  · intro hall a ha
    exact hall a (List.mem_append_left _ (List.mem_of_getLast? ha)) r (List.mem_append_right _ List.mem_cons_self)
  · intro hlast
    have hsame : ∀ a ∈ rs ++ [r], SamePeriod p localtime a r := by
      intro a ha
      rcases List.mem_append.mp ha with ha | ha
      · obtain ⟨z, hz⟩ := Option.ne_none_iff_exists'.mp fun h0 => List.ne_nil_of_mem ha (List.getLast?_eq_none_iff.mp h0)
        exact (h a ha z (List.mem_of_getLast? hz)).trans (hlast z hz)
      · rw [List.mem_singleton.mp ha]
        rfl
    exact fun a ha b hb => (hsame a ha).trans (hsame b hb).symm

namespace SinkRun.TimeRolled

variable {rs : List LogRecord} {s : SinkRun w} (hs : s.TimeRolled p localtime config path rs)

include hs

/-- A write keeps the periods apart exactly when the last record, if it agrees in the field, is of the same period. -/
theorem write (hmode : config.rollMode = p.rollMode) (r : LogRecord) :
    (s.write localtime r).TimeRolled p localtime config path (rs ++ [r]) ∧
      ((s.write localtime r).OnePeriod p localtime ↔
        s.OnePeriod p localtime ∧ ∀ a ∈ rs.getLast?, SameField p localtime a r → SamePeriod p localtime a r) := by
  have hmode' : s.sink.rollMode = p.rollMode := hs.tracks.rollMode.trans hmode
  have hdue_iff := FileSink.due_period localtime hmode' r.timeMs
  have hlast : (rs ++ [r]).getLast? = some r := List.getLast?_concat
  by_cases hdue : s.sink.Due localtime r.timeMs
  · have ht := (hs.tracks.write_rotated (r := r) hdue).1
    have hcurrent : p.current ((fileRotate .works s.sink s.files).1.stamped localtime r.timeMs)
        = p.field (timeLocal localtime r.timeMs) := FileSink.current_stamped (by rwa [fileRotate_sink]) r.timeMs
    rw [hs.tracks.write_of_due hdue] at ht ⊢
    refine ⟨⟨ht, hlast, fun a ha => ?_⟩, ?_⟩
    · rw [hlast] at ha
      cases ha
      cases p <;> exact hcurrent
    · have hnew : ∀ a ∈ [r], ∀ b ∈ [r], SamePeriod p localtime a b := by
        intro a ha b hb
        rw [List.mem_singleton.mp ha, List.mem_singleton.mp hb]
        rfl
      have hfield : ∀ a ∈ rs.getLast?, SameField p localtime a r → SamePeriod p localtime a r := by
        intro a ha hsame
        exact absurd (hsame.symm.trans (hs.current a ha).symm) (hdue_iff.mp hdue)
      exact ⟨fun h => ⟨(List.forall_mem_cons.mp h).2, hfield⟩, fun h => List.forall_mem_cons.mpr ⟨hnew, h.1⟩⟩
  · have ht := (hs.tracks.write_kept (r := r) hdue).1
    have hfield : p.current s.sink = p.field (timeLocal localtime r.timeMs) := by
      by_contra hne
      exact hdue (hdue_iff.mpr fun h => hne h.symm)
    rw [hs.tracks.write_of_not_due hdue] at ht ⊢
    refine ⟨⟨ht, hlast.trans List.getLast?_concat.symm, fun a ha => ?_⟩, ?_⟩
    · rw [hlast] at ha
      cases ha
      cases p <;> exact hfield
    · have hagree : ∀ a ∈ rs.getLast?, SameField p localtime a r := fun a ha => (hs.current a ha).symm.trans hfield
      constructor
      · intro h
        obtain ⟨hlive, hclosed⟩ := List.forall_mem_cons.mp h
        have hold : ∀ a ∈ s.live.records, ∀ b ∈ s.live.records, SamePeriod p localtime a b := fun a ha b hb =>
          hlive a (List.mem_append_left _ ha) b (List.mem_append_left _ hb)
        refine ⟨List.forall_mem_cons.mpr ⟨hold, hclosed⟩, fun a ha _ => ?_⟩
        rw [hs.last] at ha
        exact (onePeriod_snoc hold r).mp hlive a ha
      · rintro ⟨h, hr⟩
        obtain ⟨hlive, hclosed⟩ := List.forall_mem_cons.mp h
        refine List.forall_mem_cons.mpr ⟨(onePeriod_snoc hlive r).mpr fun a ha => ?_, hclosed⟩
        rw [← hs.last] at ha
        exact hr a ha (hagree a ha)

end SinkRun.TimeRolled

/-- A sink that rolls by day or by hour keeps the records of each generation to one period exactly when no two consecutive
records agree in the day of the year, or in the hour, and belong to different periods. -/
theorem time_rolled_periods {s₀ s : SinkRun w} {rs : List LogRecord} (hmode : config.rollMode = p.rollMode)
    (hopen : (sinkRuns localtime config files path).init s₀) (hrun : (sinkRuns localtime config files path).Run s₀ rs s) :
    s.OnePeriod p localtime ↔ rs.IsChain fun a b => SameField p localtime a b → SamePeriod p localtime a b := by
  have hinv : s.TimeRolled p localtime config path rs ∧
      (s.OnePeriod p localtime ↔ rs.IsChain fun a b => SameField p localtime a b → SamePeriod p localtime a b) := by
    induction hrun with
    | nil =>
      have hlive := hopen.2.2.2
      refine ⟨⟨hopen.tracks.1, by rw [hlive], by simp⟩, fun _ => List.IsChain.nil, fun _ => ?_⟩
      intro g hg a ha
      rw [hopen.2.2.1, List.mem_singleton] at hg
      rw [hg, hlive] at ha
      cases ha
    | snoc _ hst ih =>
      obtain ⟨hs, hiff⟩ := ih
      cases hst
      obtain ⟨ht, hstep⟩ := hs.write hmode _
      refine ⟨ht, hstep.trans ?_⟩
      rw [hiff, List.isChain_append]
      simp
  exact hinv.2

/-! ## A day, and a year later -/

/-- A sink that rolls by a period, on a file that does not exist. -/
def periodSink (p : Period) : FileSinkConfig 64 where
  path := some [97]
  openMode := .append
  rollMode := p.rollMode
  maxBytes := 0
  maxFiles := 0

/-- That sink, just opened at the epoch. -/
def periodSinkOpened (p : Period) : SinkRun 64 where
  sink := {
    path := [97], rollMode := p.rollMode, maxBytes := 0, maxFiles := 0, file := some [97], currentSize := 0, currentDay := 0
    currentHour := 0 }
  files := Function.update (fun _ => none) [97] (some [])
  closed := []
  live := ⟨[], []⟩

theorem periodSinkOpened_opened (p : Period) : (periodSinkOpened p).Opened gmtime64 (periodSink p) (fun _ => none) [97] :=
  ⟨rfl, ⟨0, logFileSink_works 0 rfl _⟩, rfl, rfl⟩

/-- Two records of one day are of one period. -/
theorem time_rolled_periods_day : ∃ s, (sinkRuns gmtime64 (periodSink .daily) (fun _ => none) [97]).Run (periodSinkOpened .daily)
    [⟨0, [1]⟩, ⟨86399999, [2]⟩] s ∧ s.live.records = [⟨0, [1]⟩, ⟨86399999, [2]⟩] ∧ s.OnePeriod .daily gmtime64 := by
  have hrun : (sinkRuns gmtime64 (periodSink .daily) (fun _ => none) [97]).Run (periodSinkOpened .daily)
      [⟨0, [1]⟩, ⟨86399999, [2]⟩] (((periodSinkOpened .daily).write gmtime64 ⟨0, [1]⟩).write gmtime64 ⟨86399999, [2]⟩) :=
    (Transition.System.Run.single rfl).snoc rfl
  refine ⟨_, hrun, rfl, (time_rolled_periods rfl (periodSinkOpened_opened .daily) hrun).mpr ?_⟩
  exact List.isChain_pair.mpr fun _ => by unfold SamePeriod; decide

/-- In universal time, a daily sink writes a record of 1 January 1970 and one of 1 January 1971 to the same generation, and an
hourly sink one of midnight and one of the midnight after. -/
theorem time_rolled_periods_mixed :
    (∃ s₀ s, (sinkRuns gmtime64 (periodSink .daily) (fun _ => none) [97]).init s₀ ∧
      (sinkRuns gmtime64 (periodSink .daily) (fun _ => none) [97]).Run s₀ [⟨0, [1]⟩, ⟨31536000000, [2]⟩] s ∧
        ¬ s.OnePeriod .daily gmtime64) ∧
      ∃ s₀ s, (sinkRuns gmtime64 (periodSink .hourly) (fun _ => none) [97]).init s₀ ∧
        (sinkRuns gmtime64 (periodSink .hourly) (fun _ => none) [97]).Run s₀ [⟨0, [1]⟩, ⟨86400000, [2]⟩] s ∧
          ¬ s.OnePeriod .hourly gmtime64 := by
  refine ⟨⟨periodSinkOpened .daily,
    ((periodSinkOpened .daily).write gmtime64 ⟨0, [1]⟩).write gmtime64 ⟨31536000000, [2]⟩, periodSinkOpened_opened .daily,
    (Transition.System.Run.single rfl).snoc rfl, fun h => ?_⟩, ⟨periodSinkOpened .hourly,
    ((periodSinkOpened .hourly).write gmtime64 ⟨0, [1]⟩).write gmtime64 ⟨86400000, [2]⟩, periodSinkOpened_opened .hourly,
    (Transition.System.Run.single rfl).snoc rfl, fun h => ?_⟩⟩
  · have hlive : (((periodSinkOpened .daily).write gmtime64 ⟨0, [1]⟩).write gmtime64 ⟨31536000000, [2]⟩).live
        = ⟨[], [⟨0, [1]⟩, ⟨31536000000, [2]⟩]⟩ := rfl
    have hsame := h _ List.mem_cons_self
    rw [hlive] at hsame
    exact absurd (hsame ⟨0, [1]⟩ (by decide) ⟨31536000000, [2]⟩ (by decide)) (by unfold SamePeriod; decide)
  · have hlive : (((periodSinkOpened .hourly).write gmtime64 ⟨0, [1]⟩).write gmtime64 ⟨86400000, [2]⟩).live
        = ⟨[], [⟨0, [1]⟩, ⟨86400000, [2]⟩]⟩ := rfl
    have hsame := h _ List.mem_cons_self
    rw [hlive] at hsame
    exact absurd (hsame ⟨0, [1]⟩ (by decide) ⟨86400000, [2]⟩ (by decide)) (by unfold SamePeriod; decide)

end Copper
