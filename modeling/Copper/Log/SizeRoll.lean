import Copper.Log.Archives

/-!
# The stream of a size-rolled file

A sink that rolls by size cuts the stream of its records into generations, each closed as soon as it is `max_bytes` long, and
its archives hold the latest of them (`SinkRun.Preserved`). All of it rests on the size counter, a `size_t`: it counts the
live file modulo `2 ^ w`, so a live file of `2 ^ w` bytes or more is taken for a short one. `size_rolled_stream` shows that
nothing else can go wrong.
-/

namespace Copper

variable {w : Nat} {localtime : TimeConversion} {config : FileSinkConfig w} {path : Path} {files : Files} {m : Nat}

/-- What the archives hold, the oldest first, and then the live file. -/
def SinkRun.onDisk (m : Nat) (path : Path) (s : SinkRun w) : Content :=
  ((List.range (min m s.closed.length)).reverse.map fun j => (slots s.files path (j + 1)).getD []).flatten ++
    (slots s.files path 0).getD []

/-- What a size-rolled sink with at most `m` archives keeps of the initial content `c` and the records `rs`. -/
structure SinkRun.Preserved (m : Nat) (config : FileSinkConfig w) (path : Path) (c : Content) (rs : List LogRecord)
    (s : SinkRun w) : Prop where
  /-- The archives are the latest closed generations, `m` of them or as many as there were rotations, and nothing else. -/
  archived : s.Archived m path
  /-- The files hold the stream, less the generations older than those in the archives. -/
  stream : c ++ texts rs = ((s.closed.drop m).reverse.map Generation.content).flatten ++ s.onDisk m path
  /-- Every record starts before the limit. -/
  offsets : ∀ g ∈ s.live :: s.closed, ∀ before r after, g.records = before ++ r :: after →
    (g.start ++ texts before).length < config.maxBytes.toNat
  /-- Every closed generation has reached the limit. -/
  closed : ∀ g ∈ s.closed, config.maxBytes.toNat ≤ g.content.length
  /-- The counter is the size of the live file. -/
  counter : ∃ content, s.files path = some content ∧ s.sink.currentSize.toNat = content.length

/-- The live file, rotated first if it has reached the limit, stays shorter than `2 ^ w` with the record. -/
def SizeFits (config : FileSinkConfig w) (path : Path) (s : SinkRun w) (r : LogRecord) : Prop :=
  let size := ((s.files path).getD []).length
  (if config.maxBytes.toNat ≤ size then 0 else size) + r.text.length < 2 ^ w

/-- The parts of `SinkRun.Preserved` in terms of the generations. -/
structure SinkRun.SizeRolled (m : Nat) (config : FileSinkConfig w) (path : Path) (c : Content) (rs : List LogRecord)
    (s : SinkRun w) : Prop where
  tracks : s.Tracks config path
  archived : s.Archived m path
  stream : c ++ texts rs = (s.closed.reverse.map Generation.content).flatten ++ s.live.content
  offsets : ∀ g ∈ s.live :: s.closed, ∀ before r after, g.records = before ++ r :: after →
    (g.start ++ texts before).length < config.maxBytes.toNat
  closed : ∀ g ∈ s.closed, config.maxBytes.toNat ≤ g.content.length

/-- The files hold the generations that the archives keep, and the live one. -/
theorem SinkRun.Tracks.onDisk_eq {s : SinkRun w} (hs : s.Tracks config path) (ha : s.Archived m path) :
    s.onDisk m path = ((s.closed.take m).reverse.map Generation.content).flatten ++ s.live.content := by
  have hkept : (List.range (min m s.closed.length)).map (fun j => (slots s.files path (j + 1)).getD [])
      = (s.closed.take m).map Generation.content := by
    refine List.ext_getElem (by simp) fun j hj hj' => ?_
    rw [List.getElem_map, List.getElem_map, List.getElem_range, ha j,
      List.getElem?_eq_getElem (by simpa using hj'), Option.map_some, Option.getD_some]
  rw [onDisk, List.map_reverse, hkept, hs.live_slot, Option.getD_some, List.map_reverse]

/-- The older generations, and those in the archives, are all of them. -/
theorem flatten_drop_take (gs : List Generation) (m : Nat) :
    ((gs.drop m).reverse.map Generation.content).flatten ++ ((gs.take m).reverse.map Generation.content).flatten
      = (gs.reverse.map Generation.content).flatten := by
  rw [← List.flatten_append, ← List.map_append, ← List.reverse_append, List.take_append_drop]

namespace SinkRun.SizeRolled

variable {c : Content} {rs : List LogRecord} {s : SinkRun w} (hs : s.SizeRolled m config path c rs)

include hs

/-- Beyond the generations, all that is promised is that the counter has not wrapped. -/
theorem preserved_iff : s.Preserved m config path c rs ↔ s.live.content.length < 2 ^ w := by
  have hcount : s.sink.currentSize.toNat = s.live.content.length % 2 ^ w := by rw [hs.tracks.size, BitVec.toNat_ofNat]
  constructor
  · intro hp
    obtain ⟨content, hcontent, hsize⟩ := hp.counter
    rw [hs.tracks.live] at hcontent
    cases hcontent
    rw [← hsize]
    exact s.sink.currentSize.isLt
  · intro hlt
    refine ⟨hs.archived, ?_, hs.offsets, hs.closed, _, hs.tracks.live, by rw [hcount, Nat.mod_eq_of_lt hlt]⟩
    rw [hs.stream, hs.tracks.onDisk_eq hs.archived, ← List.append_assoc, flatten_drop_take]

variable (localtime) in
/-- A record is due when the live file has reached the limit. -/
theorem due_iff (hmode : config.rollMode = .size) (hmax : 0 < config.maxBytes.toNat)
    (hlt : s.live.content.length < 2 ^ w) (timeMs : UInt64) :
    s.sink.Due localtime timeMs ↔ config.maxBytes.toNat ≤ s.live.content.length := by
  have hmax' : 0 < config.maxBytes := by
    rw [BitVec.lt_def]
    simpa using hmax
  rw [FileSink.Due, hs.tracks.rollMode, hmode]
  show 0 < s.sink.maxBytes ∧ s.sink.maxBytes ≤ s.sink.currentSize ↔ _
  rw [hs.tracks.maxBytes, hs.tracks.size, BitVec.le_def, BitVec.toNat_ofNat, Nat.mod_eq_of_lt hlt]
  exact ⟨fun h => h.2, fun h => ⟨hmax', h⟩⟩

variable (localtime) in
/-- A write keeps the generations in order. -/
theorem write (hmode : config.rollMode = .size) (hmax : 0 < config.maxBytes.toNat)
    (hlimit : rotateTop config.maxFiles + 1 = m) (hfit : NamesFit path (rotateTop config.maxFiles))
    (hlt : s.live.content.length < 2 ^ w) (r : LogRecord) :
    (s.write localtime r).SizeRolled m config path c (rs ++ [r]) ∧
      (s.write localtime r).live.content.length
        = (if config.maxBytes.toNat ≤ s.live.content.length then 0 else s.live.content.length) + r.text.length := by
  have hdue_iff := hs.due_iff localtime hmode hmax hlt r.timeMs
  have ha : (s.write localtime r).Archived m path := by
    rw [← hlimit]
    exact hs.tracks.archived_write hfit (by rw [hlimit]; exact hs.archived)
  have hstream : c ++ texts (rs ++ [r]) = (s.closed.reverse.map Generation.content).flatten ++ s.live.content ++ r.text := by
    rw [texts_append, texts_singleton, ← List.append_assoc, hs.stream]
  by_cases hdue : s.sink.Due localtime r.timeMs
  · have hfull := hdue_iff.mp hdue
    have ht := (hs.tracks.write_rotated (r := r) hdue).1
    rw [hs.tracks.write_of_due hdue] at ht ha ⊢
    refine ⟨⟨ht, ha, ?_, ?_, ?_⟩, ?_⟩
    · rw [hstream, Generation.content_new, List.reverse_cons, List.map_append, List.flatten_append]
      simp
    · refine List.forall_mem_cons.mpr ⟨?_, hs.offsets⟩
      intro before r' after hsplit
      -- the only record of the new generation starts at offset zero
      have hnil : before = [] := by
        cases before with
        | nil => rfl
        | cons b bs => simp at hsplit
      rw [hnil]
      simpa [texts] using hmax
    · exact List.forall_mem_cons.mpr ⟨hfull, hs.closed⟩
    · rw [if_pos hfull, Generation.content_new, Nat.zero_add]
  · have hshort : ¬ config.maxBytes.toNat ≤ s.live.content.length := fun h => hdue (hdue_iff.mpr h)
    have ht := (hs.tracks.write_kept (r := r) hdue).1
    rw [hs.tracks.write_of_not_due hdue] at ht ha ⊢
    refine ⟨⟨ht, ha, ?_, ?_, hs.closed⟩, ?_⟩
    · rw [hstream, Generation.content_snoc, List.append_assoc]
    · refine List.forall_mem_cons.mpr ⟨?_, fun g hg => hs.offsets g (List.mem_cons_of_mem _ hg)⟩
      intro before r' after hsplit
      rcases List.eq_nil_or_concat after with rfl | ⟨after', last, rfl⟩
      · -- the record just written starts where the live file ended
        obtain ⟨hbefore, -⟩ := List.append_inj' hsplit rfl
        rw [← hbefore]
        exact Nat.lt_of_not_le hshort
      · rw [List.concat_eq_append, ← List.cons_append, ← List.append_assoc] at hsplit
        obtain ⟨hrecords, -⟩ := List.append_inj' hsplit rfl
        exact hs.offsets s.live List.mem_cons_self before r' after' hrecords
    · rw [if_neg hshort, Generation.content_snoc, List.length_append]

end SinkRun.SizeRolled

/-- A sink just opened, where there are no archives, has the generations in order. -/
theorem SinkRun.Opened.sizeRolled {s : SinkRun w} (h : s.Opened localtime config files path)
    (hnone : ∀ j, slots files path (j + 1) = none) (m : Nat) :
    s.SizeRolled m config path (openedContent config files path) [] := by
  have hclosed := h.2.2.1
  have hlive := h.2.2.2
  refine ⟨h.tracks.1, h.archived hnone m, ?_, ?_, ?_⟩
  · rw [hclosed, hlive, Generation.content]
    simp [texts]
  · rw [hclosed, hlive]
    refine List.forall_mem_cons.mpr ⟨fun before r after hsplit => ?_, by simp⟩
    exact absurd hsplit (by simp)
  · rw [hclosed]
    simp

/-- A size-rolled sink with at most `m` archives, opened where there are none, preserves its stream from the start exactly
when the content it finds is shorter than `2 ^ w`; and then in every run all of whose records fit the counter. The condition
is exact: of the records that may come next, those after which the stream is preserved are those that fit. -/
theorem size_rolled_stream {s₀ : SinkRun w} (hmode : config.rollMode = .size) (hmax : 0 < config.maxBytes.toNat)
    (hm : 1 ≤ m) (hfiles : config.maxFiles = m) (hfit : NamesFit path (m - 1)) (hnone : ∀ j, slots files path (j + 1) = none)
    (hopen : (sinkRuns localtime config files path).init s₀) :
    (s₀.Preserved m config path (openedContent config files path) [] ↔ (openedContent config files path).length < 2 ^ w) ∧
      ((openedContent config files path).length < 2 ^ w → ∀ rs s,
        ((sinkRuns localtime config files path).restrict (SizeFits config path)).Run s₀ rs s →
          s.Preserved m config path (openedContent config files path) rs ∧
            ∀ r, (s.write localtime r).Preserved m config path (openedContent config files path) (rs ++ [r]) ↔
              SizeFits config path s r) := by
  have hlimit : rotateTop config.maxFiles + 1 = m := by
    rw [hfiles, rotateTop, if_pos (by omega)]
    omega
  have hfit' : NamesFit path (rotateTop config.maxFiles) := by
    rwa [show rotateTop config.maxFiles = m - 1 by omega]
  have hstart := SinkRun.Opened.sizeRolled hopen hnone m
  have hcontent : s₀.live.content = openedContent config files path := by
    rw [hopen.2.2.2, Generation.content]
    simp [texts]
  -- one write, from a state whose live file the counter can count
  have hstep : ∀ (s : SinkRun w) (rs : List LogRecord) (r : LogRecord),
      s.SizeRolled m config path (openedContent config files path) rs → s.live.content.length < 2 ^ w →
        (s.write localtime r).SizeRolled m config path (openedContent config files path) (rs ++ [r]) ∧
          ((s.write localtime r).live.content.length < 2 ^ w ↔ SizeFits config path s r) := by
    intro s rs r hs hlt
    obtain ⟨ht, hlen⟩ := hs.write localtime hmode hmax hlimit hfit' hlt r
    refine ⟨ht, ?_⟩
    rw [hlen, SizeFits, hs.tracks.live, Option.getD_some]
  refine ⟨?_, fun hlt rs s hrun => ?_⟩
  · rw [hstart.preserved_iff, hcontent]
  · have hinv : s.SizeRolled m config path (openedContent config files path) rs ∧ s.live.content.length < 2 ^ w := by
      induction hrun with
      | nil => exact ⟨hstart, by rwa [hcontent]⟩
      | snoc _ hst ih =>
        obtain ⟨hs, hlen⟩ := ih
        obtain ⟨hwrite, hfits⟩ := hst
        cases hwrite
        obtain ⟨ht, hiff⟩ := hstep _ _ _ hs hlen
        exact ⟨ht, hiff.mpr hfits⟩
    obtain ⟨hs, hlen⟩ := hinv
    refine ⟨hs.preserved_iff.mpr hlen, fun r => ?_⟩
    obtain ⟨ht, hiff⟩ := hstep s rs r hs hlen
    rw [ht.preserved_iff, hiff]

/-- A sink that keeps one archive and rolls at two bytes. -/
def pairSink : FileSinkConfig 64 where
  path := some [97]
  openMode := .append
  rollMode := .size
  maxBytes := 2
  maxFiles := 1

/-- That sink, just opened on a file of one byte. -/
def pairSinkOpened : SinkRun 64 where
  sink := {
    path := [97], rollMode := .size, maxBytes := 2, maxFiles := 1, file := some [97], currentSize := 1, currentDay := 0
    currentHour := 0 }
  files := Function.update (Function.update (fun _ => none) [97] (some [9])) [97] (some [9])
  closed := []
  live := ⟨[9], []⟩

theorem pairSinkOpened_opened :
    pairSinkOpened.Opened noTime pairSink (Function.update (fun _ => none) [97] (some [9])) [97] :=
  ⟨rfl, ⟨0, logFileSink_works 0 rfl _⟩, rfl, rfl⟩

/-- A record of three bytes fills the live file, and the next record rotates it. -/
theorem size_rolled_stream_pair : ∃ s : SinkRun 64, s.closed = [⟨[9], [⟨0, [1, 2, 3]⟩]⟩] ∧
    s.Preserved 1 pairSink [97] [9] [⟨0, [1, 2, 3]⟩, ⟨0, [4]⟩] := by
  have hfirst : SizeFits pairSink [97] pairSinkOpened ⟨0, [1, 2, 3]⟩ := by
    unfold SizeFits
    decide
  have hsecond : SizeFits pairSink [97] (pairSinkOpened.write noTime ⟨0, [1, 2, 3]⟩) ⟨0, [4]⟩ := by
    unfold SizeFits
    decide
  have hrun : ((sinkRuns noTime pairSink (Function.update (fun _ => none) [97] (some [9])) [97]).restrict
      (SizeFits pairSink [97])).Run pairSinkOpened [⟨0, [1, 2, 3]⟩]
      (pairSinkOpened.write noTime ⟨0, [1, 2, 3]⟩) := .single ⟨rfl, hfirst⟩
  have hruns := hrun.snoc (e := ⟨0, [4]⟩) ⟨rfl, hsecond⟩
  have hnone : ∀ j, slots (Function.update (fun _ => none) [97] (some [9])) [97] (j + 1) = none := fun j =>
    slots_update_live (fun _ => none) [97] [9] j
  exact ⟨(pairSinkOpened.write noTime ⟨0, [1, 2, 3]⟩).write noTime ⟨0, [4]⟩, rfl,
    ((@size_rolled_stream 64 noTime pairSink [97] _ 1 _ rfl (by decide) (by decide) rfl
      (.of_length (k := 1) (by decide) (by decide) (by decide)) hnone pairSinkOpened_opened).2 (by decide) _ _ hruns).1⟩

/-- With a 32-bit `size_t`, a size-rolled sink that appends to a file of `2 ^ 32` bytes starts counting at zero. -/
theorem wrapped_of_length {c : Content} (hc : c.length = 2 ^ 32) :
    ∃ (config : FileSinkConfig 32) (files : Files) (s : SinkRun 32),
      config.rollMode = .size ∧ 0 < config.maxBytes.toNat ∧ config.maxFiles = 1 ∧ NamesFit [97] 0 ∧
        (∀ j, slots files [97] (j + 1) = none) ∧ (sinkRuns noTime config files [97]).init s ∧
        openedContent config files [97] = c ∧ s.sink.currentSize = 0 ∧ ¬ s.Preserved 1 config [97] c [] := by
  let config : FileSinkConfig 32 :=
    { path := some [97], openMode := .append, rollMode := .size, maxBytes := 2, maxFiles := 1 }
  let files : Files := Function.update (fun _ => none) [97] (some c)
  obtain ⟨s, hopen⟩ := @SinkRun.exists_opened 32 noTime config [97] rfl files
  have hnone : ∀ j, slots files [97] (j + 1) = none := fun j => slots_update_live (fun _ => none) [97] c j
  have hcontent : openedContent config files [97] = c := by
    show (Function.update (fun _ => none) [97] (some c) [97]).getD [] = c
    rw [Function.update_self, Option.getD_some]
  have hlive : s.live.content = c := by
    rw [hopen.2.2.2, Generation.content, hcontent]
    simp [texts]
  refine ⟨config, files, s, rfl, by decide, rfl, .of_length (k := 1) (by decide) (by decide) (by decide), hnone, hopen,
    hcontent, ?_, fun hp => ?_⟩
  · rw [hopen.tracks.1.size, hlive, hc]
    decide
  · have hrolled := hopen.sizeRolled hnone 1
    rw [hcontent] at hrolled
    have hlt := hrolled.preserved_iff.mp hp
    rw [hlive, hc] at hlt
    exact Nat.lt_irrefl _ hlt

theorem size_rolled_stream_wrapped : ∃ (config : FileSinkConfig 32) (files : Files) (s : SinkRun 32),
    config.rollMode = .size ∧ 0 < config.maxBytes.toNat ∧ config.maxFiles = 1 ∧ NamesFit [97] 0 ∧
      (∀ j, slots files [97] (j + 1) = none) ∧ (sinkRuns noTime config files [97]).init s ∧
      openedContent config files [97] = List.replicate (2 ^ 32) 0 ∧ s.sink.currentSize = 0 ∧
      ¬ s.Preserved 1 config [97] (List.replicate (2 ^ 32) 0) [] :=
  wrapped_of_length List.length_replicate

end Copper
