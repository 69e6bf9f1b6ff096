import Copper.Log.Rotate

/-!
# What the archives keep

A sink that finds no archives keeps the closed generations of its run, the latest in `path.1`, up to `rotateTop + 1` of them
(`SinkRun.Archived`). Whatever it finds, the latest ones are where they should be (`SinkRun.Recent`). A sink without a limit is
documented to keep all of them; its loop starts at archive 999, so the rotation after the thousandth replaces `path.1000`
(`unlimited_archives`).
-/

namespace Copper

variable {w : Nat} {localtime : TimeConversion} {config : FileSinkConfig w} {path : Path} {s : SinkRun w} {r : LogRecord}

/-- The archives are the latest closed generations, at most `limit` of them, and nothing else. -/
def SinkRun.Archived (limit : Nat) (path : Path) (s : SinkRun w) : Prop :=
  ∀ j, slots s.files path (j + 1) = (s.closed.take limit)[j]?.map Generation.content

/-- The latest closed generations, up to `limit` of them, are in the archives. -/
def SinkRun.Recent (limit : Nat) (path : Path) (s : SinkRun w) : Prop :=
  ∀ j < limit, ∀ g, s.closed[j]? = some g → slots s.files path (j + 1) = some g.content

/-- A sink that finds no archives has none of its own. -/
theorem SinkRun.Opened.archived {files : Files} (h : s.Opened localtime config files path)
    (hnone : ∀ j, slots files path (j + 1) = none) (limit : Nat) : s.Archived limit path := by
  intro j
  rw [h.tracks.2 j, hnone j, h.2.2.1, List.take_nil]
  rfl

namespace SinkRun.Tracks

variable (hs : s.Tracks config path) (hfit : NamesFit path (rotateTop config.maxFiles))

include hs

theorem live_slot : slots s.files path 0 = some s.live.content := hs.live

include hfit

/-- After a rotation, an archive up to the top of the row is what the slot below it held. -/
theorem rotated_succ (h : s.sink.Due localtime r.timeMs) {j : Nat} (hj : j < rotateTop config.maxFiles) :
    slots (s.write localtime r).files path (j + 1) = slots s.files path j := by
  rw [← hs.name, ← hs.maxFiles] at hfit
  rw [← hs.maxFiles] at hj
  rw [(hs.write_rotated h).2, slots_fileRotate_succ hfit s.files hj, hs.name]

/-- After a rotation, the archive above the row is what the top slot held, or its own. -/
theorem rotated_top (h : s.sink.Due localtime r.timeMs) :
    slots (s.write localtime r).files path (rotateTop config.maxFiles + 1)
      = (slots s.files path (rotateTop config.maxFiles)).or
          (if 0 < config.maxFiles then none else slots s.files path (rotateTop config.maxFiles + 1)) := by
  rw [← hs.name, ← hs.maxFiles] at hfit
  rw [(hs.write_rotated h).2, ← hs.maxFiles, slots_fileRotate_top hfit s.files, hs.name]

/-- After a rotation, archives past the row are as they were. -/
theorem rotated_above (h : s.sink.Due localtime r.timeMs) {j : Nat} (hj : rotateTop config.maxFiles < j) :
    slots (s.write localtime r).files path (j + 1) = slots s.files path (j + 1) := by
  rw [← hs.name, ← hs.maxFiles] at hfit
  rw [← hs.maxFiles] at hj
  rw [(hs.write_rotated h).2, slots_fileRotate_above hfit s.files (by omega), hs.name]

/-- After a rotation, the first archive is what the live file held. -/
theorem rotated_one (h : s.sink.Due localtime r.timeMs) :
    slots (s.write localtime r).files path 1 = some s.live.content := by
  rcases Nat.eq_zero_or_pos (rotateTop config.maxFiles) with htop | htop
  · have hone := hs.rotated_top hfit h
    rw [htop, hs.live_slot, Option.some_or] at hone
    exact hone
  · rw [hs.rotated_succ hfit h htop, hs.live_slot]

/-- A write keeps the archives in step with the closed generations. -/
theorem archived_write (ha : s.Archived (rotateTop config.maxFiles + 1) path) :
    (s.write localtime r).Archived (rotateTop config.maxFiles + 1) path := by
  intro j
  by_cases hdue : s.sink.Due localtime r.timeMs
  · have hclosed : (s.write localtime r).closed = s.live :: s.closed := by rw [hs.write_of_due hdue]
    rw [hclosed, List.take_succ_cons]
    cases j with
    | zero => exact hs.rotated_one hfit hdue
    | succ j =>
      rw [List.getElem?_cons_succ, List.getElem?_take]
      rcases Nat.lt_trichotomy (j + 1) (rotateTop config.maxFiles) with hlt | heq | hgt
      · rw [hs.rotated_succ hfit hdue hlt, ha j, List.getElem?_take, if_pos (by omega), if_pos (by omega)]
      · have htop := hs.rotated_top hfit hdue
        have hslot : slots s.files path (j + 1) = s.closed[j]?.map Generation.content := by
          rw [ha j, List.getElem?_take, if_pos (by omega)]
        have habove : slots s.files path (j + 1 + 1) = s.closed[j + 1]?.map Generation.content := by
          rw [ha (j + 1), List.getElem?_take, if_pos (by omega)]
        rw [← heq, hslot, habove] at htop
        rw [htop, if_pos (show j < rotateTop config.maxFiles by omega)]
        cases hg : s.closed[j]? with
        | some g => rfl
        | none =>
          have hnext : s.closed[j + 1]? = none := by
            rw [List.getElem?_eq_none_iff] at hg ⊢
            omega
          rw [hnext]
          split <;> rfl
      · rw [hs.rotated_above hfit hdue hgt, ha (j + 1), List.getElem?_take, if_neg (by omega), if_neg (by omega)]
  · rw [(hs.write_kept hdue).2, ha j, hs.write_of_not_due hdue]

variable (localtime r) in
/-- A write keeps the latest closed generations where they should be. -/
theorem recent_write (ha : s.Recent (rotateTop config.maxFiles + 1) path) :
    (s.write localtime r).Recent (rotateTop config.maxFiles + 1) path := by
  intro j hj g hg
  by_cases hdue : s.sink.Due localtime r.timeMs
  · have hclosed : (s.write localtime r).closed = s.live :: s.closed := by rw [hs.write_of_due hdue]
    rw [hclosed] at hg
    cases j with
    | zero =>
      cases hg
      exact hs.rotated_one hfit hdue
    | succ j =>
      rw [List.getElem?_cons_succ] at hg
      have hslot := ha j (by omega) g hg
      rcases Nat.eq_or_lt_of_le (Nat.le_of_lt_succ hj) with heq | hlt
      · have htop := hs.rotated_top hfit hdue
        rw [← heq, hslot, Option.some_or] at htop
        exact htop
      · rw [hs.rotated_succ hfit hdue hlt, hslot]
  · rw [hs.write_of_not_due hdue] at hg
    rw [(hs.write_kept hdue).2]
    exact ha j hj g hg

end SinkRun.Tracks

/-! ## A sink without a limit -/

/-- Every closed generation is in some archive. -/
def SinkRun.AllKept (path : Path) (s : SinkRun w) : Prop :=
  ∀ g ∈ s.closed, ∃ i, slots s.files path (i + 1) = some g.content

/-- If the record rotates the archives, and archive 999 is there to replace archive 1000, then what archive 1000 holds is no
closed generation, or another archive or the live file holds the same. -/
def LastSpared (localtime : TimeConversion) (path : Path) (s : SinkRun w) (r : LogRecord) : Prop :=
  s.sink.Due localtime r.timeMs → slots s.files path 999 ≠ none → ∀ g ∈ s.closed,
    slots s.files path 1000 = some g.content →
      g.content = s.live.content ∨ ∃ i ≠ 999, slots s.files path (i + 1) = some g.content

/-- While fewer than a thousand generations are closed, archive 1000 is spared. -/
theorem SinkRun.Recent.lastSpared (hr : s.Recent 1000 path) (hlen : s.closed.length < 1000) : LastSpared localtime path s r := by
  intro _ _ g hg _
  obtain ⟨j, hj, rfl⟩ := List.mem_iff_getElem.mp hg
  exact Or.inr ⟨j, by omega, hr j (by omega) _ (List.getElem?_eq_getElem hj)⟩

/-- What archives other than the thousandth hold is still there after a rotation. -/
theorem SinkRun.Tracks.carried (hs : s.Tracks config path) (hmax : config.maxFiles = 0) (hfit : NamesFit path 999)
    (hdue : s.sink.Due localtime r.timeMs) {c : Content} {i : Nat} (hi : i ≠ 999) (hc : slots s.files path (i + 1) = some c) :
    ∃ k, slots (s.write localtime r).files path (k + 1) = some c := by
  have htop : rotateTop config.maxFiles = 999 := by rw [hmax]; rfl
  rw [← htop] at hfit
  rcases Nat.lt_trichotomy (i + 1) 999 with hlt | heq | hgt
  · exact ⟨i + 1, by rw [hs.rotated_succ hfit hdue (by omega), hc]⟩
  · refine ⟨999, ?_⟩
    have hlast := hs.rotated_top hfit hdue
    rw [htop, ← heq, hc, Option.some_or, heq] at hlast
    exact hlast
  · exact ⟨i, by rw [hs.rotated_above hfit hdue (by omega), hc]⟩

/-- A write loses no closed generation exactly when it spares the thousandth archive. -/
theorem SinkRun.Tracks.allKept_iff (hs : s.Tracks config path) (hmax : config.maxFiles = 0) (hfit : NamesFit path 999)
    (hkept : s.AllKept path) : (s.write localtime r).AllKept path ↔ LastSpared localtime path s r := by
  have htop : rotateTop config.maxFiles = 999 := by rw [hmax]; rfl
  by_cases hdue : s.sink.Due localtime r.timeMs
  · have hfit' : NamesFit path (rotateTop config.maxFiles) := by rwa [htop]
    have hclosed : (s.write localtime r).closed = s.live :: s.closed := by rw [hs.write_of_due hdue]
    have hlast := hs.rotated_top hfit' hdue
    rw [htop, if_neg (by omega)] at hlast
    constructor
    · intro hall _ hfull g hg hg1000
      obtain ⟨k, hk⟩ := hall g (by rw [hclosed]; exact List.mem_cons_of_mem _ hg)
      cases k with
      | zero =>
        rw [hs.rotated_one hfit' hdue] at hk
        exact Or.inl (Option.some.inj hk).symm
      | succ k =>
        refine Or.inr ?_
        rcases Nat.lt_trichotomy (k + 1) 999 with hlt | heq | hgt
        · rw [hs.rotated_succ hfit' hdue (by omega)] at hk
          exact ⟨k, by omega, hk⟩
        · obtain ⟨c, hc⟩ := Option.ne_none_iff_exists'.mp hfull
          rw [heq, hlast, hc, Option.some_or] at hk
          exact ⟨998, by omega, by rw [hc, hk]⟩
        · rw [hs.rotated_above hfit' hdue (by omega)] at hk
          exact ⟨k + 1, by omega, hk⟩
    · intro hspared g hg
      rw [hclosed] at hg
      rcases List.mem_cons.mp hg with rfl | hg
      · exact ⟨0, hs.rotated_one hfit' hdue⟩
      · obtain ⟨i, hi⟩ := hkept g hg
        by_cases hi999 : i = 999
        · subst hi999
          cases hfull : slots s.files path 999 with
          | none =>
            rw [hfull, Option.none_or] at hlast
            exact ⟨999, by rw [hlast, hi]⟩
          | some c =>
            rcases hspared hdue (by rw [hfull]; exact Option.some_ne_none c) g hg hi with hlive | ⟨k, hk, hk'⟩
            · exact ⟨0, by rw [hs.rotated_one hfit' hdue, hlive]⟩
            · exact hs.carried hmax hfit hdue hk hk'
        · exact hs.carried hmax hfit hdue hi999 hi
  · refine ⟨fun _ h => absurd h hdue, fun _ g hg => ?_⟩
    rw [hs.write_of_not_due hdue] at hg
    obtain ⟨i, hi⟩ := hkept g hg
    exact ⟨i, by rw [(hs.write_kept hdue).2, hi]⟩

/-- In every run of a sink without a limit all of whose records spare the thousandth archive, every closed generation is in some
archive in every state reached. The condition is exact: of the records that may come next, those after which every closed
generation is in some archive are those that meet it. And it holds for as long as fewer than a thousand generations are
closed. -/
theorem unlimited_archives {files : Files} (hmax : config.maxFiles = 0) (hfit : NamesFit path 999)
    (h : ((sinkRuns localtime config files path).restrict (LastSpared localtime path)).Reachable s) :
    s.AllKept path ∧ (∀ r, (s.write localtime r).AllKept path ↔ LastSpared localtime path s r) ∧
      (s.closed.length < 1000 → ∀ r, LastSpared localtime path s r) := by
  have htop : rotateTop config.maxFiles = 999 := by rw [hmax]; rfl
  have hinv : s.Tracks config path ∧ s.Recent 1000 path ∧ s.AllKept path := by
    refine h.invariant (I := fun s => s.Tracks config path ∧ s.Recent 1000 path ∧ s.AllKept path)
      ⟨fun s hopen => ?_, fun s r t hs hst => ?_⟩
    · have hclosed := hopen.2.2.1
      refine ⟨hopen.tracks.1, fun j _ g hg => ?_, fun g hg => ?_⟩
      · rw [hclosed] at hg
        cases hg
      · rw [hclosed] at hg
        cases hg
    · obtain ⟨htracks, hrecent, hkept⟩ := hs
      obtain ⟨hstep, hspared⟩ := hst
      cases hstep
      have hrecent' := htracks.recent_write localtime r (by rwa [htop]) (by rwa [htop])
      rw [htop] at hrecent'
      refine ⟨?_, hrecent', (htracks.allKept_iff hmax hfit hkept).mpr hspared⟩
      by_cases hdue : s.sink.Due localtime r.timeMs
      · exact (htracks.write_rotated hdue).1
      · exact (htracks.write_kept hdue).1
  obtain ⟨htracks, hrecent, hkept⟩ := hinv
  exact ⟨hkept, fun r => htracks.allKept_iff hmax hfit hkept, fun hlen r => hrecent.lastSpared hlen⟩

/-! ## The thousand and first rotation -/

/-- A sink without a limit that rolls at every byte. -/
def byteSink : FileSinkConfig 64 where
  path := some [97]
  openMode := .overwrite
  rollMode := .size
  maxBytes := 1
  maxFiles := 0

/-- That sink, just opened where there was no file. -/
def byteSinkOpened : SinkRun 64 where
  sink := {
    path := [97], rollMode := .size, maxBytes := 1, maxFiles := 0, file := some [97], currentSize := 0, currentDay := 0
    currentHour := 0 }
  files := Function.update (fun _ => none) [97] (some [])
  closed := []
  live := ⟨[], []⟩

theorem byteSinkOpened_opened : byteSinkOpened.Opened noTime byteSink (fun _ => none) [97] :=
  ⟨rfl, ⟨0, logFileSink_works 0 rfl _⟩, rfl, rfl⟩

theorem byteSink_fits : NamesFit [97] 999 := .of_length (k := 4) (by decide) (by decide) (by decide)

/-- Once a byte is in the live file, every further byte closes a generation. -/
theorem byteSink_due {s : SinkRun 64} {b : UInt8} (hs : s.Tracks byteSink [97])
    (hlive : s.live = ⟨[], [⟨0, [b]⟩]⟩) (timeMs : UInt64) : s.sink.Due noTime timeMs := by
  have hsize : s.sink.currentSize = 1 := by rw [hs.size, hlive]; rfl
  rw [FileSink.Due, hs.rollMode]
  show 0 < s.sink.maxBytes ∧ s.sink.maxBytes ≤ s.sink.currentSize
  rw [hs.maxBytes, hsize]
  decide

/-- After one record of a one and `n + 1` records of a zero, all but the last are closed generations. -/
theorem byteSink_run (n : Nat) : ∃ s : SinkRun 64,
    (sinkRuns noTime byteSink (fun _ => none) [97]).Reachable s ∧ s.Tracks byteSink [97] ∧ s.Archived 1000 [97] ∧
      s.closed = List.replicate n ⟨[], [⟨0, [0]⟩]⟩ ++ [⟨[], [⟨0, [1]⟩]⟩] ∧ s.live = ⟨[], [⟨0, [0]⟩]⟩ := by
  -- a record that is due closes the live generation
  have hnext : ∀ (s : SinkRun 64) (b : UInt8),
      (sinkRuns noTime byteSink (fun _ => none) [97]).Reachable s → s.Tracks byteSink [97] → s.Archived 1000 [97] →
        s.live = ⟨[], [⟨0, [b]⟩]⟩ → ∃ t : SinkRun 64,
          (sinkRuns noTime byteSink (fun _ => none) [97]).Reachable t ∧ t.Tracks byteSink [97] ∧
            t.Archived 1000 [97] ∧ t.closed = s.live :: s.closed ∧ t.live = ⟨[], [⟨0, [0]⟩]⟩ := by
    intro s b hr hs ha hlive
    have hdue := byteSink_due hs hlive 0
    refine ⟨s.write noTime ⟨0, [0]⟩, (Transition.System.Run.single rfl).reachable hr, (hs.write_rotated hdue).1,
      hs.archived_write byteSink_fits ha, ?_, ?_⟩
    · rw [hs.write_of_due hdue]
    · rw [hs.write_of_due hdue]
  induction n with
  | zero =>
    have hopen := byteSinkOpened_opened
    have hs := hopen.tracks.1
    have ha := hopen.archived (fun _ => rfl) 1000
    have hnot : ¬ byteSinkOpened.sink.Due noTime 0 := by
      rintro ⟨-, h⟩
      exact absurd h (by decide)
    obtain ⟨t, hr, ht, hta, hclosed, hlive⟩ := hnext (byteSinkOpened.write noTime ⟨0, [1]⟩) 1
      ((Transition.System.Run.single rfl).reachable (.of_init hopen)) (hs.write_kept (r := ⟨0, [1]⟩) hnot).1
      (hs.archived_write byteSink_fits ha) (by rw [hs.write_of_not_due hnot]; rfl)
    refine ⟨t, hr, ht, hta, ?_, hlive⟩
    rw [hclosed, hs.write_of_not_due hnot]
    rfl
  | succ n ih =>
    obtain ⟨s, hr, hs, ha, hclosed, hlive⟩ := ih
    obtain ⟨t, hr', ht, hta, hclosed', hlive'⟩ := hnext s 0 hr hs ha hlive
    refine ⟨t, hr', ht, hta, ?_, hlive'⟩
    rw [hclosed', hclosed, hlive, List.replicate_succ, List.cons_append]

/-- The thousand and first rotation loses the first generation. -/
theorem unlimited_archives_lost : ∃ s : SinkRun 64,
    (sinkRuns noTime byteSink (fun _ => none) [97]).Reachable s ∧ s.closed.length = 1001 ∧ ¬ s.AllKept [97] := by
  obtain ⟨s, hr, -, ha, hclosed, -⟩ := byteSink_run 1000
  refine ⟨s, hr, by rw [hclosed, List.length_append, List.length_replicate]; rfl, fun hkept => ?_⟩
  obtain ⟨i, hi⟩ := hkept ⟨[], [⟨0, [1]⟩]⟩ (by rw [hclosed]; exact List.mem_append_right _ List.mem_cons_self)
  rw [ha i, hclosed, List.take_append_of_le_length (by rw [List.length_replicate]), List.take_replicate, Nat.min_self,
    List.getElem?_replicate] at hi
  split at hi
  · exact absurd hi (by decide)
  · cases hi

/-- The first byte and the one that closes its generation spare archive 1000. -/
theorem unlimited_archives_two : ∃ s : SinkRun 64, s.closed.length = 1 ∧ s.AllKept [97] ∧
    (∀ r, (s.write noTime r).AllKept [97] ↔ LastSpared noTime [97] s r) ∧
      (s.closed.length < 1000 → ∀ r, LastSpared noTime [97] s r) := by
  have hopen := byteSinkOpened_opened
  have hfirst := (unlimited_archives (s := byteSinkOpened) rfl byteSink_fits (.of_init hopen)).2.2 (by decide) ⟨0, [1]⟩
  have hrun : ((sinkRuns noTime byteSink (fun _ => none) [97]).restrict (LastSpared noTime [97])).Run
      byteSinkOpened [⟨0, [1]⟩] (byteSinkOpened.write noTime ⟨0, [1]⟩) := .single ⟨rfl, hfirst⟩
  have hreach := hrun.reachable (.of_init hopen)
  have hsecond := (unlimited_archives rfl byteSink_fits hreach).2.2 (by decide) ⟨0, [0]⟩
  have hreach' := (hrun.snoc (e := ⟨0, [0]⟩) ⟨rfl, hsecond⟩).reachable (.of_init hopen)
  exact ⟨_, by decide, unlimited_archives rfl byteSink_fits hreach'⟩

end Copper
