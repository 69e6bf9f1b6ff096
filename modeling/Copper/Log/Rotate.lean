import Copper.Log.FileSink
import Copper.Foundation.Shift

/-!
# What a rotation and a write do to the files

Seen through its slots (the live file, then the archives), a rotation is a shift of the slots, followed by an empty live file
(`slots_fileRotate`). A run tracks the files (`SinkRun.Tracks`): the live file holds what the live generation says, and the
size counter counts it modulo `2 ^ w`. `SinkRun.Tracks.write_kept` and `SinkRun.Tracks.write_rotated` are the two things a
write can do.
-/

namespace Copper

open Slots (shift moveUp)

variable {w : Nat}

/-- The names a rotation builds for the slots up to `top + 1` fit the 512-byte buffers. -/
def NamesFit (path : Path) (top : Nat) : Prop := ∀ i ≤ top, (archivePath path (i + 1)).length < 512

/-- Names fit when the path leaves room for the longest number. -/
theorem NamesFit.of_length {path : Path} {top k : Nat} (hk : 0 < k) (htop : top + 1 < 10 ^ k) (hlen : path.length + k < 511) :
    NamesFit path top := by
  intro i hi
  have hdec := length_decimal_le (n := i + 1) hk (by omega)
  rw [archivePath, List.length_append, List.length_cons]
  omega

/-! ## Slots -/

theorem slots_update (files : Files) (path : Path) (i : Nat) (c : Option Content) :
    slots (Function.update files (slotPath path i) c) path = Function.update (slots files path) i c :=
  Function.update_comp_eq_of_injective files (slotPath_injective path) i c

/-- Writing to the live file leaves the archives alone. -/
theorem slots_update_live (files : Files) (path : Path) (c : Content) (j : Nat) :
    slots (Function.update files path (some c)) path (j + 1) = slots files path (j + 1) :=
  (congrFun (slots_update files path 0 _) (j + 1)).trans (Function.update_of_ne (Nat.succ_ne_zero j) _ _)

/-- Removing a slot empties it, unless the call fails. -/
theorem slots_removeFile (os : FileOs) (files : Files) (path : Path) (i : Nat) :
    slots (removeFile os files (slotPath path i)).state path =
      if os.removeFails (slotPath path i) then slots files path else Function.update (slots files path) i none := by
  cases hfails : os.removeFails (slotPath path i) with
  | true => rw [removeFile, if_pos (Or.inl hfails), Outcome.fail, if_pos rfl]
  | false =>
    rw [if_neg (by simp)]
    by_cases h : files (slotPath path i) = none
    · have hslot : slots files path i = none := h
      rw [removeFile, if_pos (Or.inr h), Outcome.fail, ← hslot, Function.update_eq_self]
    · rw [removeFile, if_neg (by simp [hfails, h])]
      exact slots_update files path i none

/-- The rename of a slot to the next one fails. -/
def FileOs.stuck (os : FileOs) (path : Path) (i : Nat) : Bool := os.renameFails (slotPath path i) (slotPath path (i + 1))

/-- Renaming a slot to the next one carries its item up, unless the call fails. -/
theorem slots_fsRename (os : FileOs) (files : Files) (path : Path) (i : Nat) :
    slots (fsRename os files (slotPath path i) (slotPath path (i + 1))).state path =
      if os.stuck path i then slots files path else moveUp (slots files path) i := by
  cases h : files (slotPath path i) with
  | none =>
    have hslot : slots files path i = none := h
    rw [Slots.moveUp_none hslot, ite_self]
    simp only [fsRename, h, Outcome.fail]
  | some c =>
    have hslot : slots files path i = some c := h
    rw [Slots.moveUp_some hslot, ← slots_update, ← slots_update]
    unfold FileOs.stuck
    simp only [fsRename, h]
    split
    · rfl
    · rfl

/-- The loop, and the rename of the live file after it, shift the slots, except those that are stuck. -/
theorem slots_rotateLoop (os : FileOs) {path : Path} {top : Nat} (hfit : NamesFit path top) (files : Files) :
    slots (fsRename os (rotateLoop os path files top) path (archiveName path 1)).state path
      = Slots.shiftExcept (os.stuck path) (slots files path) top := by
  induction top generalizing files with
  | zero =>
    rw [archiveName_eq (hfit 0 (Nat.le_refl 0))]
    exact slots_fsRename os files path 0
  | succ top ih =>
    rw [rotateLoop, ih fun i hi => hfit i (Nat.le_succ_of_le hi), Slots.shiftExcept, archiveName_eq (hfit top (Nat.le_succ top)),
      archiveName_eq (hfit (top + 1) (Nat.le_refl _)), slots_fsRename]

/-- Opening the live file to write empties it, unless the call fails. -/
theorem slots_openFile (os : FileOs) (files : Files) (path : Path) :
    slots (openFile os files path .write).state path =
      if os.openFails path then slots files path else Function.update (slots files path) 0 (some []) := by
  unfold openFile
  split
  · rfl
  · exact slots_update files path 0 (some [])

/-- The slots once the archive at the limit, if there is a limit, has been removed. -/
def remainingSlots (os : FileOs) (fs : FileSink w) (files : Files) : Nat → Option Content :=
  if 0 < fs.maxFiles ∧ os.removeFails (slotPath fs.path (rotateTop fs.maxFiles + 1)) = false then
    Function.update (slots files fs.path) (rotateTop fs.maxFiles + 1) none
  else slots files fs.path

/-- A rotation shifts the slots, except those that are stuck, and empties the live file. -/
theorem slots_fileRotate_os (os : FileOs) {fs : FileSink w} (hfit : NamesFit fs.path (rotateTop fs.maxFiles)) (files : Files) :
    slots (fileRotate os fs files).2 fs.path =
      if os.openFails fs.path then
        Slots.shiftExcept (os.stuck fs.path) (remainingSlots os fs files) (rotateTop fs.maxFiles)
      else
        Function.update (Slots.shiftExcept (os.stuck fs.path) (remainingSlots os fs files) (rotateTop fs.maxFiles)) 0 (some []) := by
  have hremove : slots (if 0 < fs.maxFiles then
      (removeFile os files (archiveName fs.path fs.maxFiles.toNat)).state else files) fs.path = remainingSlots os fs files := by
    unfold remainingSlots
    by_cases hpos : 0 < fs.maxFiles
    · have hidx : fs.maxFiles.toNat = rotateTop fs.maxFiles + 1 := by
        rw [rotateTop, if_pos hpos]
        omega
      rw [if_pos hpos, hidx, archiveName_eq (hfit _ (Nat.le_refl _)), slots_removeFile]
      cases os.removeFails (slotPath fs.path (rotateTop fs.maxFiles + 1)) with
      | true => simp
      | false => simp [hpos]
    · rw [if_neg hpos, if_neg fun h => hpos h.1]
  rw [← hremove, ← slots_rotateLoop os hfit, ← slots_openFile]
  rfl

/-- The slots that a rotation shifts: with a limit on the archives, the one at the limit has been removed. -/
def shiftedSlots (fs : FileSink w) (files : Files) : Nat → Option Content :=
  if 0 < fs.maxFiles then Function.update (slots files fs.path) (rotateTop fs.maxFiles + 1) none else slots files fs.path

/-- When every call succeeds, a rotation shifts the slots and leaves an empty live file, open. -/
theorem slots_fileRotate {fs : FileSink w} (hfit : NamesFit fs.path (rotateTop fs.maxFiles)) (files : Files) :
    slots (fileRotate .works fs files).2 fs.path
      = Function.update (shift (shiftedSlots fs files) (rotateTop fs.maxFiles)) 0 (some []) := by
  have hall : remainingSlots .works fs files = shiftedSlots fs files := by
    simp [remainingSlots, shiftedSlots, FileOs.works]
  rw [slots_fileRotate_os .works hfit, hall, ← Slots.shiftExcept_false]
  rfl

/-- An archive up to the top of the row is what the slot below it held. -/
theorem slots_fileRotate_succ {fs : FileSink w} (hfit : NamesFit fs.path (rotateTop fs.maxFiles)) (files : Files) {j : Nat}
    (hj : j < rotateTop fs.maxFiles) : slots (fileRotate .works fs files).2 fs.path (j + 1) = slots files fs.path j := by
  rw [slots_fileRotate hfit, Function.update_of_ne (Nat.succ_ne_zero j), Slots.shift_succ _ hj, shiftedSlots]
  split
  · exact Function.update_of_ne (by omega) _ _
  · rfl

/-- The archive above the row is what the top slot held; when that is empty, it keeps its own unless it has been removed. -/
theorem slots_fileRotate_top {fs : FileSink w} (hfit : NamesFit fs.path (rotateTop fs.maxFiles)) (files : Files) :
    slots (fileRotate .works fs files).2 fs.path (rotateTop fs.maxFiles + 1)
      = (slots files fs.path (rotateTop fs.maxFiles)).or
          (if 0 < fs.maxFiles then none else slots files fs.path (rotateTop fs.maxFiles + 1)) := by
  rw [slots_fileRotate hfit, Function.update_of_ne (Nat.succ_ne_zero _), Slots.shift_top, shiftedSlots]
  split
  · rw [Function.update_self, Function.update_of_ne (by omega)]
  · rfl

/-- Archives past the row are left alone. -/
theorem slots_fileRotate_above {fs : FileSink w} (hfit : NamesFit fs.path (rotateTop fs.maxFiles)) (files : Files) {j : Nat}
    (hj : rotateTop fs.maxFiles + 1 < j) : slots (fileRotate .works fs files).2 fs.path j = slots files fs.path j := by
  rw [slots_fileRotate hfit, Function.update_of_ne (by omega), Slots.shift_above _ hj, shiftedSlots]
  split
  · exact Function.update_of_ne (by omega) _ _
  · rfl

/-! ## When a record rotates the archives -/

/-- The condition under which `cpr__file_maybe_rotate` rotates. -/
def FileSink.Due (localtime : TimeConversion) (fs : FileSink w) (timeMs : UInt64) : Prop :=
  match fs.rollMode with
  | .none => False
  | .size => 0 < fs.maxBytes ∧ fs.maxBytes ≤ fs.currentSize
  | .daily => (timeLocal localtime timeMs).yday ≠ fs.currentDay
  | .hourly => (timeLocal localtime timeMs).hour ≠ fs.currentHour

/-- The sink with the day or hour of a record, if it rolls by it. -/
def FileSink.stamped (localtime : TimeConversion) (fs : FileSink w) (timeMs : UInt64) : FileSink w :=
  match fs.rollMode with
  | .daily => { fs with currentDay := (timeLocal localtime timeMs).yday }
  | .hourly => { fs with currentHour := (timeLocal localtime timeMs).hour }
  | _ => fs

variable {localtime : TimeConversion}

theorem fileMaybeRotate_of_due {os : FileOs} {fs : FileSink w} {files : Files} {timeMs : UInt64}
    (h : fs.Due localtime timeMs) :
    fileMaybeRotate os localtime fs files timeMs
      = (true, (fileRotate os fs files).1.stamped localtime timeMs, (fileRotate os fs files).2) := by
  unfold FileSink.Due at h
  unfold fileMaybeRotate FileSink.stamped
  cases hmode : fs.rollMode with
  | none =>
    rw [hmode] at h
    exact absurd h id
  | size =>
    simp only [hmode] at h
    simp only [if_pos h, fileRotate, hmode]
  | daily =>
    simp only [hmode] at h
    simp only [if_pos h, fileRotate, hmode]
  | hourly =>
    simp only [hmode] at h
    simp only [if_pos h, fileRotate, hmode]

theorem fileMaybeRotate_of_not_due {os : FileOs} {fs : FileSink w} {files : Files} {timeMs : UInt64}
    (h : ¬ fs.Due localtime timeMs) : fileMaybeRotate os localtime fs files timeMs = (false, fs, files) := by
  unfold FileSink.Due at h
  unfold fileMaybeRotate
  cases hmode : fs.rollMode with
  | none => rfl
  | size =>
    simp only [hmode] at h
    simp only [if_neg h]
  | daily =>
    simp only [hmode] at h
    simp only [if_neg h]
  | hourly =>
    simp only [hmode] at h
    simp only [if_neg h]

/-! ## What a run keeps track of -/

/-- The sink writes to `path` under the configuration it was opened with, the live file holds the live generation, and the size
counter counts it modulo `2 ^ w`. -/
structure SinkRun.Tracks (config : FileSinkConfig w) (path : Path) (s : SinkRun w) : Prop where
  name : s.sink.path = path
  file : s.sink.file = some path
  rollMode : s.sink.rollMode = config.rollMode
  maxBytes : s.sink.maxBytes = config.maxBytes
  maxFiles : s.sink.maxFiles = config.maxFiles
  live : s.files path = some s.live.content
  size : s.sink.currentSize = BitVec.ofNat w s.live.content.length

@[simp] theorem texts_append (rs rs' : List LogRecord) : texts (rs ++ rs') = texts rs ++ texts rs' := by
  simp [texts]

@[simp] theorem texts_singleton (r : LogRecord) : texts [r] = r.text := by
  simp [texts]

theorem Generation.content_snoc (g : Generation) (r : LogRecord) :
    (Generation.mk g.start (g.records ++ [r])).content = g.content ++ r.text := by
  simp [Generation.content]

theorem Generation.content_new (r : LogRecord) : (Generation.mk [] [r]).content = r.text := by
  simp [Generation.content]

/-- Opening a sink, when every call succeeds. -/
theorem logFileSink_works (now : UInt64) {config : FileSinkConfig w} {path : Path} (hpath : config.path = some path)
    (files : Files) :
    logFileSink .works localtime now (some config) files =
      { result := some {
          path := path
          rollMode := config.rollMode
          maxBytes := config.maxBytes
          maxFiles := config.maxFiles
          file := some path
          currentSize := BitVec.ofNat w (openedContent config files path).length
          currentDay := (timeLocal localtime now).yday
          currentHour := (timeLocal localtime now).hour }
        state := Function.update files path (some (openedContent config files path)) } := by
  cases hmode : config.openMode with
  | overwrite =>
    simp only [logFileSink, hpath, hmode, openFile, openedContent, FileOs.works, reduceCtorEq, if_true, Bool.false_eq_true,
      if_false, false_and]
    rfl
  | append =>
    have hsize : ∀ c : Content, (if 0 < (c.length : Int) then BitVec.ofInt w c.length else 0) = BitVec.ofNat w c.length := by
      intro c
      split
      · exact BitVec.ofInt_natCast w _
      · rw [show c.length = 0 by omega]
        rfl
    simp only [logFileSink, hpath, hmode, openFile, openedContent, fileSize, FileOs.works, reduceCtorEq, if_false,
      Bool.false_eq_true, true_and, Function.update_self, Option.getD_some, hsize]

variable (localtime) in
/-- When every call succeeds, a sink can be opened on any path. -/
theorem SinkRun.exists_opened {config : FileSinkConfig w} {path : Path} (hpath : config.path = some path) (files : Files) :
    ∃ s : SinkRun w, s.Opened localtime config files path :=
  ⟨⟨_, _, [], ⟨openedContent config files path, []⟩⟩, hpath, ⟨0, logFileSink_works 0 hpath files⟩, rfl, rfl⟩

/-- A sink just opened tracks the files, and the archives are those that were there. -/
theorem SinkRun.Opened.tracks {config : FileSinkConfig w} {files : Files} {path : Path} {s : SinkRun w}
    (h : s.Opened localtime config files path) :
    s.Tracks config path ∧ ∀ j, slots s.files path (j + 1) = slots files path (j + 1) := by
  obtain ⟨hpath, ⟨now, hopen⟩, -, hlive⟩ := h
  have hcontent : s.live.content = openedContent config files path := by
    rw [hlive, Generation.content]
    simp [texts]
  rw [logFileSink_works now hpath, Outcome.mk.injEq, Option.some.injEq] at hopen
  obtain ⟨hsink, hfiles, -⟩ := hopen
  refine ⟨⟨?_, ?_, ?_, ?_, ?_, ?_, ?_⟩, fun j => ?_⟩
  · rw [← hsink]
  · rw [← hsink]
  · rw [← hsink]
  · rw [← hsink]
  · rw [← hsink]
  · rw [← hfiles, Function.update_self, hcontent]
  · rw [← hsink, hcontent]
  · rw [← hfiles]
    exact slots_update_live files path _ j

/-! ## The two things a write can do -/

/-- The rotated sink, when every call succeeds. -/
theorem fileRotate_sink (fs : FileSink w) (files : Files) :
    (fileRotate .works fs files).1 = { fs with file := some fs.path, currentSize := 0 } := rfl

theorem writeFile_works (files : Files) (path : Path) (buf : Content) :
    (writeFile .works files (some path) buf).state = Function.update files path (some ((files path).getD [] ++ buf)) := by
  simp only [writeFile, FileOs.works, id_eq, Nat.min_self, List.take_length]

theorem FileSink.stamped_file (fs : FileSink w) (timeMs : UInt64) : (fs.stamped localtime timeMs).file = fs.file := by
  unfold FileSink.stamped
  split <;> rfl

variable (localtime) in
/-- The fields that neither a rotation nor a write changes. -/
theorem FileSink.stamped_fields (fs : FileSink w) (timeMs : UInt64) :
    (fs.stamped localtime timeMs).path = fs.path ∧ (fs.stamped localtime timeMs).rollMode = fs.rollMode ∧
      (fs.stamped localtime timeMs).maxBytes = fs.maxBytes ∧ (fs.stamped localtime timeMs).maxFiles = fs.maxFiles ∧
      (fs.stamped localtime timeMs).currentSize = fs.currentSize := by
  unfold FileSink.stamped
  split <;> exact ⟨rfl, rfl, rfl, rfl, rfl⟩

namespace SinkRun.Tracks

variable {config : FileSinkConfig w} {path : Path} {s : SinkRun w} (hs : s.Tracks config path) {r : LogRecord}

include hs

/-- A record that is not due extends the live file. -/
theorem write_of_not_due (h : ¬ s.sink.Due localtime r.timeMs) :
    s.write localtime r =
      { sink := { s.sink with currentSize := s.sink.currentSize + BitVec.ofNat w r.text.length }
        files := Function.update s.files path (some (s.live.content ++ r.text))
        closed := s.closed
        live := ⟨s.live.start, s.live.records ++ [r]⟩ } := by
  simp only [SinkRun.write, fileWrite, fileMaybeRotate_of_not_due h, hs.file, writeFile_works, hs.live, Option.getD_some,
    Bool.false_eq_true, if_false]

/-- A record that is due goes to a new live file. -/
theorem write_of_due (h : s.sink.Due localtime r.timeMs) :
    s.write localtime r =
      { sink := {
          (fileRotate .works s.sink s.files).1.stamped localtime r.timeMs with
          currentSize := BitVec.ofNat w r.text.length }
        files := Function.update (fileRotate .works s.sink s.files).2 path (some r.text)
        closed := s.live :: s.closed
        live := ⟨[], [r]⟩ } := by
  have hfile : ((fileRotate .works s.sink s.files).1.stamped localtime r.timeMs).file = some path := by
    rw [FileSink.stamped_file, fileRotate_sink, hs.name]
  have hsize : ((fileRotate .works s.sink s.files).1.stamped localtime r.timeMs).currentSize = 0#w := by
    rw [(FileSink.stamped_fields localtime _ _).2.2.2.2, fileRotate_sink]
    rfl
  have hempty : (fileRotate .works s.sink s.files).2 path = some [] := by
    rw [← hs.name]
    exact Function.update_self _ _ _
  simp only [SinkRun.write, fileWrite, fileMaybeRotate_of_due h, hfile, hsize, writeFile_works, hempty, Option.getD_some,
    List.nil_append, BitVec.zero_add, if_true]

/-- What a record that is not due leaves. -/
theorem write_kept (h : ¬ s.sink.Due localtime r.timeMs) :
    (s.write localtime r).Tracks config path ∧
      ∀ j, slots (s.write localtime r).files path (j + 1) = slots s.files path (j + 1) := by
  rw [hs.write_of_not_due h]
  refine ⟨⟨hs.name, hs.file, hs.rollMode, hs.maxBytes, hs.maxFiles, ?_, ?_⟩, fun j => slots_update_live s.files path _ j⟩
  · exact (Function.update_self _ _ _).trans (congrArg some (Generation.content_snoc s.live r).symm)
  · show s.sink.currentSize + BitVec.ofNat w r.text.length = _
    rw [Generation.content_snoc, List.length_append, BitVec.ofNat_add, hs.size]

/-- What a record that is due leaves. -/
theorem write_rotated (h : s.sink.Due localtime r.timeMs) :
    (s.write localtime r).Tracks config path ∧
      ∀ j, slots (s.write localtime r).files path (j + 1)
        = slots (fileRotate .works s.sink s.files).2 s.sink.path (j + 1) := by
  obtain ⟨hname, hmode, hbytes, hfiles, -⟩ :=
    FileSink.stamped_fields localtime (fileRotate .works s.sink s.files).1 r.timeMs
  rw [fileRotate_sink] at hname hmode hbytes hfiles
  rw [hs.write_of_due h]
  refine ⟨⟨hname.trans hs.name, ?_, hmode.trans hs.rollMode, hbytes.trans hs.maxBytes, hfiles.trans hs.maxFiles, ?_, ?_⟩,
    fun j => ?_⟩
  · exact (FileSink.stamped_file _ _).trans (congrArg some hs.name)
  · exact (Function.update_self _ _ _).trans (congrArg some (Generation.content_new r).symm)
  · rw [Generation.content_new]
  · rw [hs.name]
    exact slots_update_live _ _ _ j

end SinkRun.Tracks

end Copper
