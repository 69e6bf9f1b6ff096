import Copper.Fs.Apart
import Copper.Fs.ReadAll
import Copper.Log.StreamSink

/-!
# A buffered sink is a plain one

The plain file sink counts what stdio still buffers as written. Where names lead to files of their own and no output is lost, that
is sound: every sequence of calls on the sink over streams is one on the plain sink, whose calls to the operating system fail as
those did, and what the disk lacks of the plain files is what waits in the sink's stream (`file_sink_refines_plain`).
-/

namespace Copper

open Fs (StdioState HandleFates AtEnd)

variable {w : Nat}

/-- No output is lost, and there is memory for every handle; any other call may fail. -/
structure Lossless (f : HandleFates) : Prop where
  takes : ∀ h k, k ≤ (f.output h).takes k
  closes : ∀ h n, n ≤ (f.output h).closes n
  flushes : ∀ h k, k ≤ f.flushes h k
  malloc : ∀ h, f.mallocFails h = false

/-- What such a system refuses, to calls on files by name; whether it opens a file, or says how long it is, depends on the stream. -/
def plainOs (f : HandleFates) (openFails sizeFails : Bool) : FileOs where
  openFails := fun _ => openFails
  removeFails := f.unlinkFails
  renameFails := f.renameFails
  sizeFails := fun _ => sizeFails
  wrote := id

/-! ## Between two streams -/

/-- Every file has one name, and the disk holds the plain files. -/
structure OnDisk (s : StdioState) (files : Files) : Prop where
  apart : s.disk.Apart
  content : s.disk.content = files

/-- A stream at the end of the file that a name leads to. -/
def OnFile (s : StdioState) (path : Path) (h : Nat) : Prop := ∃ i, s.disk.names path = some i ∧ AtEnd s h i

section

variable (f : HandleFates) (openFails sizeFails : Bool) {s : StdioState} {files : Files} {path : Path}

/-- Removing a file on the disk is removing it from the plain files. -/
theorem OnDisk.removeFile (h : OnDisk s files) (path : Path) :
    OnDisk (f.io.removeFile (some path) s).state (removeFile (plainOs f openFails sizeFails) files path).state := by
  have hcontent := congrFun h.content path
  by_cases hfails : f.unlinkFails path = true ∨ s.disk.names path = none
  · have hunlink : f.io.unlink path s = (false, s) := if_pos hfails
    have hplain : (plainOs f openFails sizeFails).removeFails path = true ∨ files path = none := by
      rwa [← hcontent, Fs.Disk.content_eq_none_iff]
    rw [Copper.removeFile, if_pos hplain, Fs.CopyIo.removeFile]
    simp only [hunlink]
    exact h
  · have hunlink : f.io.unlink path s = (true, { s with disk := s.disk.unname path }) := if_neg hfails
    have hplain : ¬ ((plainOs f openFails sizeFails).removeFails path = true ∨ files path = none) := by
      rwa [← hcontent, Fs.Disk.content_eq_none_iff]
    rw [Copper.removeFile, if_neg hplain, Fs.CopyIo.removeFile]
    simp only [hunlink]
    exact ⟨h.apart.unname path, by rw [Fs.Disk.content_unname, h.content]⟩

/-- Renaming one is renaming it there. -/
theorem OnDisk.fsRename (h : OnDisk s files) (old new : Path) :
    OnDisk (f.io.fsRename (some old) (some new) s).state (fsRename (plainOs f openFails sizeFails) files old new).state := by
  have hcontent := congrFun h.content old
  cases hi : s.disk.names old with
  | none =>
    have hrename : f.io.rename old new s = (false, s) := if_pos (Or.inl hi)
    have hplain : files old = none := by rw [← hcontent, Fs.Disk.content_of_none hi]
    simp only [Copper.fsRename, hplain, Fs.FileIo.fsRename, hrename]
    exact h
  | some i =>
    have hplain : files old = some (s.disk.contents i) := by rw [← hcontent, Fs.Disk.content_of_names hi]
    by_cases hfails : f.renameFails old new = true
    · have hrename : f.io.rename old new s = (false, s) := if_pos (Or.inr hfails)
      have hstuck : (plainOs f openFails sizeFails).renameFails old new = true := hfails
      simp only [Copper.fsRename, hplain, hstuck, if_true, Fs.FileIo.fsRename, hrename]
      exact h
    · have hrename : f.io.rename old new s = (true, { s with disk := s.disk.rename old new }) :=
        if_neg fun hor => hor.elim (fun hnone => by cases hnone.symm.trans hi) hfails
      have hstuck : (plainOs f openFails sizeFails).renameFails old new = false := Bool.eq_false_iff.mpr hfails
      simp only [Copper.fsRename, hplain, hstuck, Bool.false_eq_true, if_false, Fs.FileIo.fsRename, hrename]
      exact ⟨h.apart.rename old new, by rw [h.apart.content_rename hi, h.content]⟩

/-- So are all the renames of a rotation. -/
theorem OnDisk.rotateLoop (h : OnDisk s files) (path : Path) (top : Nat) :
    OnDisk (StreamSink.rotateLoop f.io path s top) (rotateLoop (plainOs f openFails sizeFails) path files top) := by
  induction top generalizing s files with
  | zero => exact h
  | succ top ih => exact ih (h.fsRename f openFails sizeFails _ _)

/-- A stream just opened at the end of a file: nothing waits in it. -/
structure Fresh (s : StdioState) (path : Path) (h : Nat) : Prop where
  onFile : OnFile s path h
  held : (s.streams h).buffer.held = []
  eof : (s.streams h).eof = false

/-- A stream that is started at the end of its file is fresh. -/
theorem fresh_start {disk : Fs.Disk} {i p : Nat} (hi : disk.names path = some i) (hp : p = (disk.contents i).length) :
    Fresh (s.start disk i p).2 path s.opened := by
  have hstream : (s.start disk i p).2.streams s.opened = ⟨i, p, OutBuffer.empty, false, false, 0⟩ := Function.update_self _ _ _
  refine ⟨⟨i, hi, ?_, ?_, ?_⟩, ?_, ?_⟩
  · rw [hstream]
  · rw [hstream, hp]
    rfl
  · rw [hstream]
    exact Nat.le_refl _
  · rw [hstream]
    rfl
  · rw [hstream]

variable {f} in
omit openFails in
/-- Opening a file to write or append opens it on the disk as it does there, and the stream is fresh. -/
theorem OnDisk.openFile (hf : Lossless f) (h : OnDisk s files) (path : Path) {mode : FileMode} (hmode : mode = .write ∨ mode = .append) :
    let opened := Fs.openFile f.io.toStdio (some path) mode s
    let plain := openFile (plainOs f (f.openFails s.opened) sizeFails) files path mode
    OnDisk opened.state plain.state ∧ plain.result = opened.result.map (fun _ => path) ∧
      ∀ fp, opened.result = some fp → Fresh opened.state path fp := by
  intro opened plain
  cases hopens : f.openFails s.opened with
  | true =>
    have hopen : f.io.fopen path mode s = (none, s) := if_pos hopens
    have hopened : opened = .fail s none .errIo "fopen failed" := by simp only [opened, Fs.openFile, hopen]
    have hplain : plain = .fail files none .errIo "fopen failed" := by
      simp only [plain, plainOs, hopens, Copper.openFile, if_true]
    rw [hopened, hplain]
    exact ⟨h, rfl, fun fp hfp => by cases hfp⟩
  | false =>
    have hstarted : ∀ disk i p, f.io.fopen path mode s = s.start disk i p →
        opened = { result := some s.opened, state := (s.start disk i p).2 } := by
      intro disk i p hopen
      have hmalloc : f.io.malloc (s.start disk i p).2 = (true, (s.start disk i p).2) := by
        change (!f.mallocFails _, _) = _
        rw [hf.malloc]
        rfl
      simp only [opened, Fs.openFile, hopen]
      rw [show s.start disk i p = (some s.opened, (s.start disk i p).2) from rfl]
      simp only [hmalloc]
    rcases hmode with rfl | rfl
    · rw [hstarted (s.disk.emptied path) (s.disk.target path) 0 (if_neg (by simp [hopens]))]
      have hplain : plain = { result := some path, state := Function.update files path (some []) } := by
        simp only [plain, plainOs, hopens, Copper.openFile, Bool.false_eq_true, if_false]
      rw [hplain]
      refine ⟨⟨h.apart.emptied path, ?_⟩, rfl, fun fp hfp => ?_⟩
      · rw [← h.content]
        exact h.apart.content_emptied path
      · cases hfp
        exact fresh_start (s.disk.names_emptied path) (by rw [s.disk.contents_emptied]; rfl)
    · rw [hstarted (s.disk.touch path) (s.disk.target path) _ (if_neg (by simp [hopens]))]
      have hplain : plain = { result := some path, state := Function.update files path (some ((files path).getD [])) } := by
        simp only [plain, plainOs, hopens, Copper.openFile, Bool.false_eq_true, if_false]
      rw [hplain]
      refine ⟨⟨h.apart.touch path, ?_⟩, rfl, fun fp hfp => ?_⟩
      · rw [← h.content]
        exact s.disk.content_touch path
      · cases hfp
        exact fresh_start (s.disk.names_touch path) rfl

end

/-! ## While a stream is open -/

/-- The sink, without its stream. -/
def StreamSink.plain (fs : StreamSink w Nat) : FileSink w where
  path := fs.path
  rollMode := fs.rollMode
  maxBytes := fs.maxBytes
  maxFiles := fs.maxFiles
  file := fs.file.map fun _ => fs.path
  currentSize := fs.currentSize
  currentDay := fs.currentDay
  currentHour := fs.currentHour

/-- What waits in the stream of a sink. -/
def StreamSink.waits (fs : StreamSink w Nat) (s : StdioState) : Content :=
  match fs.file with
  | none => []
  | some h => (s.streams h).buffer.held

/-- The disk lacks of the plain files what waits in the stream of the sink. -/
structure Buffers (fs : StreamSink w Nat) (s : StdioState) (files : Files) : Prop where
  apart : s.disk.Apart
  stream : ∀ h, fs.file = some h → OnFile s fs.path h
  files : files = Function.update s.disk.content fs.path ((s.disk.content fs.path).map (· ++ fs.waits s))

section

variable {f : HandleFates} {fs : StreamSink w Nat} {s : StdioState} {files : Files}

/-- With nothing that waits. -/
theorem OnDisk.buffers (h : OnDisk s files) (hstream : ∀ fp, fs.file = some fp → Fresh s fs.path fp) : Buffers fs s files where
  apart := h.apart
  stream fp hfp := (hstream fp hfp).onFile
  files := by
    have hwaits : fs.waits s = [] := by
      unfold StreamSink.waits
      split
      · rfl
      · rename_i fp hfp
        exact (hstream fp hfp).held
    rw [hwaits, h.content]
    simp

/-- Some of what waits, and of what is added to it, goes to the file, and the rest waits. -/
theorem Buffers.deliver (hb : Buffers fs s files) {h : Nat} (hh : fs.file = some h) (more : Content) {out : Content}
    {buffer : Fs.StreamBuffer} (hkept : out ++ buffer.held = (s.streams h).buffer.held ++ more)
    (hcount : buffer.held.length ≤ buffer.count) (err : Bool) :
    Buffers fs (s.deliver h out buffer err) (Function.update files fs.path (some ((files fs.path).getD [] ++ more))) := by
  obtain ⟨i, hi, hend⟩ := hb.stream h hh
  obtain ⟨hcontent, hend', hnames, hbuffer⟩ := hend.deliver hb.apart hi out hcount err
  have hwaits : fs.waits s = (s.streams h).buffer.held := by simp only [StreamSink.waits, hh]
  have hwaits' : fs.waits (s.deliver h out buffer err) = buffer.held := by simp only [StreamSink.waits, hh, hbuffer]
  refine ⟨hb.apart.of_names hnames, fun h' hh' => ?_, ?_⟩
  · cases hh.symm.trans hh'
    exact ⟨i, by rw [hnames, hi], hend'⟩
  · rw [hb.files, hwaits, hwaits', hcontent, Fs.Disk.content_of_names hi]
    simp [List.append_assoc, hkept]

/-- Once all that waits is in the file, the disk holds the plain files. -/
theorem Buffers.onDisk (hb : Buffers fs s files) (hwaits : fs.waits s = []) : OnDisk s files where
  apart := hb.apart
  content := by
    rw [hb.files, hwaits]
    simp

/-- Nothing new goes to the file, or part of what waits. -/
theorem Buffers.drain (hb : Buffers fs s files) {h : Nat} (hh : fs.file = some h) {out : Content} {buffer : Fs.StreamBuffer}
    (hkept : out ++ buffer.held = (s.streams h).buffer.held) (hcount : buffer.held.length ≤ buffer.count) (err : Bool) :
    Buffers fs (s.deliver h out buffer err) files := by
  have hdelivered := hb.deliver hh [] (hkept.trans (List.append_nil _).symm) hcount err
  obtain ⟨i, hi, -⟩ := hb.stream h hh
  have hsome : files fs.path = some (s.disk.contents i ++ fs.waits s) := by
    rw [hb.files, Function.update_self, Fs.Disk.content_of_names hi, Option.map_some]
  rw [List.append_nil, hsome, Option.getD_some, ← hsome, Function.update_eq_self] at hdelivered
  exact hdelivered

/-- What waits after a delivery is what is left in the buffer. -/
theorem StreamSink.waits_deliver {h : Nat} (hh : fs.file = some h) (out : Content) (buffer : Fs.StreamBuffer) (err : Bool) :
    fs.waits (s.deliver h out buffer err) = buffer.held := by
  have hstream : (s.deliver h out buffer err).streams h =
      { s.streams h with pos := (s.streams h).pos + out.length, buffer := buffer, err := err } := Function.update_self _ _ _
  simp only [StreamSink.waits, hh, hstream]

/-! ## The functions of the sink -/

/-- Closing the live file leaves the plain files on the disk. -/
theorem Buffers.close (hf : Lossless f) (hb : Buffers fs s files) : OnDisk (f.io.closeFile fs.file s) files := by
  cases hh : fs.file with
  | none =>
    have hwaits : fs.waits s = [] := by simp only [StreamSink.waits, hh]
    exact hb.onDisk hwaits
  | some h =>
    have hall : OutBuffer.close (f.output h) (s.streams h).buffer = (s.streams h).buffer.held :=
      List.take_of_length_le (hf.closes h _)
    have hclose : f.io.closeFile (some h) s =
        s.deliver h (OutBuffer.close (f.output h) (s.streams h).buffer) OutBuffer.empty (s.streams h).err := rfl
    rw [hclose, hall]
    exact (hb.drain hh (List.append_nil _) (Nat.le_refl _) _).onDisk (StreamSink.waits_deliver hh _ _ _)

/-- So does a flush, after which nothing waits. -/
theorem Buffers.flush (hf : Lossless f) (hb : Buffers fs s files) :
    Buffers fs (StreamSink.fileFlush f.io fs s) files ∧ OnDisk (StreamSink.fileFlush f.io fs s) files := by
  unfold StreamSink.fileFlush
  split
  · rename_i hh
    exact ⟨hb, hb.onDisk (by simp only [StreamSink.waits, hh])⟩
  · rename_i h hh
    obtain ⟨i, -, hend⟩ := hb.stream h hh
    have hall : min (f.flushes h (s.streams h).buffer.count) (s.streams h).buffer.held.length = (s.streams h).buffer.held.length :=
      Nat.min_eq_right (Nat.le_trans hend.count (hf.flushes h _))
    have hflush : (f.io.flushFile (some h) s).state =
        s.deliver h (s.streams h).buffer.held ⟨[], (s.streams h).buffer.count⟩ (s.streams h).err := by
      have hcall : f.io.fflush h s =
          (true, s.deliver h (s.streams h).buffer.held ⟨[], (s.streams h).buffer.count⟩ (s.streams h).err) := by
        change f.fflush h s = _
        simp only [HandleFates.fflush, hall, List.take_length, List.drop_length, Nat.lt_irrefl, decide_false, Bool.or_false,
          decide_true]
      rw [Fs.FileIo.flushFile, hcall]
    rw [hflush]
    have hdrained := @Buffers.drain _ _ _ _ hb h hh (s.streams h).buffer.held ⟨[], (s.streams h).buffer.count⟩ (List.append_nil _)
      (Nat.zero_le _) (s.streams h).err
    exact ⟨hdrained, hdrained.onDisk (StreamSink.waits_deliver hh _ _ _)⟩

/-- Writing to the live file adds to it what waits, or what is on the disk. -/
theorem Buffers.writeFile (hf : Lossless f) (hb : Buffers fs s files) {h : Nat} (hh : fs.file = some h) (text : Content)
    (openFails sizeFails : Bool) :
    Buffers fs (Fs.writeFile f.io.toStdio (some h) (.bytes text) s).state
      (writeFile (plainOs f openFails sizeFails) files (some fs.path) text).state := by
  obtain ⟨i, -, hend⟩ := hb.stream h hh
  obtain ⟨-, hkept, hcount⟩ := OutBuffer.put_lossless (hf.takes h) hend.count text
  have hplain : (Copper.writeFile (plainOs f openFails sizeFails) files (some fs.path) text).state =
      Function.update files fs.path (some ((files fs.path).getD [] ++ text)) := by
    simp only [Copper.writeFile, plainOs, id_eq, Nat.min_self, List.take_length]
  rw [hplain]
  exact hb.deliver hh text hkept hcount _

/-- A rotation of the buffered sink is one of the plain sink. -/
theorem Buffers.rotate (hf : Lossless f) (hb : Buffers fs s files) : ∃ opened,
    let rotated := StreamSink.fileRotate f.io fs s
    let plain := fileRotate (plainOs f (f.openFails opened) false) fs.plain files
    plain.1 = rotated.1.plain ∧ Buffers rotated.1 rotated.2 plain.2 := by
  have hclosed := hb.close hf
  have hremoved : ∀ openFails,
      OnDisk (if 0 < fs.maxFiles then (f.io.removeFile (some (archiveName fs.path fs.maxFiles.toNat)) (f.io.closeFile fs.file s)).state
          else f.io.closeFile fs.file s)
        (if 0 < fs.maxFiles then (removeFile (plainOs f openFails false) files (archiveName fs.path fs.maxFiles.toNat)).state
          else files) := by
    intro openFails
    split
    · exact hclosed.removeFile f openFails false _
    · exact hclosed
  generalize hs₁ : (if 0 < fs.maxFiles then
    (f.io.removeFile (some (archiveName fs.path fs.maxFiles.toNat)) (f.io.closeFile fs.file s)).state
      else f.io.closeFile fs.file s) = s₁ at hremoved
  have hmoved := fun openFails => ((hremoved openFails).rotateLoop f openFails false fs.path (rotateTop fs.maxFiles)).fsRename f openFails
    false fs.path (archiveName fs.path 1)
  generalize hs₂ : (f.io.fsRename (some fs.path) (some (archiveName fs.path 1))
    (StreamSink.rotateLoop f.io fs.path s₁ (rotateTop fs.maxFiles))).state = s₂ at hmoved
  refine ⟨s₂.opened, ?_⟩
  obtain ⟨hopened, hresult, hfresh⟩ := (hmoved (f.openFails s₂.opened)).openFile false hf fs.path (Or.inl rfl)
  have hrotated : StreamSink.fileRotate f.io fs s =
      ({ fs with file := (Fs.openFile f.io.toStdio (some fs.path) .write s₂).result, currentSize := 0 },
        (Fs.openFile f.io.toStdio (some fs.path) .write s₂).state) := by
    unfold StreamSink.fileRotate
    simp only [hs₁, hs₂]
  rw [hrotated]
  refine ⟨?_, hopened.buffers fun fp hfp => hfresh fp hfp⟩
  unfold fileRotate StreamSink.plain
  simp only [← hresult]

/-- The buffered sink rotates when the plain one does. -/
theorem Buffers.maybeRotate (hf : Lossless f) (hb : Buffers fs s files) (localtime : TimeConversion) (timeMs : UInt64) :
    ∃ opened,
      let rotated := StreamSink.fileMaybeRotate f.io localtime fs s timeMs
      let plain := fileMaybeRotate (plainOs f (f.openFails opened) false) localtime fs.plain files timeMs
      plain.2.1 = rotated.1.plain ∧ Buffers rotated.1 rotated.2 plain.2.2 := by
  obtain ⟨opened, hplain, hrotated⟩ := hb.rotate hf
  refine ⟨opened, ?_⟩
  have hmode : fs.plain.rollMode = fs.rollMode := rfl
  unfold StreamSink.fileMaybeRotate fileMaybeRotate
  rw [hmode]
  cases fs.rollMode with
  | none => exact ⟨rfl, hb⟩
  | size =>
    have hfull : (0 < fs.plain.maxBytes ∧ fs.plain.maxBytes ≤ fs.plain.currentSize) = (0 < fs.maxBytes ∧ fs.maxBytes ≤ fs.currentSize) :=
      rfl
    simp only [hfull]
    split
    · exact ⟨hplain, hrotated⟩
    · exact ⟨rfl, hb⟩
  | daily =>
    have hday : fs.plain.currentDay = fs.currentDay := rfl
    simp only [hday]
    split
    · exact ⟨by rw [hplain]; rfl, hrotated.apart, hrotated.stream, hrotated.files⟩
    · exact ⟨rfl, hb⟩
  | hourly =>
    have hhour : fs.plain.currentHour = fs.currentHour := rfl
    simp only [hhour]
    split
    · exact ⟨by rw [hplain]; rfl, hrotated.apart, hrotated.stream, hrotated.files⟩
    · exact ⟨rfl, hb⟩

/-- A write of the buffered sink is one of the plain sink. -/
theorem Buffers.write (hf : Lossless f) (hb : Buffers fs s files) (localtime : TimeConversion) (r : LogRecord) : ∃ opened,
    let wrote := StreamSink.fileWrite f.io localtime fs s r
    let plain := fileWrite (plainOs f (f.openFails opened) false) localtime fs.plain files r
    plain.2.1 = wrote.1.plain ∧ Buffers wrote.1 wrote.2 plain.2.2 := by
  obtain ⟨opened, hplain, hrotated⟩ := hb.maybeRotate hf localtime r.timeMs
  refine ⟨opened, ?_⟩
  unfold StreamSink.fileWrite fileWrite
  generalize StreamSink.fileMaybeRotate f.io localtime fs s r.timeMs = rotated at hplain hrotated ⊢
  generalize fileMaybeRotate (plainOs f (f.openFails opened) false) localtime fs.plain files r.timeMs = plain at hplain hrotated ⊢
  obtain ⟨fs', s'⟩ := rotated
  obtain ⟨b, plain, files'⟩ := plain
  obtain rfl : plain = fs'.plain := hplain
  obtain ⟨path, rollMode, maxBytes, maxFiles, file, currentSize, currentDay, currentHour⟩ := fs'
  cases file with
  | none => exact ⟨rfl, hrotated⟩
  | some h =>
    have hwrote := hrotated.writeFile hf rfl r.text (f.openFails opened) false
    exact ⟨rfl, hwrote.apart, hwrote.stream, hwrote.files⟩

/-! ## Opening a sink -/

/-- A fresh stream that is moved to the end of its file is fresh. -/
theorem Fresh.moved {path : Path} {h i : Nat} (hfresh : Fresh s path h) (hi : s.disk.names path = some i) :
    Fresh (s.moved h (s.disk.contents i).length) path h := by
  obtain ⟨⟨j, hj, hend⟩, hheld, -⟩ := hfresh
  cases hi.symm.trans hj
  have hstream : (s.moved h (s.disk.contents i).length).streams h =
      { s.streams h with pos := (s.disk.contents i).length, eof := false } := Function.update_self _ _ _
  refine ⟨⟨i, hi, ?_, ?_, ?_⟩, ?_, ?_⟩
  · rw [hstream, hend.file]
  · rw [hstream]
    rfl
  · rw [hstream]
    exact hend.count
  · rw [hstream, hheld]
  · rw [hstream]

/-- A fresh stream that is asked where it is stays fresh. -/
theorem Fresh.told {path : Path} {h : Nat} (hfresh : Fresh s path h) : Fresh (s.told h) path h := by
  obtain ⟨⟨i, hi, hend⟩, hheld, heof⟩ := hfresh
  have hstream : (s.told h).streams h = { s.streams h with tells := (s.streams h).tells + 1 } := Function.update_self _ _ _
  refine ⟨⟨i, hi, ?_, ?_, ?_⟩, ?_, ?_⟩
  · rw [hstream, hend.file]
  · rw [hstream]
    exact hend.pos
  · rw [hstream]
    exact hend.count
  · rw [hstream, hheld]
  · rw [hstream, heof]

/-- The system does not say how long the file of a stream is, which was asked so often where it is. -/
def sizeFails (f : HandleFates) (h tells : Nat) : Bool := f.tellFails h tells || f.seekFails h 0 .fromEnd || f.tellFails h (tells + 1)

/-- The size of a file that was opened at its end. -/
theorem Fresh.fileSize {path : Path} {h : Nat} (hfresh : Fresh s path h) (hdisk : OnDisk s files) (openFails : Bool) :
    let sz := f.io.fileSize (some h) s
    sz.result = fileSize (plainOs f openFails (sizeFails f h (s.streams h).tells)) files (some path) ∧
      OnDisk sz.state files ∧ Fresh sz.state path h := by
  obtain ⟨i, hi, hend⟩ := hfresh.onFile
  have hreading : Fs.Reading f.toFates s h i (s.disk.contents i) (s.disk.contents i).length := {
    file := hend.file
    contents := rfl
    pos := hend.pos
    le := Nat.le_refl _
    eof := fun heof => absurd (heof.symm.trans hfresh.eof) (by decide)
    idle := hfresh.held }
  have hlength : ((files path).getD []).length = (s.disk.contents i).length := by
    rw [← hdisk.content, Fs.Disk.content_of_names hi, Option.getD_some]
  have hasked : Fresh (s.told h) path h := hfresh.told
  have hatEnd : Fresh (((s.told h).moved h (s.disk.contents i).length).told h) path h := (hasked.moved hi).told
  have hback : Fresh ((((s.told h).moved h (s.disk.contents i).length).told h).moved h (s.disk.contents i).length) path h :=
    hatEnd.moved hi
  intro sz
  have hsz : sz = _ := Fs.fileSize_reading hreading
  rw [hsz]
  unfold Copper.fileSize plainOs sizeFails
  simp only [hlength]
  cases f.tellFails h (s.streams h).tells with
  | true => exact ⟨rfl, ⟨hdisk.apart, hdisk.content⟩, hasked⟩
  | false =>
    cases f.seekFails h 0 .fromEnd with
    | true => exact ⟨rfl, ⟨hdisk.apart, hdisk.content⟩, hasked⟩
    | false =>
      cases f.tellFails h ((s.streams h).tells + 1) with
      | true =>
        cases f.seekFails h (s.disk.contents i).length .fromStart with
        | true => exact ⟨rfl, ⟨hdisk.apart, hdisk.content⟩, hatEnd⟩
        | false => exact ⟨rfl, ⟨hdisk.apart, hdisk.content⟩, hback⟩
      | false =>
        cases f.seekFails h (s.disk.contents i).length .fromStart with
        | true => exact ⟨rfl, ⟨hdisk.apart, hdisk.content⟩, hatEnd⟩
        | false => exact ⟨rfl, ⟨hdisk.apart, hdisk.content⟩, hback⟩

/-- Where the buffered sink is opened the plain one is, and they hold the same files. -/
theorem OnDisk.logFileSink (hf : Lossless f) (hdisk : OnDisk s files) (localtime : TimeConversion) (now : UInt64)
    (config : FileSinkConfig w) {s' : StdioState} {e : Option CprError}
    (hopened : StreamSink.logFileSink f.io localtime now (some config) s = ⟨some fs, s', e⟩) : ∃ opened h tells files' e',
      logFileSink (plainOs f (f.openFails opened) (sizeFails f h tells)) localtime now (some config) files = ⟨some fs.plain, files', e'⟩ ∧
        Buffers fs s' files' := by
  unfold StreamSink.logFileSink at hopened
  unfold Copper.logFileSink
  dsimp only at hopened ⊢
  cases hpath : config.path with
  | none =>
    rw [hpath] at hopened
    cases hopened
  | some path =>
    rw [hpath] at hopened
    dsimp only at hopened ⊢
    have hmode : (if config.openMode = .overwrite then FileMode.write else FileMode.append) = .write ∨
        (if config.openMode = .overwrite then FileMode.write else FileMode.append) = .append := by
      split
      · exact Or.inl rfl
      · exact Or.inr rfl
    generalize (if config.openMode = .overwrite then FileMode.write else FileMode.append) = mode at hmode hopened ⊢
    have hopen := fun sizeFails => hdisk.openFile (f := f) sizeFails hf path hmode
    generalize Fs.openFile f.io.toStdio (some path) mode s = opened at hopened hopen
    obtain ⟨file, s₁, e₁⟩ := opened
    cases file with
    | none => cases hopened
    | some h =>
      dsimp only at hopened hopen
      refine ⟨s.opened, h, (s₁.streams h).tells, ?_⟩
      obtain ⟨hdisk₁, hresult, hfresh⟩ := hopen (sizeFails f h (s₁.streams h).tells)
      generalize Copper.openFile (plainOs f (f.openFails s.opened) (sizeFails f h (s₁.streams h).tells)) files path mode = plain
        at hdisk₁ hresult ⊢
      obtain ⟨pfile, files₁, pe⟩ := plain
      cases hresult
      obtain ⟨hsize, hsized, hfresh'⟩ := (hfresh h rfl).fileSize (f := f) hdisk₁ (f.openFails s.opened)
      dsimp only at hsize ⊢
      rw [← hsize]
      by_cases happend : config.openMode = .append
      · simp only [happend, if_true] at hopened
        simp only [happend, true_and]
        cases hopened
        exact ⟨files₁, none, rfl, hsized.buffers fun fp hfp => by cases hfp; exact hfresh'⟩
      · simp only [happend, if_false, Int.lt_irrefl] at hopened
        simp only [happend, false_and, if_false]
        cases hopened
        exact ⟨files₁, none, rfl, hdisk₁.buffers fun fp hfp => by cases hfp; exact hfresh h rfl⟩

end

/-! ## Runs -/

/-- What a call shows of itself to the plain sink: a record that is written. -/
def StreamSink.Call.written : StreamSink.Call → List LogRecord
  | .write r => [r]
  | .flush => []

/-- Every sequence of records written through a plain sink, while the operating system refuses what `f` does, and files when it
will. -/
def plainRuns (f : HandleFates) (localtime : TimeConversion) (config : FileSinkConfig w) (files : Files) :
    Transition.System (FileSink w × Files) LogRecord where
  init p := ∃ now openFails sizeFails e,
    logFileSink (plainOs f openFails sizeFails) localtime now (some config) files = ⟨some p.1, p.2, e⟩
  step p r q := ∃ openFails, (fileWrite (plainOs f openFails false) localtime p.1 p.2 r).2 = q

/-- Every sequence of writes and flushes through a sink over streams is a sequence of writes through the plain sink. All files but
the live one are on the disk as the plain ones; of the live one the disk has all but what waits in the stream; and a flush, or the
end of the sink, leaves all of them there. -/
theorem file_sink_refines_plain {f : HandleFates} (hf : Lossless f) {localtime : TimeConversion} {config : FileSinkConfig w}
    {s₀ : StdioState} (hapart : s₀.disk.Apart) {p₀ p : StreamSink w Nat × StdioState} {calls : List StreamSink.Call}
    (hinit : (StreamSink.runs f.io localtime config s₀).init p₀)
    (hrun : (StreamSink.runs f.io localtime config s₀).Run p₀ calls p) :
    ∃ q₀ files, (plainRuns f localtime config s₀.disk.content).init q₀ ∧
      (plainRuns f localtime config s₀.disk.content).Run q₀ (calls.flatMap StreamSink.Call.written) (p.1.plain, files) ∧
      files = Function.update p.2.disk.content p.1.path ((p.2.disk.content p.1.path).map (· ++ p.1.waits p.2)) ∧
      (StreamSink.fileFlush f.io p.1 p.2).disk.content = files ∧ (StreamSink.fileDestroy f.io p.1 p.2).disk.content = files := by
  obtain ⟨now, e, hopened⟩ := hinit
  have hdisk : OnDisk s₀ s₀.disk.content := ⟨hapart, rfl⟩
  obtain ⟨_, _, _, files₀, e', hplain, hbuffers⟩ := hdisk.logFileSink hf localtime now config hopened
  have hstep : ∀ p c p' q, (Buffers p.1 p.2 q.2 ∧ q.1 = p.1.plain) → (StreamSink.runs f.io localtime config s₀).step p c p' →
      ∃ q', (plainRuns f localtime config s₀.disk.content).Run q c.written q' ∧ Buffers p'.1 p'.2 q'.2 ∧ q'.1 = p'.1.plain := by
    rintro ⟨fs, s⟩ c p' ⟨pfs, files⟩ ⟨hb, rfl⟩ hcall
    obtain rfl : StreamSink.call f.io localtime (fs, s) c = p' := Option.some.inj hcall
    cases c with
    | write r =>
      obtain ⟨opened, hsink, hwrote⟩ := hb.write hf localtime r
      exact ⟨_, .single ⟨_, rfl⟩, hwrote, hsink⟩
    | flush => exact ⟨_, .nil, (hb.flush hf).1, rfl⟩
  obtain ⟨⟨_, files⟩, hruns, hb, rfl⟩ := hrun.simulated (t := (p₀.1.plain, files₀)) hstep ⟨hbuffers, rfl⟩
  exact ⟨_, files, ⟨now, _, _, e', hplain⟩, hruns, hb.files, (hb.flush hf).2.content, (hb.close hf).content⟩

/-- A sink that appends to a file and never rotates it. -/
def appending : FileSinkConfig 64 where
  path := some [97]
  openMode := .append
  rollMode := .none
  maxBytes := 0
  maxFiles := 0

/-- A system that works loses no output. -/
theorem lossless_works (overflows : Nat → Nat → Bool) : Lossless (HandleFates.works overflows) where
  takes _ _ := Nat.le_refl _
  closes _ _ := Nat.le_refl _
  flushes _ _ := Nat.le_refl _
  malloc _ := rfl

/-- One file under one name. -/
theorem apart_oneFile : Fs.oneFile.disk.Apart := by
  have hname : ∀ path i, Fs.oneFile.disk.names path = some i → path = [97] := by
    intro path i h
    by_contra hne
    have hnone : Fs.oneFile.disk.names path = none := if_neg hne
    cases hnone.symm.trans h
  exact fun p q i hp hq => (hname p i hp).trans (hname q i hq).symm

/-- A byte that was written and waits. -/
theorem file_sink_refines_plain_waiting :
    let f := HandleFates.works fun _ _ => false
    let fs : StreamSink 64 Nat := ⟨[97], .none, 0, 0, some 0, 3, 0, 0⟩
    let opened := StreamSink.logFileSink f.io noTime 0 (some appending) Fs.oneFile
    let wrote := StreamSink.fileWrite f.io noTime fs opened.state ⟨0, [4]⟩
    opened.result = some fs ∧ wrote.2.disk.content [97] = some [1, 2, 3] ∧
      (StreamSink.fileDestroy f.io wrote.1 wrote.2).disk.content [97] = some [1, 2, 3, 4] := by
  intro f fs opened wrote
  have hinit : (StreamSink.runs f.io noTime appending Fs.oneFile).init (fs, opened.state) := ⟨0, none, rfl⟩
  have hrun : (StreamSink.runs f.io noTime appending Fs.oneFile).Run (fs, opened.state) [.write ⟨0, [4]⟩] wrote := .single rfl
  obtain ⟨-, files, -, -, hfiles, -, hdestroyed⟩ := file_sink_refines_plain (lossless_works fun _ _ => false) apart_oneFile hinit hrun
  exact ⟨rfl, rfl, (congrFun hdestroyed _).trans ((congrFun hfiles _).trans rfl)⟩

end Copper
