import Copper.Fs.Handle
import Copper.Log.FileSink

/-!
# The file sink over streams

The functions of the file sink once more, over the calls of the C library that they come down to, `cpr_log_flush` and the
destructor included: what is written waits in the stream until that overflows, is flushed, or is closed.
-/

namespace Copper

variable {w : Nat} {σ φ : Type}

/-- `CprFileSink`, with the stream of its `CprFile`. -/
structure StreamSink (w : Nat) (φ : Type) where
  path : Path
  rollMode : RollMode
  maxBytes : BitVec w
  maxFiles : Int
  file : Option φ
  currentSize : BitVec w
  currentDay : UInt16
  currentHour : UInt8

namespace StreamSink

/-- The loop of `cpr__file_rotate`, from `i` down to one. -/
def rotateLoop (io : Fs.FileIo σ φ) (path : Path) (s : σ) : Nat → σ
  | 0 => s
  | i + 1 => rotateLoop io path (io.fsRename (some (archiveName path (i + 1))) (some (archiveName path (i + 2))) s).state i

/-- `cpr__file_rotate`. -/
def fileRotate (io : Fs.FileIo σ φ) (fs : StreamSink w φ) (s : σ) : StreamSink w φ × σ :=
  let s := io.closeFile fs.file s
  let s := if 0 < fs.maxFiles then (io.removeFile (some (archiveName fs.path fs.maxFiles.toNat)) s).state else s
  let s := rotateLoop io fs.path s (rotateTop fs.maxFiles)
  let s := (io.fsRename (some fs.path) (some (archiveName fs.path 1)) s).state
  let opened := Fs.openFile io.toStdio (some fs.path) .write s
  ({ fs with file := opened.result, currentSize := 0 }, opened.state)

/-- `cpr__file_maybe_rotate`. -/
def fileMaybeRotate (io : Fs.FileIo σ φ) (localtime : TimeConversion) (fs : StreamSink w φ) (s : σ) (timeMs : UInt64) :
    StreamSink w φ × σ :=
  match fs.rollMode with
  | .none => (fs, s)
  | .size => if 0 < fs.maxBytes ∧ fs.maxBytes ≤ fs.currentSize then fileRotate io fs s else (fs, s)
  | .daily =>
    let dt := timeLocal localtime timeMs
    if dt.yday ≠ fs.currentDay then
      let (fs, s) := fileRotate io fs s
      ({ fs with currentDay := dt.yday }, s)
    else (fs, s)
  | .hourly =>
    let dt := timeLocal localtime timeMs
    if dt.hour ≠ fs.currentHour then
      let (fs, s) := fileRotate io fs s
      ({ fs with currentHour := dt.hour }, s)
    else (fs, s)

/-- `cpr__file_write`. -/
def fileWrite (io : Fs.FileIo σ φ) (localtime : TimeConversion) (fs : StreamSink w φ) (s : σ) (r : LogRecord) :
    StreamSink w φ × σ :=
  let (fs, s) := fileMaybeRotate io localtime fs s r.timeMs
  match fs.file with
  | none => (fs, s)
  | some fp =>
    ({ fs with currentSize := fs.currentSize + BitVec.ofNat w r.text.length },
      (Fs.writeFile io.toStdio (some fp) (.bytes r.text) s).state)

/-- `cpr__file_flush`. -/
def fileFlush (io : Fs.FileIo σ φ) (fs : StreamSink w φ) (s : σ) : σ :=
  match fs.file with
  | none => s
  | some fp => (io.flushFile (some fp) s).state

/-- `cpr__file_destroy`. -/
def fileDestroy (io : Fs.FileIo σ φ) (fs : StreamSink w φ) (s : σ) : σ := io.closeFile fs.file s

/-- `cpr_log_file_sink`, when its own allocations succeed; `now` is the time on the clock. -/
def logFileSink (io : Fs.FileIo σ φ) (localtime : TimeConversion) (now : UInt64) (config : Option (FileSinkConfig w)) (s : σ) :
    Outcome σ (Option (StreamSink w φ)) :=
  match config with
  | none => .fail s none .errInvalid "config is NULL"
  | some config =>
    match config.path with
    | none => .fail s none .errInvalid "path is NULL"
    | some path =>
      let mode := if config.openMode = .overwrite then FileMode.write else FileMode.append
      let opened := Fs.openFile io.toStdio (some path) mode s
      match opened.result with
      | none => { result := none, state := opened.state, error := opened.error }
      | some file =>
        let sz : Outcome σ Int :=
          if config.openMode = .append then io.fileSize (some file) opened.state else { result := 0, state := opened.state }
        let dt := timeLocal localtime now
        { result := some {
            path := path
            rollMode := config.rollMode
            maxBytes := config.maxBytes
            maxFiles := config.maxFiles
            file := some file
            currentSize := if 0 < sz.result then BitVec.ofInt w sz.result else 0
            currentDay := dt.yday
            currentHour := dt.hour }
          state := sz.state
          error := sz.error.or opened.error }

/-- A call on a sink: of its `write`, or of its `flush`. -/
inductive Call where
  | write (r : LogRecord)
  | flush
  deriving DecidableEq, Repr

/-- A call of either. -/
def call (io : Fs.FileIo σ φ) (localtime : TimeConversion) : StreamSink w φ × σ → Call → StreamSink w φ × σ
  | (fs, s), .write r => fileWrite io localtime fs s r
  | (fs, s), .flush => (fs, fileFlush io fs s)

/-- Every sequence of calls on a sink once it is open. -/
def runs (io : Fs.FileIo σ φ) (localtime : TimeConversion) (config : FileSinkConfig w) (s₀ : σ) :
    Transition.System (StreamSink w φ × σ) Call :=
  .ofNext (fun p => ∃ now e, logFileSink io localtime now (some config) s₀ = ⟨some p.1, p.2, e⟩) fun p c => some (call io localtime p c)

end StreamSink

end Copper
