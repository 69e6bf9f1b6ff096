import Copper.Log.Files
import Copper.Time
import Copper.Foundation.Transition

/-!
# The file sink

The file sink of `log.c`, function by function: opening it, rotating its archives, deciding whether a record rotates them first,
and writing a record. `size_t` has `w` bits. A run of a sink also keeps history that nothing reads: the generations of the file,
that is what was written to it between one rotation and the next.
-/

namespace Copper

variable {w : Nat}

/-- `CprLogRollMode`. -/
inductive RollMode where
  | none
  | size
  | daily
  | hourly
  deriving DecidableEq, Repr

/-- `CprLogFileMode`. -/
inductive LogFileMode where
  | append
  | overwrite
  deriving DecidableEq, Repr

/-- `CprFileSinkConfig`. -/
structure FileSinkConfig (w : Nat) where
  path : Option Path
  openMode : LogFileMode
  rollMode : RollMode
  maxBytes : BitVec w
  maxFiles : Int

/-- `CprFileSink`, without the function pointers of its base. -/
structure FileSink (w : Nat) where
  path : Path
  rollMode : RollMode
  maxBytes : BitVec w
  maxFiles : Int
  file : Option Path
  currentSize : BitVec w
  currentDay : UInt16
  currentHour : UInt8

/-! ## Rotation -/

/-- `fs->max_files > 0 ? fs->max_files - 1 : 999`. -/
def rotateTop (maxFiles : Int) : Nat := if 0 < maxFiles then (maxFiles - 1).toNat else 999

/-- The loop of `cpr__file_rotate`, from `i` down to one. -/
def rotateLoop (os : FileOs) (path : Path) (files : Files) : Nat → Files
  | 0 => files
  | i + 1 => rotateLoop os path (fsRename os files (archiveName path (i + 1)) (archiveName path (i + 2))).state i

/-- `cpr__file_rotate`. -/
def fileRotate (os : FileOs) (fs : FileSink w) (files : Files) : FileSink w × Files :=
  let files :=
    if 0 < fs.maxFiles then (removeFile os files (archiveName fs.path fs.maxFiles.toNat)).state else files
  let files := rotateLoop os fs.path files (rotateTop fs.maxFiles)
  let files := (fsRename os files fs.path (archiveName fs.path 1)).state
  let opened := openFile os files fs.path .write
  ({ fs with file := opened.result, currentSize := 0 }, opened.state)

/-- `cpr__file_maybe_rotate`, and whether it did. -/
def fileMaybeRotate (os : FileOs) (localtime : TimeConversion) (fs : FileSink w) (files : Files) (timeMs : UInt64) :
    Bool × FileSink w × Files :=
  match fs.rollMode with
  | .none => (false, fs, files)
  | .size =>
    if 0 < fs.maxBytes ∧ fs.maxBytes ≤ fs.currentSize then
      (true, fileRotate os fs files)
    else (false, fs, files)
  | .daily =>
    let dt := timeLocal localtime timeMs
    if dt.yday ≠ fs.currentDay then
      let (fs, files) := fileRotate os fs files
      (true, { fs with currentDay := dt.yday }, files)
    else (false, fs, files)
  | .hourly =>
    let dt := timeLocal localtime timeMs
    if dt.hour ≠ fs.currentHour then
      let (fs, files) := fileRotate os fs files
      (true, { fs with currentHour := dt.hour }, files)
    else (false, fs, files)

/-- A record as the sink receives it: the time of the message, and the text its formatter produced. -/
structure LogRecord where
  timeMs : UInt64
  text : Content
  deriving DecidableEq, Repr

/-- `cpr__file_write`, and whether it rotated first. -/
def fileWrite (os : FileOs) (localtime : TimeConversion) (fs : FileSink w) (files : Files) (r : LogRecord) :
    Bool × FileSink w × Files :=
  let (rotated, fs, files) := fileMaybeRotate os localtime fs files r.timeMs
  match fs.file with
  | none => (rotated, fs, files)
  | some path =>
    let files := (writeFile os files (some path) r.text).state
    (rotated, { fs with currentSize := fs.currentSize + BitVec.ofNat w r.text.length }, files)

/-- `cpr_log_file_sink`, when its allocations succeed; `now` is the time on the clock. -/
def logFileSink (os : FileOs) (localtime : TimeConversion) (now : UInt64) (config : Option (FileSinkConfig w))
    (files : Files) : Outcome Files (Option (FileSink w)) :=
  match config with
  | none => .fail files none .errInvalid "config is NULL"
  | some config =>
    match config.path with
    | none => .fail files none .errInvalid "path is NULL"
    | some path =>
      let mode := if config.openMode = .overwrite then FileMode.write else FileMode.append
      let opened := openFile os files path mode
      match opened.result with
      | none => { result := none, state := opened.state, error := opened.error }
      | some file =>
        let sz := fileSize os opened.state (some file)
        let currentSize := if config.openMode = .append ∧ 0 < sz then BitVec.ofInt w sz else 0
        let dt := timeLocal localtime now
        { result := some {
            path := path
            rollMode := config.rollMode
            maxBytes := config.maxBytes
            maxFiles := config.maxFiles
            file := some file
            currentSize := currentSize
            currentDay := dt.yday
            currentHour := dt.hour }
          state := opened.state }

/-! ## Runs -/

/-- What was written to the live file between two rotations: the content it had when the sink opened it, and the records. -/
structure Generation where
  start : Content
  records : List LogRecord

/-- The texts of records, one after the other. -/
def texts (rs : List LogRecord) : Content := (rs.map LogRecord.text).flatten

def Generation.content (g : Generation) : Content := g.start ++ texts g.records

/-- A sink, the files, and the generations so far: the closed ones, the latest first, and the one being written. -/
structure SinkRun (w : Nat) where
  sink : FileSink w
  files : Files
  closed : List Generation
  live : Generation

/-- Write a record, while every call of the operating system succeeds. -/
def SinkRun.write (localtime : TimeConversion) (s : SinkRun w) (r : LogRecord) : SinkRun w :=
  let (rotated, sink, files) := fileWrite .works localtime s.sink s.files r
  { sink := sink
    files := files
    closed := if rotated then s.live :: s.closed else s.closed
    live := if rotated then ⟨[], [r]⟩ else ⟨s.live.start, s.live.records ++ [r]⟩ }

/-- What the file holds once it is open. -/
def openedContent (config : FileSinkConfig w) (files : Files) (path : Path) : Content :=
  match config.openMode with
  | .overwrite => []
  | .append => (files path).getD []

/-- A sink just opened on `path`, and no record written. -/
def SinkRun.Opened (localtime : TimeConversion) (config : FileSinkConfig w) (files : Files) (path : Path) (s : SinkRun w) :
    Prop :=
  config.path = some path ∧
    (∃ now, logFileSink .works localtime now (some config) files = { result := some s.sink, state := s.files }) ∧
    s.closed = [] ∧ s.live = ⟨openedContent config files path, []⟩

/-- Every sequence of records written through a sink opened on `path`. -/
def sinkRuns (localtime : TimeConversion) (config : FileSinkConfig w) (files : Files) (path : Path) :
    Transition.System (SinkRun w) LogRecord :=
  .ofNext (SinkRun.Opened localtime config files path) fun s r => some (s.write localtime r)

end Copper
