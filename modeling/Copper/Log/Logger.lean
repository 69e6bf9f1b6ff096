import Copper.Defs
import Copper.Foundation.CharArray
import Copper.Foundation.Packed

/-!
# The logger

The logger of `log.c`: its array of sinks, its levels, and the dispatch of a record. A sink is named by its pointer (`κ`) and
a formatter by its function (`φ`); what they do to the rest of the program (`γ`) is up to `LogCallbacks`. What a call did is
kept as a `Report`.
-/

namespace Copper

/-- `CPR_LOG_MAX_SINKS`. -/
def logMaxSinks : Nat := 8

/-- `CPR_LOG_BUFFER_SIZE`. -/
def logBufferSize : Nat := 2048

/-- `CPR_LOG_MSG_SIZE`. -/
def logMsgSize : Nat := logBufferSize - 128

/-- `CPR_LOG_OFF`; a level is any value that its integer type holds. -/
def logOff : Int := 6

/-- `CPR_LOG_MSG_MARKER`: `...[truncated]`. -/
def logMsgMarker : List UInt8 := [46, 46, 46, 91, 116, 114, 117, 110, 99, 97, 116, 101, 100, 93]

/-- `CprLogMessage`; the message is the array that it points to. -/
structure LogMessage where
  level : Int
  message : List UInt8
  truncated : Bool
  file : Option (List UInt8)
  line : Int
  func : Option (List UInt8)
  timeMs : UInt64
  deriving DecidableEq, Repr

/-- `CprLogSink`, without the functions it points to. -/
structure LogSink (φ : Type) where
  minLevel : Int
  format : Option φ

/-- The sinks and the functions behind their pointers. A formatter is given the message and a buffer, and returns a length and
what it leaves in the buffer; `write` is given the message and the bytes. -/
structure LogCallbacks (κ φ γ : Type) where
  sink : κ → LogSink φ
  format : φ → LogMessage → List UInt8 → γ → Int × List UInt8 × γ
  write : κ → LogMessage → List UInt8 → γ → γ

/-- `CprLogger`, without its mutex. -/
structure Logger (κ φ : Type) where
  minLevel : Int
  threadSafe : Bool
  defaultFormat : φ
  sinks : List (Option κ)
  sinkCount : Nat

/-- `CprLoggerConfig`. -/
structure LoggerConfig (φ : Type) where
  minLevel : Int
  threadSafe : Bool
  defaultFormat : Option φ

/-- A call of `cpr_log_write` or `cpr_log_writev`: its arguments, what `vsnprintf` makes of them, the time it reads, and what
its array for the formatters holds before it is written. -/
structure LogCall where
  level : Int
  file : Option (List UInt8)
  line : Int
  func : Option (List UInt8)
  needed : Int
  msg : List UInt8
  now : UInt64
  out : List UInt8

/-- A formatter was called for an entry, and returned. -/
structure Formatted (κ φ : Type) where
  entry : Nat
  sink : κ
  fn : φ
  len : Int
  out : List UInt8

/-- `write` was called for an entry. -/
structure Written (κ : Type) where
  entry : Nat
  sink : κ
  message : LogMessage
  text : List UInt8

/-- The formatters that a call called, and the sinks that it wrote to. -/
structure Report (κ φ : Type) where
  formats : List (Formatted κ φ) := []
  writes : List (Written κ) := []

variable {κ φ γ : Type}

/-- `cpr__write_marker`. -/
def writeMarker (buf marker : List UInt8) : List UInt8 :=
  if buf.length = 0 then buf
  else
    let marked :=
      if marker.length + 1 ≤ buf.length then
        buf.take (buf.length - 1 - marker.length) ++ marker ++ buf.drop (buf.length - 1)
      else buf
    marked.set (buf.length - 1) 0

/-- The marker is written as the end of a character array. -/
theorem writeMarker_eq (buf marker : List UInt8) : writeMarker buf marker = CharArray.markEnd 0 buf marker := rfl

/-- The `CprLogMessage` of a call. A negative `needed` is a large `size_t`. -/
def logMessage (c : LogCall) : LogMessage :=
  let truncated := decide (c.needed < 0 ∨ (logMsgSize : Int) ≤ c.needed)
  { level := c.level
    message := if truncated then writeMarker c.msg logMsgMarker else c.msg
    truncated := truncated
    file := c.file
    line := c.line
    func := c.func
    timeMs := c.now }

/-- `cpr_log_create`, when there is memory and a mutex for it. -/
def logCreate (formatDefault : φ) (config : Option (LoggerConfig φ)) : Logger κ φ where
  minLevel := match config with
    | some c => c.minLevel
    | none => 0
  threadSafe := match config with
    | some c => c.threadSafe
    | none => true
  defaultFormat := match config with
    | some c => c.defaultFormat.getD formatDefault
    | none => formatDefault
  sinks := List.replicate logMaxSinks none
  sinkCount := 0

/-- `cpr_log_add_sink`. -/
def logAddSink (logger : Option (Logger κ φ)) (sink : Option κ) : Outcome (Option (Logger κ φ)) Bool :=
  match logger, sink with
  | none, _ => .fail none false .errInvalid "logger is NULL"
  | some l, none => .fail (some l) false .errInvalid "sink is NULL"
  | some l, some k =>
    if logMaxSinks ≤ l.sinkCount then .fail (some l) false .errExhausted "sink limit reached"
    else
      { result := true
        state := some { l with sinks := l.sinks.set l.sinkCount (some k), sinkCount := l.sinkCount + 1 } }

/-- The `memmove` and what follows it in `cpr_log_remove_sink`. -/
def Logger.removeAt (l : Logger κ φ) (i : Nat) : Logger κ φ :=
  { l with
    sinks := (Packed.memmove l.sinks i (i + 1) (l.sinkCount - i - 1)).set (l.sinkCount - 1) none
    sinkCount := l.sinkCount - 1 }

/-- The loop of `cpr_log_remove_sink` from `i` on, with that many entries to go. -/
def Logger.removeLoop [DecidableEq κ] (l : Logger κ φ) (k : κ) : Nat → Nat → Logger κ φ
  | 0, _ => l
  | n + 1, i => if l.sinks[i]?.join ≠ some k then l.removeLoop k n (i + 1) else l.removeAt i

/-- `cpr_log_remove_sink`. -/
def logRemoveSink [DecidableEq κ] (logger : Option (Logger κ φ)) (sink : Option κ) : Option (Logger κ φ) :=
  match logger, sink with
  | some l, some k => some (l.removeLoop k l.sinkCount 0)
  | logger, _ => logger

/-- `cpr_log_set_level`. -/
def logSetLevel (logger : Option (Logger κ φ)) (level : Int) : Option (Logger κ φ) :=
  logger.map fun l => { l with minLevel := level }

/-- `!logger || level < logger->min_level || level >= CPR_LOG_OFF`, for a logger that is there. -/
def Logger.drops (l : Logger κ φ) (level : Int) : Bool := level < l.minLevel || logOff ≤ level

/-- `sink->format ? sink->format : logger->default_format`. -/
def Logger.formatOf (l : Logger κ φ) (cb : LogCallbacks κ φ γ) (k : κ) : φ := (cb.sink k).format.getD l.defaultFormat

/-- The loop of `cpr_log_writev` from `i` on, with that many entries to go. -/
def Logger.writeLoop (l : Logger κ φ) (cb : LogCallbacks κ φ γ) (msg : LogMessage) :
    Nat → Nat → List UInt8 → γ → Report κ φ × γ
  | 0, _, _, s => ({}, s)
  | n + 1, i, out, s =>
    match l.sinks[i]?.join with
    | none => l.writeLoop cb msg n (i + 1) out s
    | some k =>
      if msg.level < (cb.sink k).minLevel then l.writeLoop cb msg n (i + 1) out s
      else
        let (len, out, s) := cb.format (l.formatOf cb k) msg out s
        let formatted : Formatted κ φ := ⟨i, k, l.formatOf cb k, len, out⟩
        if 0 < len then
          let text := out.take len.toNat
          let (rest, s) := l.writeLoop cb msg n (i + 1) out (cb.write k msg text s)
          (⟨formatted :: rest.formats, ⟨i, k, msg, text⟩ :: rest.writes⟩, s)
        else
          let (rest, s) := l.writeLoop cb msg n (i + 1) out s
          (⟨formatted :: rest.formats, rest.writes⟩, s)

/-- `cpr_log_writev` and `cpr_log_write`. -/
def logWritev (cb : LogCallbacks κ φ γ) (logger : Option (Logger κ φ)) (c : LogCall) (s : γ) : Report κ φ × γ :=
  match logger with
  | none => ({}, s)
  | some l => if l.drops c.level then ({}, s) else l.writeLoop cb (logMessage c) l.sinkCount 0 c.out s

end Copper
