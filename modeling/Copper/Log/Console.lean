import Copper.Foundation.Terminal
import Copper.Log.Lines

/-!
# The console sink

`cpr_log_console_sink` writes to `stdout` or `stderr`, in the colour of the level where the stream is a terminal. Any number of such
sinks share the two streams, each with its buffer. What waits in a buffer has been written since the last warning (`Told`), and a
terminal shows every line in the colour of its level, and nothing else in colour (`log_lines_on_console`).
-/

namespace Copper

open Critical Transition

/-! ## The sinks -/

inductive StdStream where
  | out
  | err
  deriving DecidableEq, Repr

/-- `CPR_LOG_WARN`. -/
def logWarn : Int := 3

/-- `CPR_ANSI_COLOR_RESET`. -/
def ansiColorReset : List UInt8 := Terminal.esc :: ascii "[0m"

/-- `cpr__ansi_color`. -/
def ansiColor (level : Int) : List UInt8 :=
  if level = 0 then Terminal.esc :: ascii "[2m"
  else if level = 1 then Terminal.esc :: ascii "[36m"
  else if level = 2 then Terminal.esc :: ascii "[32m"
  else if level = 3 then Terminal.esc :: ascii "[33m"
  else if level = 4 then Terminal.esc :: ascii "[31m"
  else if level = 5 then Terminal.esc :: ascii "[35m"
  else []

/-- `CprConsoleSinkConfig`. -/
structure ConsoleSinkConfig where
  useColor : Bool
  useStderr : Bool

/-- `CprConsoleSink`. -/
structure ConsoleSink (φ : Type) where
  base : LogSink φ
  stream : StdStream
  useColor : Bool
  isTty : Bool

/-- `cpr_log_console_sink`. -/
def logConsoleSink {φ : Type} (isTty : StdStream → Bool) (mallocFails : Bool) (config : Option ConsoleSinkConfig) :
    Option (ConsoleSink φ) :=
  if mallocFails then none
  else
    let stream := match config with
      | some c => if c.useStderr then .err else .out
      | none => .out
    some {
      base := { minLevel := 0, format := none }
      stream := stream
      useColor := match config with
        | some c => c.useColor
        | none => false
      isTty := isTty stream }

/-- What the streams have handed to the system, and what waits in their buffers. -/
structure ConsoleState where
  shown : StdStream → Content
  buffer : StdStream → Fs.StreamBuffer

/-- When the buffers overflow, and what the system takes. -/
abbrev ConsoleFates := StdStream → Drain

namespace ConsoleState

def start : ConsoleState := ⟨fun _ => [], fun _ => OutBuffer.empty⟩

variable (d : ConsoleFates) (st : StdStream) (s : ConsoleState)

/-- Some of what waits goes to the system. -/
def deliver (out : Content) (buffer : Fs.StreamBuffer) : ConsoleState where
  shown := Function.update s.shown st (s.shown st ++ out)
  buffer := Function.update s.buffer st buffer

/-- `fputs` and `fwrite`. -/
def put (data : Content) : ConsoleState :=
  s.deliver st (OutBuffer.put (d st) data (s.buffer st)).out (OutBuffer.put (d st) data (s.buffer st)).buffer

/-- `fflush`. -/
def flush : ConsoleState := s.deliver st (OutBuffer.close (d st) (s.buffer st)) OutBuffer.empty

end ConsoleState

section

variable {φ : Type} (d : ConsoleFates) (cs : ConsoleSink φ)

/-- `cpr__console_write`. -/
def consoleWrite (level : Int) (buf : Content) (s : ConsoleState) : ConsoleState :=
  let s :=
    if cs.useColor && cs.isTty then
      ((s.put d cs.stream (ansiColor level)).put d cs.stream buf).put d cs.stream ansiColorReset
    else s.put d cs.stream buf
  if logWarn ≤ level then s.flush d cs.stream else s

/-- `cpr__console_flush`. -/
def consoleFlush (s : ConsoleState) : ConsoleState := s.flush d cs.stream

end

section

variable {κ φ γ : Type}

/-- The loop of `cpr_log_flush`. -/
def Logger.flushLoop (l : Logger κ φ) (flush : κ → Option (γ → γ)) : Nat → Nat → γ → γ
  | 0, _, s => s
  | n + 1, i, s =>
    match l.sinks[i]?.join with
    | none => l.flushLoop flush n (i + 1) s
    | some k =>
      match flush k with
      | none => l.flushLoop flush n (i + 1) s
      | some f => l.flushLoop flush n (i + 1) (f s)

/-- `cpr_log_flush`. A sink without a `flush` is passed over. -/
def logFlush (flush : κ → Option (γ → γ)) (logger : Option (Logger κ φ)) (s : γ) : γ :=
  match logger with
  | none => s
  | some l => l.flushLoop flush l.sinkCount 0 s

/-- What `cpr_log_flush` does to the sinks of a list. -/
theorem Logger.Holds.logFlush {l : Logger κ φ} {a : SinkList κ φ} (h : l.Holds a) (flush : κ → Option (γ → γ)) (s : γ) :
    logFlush flush (some l) s = a.entries.foldl (fun s k => (flush k).getD id s) s := by
  have hloop : ∀ n i s, i + n = a.entries.length →
      l.flushLoop flush n i s = (a.entries.drop i).foldl (fun s k => (flush k).getD id s) s := by
    intro n
    induction n with
    | zero =>
      intro i s hn
      rw [List.drop_eq_nil_of_le (by omega)]
      rfl
    | succ n ih =>
      intro i s hn
      have hi : i < a.entries.length := by omega
      rw [Logger.flushLoop, h.slot, List.getElem?_eq_getElem hi, List.drop_eq_getElem_cons hi, List.foldl_cons]
      dsimp only
      cases hflush : flush a.entries[i] with
      | none => exact ih (i + 1) s (by omega)
      | some f => exact ih (i + 1) (f s) (by omega)
  have hall := hloop l.sinkCount 0 s (by rw [h.sinkCount, Nat.zero_add])
  rw [List.drop_zero] at hall
  exact hall

end

/-! ## What waits -/

/-- Nothing is lost: the system takes what it is offered. -/
def ConsoleFates.Lossless (d : ConsoleFates) : Prop := ∀ st k, k ≤ (d st).takes k ∧ k ≤ (d st).closes k

/-- A write of a sink: where to, of what level, what text, and whether in its colour. -/
structure Chunk where
  stream : StdStream
  level : Int
  colored : Bool
  text : Content

/-- What a write puts to the stream. -/
def Chunk.bytes (c : Chunk) : Content :=
  if c.colored then ansiColor c.level ++ c.text ++ ansiColorReset else c.text

/-- What writes put to a stream. -/
def said (st : StdStream) (chunks : List Chunk) : Content := (chunks.filter fun c => c.stream = st).flatMap Chunk.bytes

/-- What more writes put follows what the first put. -/
theorem said_append (st : StdStream) (cs cs' : List Chunk) : said st (cs ++ cs') = said st cs ++ said st cs' := by
  simp only [said, List.filter_append, List.flatMap_append]

/-- What one write puts. -/
theorem said_singleton (st : StdStream) (c : Chunk) : said st [c] = if c.stream = st then c.bytes else [] := by
  by_cases h : c.stream = st
  · simp [said, h]
  · simp [said, h]

/-- After some writes each stream has shown all that was put to it but what its buffer holds, which was put since the last warning. -/
structure Told (chunks : List Chunk) (s : ConsoleState) : Prop where
  kept : ∀ st, s.shown st ++ (s.buffer st).held = said st chunks
  count : ∀ st, (s.buffer st).held.length ≤ (s.buffer st).count
  late : ∀ st, ∃ before after, chunks = before ++ after ∧ said st before <+: s.shown st ∧
    ∀ c ∈ after, c.stream = st → c.level < logWarn

/-- What a stream has been put, chunk or no. -/
structure Holding (st : StdStream) (data : Content) (s s' : ConsoleState) : Prop where
  kept : s'.shown st ++ (s'.buffer st).held = s.shown st ++ (s.buffer st).held ++ data
  shown : s.shown st <+: s'.shown st
  count : (s'.buffer st).held.length ≤ (s'.buffer st).count
  other : ∀ st' ≠ st, s'.shown st' = s.shown st' ∧ s'.buffer st' = s.buffer st'

/-- One after the other. -/
theorem Holding.trans {st : StdStream} {data data' : Content} {s s' s'' : ConsoleState} (h : Holding st data s s')
    (h' : Holding st data' s' s'') : Holding st (data ++ data') s s'' where
  kept := by rw [h'.kept, h.kept, List.append_assoc]
  shown := h.shown.trans h'.shown
  count := h'.count
  other st' hst := ⟨(h'.other st' hst).1.trans (h.other st' hst).1, (h'.other st' hst).2.trans (h.other st' hst).2⟩

section

variable {d : ConsoleFates} (hd : d.Lossless)

include hd

/-- What is put is shown or waits. -/
theorem holding_put {st : StdStream} {s : ConsoleState} (hcount : (s.buffer st).held.length ≤ (s.buffer st).count) (data : Content) :
    Holding st data s (s.put d st data) := by
  obtain ⟨-, hkept, hcount'⟩ := OutBuffer.put_lossless (fun k => (hd st k).1) hcount data
  have hshown : (s.put d st data).shown st = s.shown st ++ (OutBuffer.put (d st) data (s.buffer st)).out := Function.update_self ..
  have hbuffer : (s.put d st data).buffer st = (OutBuffer.put (d st) data (s.buffer st)).buffer := Function.update_self ..
  refine ⟨?_, ?_, ?_, fun st' hst => ⟨Function.update_of_ne hst .., Function.update_of_ne hst ..⟩⟩
  · rw [hshown, hbuffer, List.append_assoc, hkept, List.append_assoc]
  · rw [hshown]
    exact List.prefix_append ..
  · rw [hbuffer]
    exact hcount'

/-- After a flush nothing waits. -/
theorem holding_flush (st : StdStream) (s : ConsoleState) :
    Holding st [] s (s.flush d st) ∧ ((s.flush d st).buffer st).held = [] := by
  have hall : OutBuffer.close (d st) (s.buffer st) = (s.buffer st).held := List.take_of_length_le (hd st _).2
  have hshown : (s.flush d st).shown st = s.shown st ++ (s.buffer st).held := by
    rw [ConsoleState.flush, hall]
    exact Function.update_self ..
  have hbuffer : (s.flush d st).buffer st = OutBuffer.empty := Function.update_self ..
  refine ⟨⟨?_, ?_, ?_, fun st' hst => ⟨Function.update_of_ne hst .., Function.update_of_ne hst ..⟩⟩, ?_⟩
  · rw [hshown, hbuffer, List.append_nil]
    exact List.append_nil _
  · rw [hshown]
    exact List.prefix_append ..
  · rw [hbuffer]
    exact Nat.le_refl 0
  · rw [hbuffer]
    rfl

end

namespace Told

variable {chunks : List Chunk} {s s' : ConsoleState} (h : Told chunks s)

include h

/-- The writes to a stream and no others have put bytes to it. -/
theorem append {c : Chunk} (hput : Holding c.stream c.bytes s s')
    (hwarn : logWarn ≤ c.level → (s'.buffer c.stream).held = []) : Told (chunks ++ [c]) s' where
  kept st := by
    rw [said_append, said_singleton]
    by_cases hst : c.stream = st
    · subst hst
      rw [hput.kept, h.kept, if_pos rfl]
    · obtain ⟨h1, h2⟩ := hput.other st (Ne.symm hst)
      rw [h1, h2, h.kept, if_neg hst, List.append_nil]
  count st := by
    by_cases hst : c.stream = st
    · subst hst
      exact hput.count
    · rw [(hput.other st (Ne.symm hst)).2]
      exact h.count st
  late st := by
    obtain ⟨before, after, hchunks, hbefore, hafter⟩ := h.late st
    by_cases hst : c.stream = st
    · subst hst
      by_cases hlevel : logWarn ≤ c.level
      · refine ⟨chunks ++ [c], [], (List.append_nil _).symm, ?_, nofun⟩
        have hkept := hput.kept
        rw [hwarn hlevel, List.append_nil, h.kept] at hkept
        rw [said_append, said_singleton, if_pos rfl, ← hkept]
      · refine ⟨before, after ++ [c], by rw [hchunks, List.append_assoc], hbefore.trans hput.shown, fun c' hc' => ?_⟩
        rcases List.mem_append.mp hc' with hc' | hc'
        · exact hafter c' hc'
        · rw [List.mem_singleton.mp hc']
          exact fun _ => Int.lt_of_not_ge hlevel
    · refine ⟨before, after ++ [c], by rw [hchunks, List.append_assoc], ?_, fun c' hc' => ?_⟩
      · rw [(hput.other st (Ne.symm hst)).1]
        exact hbefore
      · rcases List.mem_append.mp hc' with hc' | hc'
        · exact hafter c' hc'
        · rw [List.mem_singleton.mp hc']
          exact fun he => absurd he hst

/-- A flush shows what waited. -/
theorem flush {d : ConsoleFates} (hd : d.Lossless) (st : StdStream) :
    Told chunks (s.flush d st) ∧ (s.flush d st).shown st = said st chunks := by
  obtain ⟨hput, hempty⟩ := holding_flush hd st s
  have hshown : (s.flush d st).shown st = said st chunks := by
    have hkept := hput.kept
    rwa [hempty, List.append_nil, List.append_nil, h.kept] at hkept
  refine ⟨⟨fun st' => ?_, fun st' => ?_, fun st' => ?_⟩, hshown⟩
  · by_cases hst : st' = st
    · rw [hst, hempty, hshown, List.append_nil]
    · obtain ⟨h1, h2⟩ := hput.other st' hst
      rw [h1, h2, h.kept]
  · by_cases hst : st' = st
    · rw [hst, hempty]
      exact Nat.zero_le _
    · rw [(hput.other st' hst).2]
      exact h.count st'
  · by_cases hst : st' = st
    · rw [hst, hshown]
      exact ⟨chunks, [], (List.append_nil _).symm, List.prefix_refl _, nofun⟩
    · rw [(hput.other st' hst).1]
      exact h.late st'

/-- A write of a sink. -/
theorem consoleWrite {d : ConsoleFates} (hd : d.Lossless) {φ : Type} (cs : ConsoleSink φ) (level : Int) (text : Content) :
    Told (chunks ++ [⟨cs.stream, level, cs.useColor && cs.isTty, text⟩]) (consoleWrite d cs level text s) := by
  have hput : Holding cs.stream (Chunk.bytes ⟨cs.stream, level, cs.useColor && cs.isTty, text⟩) s
      (if cs.useColor && cs.isTty then
        ((s.put d cs.stream (ansiColor level)).put d cs.stream text).put d cs.stream ansiColorReset
      else s.put d cs.stream text) := by
    cases hcolored : cs.useColor && cs.isTty with
    | false => exact holding_put hd (h.count cs.stream) text
    | true =>
      have hcolor := holding_put hd (h.count cs.stream) (ansiColor level)
      have htext := hcolor.trans (holding_put hd hcolor.count text)
      exact htext.trans (holding_put hd htext.count ansiColorReset)
  unfold Copper.consoleWrite
  by_cases hlevel : logWarn ≤ level
  · obtain ⟨hflush, hempty⟩ := holding_flush hd cs.stream _
    dsimp only
    rw [if_pos hlevel]
    have hboth := hput.trans hflush
    rw [List.append_nil] at hboth
    exact h.append hboth fun _ => hempty
  · dsimp only
    rw [if_neg hlevel]
    exact h.append hput fun hle => absurd hle hlevel

end Told

/-- At the start nothing has been put. -/
theorem told_start : Told [] .start := ⟨fun _ => rfl, fun _ => Nat.le_refl 0, fun _ => ⟨[], [], rfl, List.nil_prefix, nofun⟩⟩

/-! ## What a terminal shows -/

/-- The renditions that a terminal shows a level in. -/
def renditions (colored : Bool) (level : Int) : List Nat :=
  if colored then (Terminal.display .reset (ansiColor level)).2.renditions else []

/-- The colour of a level shows nothing, and changes the rendition. -/
theorem display_ansiColor (level : Int) :
    Terminal.display .reset (ansiColor level) = ([], ⟨.ground, (Terminal.display .reset (ansiColor level)).2.renditions⟩) := by
  unfold ansiColor
  split
  · decide
  split
  · decide
  split
  · decide
  split
  · decide
  split
  · decide
  split
  · decide
  · rfl

/-- The reset shows nothing, and takes every rendition away. -/
theorem display_ansiColorReset (rs : List Nat) : Terminal.display ⟨.ground, rs⟩ ansiColorReset = ([], .reset) := rfl

/-- A line is shown in its colour, and leaves none behind. -/
theorem display_bytes {c : Chunk} (h : Terminal.esc ∉ c.text) :
    Terminal.display .reset c.bytes = (c.text.map fun b => (renditions c.colored c.level, b), .reset) := by
  unfold Chunk.bytes renditions
  cases c.colored with
  | false =>
    simp only [Bool.false_eq_true, if_false]
    exact Terminal.display_text [] h
  | true =>
    simp only [if_true]
    rw [Terminal.display_append, Terminal.display_append, display_ansiColor]
    dsimp only
    rw [Terminal.display_text _ h, display_ansiColorReset]
    simp

/-! ## Threads -/

section

variable {κ τ : Type} {d : ConsoleFates} {localtime : TimeConversion} {sinks : κ → ConsoleSink Formatter}
  {l : Logger κ Formatter} {a : SinkList κ Formatter}

/-- Console sinks, and the built-in formatters. -/
def consoleCallbacks (d : ConsoleFates) (localtime : TimeConversion) (sinks : κ → ConsoleSink Formatter) :
    LogCallbacks κ Formatter ConsoleState where
  sink := fun k => (sinks k).base
  format := fun fn msg out s => ((fn.format localtime msg out).1, (fn.format localtime msg out).2, s)
  write := fun k msg text s => consoleWrite d (sinks k) msg.level text s

/-- The write of an entry. -/
def chunkOf (localtime : TimeConversion) (sinks : κ → ConsoleSink Formatter) (fn : κ → Formatter) (msg : LogMessage) (k : κ) :
    Chunk :=
  ⟨(sinks k).stream, msg.level, (sinks k).useColor && (sinks k).isTty, (fn k).line localtime msg⟩

/-- The writes of a call that has taken the mutex. -/
def chunksOf (localtime : TimeConversion) (sinks : κ → ConsoleSink Formatter) (fn : κ → Formatter) (entries : List κ) (c : LogCall) :
    List Chunk :=
  (entries.filter fun k => (sinks k).base.minLevel ≤ c.level).map (chunkOf localtime sinks fn (logMessage c))

/-- The write that a sink is asked for by its configuration: of every level, with the formatter of the logger. -/
def askedChunk (isTty : StdStream → Bool) (config : Option ConsoleSinkConfig) (level : Int) (line : Content) : Chunk :=
  let stream := if config.any (·.useStderr) then .err else .out
  ⟨stream, level, config.any (·.useColor) && isTty stream, line⟩

/-- What `cpr_log_console_sink` gives writes what its configuration asks for. -/
theorem mem_chunksOf_asked {isTty : StdStream → Bool} {config : Option ConsoleSinkConfig} {k : κ} {c : LogCall} (hk : k ∈ a.entries)
    (hsink : logConsoleSink isTty false config = some (sinks k)) (hlevel : 0 ≤ c.level) :
    askedChunk isTty config c.level (a.defaultFormat.line localtime (logMessage c)) ∈
      chunksOf localtime sinks (a.formatOf (consoleCallbacks d localtime sinks)) a.entries c := by
  have hsink : _ = sinks k := Option.some.inj hsink
  have hformat : a.formatOf (consoleCallbacks d localtime sinks) k = a.defaultFormat := by
    change (sinks k).base.format.getD a.defaultFormat = a.defaultFormat
    rw [← hsink]
    rfl
  refine List.mem_map.mpr ⟨k, List.mem_filter.mpr ⟨hk, ?_⟩, ?_⟩
  · rw [← hsink]
    exact decide_eq_true hlevel
  · rw [chunkOf, hformat, ← hsink]
    cases config with
    | none => rfl
    | some config => rfl

/-- A formatter keeps the size of its buffer. -/
theorem Formatter.length_format (fn : Formatter) (msg : LogMessage) (out : List UInt8) :
    (fn.format localtime msg out).2.length = out.length := by
  unfold Formatter.format
  split
  · exact Memory.length_read ..
  · rfl

/-- A record goes to entries one after the other. -/
theorem Told.deliver (hd : d.Lossless) {fn : κ → Formatter} {msg : LogMessage} {es : List (κ × Nat)}
    (htext : ∀ e ∈ es, ∃ text, (fn e.1).text localtime msg = some text ∧ text.length < 2 ^ 31) {out : List UInt8}
    (hout : out.length = logBufferSize) {chunks : List Chunk} {s : ConsoleState} (h : Told chunks s) :
    Told (chunks ++ es.map fun e => chunkOf localtime sinks fn msg e.1)
      (deliver (consoleCallbacks d localtime sinks) fn msg es out s).2 := by
  induction es generalizing chunks out s with
  | nil =>
    rw [List.map_nil, List.append_nil]
    exact h
  | cons e es ih =>
    obtain ⟨k, i⟩ := e
    obtain ⟨text, htext', hlen⟩ := htext (k, i) List.mem_cons_self
    obtain ⟨hresult, hline⟩ := Formatter.format_line htext' hlen hout
    obtain ⟨⟨before, hbefore⟩, -⟩ := Formatter.line_newline htext'
    have hpos : (0 : Int) < ((fn k).line localtime msg).length := by
      rw [hbefore, List.length_append, List.length_singleton]
      omega
    have hformat : (consoleCallbacks d localtime sinks).format (fn k) msg out s =
        (((fn k).format localtime msg out).1, ((fn k).format localtime msg out).2, s) := rfl
    rw [Copper.deliver, hformat]
    dsimp only
    rw [hresult, if_pos hpos, Int.toNat_natCast, hline, List.map_cons, ← List.singleton_append, ← List.append_assoc]
    refine ih (fun e he => htext e (List.mem_cons_of_mem _ he)) ?_ ?_
    · rw [Formatter.length_format, hout]
    · exact h.consoleWrite hd (sinks k) msg.level _

/-- The writes of a call, by the entries with their places. -/
theorem chunksOf_eq (fn : κ → Formatter) (entries : List κ) (c : LogCall) :
    chunksOf localtime sinks fn entries c =
      (entries.zipIdx.filter fun e => (sinks e.1).base.minLevel ≤ c.level).map
        fun e => chunkOf localtime sinks fn (logMessage c) e.1 := by
  have hfst : entries.zipIdx.map Prod.fst = entries := List.zipIdx_map_fst 0 entries
  unfold chunksOf
  conv_lhs => rw [← hfst, List.filter_map, List.map_map]
  rfl

/-- Calls one at a time, on a logger of console sinks. -/
theorem Told.run (hd : d.Lossless) (hl : l.Holds a) {cs : List LogCall}
    (hcs : ∀ c ∈ cs, ∀ k ∈ a.entries, c.Printable localtime (a.formatOf (consoleCallbacks d localtime sinks) k)) {chunks : List Chunk}
    {s : ConsoleState} (h : Told chunks s) :
    Told (chunks ++ cs.flatMap (chunksOf localtime sinks (a.formatOf (consoleCallbacks d localtime sinks)) a.entries))
      ((logMachine (consoleCallbacks d localtime sinks) l).run s cs).2 := by
  induction cs generalizing chunks s with
  | nil =>
    rw [List.flatMap_nil, List.append_nil]
    exact h
  | cons c cs ih =>
    have hloop := hl.writeLoop (consoleCallbacks d localtime sinks) (logMessage c) l.sinkCount 0 c.out s (by rw [hl.sinkCount]; omega)
    have hprintable := hcs c List.mem_cons_self
    rw [Machine.run, List.flatMap_cons, ← List.append_assoc]
    refine ih (fun c' hc' => hcs c' (List.mem_cons_of_mem c hc')) ?_
    show Told _ (l.writeLoop (consoleCallbacks d localtime sinks) (logMessage c) l.sinkCount 0 c.out s).2
    rw [hloop, chunksOf_eq, List.drop_zero]
    cases hentries : a.entries with
    | nil =>
      rw [List.zipIdx_nil, List.filter_nil, List.map_nil, List.append_nil]
      exact h
    | cons k ks =>
      rw [← hentries]
      have hout := (hprintable k (by rw [hentries]; exact List.mem_cons_self)).out
      refine h.deliver hd (fun e he => ?_) hout
      have hmem : e.1 ∈ a.entries := by
        have hzip := List.mem_map_of_mem (f := Prod.fst) (List.mem_of_mem_filter he)
        rwa [List.zipIdx_map_fst] at hzip
      exact (hprintable e.1 hmem).text

/-- Flushes of sinks, one after the other, show what was put to their streams. -/
theorem Told.flushes (hd : d.Lossless) {chunks : List Chunk} (ks : List κ) {s : ConsoleState} (h : Told chunks s) {st : StdStream}
    (hst : s.shown st = said st chunks ∨ ∃ k ∈ ks, (sinks k).stream = st) :
    (ks.foldl (fun s k => consoleFlush d (sinks k) s) s).shown st = said st chunks := by
  induction ks generalizing s with
  | nil =>
    rcases hst with hst | ⟨k, hk, -⟩
    · exact hst
    · cases hk
  | cons k ks ih =>
    obtain ⟨htold, hshown⟩ := h.flush hd (sinks k).stream
    refine ih htold ?_
    by_cases hk : (sinks k).stream = st
    · exact .inl (hk ▸ hshown)
    · rcases hst with hst | ⟨k', hk', hst⟩
      · exact .inl ((((holding_flush hd (sinks k).stream s).1.other st (Ne.symm hk)).1).trans hst)
      · rcases List.mem_cons.mp hk' with rfl | hk'
        · exact absurd hst hk
        · exact .inr ⟨k', hk', hst⟩

/-- Threads log through one thread-safe logger to any console sinks, in any interleaving, and no output is lost. Whenever no call is
at the sinks, each stream has been put the lines of the calls that took the mutex, in that order and whole, in their colours where
the sink has colours, and what it has not shown was put after its last warning. A terminal that is shown all of it shows every line
in the renditions of its level, or in none, and is left with none, if no line has an escape in it. A flush of the logger shows all
that its sinks were given. And a sink that `cpr_log_console_sink` gave has been given every call, in the logger's format, and writes
it to the stream and in the colours that its configuration asks for. -/
theorem log_lines_on_console [DecidableEq τ] (hd : d.Lossless) (hl : l.Holds a) (hsafe : l.threadSafe = true)
    {s : Critical.State τ (LogShared κ ConsoleState) (LogLocals κ Formatter) LogCall (Report κ Formatter)}
    (hs : (loggerSystem τ (consoleCallbacks d localtime sinks) l .start).Reachable s)
    (hcalls : ∀ p ∈ s.entered, ∀ k ∈ a.entries, p.2.Printable localtime (a.formatOf (consoleCallbacks d localtime sinks) k))
    (hfree : s.holder = none) :
    ∃ chunks, chunks = (s.entered.map Prod.snd).flatMap
        (chunksOf localtime sinks (a.formatOf (consoleCallbacks d localtime sinks)) a.entries) ∧
      (∀ st, s.shared.mem.shown st ++ (s.shared.mem.buffer st).held = said st chunks ∧
        ∃ before after, chunks = before ++ after ∧ said st before <+: s.shared.mem.shown st ∧
          ∀ c ∈ after, c.stream = st → c.level < logWarn) ∧
      (∀ st, (∀ c ∈ chunks, c.stream = st → Terminal.esc ∉ c.text) →
        Terminal.display .reset (said st chunks) =
          ((chunks.filter fun c => c.stream = st).flatMap fun c => c.text.map fun b => (renditions c.colored c.level, b), .reset)) ∧
      (∀ k ∈ a.entries, (logFlush (fun k => some (consoleFlush d (sinks k))) (some l) s.shared.mem).shown (sinks k).stream =
        said (sinks k).stream chunks) ∧
      ∀ k ∈ a.entries, ∀ isTty config, logConsoleSink isTty false config = some (sinks k) → ∀ p ∈ s.entered, 0 ≤ p.2.level →
        askedChunk isTty config p.2.level (a.defaultFormat.line localtime (logMessage p.2)) ∈ chunks := by
  have hinv : Inv (logBody (consoleCallbacks d localtime sinks) l) ⟨.start, []⟩ s := by
    unfold loggerSystem at hs
    rw [hsafe] at hs
    exact inv_of_reachable hs
  have hprintable : ∀ c ∈ s.entered.map Prod.snd, ∀ k ∈ a.entries,
      c.Printable localtime (a.formatOf (consoleCallbacks d localtime sinks) k) := by
    intro c hc
    obtain ⟨p, hp, rfl⟩ := List.mem_map.mp hc
    exact hcalls p hp
  have htold := told_start.run hd hl hprintable
  rw [List.nil_append, ← mem_of_free hinv hfree] at htold
  refine ⟨_, rfl, fun st => ⟨htold.kept st, htold.late st⟩, fun st hesc => ?_, fun k hk => ?_,
    fun k hk isTty config hsink p hp hlevel => ?_⟩
  · refine Terminal.display_flatMap fun c hc => display_bytes ?_
    obtain ⟨hmem, hstream⟩ := List.mem_filter.mp hc
    exact hesc c hmem (of_decide_eq_true hstream)
  · rw [hl.logFlush]
    exact htold.flushes hd a.entries (.inr ⟨k, hk, rfl⟩)
  · exact List.mem_flatMap.mpr ⟨p.2, List.mem_map_of_mem hp, mem_chunksOf_asked hk hsink hlevel⟩

end

/-! ## Two sinks -/

/-- A terminal in colour, and a file at the other stream. -/
def twoSinks (k : Bool) : ConsoleSink Formatter :=
  if k then ⟨⟨0, none⟩, .err, false, false⟩ else ⟨⟨0, none⟩, .out, true, true⟩

def consoleLogger : Logger Bool Formatter := ⟨0, true, .minimal, Packed.pack logMaxSinks [false, true], 2⟩

/-- The message "hi", as a warning. -/
def warnCall : LogCall := { hiCall with level := 3 }

/-- The second thread warns while the first is at the sinks, and waits for it. -/
def warnRun : List (Critical.Event Bool LogCall) :=
  [.call false hiCall, .lock false, .step false, .step false, .call true warnCall, .step false, .step false, .step false, .step false,
    .unlock false, .lock true, .ret false, .step true, .step true, .step true, .step true, .step true, .step true, .unlock true]

/-- Buffers that never overflow. -/
def neverOverflows : ConsoleFates := fun _ => ⟨fun _ => false, id, id⟩

/-- The warning is printable. -/
theorem printable_warnCall : warnCall.Printable noTime .minimal := by
  have hmessage : (logMessage warnCall).message = ascii "hi" ++ List.replicate (logMsgSize - 2) 0 := rfl
  have hcstr : cstr (logMessage warnCall).message = ascii "hi" := by
    rw [hmessage]
    rfl
  refine ⟨List.length_replicate, _, rfl, ?_⟩
  rw [minimalText, hcstr]
  decide

set_option maxRecDepth 20000 in
theorem log_lines_on_console_warn :
    (∀ k, logConsoleSink (· = .out) false (some ⟨!k, k⟩) = some (twoSinks k)) ∧
    ∃ s, (loggerSystem Bool (consoleCallbacks neverOverflows noTime twoSinks) consoleLogger .start).Reachable s ∧
      s.shared.mem.shown .out ++ (s.shared.mem.buffer .out).held =
        (Terminal.esc :: ascii "[32m[INFO ] hi\n") ++ (Terminal.esc :: ascii "[0m") ++
          ((Terminal.esc :: ascii "[33m[WARN ] hi\n") ++ (Terminal.esc :: ascii "[0m")) ∧
      s.shared.mem.shown .err ++ (s.shared.mem.buffer .err).held = ascii "[INFO ] hi\n[WARN ] hi\n" := by
  have hs : ∃ s, System.replay (Critical.next (logBody (consoleCallbacks neverOverflows noTime twoSinks) consoleLogger) true)
      (.initial ⟨.start, []⟩) warnRun = some s ∧ s.holder = none ∧ s.entered = [(false, hiCall), (true, warnCall)] :=
    ⟨_, rfl, rfl, rfl⟩
  obtain ⟨s, hreplay, hfree, hentered⟩ := hs
  have hreachable : (loggerSystem Bool (consoleCallbacks neverOverflows noTime twoSinks) consoleLogger .start).Reachable s :=
    ⟨_, warnRun, rfl, System.run_of_replay _ hreplay⟩
  have hholds : consoleLogger.Holds ⟨0, .minimal, [false, true], by decide⟩ := ⟨rfl, rfl, rfl, rfl⟩
  have hlossless : neverOverflows.Lossless := fun _ _ => ⟨Nat.le_refl _, Nat.le_refl _⟩
  have hcalls : ∀ p ∈ s.entered, ∀ k ∈ [false, true], p.2.Printable noTime .minimal := by
    intro p hp k hk
    rw [hentered] at hp
    simp only [List.mem_cons, List.not_mem_nil, or_false] at hp
    rcases hp with rfl | rfl
    · exact printable_hiCall
    · exact printable_warnCall
  have hformat : ∀ k, (⟨0, .minimal, [false, true], by decide⟩ : SinkList Bool Formatter).formatOf
      (consoleCallbacks neverOverflows noTime twoSinks) k = .minimal := by
    intro k
    cases k <;> rfl
  obtain ⟨chunks, hchunks, hkept, -, -⟩ := log_lines_on_console hlossless hholds rfl hreachable
    (fun p hp k hk => (hformat k).symm ▸ hcalls p hp k hk) hfree
  rw [hentered] at hchunks
  refine ⟨fun k => ?_, s, hreachable, (hkept .out).1.trans ?_, (hkept .err).1.trans ?_⟩
  · cases k <;> rfl
  · rw [hchunks]
    rfl
  · rw [hchunks]
    rfl

end Copper
