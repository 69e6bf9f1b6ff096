import Copper.Log.Buffered
import Copper.Log.Format
import Copper.Log.Threads

/-!
# Lines on the disk

Threads that log through one thread-safe logger, with a built-in formatter, to a file that is not rotated: the whole way from the
calls to the disk. Once the sink is flushed, the file holds what it held, and after that the line of every call that the levels let
through, whole, in the order in which the calls took the mutex (`log_lines_on_disk`).
-/

namespace Copper

open Critical Transition
open Fs (StdioState HandleFates)

variable {w : Nat}

/-! ## The formatters, into an array -/

/-- The built-in formatters. -/
inductive Formatter where
  | default
  | full
  | minimal
  deriving DecidableEq, Repr

/-- The text that a formatter is to print, where all that `%s` reads is there. -/
def Formatter.text (localtime : TimeConversion) (msg : LogMessage) : Formatter → Option (List UInt8)
  | default => some (defaultText localtime msg)
  | full => fullText localtime msg
  | minimal => some (minimalText msg)

/-- What a formatter leaves in memory. -/
def Formatter.print (localtime : TimeConversion) (msg : LogMessage) (m : Memory UInt8) (buf : Int) (n : Nat) :
    Formatter → Option FormatOut
  | default => some (logFormatDefault localtime msg m buf n (some false))
  | full => logFormatFull localtime msg m buf n (some false)
  | minimal => some (logFormatMinimal msg m buf n (some false))

/-- A formatter on an array; with a pointer that is not there, nothing is known of what it does, and this model has it print
nothing. -/
def Formatter.format (localtime : TimeConversion) (fn : Formatter) (msg : LogMessage) (out : List UInt8) : Int × List UInt8 :=
  match fn.print localtime msg (fun a => out.getD a.toNat 0) 0 out.length with
  | some o => (o.result, o.memory.read 0 out.length)
  | none => (0, out)

/-- The line of a message in the array of `cpr_log_writev`. -/
def Formatter.line (localtime : TimeConversion) (fn : Formatter) (msg : LogMessage) : List UInt8 :=
  lineIn logBufferSize ((fn.text localtime msg).getD [])

section

variable {localtime : TimeConversion} {fn : Formatter} {msg : LogMessage} {text : List UInt8}

/-- A text ends in a newline, and has no NUL. -/
theorem Formatter.text_newline (h : fn.text localtime msg = some text) : (∃ start, text = start ++ [10]) ∧ (0 : UInt8) ∉ text := by
  cases fn with
  | default =>
    cases h
    exact ⟨⟨_, rfl⟩, defaultText_noNul localtime msg⟩
  | full => exact ⟨fullText_newline h, fullText_noNul h⟩
  | minimal =>
    cases h
    exact ⟨⟨_, rfl⟩, minimalText_noNul msg⟩

/-- A formatter prints its text. -/
theorem Formatter.print_prints (h : fn.text localtime msg = some text) (hlen : text.length < 2 ^ 31) (m : Memory UInt8) (buf : Int)
    (n : Nat) : ∃ o, fn.print localtime msg m buf n = some o ∧ Prints text m buf n (some false) o := by
  have hnul := (Formatter.text_newline h).2
  cases fn with
  | default =>
    cases h
    exact ⟨_, rfl, printLine_prints hlen hnul (some false)⟩
  | full =>
    have h : fullText localtime msg = some text := h
    exact ⟨_, congrArg (Option.map _) h, printLine_prints hlen hnul (some false)⟩
  | minimal =>
    cases h
    exact ⟨_, rfl, printLine_prints hlen hnul (some false)⟩

/-- What a formatter returns is the length of its line, which it has left at the start of the array. -/
theorem Formatter.format_line (h : fn.text localtime msg = some text) (hlen : text.length < 2 ^ 31) {out : List UInt8}
    (hout : out.length = logBufferSize) :
    (fn.format localtime msg out).1 = (fn.line localtime msg).length ∧
      (fn.format localtime msg out).2.take (fn.line localtime msg).length = fn.line localtime msg := by
  obtain ⟨o, ho, hprints⟩ := Formatter.print_prints h hlen (fun a => out.getD a.toNat 0) 0 out.length
  have hline : fn.line localtime msg = lineIn out.length text := by rw [Formatter.line, h, hout, Option.getD_some]
  have hpos : 0 < out.length := by
    rw [hout]
    decide
  have hlength := length_lineIn hpos text
  unfold Formatter.format
  rw [ho, hline]
  refine ⟨?_, ?_⟩
  · dsimp only
    rw [hprints.result, if_neg (Nat.ne_of_gt hpos), hlength]
  · dsimp only
    rw [Memory.take_read (by omega)]
    exact (hprints.line hpos).read

/-- A line ends as a line does, and has no other NUL than the one after it. -/
theorem Formatter.line_newline (h : fn.text localtime msg = some text) :
    (∃ before, fn.line localtime msg = before ++ [10]) ∧ (0 : UInt8) ∉ fn.line localtime msg := by
  obtain ⟨⟨start, rfl⟩, hnul⟩ := Formatter.text_newline h
  rw [Formatter.line, h, Option.getD_some]
  exact ⟨lineIn_newline (by decide) start, lineIn_noNul hnul⟩

end

/-! ## Calls one at a time -/

section

variable {κ φ γ τ : Type} {cb : LogCallbacks κ φ γ} {l : Logger κ φ} {mem₀ : γ}

/-- What whole calls do to the program, one after the other. -/
def logMachine (cb : LogCallbacks κ φ γ) (l : Logger κ φ) : Machine γ LogCall (Report κ φ) :=
  ⟨fun s c => l.writeLoop cb (logMessage c) l.sinkCount 0 c.out s⟩

/-- Between two calls, the program is as the calls that took the mutex leave it one after the other. -/
theorem mem_of_free [DecidableEq τ] {s : Critical.State τ (LogShared κ γ) (LogLocals κ φ) LogCall (Report κ φ)}
    (hinv : Inv (logBody cb l) ⟨mem₀, []⟩ s) (hfree : s.holder = none) :
    s.shared.mem = ((logMachine cb l).run mem₀ (s.entered.map Prod.snd)).2 := by
  have hmachine : ∀ n c s x s', Steps (logBody cb l) ((logBody cb l).start n c) s x s' → (logBody cb l).next x = none →
      (logMachine cb l).next s.mem c = ((logBody cb l).result x, s'.mem) := by
    intro n c s x s' hsteps hover
    have htotal := (progress_of_steps hsteps).total
    rw [total_of_over hover] at htotal
    exact htotal.symm
  exact (hinv.machine hmachine).2 hfree

end

/-! ## One sink, over a stream -/

/-- A file sink over streams, with a level of its own or the formatter of the logger. -/
def streamCallbacks (io : Fs.FileIo StdioState Nat) (localtime : TimeConversion) (sink : LogSink Formatter) :
    LogCallbacks Unit Formatter (StreamSink w Nat × StdioState) where
  sink := fun _ => sink
  format := fun fn msg out s => ((fn.format localtime msg out).1, (fn.format localtime msg out).2, s)
  write := fun _ msg text s => StreamSink.fileWrite io localtime s.1 s.2 ⟨msg.timeMs, text⟩

/-- The arrays of a call have their lengths, and what its formatter reads is there and can be printed. -/
structure LogCall.Printable (localtime : TimeConversion) (fn : Formatter) (c : LogCall) : Prop where
  out : c.out.length = logBufferSize
  text : ∃ text, fn.text localtime (logMessage c) = some text ∧ text.length < 2 ^ 31

/-- What a call adds to the file. -/
def lineOf (localtime : TimeConversion) (sink : LogSink Formatter) (fn : Formatter) (c : LogCall) : Content :=
  if sink.minLevel ≤ c.level then fn.line localtime (logMessage c) else []

section

variable {f : HandleFates} {localtime : TimeConversion} {sink : LogSink Formatter} {l : Logger Unit Formatter}
  {a : SinkList Unit Formatter}

/-- A call on the only sink of a logger. -/
theorem logMachine_next (hl : l.Holds a) (ha : a.entries = [()]) {c : LogCall} {fn : Formatter}
    (hfn : a.formatOf (streamCallbacks (w := w) f.io localtime sink) () = fn) (hc : c.Printable localtime fn)
    (p : StreamSink w Nat × StdioState) :
    ((logMachine (streamCallbacks f.io localtime sink) l).next p c).2 =
      if sink.minLevel ≤ c.level then
        StreamSink.fileWrite f.io localtime p.1 p.2 ⟨c.now, fn.line localtime (logMessage c)⟩
      else p := by
  obtain ⟨text, htext, hlen⟩ := hc.text
  obtain ⟨hresult, hline⟩ := Formatter.format_line htext hlen hc.out
  obtain ⟨⟨before, hbefore⟩, -⟩ := Formatter.line_newline htext
  have hpos : (0 : Int) < (fn.line localtime (logMessage c)).length := by
    rw [hbefore, List.length_append, List.length_singleton]
    omega
  have hloop := hl.writeLoop (streamCallbacks f.io localtime sink) (logMessage c) l.sinkCount 0 c.out p (by rw [hl.sinkCount]; omega)
  have hlevel : (logMessage c).level = c.level := rfl
  rw [List.drop_zero, ha, hlevel] at hloop
  have hfilter : ([()].zipIdx 0).filter (fun e => decide (((streamCallbacks (w := w) f.io localtime sink).sink e.1).minLevel ≤ c.level)) =
      if sink.minLevel ≤ c.level then [((), 0)] else [] := by
    by_cases hadmits : sink.minLevel ≤ c.level
    · simp [streamCallbacks, hadmits]
    · simp [streamCallbacks, hadmits]
  rw [hfilter] at hloop
  have hnext : (logMachine (streamCallbacks f.io localtime sink) l).next p c =
    l.writeLoop (streamCallbacks f.io localtime sink) (logMessage c) l.sinkCount 0 c.out p := rfl
  rw [hnext, hloop]
  by_cases hadmits : sink.minLevel ≤ c.level
  · have hformat : (streamCallbacks (w := w) f.io localtime sink).format fn (logMessage c) c.out p =
        ((fn.format localtime (logMessage c) c.out).1, (fn.format localtime (logMessage c) c.out).2, p) := rfl
    rw [if_pos hadmits, if_pos hadmits, deliver, hfn, hformat]
    dsimp only
    rw [hresult, if_pos hpos, Int.toNat_natCast, hline]
    rfl
  · rw [if_neg hadmits, if_neg hadmits]
    rfl

/-- A sink that does not rotate has its stream on the file, and the plain files hold what was written. -/
structure Unrolled (path : Path) (p : StreamSink w Nat × StdioState) (files : Files) : Prop where
  path : p.1.path = path
  rollMode : p.1.rollMode = .none
  isOpen : p.1.file.isSome = true
  buffers : Buffers p.1 p.2 files

/-- A write adds its line to the file. -/
theorem Unrolled.write (hf : Lossless f) {path : Path} {p : StreamSink w Nat × StdioState} {files : Files}
    (h : Unrolled path p files) (r : LogRecord) :
    Unrolled path (StreamSink.fileWrite f.io localtime p.1 p.2 r)
      (Function.update files path (some ((files path).getD [] ++ r.text))) := by
  obtain ⟨⟨path, rollMode, maxBytes, maxFiles, file, currentSize, currentDay, currentHour⟩, s⟩ := p
  obtain ⟨rfl, hroll, hopen, hb⟩ := h
  cases hroll
  cases file with
  | none => cases hopen
  | some h =>
    have hwrote := hb.writeFile hf rfl r.text false false
    have hplain : (writeFile (plainOs f false false) files (some path) r.text).state =
        Function.update files path (some ((files path).getD [] ++ r.text)) := by
      simp only [writeFile, plainOs, id_eq, Nat.min_self, List.take_length]
    exact ⟨rfl, rfl, rfl, hwrote.apart, hwrote.stream, hplain ▸ hwrote.files⟩

/-- Calls one at a time, on the only sink of a logger. -/
theorem Unrolled.run (hf : Lossless f) (hl : l.Holds a) (ha : a.entries = [()]) {fn : Formatter}
    (hfn : a.formatOf (streamCallbacks (w := w) f.io localtime sink) () = fn) {path : Path} {cs : List LogCall}
    (hcs : ∀ c ∈ cs, c.Printable localtime fn) {p : StreamSink w Nat × StdioState} {files : Files} {start : Content}
    (h : Unrolled path p (Function.update files path (some start))) :
    Unrolled path ((logMachine (streamCallbacks f.io localtime sink) l).run p cs).2
      (Function.update files path (some (start ++ cs.flatMap (lineOf localtime sink fn)))) := by
  induction cs generalizing p start with
  | nil => rwa [List.flatMap_nil, List.append_nil]
  | cons c cs ih =>
    have hnext := logMachine_next hl ha hfn (hcs c List.mem_cons_self) p
    rw [Machine.run, List.flatMap_cons, ← List.append_assoc]
    refine ih (fun c' hc' => hcs c' (List.mem_cons_of_mem c hc')) ?_
    rw [hnext, lineOf]
    by_cases hadmits : sink.minLevel ≤ c.level
    · rw [if_pos hadmits, if_pos hadmits]
      have hwrote : Unrolled path (StreamSink.fileWrite f.io localtime p.1 p.2 ⟨c.now, fn.line localtime (logMessage c)⟩) _ :=
        h.write hf _
      rwa [Function.update_self, Option.getD_some, Function.update_idem] at hwrote
    · rwa [if_neg hadmits, if_neg hadmits, List.append_nil]

/-- A sink that was opened without rotation. -/
theorem unrolled_opened (hf : Lossless f) {config : FileSinkConfig w} (hroll : config.rollMode = .none) {path : Path}
    (hpath : config.path = some path) {s₀ s₁ : StdioState} (hapart : s₀.disk.Apart) {now : UInt64} {fs₀ : StreamSink w Nat}
    {e : Option CprError} (hopened : StreamSink.logFileSink f.io localtime now (some config) s₀ = ⟨some fs₀, s₁, e⟩) :
    Unrolled path (fs₀, s₁) (Function.update s₀.disk.content path (some (openedContent config s₀.disk.content path))) := by
  have hdisk : OnDisk s₀ s₀.disk.content := ⟨hapart, rfl⟩
  obtain ⟨opened, h, tells, files, e', hplain, hb⟩ := hdisk.logFileSink hf localtime now config hopened
  generalize f.openFails opened = openFails at hplain
  generalize sizeFails f h tells = sizeFails at hplain
  unfold logFileSink at hplain
  simp only [hpath] at hplain
  cases openFails with
  | true => cases hplain
  | false =>
    have hresult : fs₀.plain.path = path ∧ fs₀.plain.rollMode = .none ∧ fs₀.plain.file = some path ∧
        files = Function.update s₀.disk.content path (some (openedContent config s₀.disk.content path)) := by
      unfold openedContent
      cases hmode : config.openMode with
      | append =>
        simp only [hmode, openFile, plainOs, Bool.false_eq_true, if_false, reduceCtorEq] at hplain
        obtain ⟨hsink, hfiles, -⟩ := Outcome.mk.inj hplain
        rw [← Option.some.inj hsink]
        exact ⟨rfl, hroll, rfl, hfiles.symm⟩
      | overwrite =>
        simp only [hmode, openFile, plainOs, Bool.false_eq_true, if_false, if_true] at hplain
        obtain ⟨hsink, hfiles, -⟩ := Outcome.mk.inj hplain
        rw [← Option.some.inj hsink]
        exact ⟨rfl, hroll, rfl, hfiles.symm⟩
    obtain ⟨hpath', hroll', hfile, rfl⟩ := hresult
    refine ⟨hpath', hroll', ?_, hb⟩
    have hsome := congrArg Option.isSome hfile
    rwa [StreamSink.plain, Option.isSome_map] at hsome

/-- Threads log through one thread-safe logger with a file sink that is not rotated, in any interleaving, and no output is lost.
Whenever no call is at the sink, a flush leaves in the file what it held when it was opened, and after that the lines of the calls
that took the mutex, in that order; and nothing in any other file changes. A call that has returned was dropped by the level of the
logger, or has a place of its own in that order. Each line is whole: it ends with a newline, and there is no NUL in it. -/
theorem log_lines_on_disk {τ : Type} [DecidableEq τ] (hf : Lossless f) {config : FileSinkConfig w} (hroll : config.rollMode = .none)
    {path : Path} (hpath : config.path = some path) {s₀ s₁ : StdioState} (hapart : s₀.disk.Apart) {now : UInt64}
    {fs₀ : StreamSink w Nat} {e : Option CprError}
    (hopened : StreamSink.logFileSink f.io localtime now (some config) s₀ = ⟨some fs₀, s₁, e⟩) (hl : l.Holds a)
    (ha : a.entries = [()]) (hsafe : l.threadSafe = true) {fn : Formatter}
    (hfn : a.formatOf (streamCallbacks (w := w) f.io localtime sink) () = fn)
    {s : Critical.State τ (LogShared Unit (StreamSink w Nat × StdioState)) (LogLocals Unit Formatter) LogCall (Report Unit Formatter)}
    (hs : (loggerSystem τ (streamCallbacks f.io localtime sink) l (fs₀, s₁)).Reachable s)
    (hcalls : ∀ p ∈ s.entered, p.2.Printable localtime fn) (hfree : s.holder = none) :
    (StreamSink.fileFlush f.io s.shared.mem.1 s.shared.mem.2).disk.content =
        Function.update s₀.disk.content path (some (openedContent config s₀.disk.content path ++
          (s.entered.map Prod.snd).flatMap (lineOf localtime sink fn))) ∧
      (∀ r ∈ s.returned, r.answer = none ∧ l.drops r.input.level = true ∨
        ∃ n report, r.answer = some (n, report) ∧ s.entered[n]? = some (r.thread, r.input)) ∧
      (tickets s.returned).Nodup ∧
      ∀ p ∈ s.entered, sink.minLevel ≤ p.2.level →
        (∃ before, lineOf localtime sink fn p.2 = before ++ [10]) ∧ (0 : UInt8) ∉ lineOf localtime sink fn p.2 := by
  have hinv : Inv (logBody (streamCallbacks f.io localtime sink) l) ⟨(fs₀, s₁), []⟩ s := by
    unfold loggerSystem at hs
    rw [hsafe] at hs
    exact inv_of_reachable hs
  have hentered : ∀ c ∈ s.entered.map Prod.snd, c.Printable localtime fn := by
    intro c hc
    obtain ⟨p, hp, rfl⟩ := List.mem_map.mp hc
    exact hcalls p hp
  have hrun := (unrolled_opened hf hroll hpath hapart hopened).run hf hl ha hfn hentered
  rw [← mem_of_free hinv hfree] at hrun
  refine ⟨(hrun.buffers.flush hf).2.content, fun r hr => ?_, hinv.once, fun p hp hadmits => ?_⟩
  · have hok := hinv.returned r hr
    unfold ReturnedOk at hok
    split at hok
    · rename_i hanswer
      exact Or.inl ⟨hanswer, by simpa [logBody] using hok⟩
    · rename_i n report hanswer
      exact Or.inr ⟨n, report, hanswer, hok.1⟩
  · obtain ⟨text, htext, -⟩ := (hcalls p hp).text
    rw [lineOf, if_pos hadmits]
    exact Formatter.line_newline htext

end

/-! ## Two threads and one file -/

/-- A logger with one sink, which prints the minimal line of every message. -/
def lineLogger : Logger Unit Formatter := ⟨0, true, .minimal, Packed.pack logMaxSinks [()], 1⟩

/-- A call with the message "hi". -/
def hiCall : LogCall := ⟨2, none, 0, none, 2, ascii "hi" ++ List.replicate (logMsgSize - 2) 0, 0, List.replicate logBufferSize 0⟩

/-- The second thread waits for the first. -/
def hiRun : List (Critical.Event Bool LogCall) :=
  [.call false hiCall, .lock false, .step false, .call true hiCall, .step false, .step false, .unlock false, .lock true, .ret false,
    .step true, .step true, .step true, .unlock true]

/-- The message is printable. -/
theorem printable_hiCall : hiCall.Printable noTime .minimal := by
  have hmessage : (logMessage hiCall).message = ascii "hi" ++ List.replicate (logMsgSize - 2) 0 := rfl
  have hcstr : cstr (logMessage hiCall).message = ascii "hi" := by
    rw [hmessage]
    rfl
  refine ⟨List.length_replicate, _, rfl, ?_⟩
  rw [minimalText, hcstr]
  decide

set_option maxRecDepth 20000 in
theorem log_lines_on_disk_hi :
    let f := HandleFates.works fun _ _ => false
    let fs : StreamSink 64 Nat := ⟨[97], .none, 0, 0, some 0, 3, 0, 0⟩
    let opened := (StreamSink.logFileSink f.io noTime 0 (some appending) Fs.oneFile).state
    ∃ s, (loggerSystem Bool (streamCallbacks f.io noTime ⟨0, none⟩) lineLogger (fs, opened)).Reachable s ∧
      (StreamSink.fileFlush f.io s.shared.mem.1 s.shared.mem.2).disk.content [97] =
        some ([1, 2, 3] ++ ascii "[INFO ] hi\n[INFO ] hi\n") := by
  intro f fs opened
  have hs : ∃ s, System.replay (Critical.next (logBody (streamCallbacks f.io noTime ⟨0, none⟩) lineLogger) true)
      (.initial ⟨(fs, opened), []⟩) hiRun = some s ∧ s.holder = none ∧ s.entered = [(false, hiCall), (true, hiCall)] :=
    ⟨_, rfl, rfl, rfl⟩
  obtain ⟨s, hreplay, hfree, hentered⟩ := hs
  have hreachable : (loggerSystem Bool (streamCallbacks f.io noTime ⟨0, none⟩) lineLogger (fs, opened)).Reachable s :=
    ⟨_, hiRun, rfl, System.run_of_replay _ hreplay⟩
  have hholds : lineLogger.Holds ⟨0, .minimal, [()], by decide⟩ := ⟨rfl, rfl, rfl, rfl⟩
  have hcalls : ∀ p ∈ s.entered, p.2.Printable noTime .minimal := by
    intro p hp
    rw [hentered] at hp
    simp only [List.mem_cons, List.not_mem_nil, or_false] at hp
    rcases hp with rfl | rfl <;> exact printable_hiCall
  obtain ⟨hcontent, -⟩ := log_lines_on_disk (lossless_works fun _ _ => false) rfl rfl apart_oneFile
    (show StreamSink.logFileSink f.io noTime 0 (some appending) Fs.oneFile = ⟨some fs, opened, none⟩ from rfl) hholds rfl
    rfl rfl hreachable hcalls hfree
  refine ⟨s, hreachable, (congrFun hcontent _).trans ?_⟩
  rw [hentered]
  rfl

end Copper
