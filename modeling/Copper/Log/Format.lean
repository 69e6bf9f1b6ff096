import Copper.Foundation.Memory
import Copper.Log.Files
import Copper.Log.Logger
import Copper.Time
import Mathlib.Data.List.TakeWhile

/-!
# The built-in formatters

The formatters of `log.c` put a line into a buffer of the caller's with `snprintf`, and mark a line that was cut. Here the buffer
is a place in memory, so that a write beside it would be seen. The texts that `snprintf` is to print are functions of the
message; the full one is undefined when a pointer that `%s` would read is `NULL`. What a formatter leaves is a line that fits
the buffer (`lineIn`), whatever its size (`log_formats_wellFormed`).
-/

namespace Copper

open Memory

/-- The characters of a literal. -/
def ascii (s : String) : List UInt8 := s.toList.map fun c => UInt8.ofNat c.toNat

/-- The string in an array: what stands before the NUL. -/
def cstr (s : List UInt8) : List UInt8 := s.takeWhile (· ≠ 0)

/-- `strrchr`, as an offset. -/
def strrchr (s : List UInt8) (c : UInt8) : Option Nat := (s.reverse.idxOf? c).map fun i => s.length - 1 - i

/-- `S_UPPER`. -/
def sUpper : List (List UInt8) := ["TRACE", "DEBUG", "INFO", "WARN", "ERROR", "FATAL", "OFF"].map ascii

/-- `cpr_log_level_str`. -/
def logLevelStr (level : Int) : List UInt8 :=
  if level < 0 ∨ logOff < level then ascii "UNKNOWN" else (sUpper[level.toNat]?).getD []

/-- `cpr__basename`. -/
def basename (path : List UInt8) : List UInt8 :=
  let slash := strrchr path 47
  let sep := match strrchr path 92, slash with
    | some backslash, none => some backslash
    | some backslash, some sep => if sep < backslash then some backslash else slash
    | none, _ => slash
  match sep with
  | some i => path.drop (i + 1)
  | none => path

/-! ## What is printed -/

/-- What `%d` prints, negative numbers included. -/
def printInt (i : Int) : List UInt8 := if i < 0 then 45 :: decimal i.natAbs else decimal i.toNat

/-- What `%0kd` prints for a number that is not negative. -/
def printPadded (k n : Nat) : List UInt8 := List.replicate (k - (decimal n).length) 48 ++ decimal n

/-- What `%-5s` prints for the name of a level. -/
def printLevel (level : Int) : List UInt8 := logLevelStr level ++ List.replicate (5 - (logLevelStr level).length) 32

/-- `[%02d:%02d:%02d.%03d]`. -/
def printTime (dt : DateTime) : List UInt8 :=
  ascii "[" ++ printPadded 2 dt.hour.toNat ++ ascii ":" ++ printPadded 2 dt.minute.toNat ++ ascii ":" ++
    printPadded 2 dt.second.toNat ++ ascii "." ++ printPadded 3 dt.ms.toNat ++ ascii "]"

/-- `"[%02d:%02d:%02d.%03d] [%-5s] %s\n"`. -/
def defaultText (localtime : TimeConversion) (msg : LogMessage) : List UInt8 :=
  printTime (timeLocal localtime msg.timeMs) ++ ascii " [" ++ printLevel msg.level ++ ascii "] " ++ cstr msg.message ++ [10]

/-- `"[%02d:%02d:%02d.%03d] [%-5s] %s:%d %s() %s\n"`. -/
def fullText (localtime : TimeConversion) (msg : LogMessage) : Option (List UInt8) :=
  match msg.file, msg.func with
  | some file, some func =>
    some (printTime (timeLocal localtime msg.timeMs) ++ ascii " [" ++ printLevel msg.level ++ ascii "] " ++
      basename (cstr file) ++ ascii ":" ++ printInt msg.line ++ ascii " " ++ cstr func ++ ascii "() " ++ cstr msg.message ++ [10])
  | _, _ => none

/-- `"[%-5s] %s\n"`. -/
def minimalText (msg : LogMessage) : List UInt8 :=
  ascii "[" ++ printLevel msg.level ++ ascii "] " ++ cstr msg.message ++ [10]

/-! ## Into a buffer -/

/-- `CPR_LOG_OUT_MARKER`: `...[T]` and a newline. -/
def logOutMarker : List UInt8 := [46, 46, 46, 91, 84, 93, 10]

/-- `snprintf` of a text into `n` bytes at `buf`: what it returns, and the memory it leaves. A length that no `int` holds is an
error. -/
def snprintf (m : Memory UInt8) (buf : Int) (n : Nat) (text : List UInt8) : Int × Memory UInt8 :=
  (if text.length < 2 ^ 31 then text.length else -1, if n = 0 then m else m.write buf (text.take (n - 1) ++ [0]))

/-- `cpr__write_marker`, into `n` bytes at `buf`. -/
def writeMarkerAt (m : Memory UInt8) (buf : Int) (n : Nat) (marker : List UInt8) : Memory UInt8 :=
  if n = 0 then m
  else
    let m := if marker.length + 1 ≤ n then m.write (buf + n - 1 - marker.length) marker else m
    m.write (buf + n - 1) [0]

/-- What a formatter leaves: its result, `*out_truncated` if there is one, and the memory. -/
structure FormatOut where
  result : Int
  outTruncated : Option Bool
  memory : Memory UInt8

/-- `cpr__format_finish`. -/
def formatFinish (m : Memory UInt8) (buf : Int) (n : Nat) (written : Int) (outTruncated : Option Bool) : FormatOut :=
  if written < 0 then
    { result := 0
      outTruncated := outTruncated.map fun _ => false
      memory := if 0 < n then m.write buf [0] else m }
  else if n ≤ written.toNat then
    { result := (BitVec.ofNat 32 (if 0 < n then n - 1 else 0)).toInt
      outTruncated := outTruncated.map fun _ => true
      memory := writeMarkerAt m buf n logOutMarker }
  else
    { result := written
      outTruncated := outTruncated.map fun _ => false
      memory := m }

/-- Print a text, and finish. -/
def printLine (m : Memory UInt8) (buf : Int) (n : Nat) (outTruncated : Option Bool) (text : List UInt8) : FormatOut :=
  let (written, m) := snprintf m buf n text
  formatFinish m buf n written outTruncated

/-- `cpr_log_format_default`. -/
def logFormatDefault (localtime : TimeConversion) (msg : LogMessage) (m : Memory UInt8) (buf : Int) (n : Nat)
    (outTruncated : Option Bool) : FormatOut :=
  printLine m buf n outTruncated (defaultText localtime msg)

/-- `cpr_log_format_full`. -/
def logFormatFull (localtime : TimeConversion) (msg : LogMessage) (m : Memory UInt8) (buf : Int) (n : Nat)
    (outTruncated : Option Bool) : Option FormatOut :=
  (fullText localtime msg).map (printLine m buf n outTruncated)

/-- `cpr_log_format_minimal`. -/
def logFormatMinimal (msg : LogMessage) (m : Memory UInt8) (buf : Int) (n : Nat) (outTruncated : Option Bool) : FormatOut :=
  printLine m buf n outTruncated (minimalText msg)

/-! ## What the texts are made of -/

/-- A number is written without a NUL. -/
@[simp] theorem decimal_noNul (n : Nat) : (0 : UInt8) ∉ decimal n := by
  unfold decimal
  split
  · decide
  · intro h
    obtain ⟨d, hd, heq⟩ := List.mem_map.mp h
    have hlt := Nat.digits_lt_base (m := n) (by omega) (List.mem_reverse.mp hd)
    revert heq
    have hdigit : ∀ d < 10, UInt8.ofNat (48 + d) ≠ 0 := by decide
    exact hdigit d hlt

/-- So is a signed one. -/
@[simp] theorem printInt_noNul (i : Int) : (0 : UInt8) ∉ printInt i := by
  unfold printInt
  split
  · exact List.not_mem_cons_of_ne_of_not_mem (by decide) (decimal_noNul _)
  · exact decimal_noNul _

/-- So is one filled up with zeros. -/
@[simp] theorem printPadded_noNul (k n : Nat) : (0 : UInt8) ∉ printPadded k n := by
  simp [printPadded, List.mem_replicate]

/-- The name of a level has no NUL. -/
@[simp] theorem logLevelStr_noNul (level : Int) : (0 : UInt8) ∉ logLevelStr level := by
  unfold logLevelStr
  split
  · decide
  · cases h : sUpper[level.toNat]? with
    | none => simp
    | some name =>
      have hall : ∀ name ∈ sUpper, (0 : UInt8) ∉ name := by decide
      exact hall name (List.mem_of_getElem? h)

/-- Nor has a level in its column. -/
@[simp] theorem printLevel_noNul (level : Int) : (0 : UInt8) ∉ printLevel level := by
  simp [printLevel, List.mem_replicate]

/-- A time is written without a NUL. -/
@[simp] theorem printTime_noNul (dt : DateTime) : (0 : UInt8) ∉ printTime dt := by
  have hascii : (0 : UInt8) ∉ ascii "[" ∧ (0 : UInt8) ∉ ascii ":" ∧ (0 : UInt8) ∉ ascii "." ∧ (0 : UInt8) ∉ ascii "]" := by decide
  simp [printTime, hascii]

/-- What a pointer to a string shows has no NUL. -/
@[simp] theorem cstr_noNul (s : List UInt8) : (0 : UInt8) ∉ cstr s := fun h => by simpa using List.mem_takeWhile_imp h

/-- The name of a file is an end of its path. -/
theorem basename_suffix (path : List UInt8) : basename path <:+ path := by
  unfold basename
  dsimp only
  split
  · exact List.drop_suffix _ _
  · exact List.suffix_refl _

example : basename (ascii "src/log.c") = ascii "log.c" := by decide

/-- The text of the default format has no NUL. -/
theorem defaultText_noNul (localtime : TimeConversion) (msg : LogMessage) : (0 : UInt8) ∉ defaultText localtime msg := by
  have hascii : (0 : UInt8) ∉ ascii " [" ∧ (0 : UInt8) ∉ ascii "] " := by decide
  simp [defaultText, hascii]

/-- Nor has that of the full one. -/
theorem fullText_noNul {localtime : TimeConversion} {msg : LogMessage} {text : List UInt8}
    (h : fullText localtime msg = some text) : (0 : UInt8) ∉ text := by
  unfold fullText at h
  split at h
  · rename_i file func _ _
    obtain rfl := Option.some.inj h
    have hascii : (0 : UInt8) ∉ ascii " [" ∧ (0 : UInt8) ∉ ascii "] " ∧ (0 : UInt8) ∉ ascii ":" ∧ (0 : UInt8) ∉ ascii " " ∧
        (0 : UInt8) ∉ ascii "() " := by decide
    have hname : (0 : UInt8) ∉ basename (cstr file) := fun h => cstr_noNul file ((basename_suffix _).subset h)
    simp [hascii, hname]
  · cases h

/-- The full text ends with a newline, as the others do by definition. -/
theorem fullText_newline {localtime : TimeConversion} {msg : LogMessage} {text : List UInt8}
    (h : fullText localtime msg = some text) : ∃ start, text = start ++ [10] := by
  unfold fullText at h
  split at h
  · exact ⟨_, (Option.some.inj h).symm⟩
  · cases h

/-- Nor has that of the minimal one. -/
theorem minimalText_noNul (msg : LogMessage) : (0 : UInt8) ∉ minimalText msg := by
  have hascii : (0 : UInt8) ∉ ascii "[" ∧ (0 : UInt8) ∉ ascii "] " := by decide
  simp [minimalText, hascii]

/-! ## The line in the buffer -/

/-- What a buffer of `n` bytes holds of a text: all of it, or a first part, and the marker if there is room for that. -/
def lineIn (n : Nat) (text : List UInt8) : List UInt8 :=
  if text.length < n then text
  else if logOutMarker.length + 1 ≤ n then text.take (n - 1 - logOutMarker.length) ++ logOutMarker
  else text.take (n - 1)

/-- A line that is cut to a buffer leaves room for its NUL. -/
theorem length_lineIn {n : Nat} (hn : 0 < n) (text : List UInt8) : (lineIn n text).length = min text.length (n - 1) := by
  unfold lineIn
  split
  · omega
  · split
    · rw [List.length_append, List.length_take]
      omega
    · rw [List.length_take]
      omega

/-- A cut line has no NUL that the text has not. -/
theorem lineIn_noNul {n : Nat} {text : List UInt8} (h : (0 : UInt8) ∉ text) : (0 : UInt8) ∉ lineIn n text := by
  have htake : ∀ k, (0 : UInt8) ∉ text.take k := fun k hmem => h (List.mem_of_mem_take hmem)
  unfold lineIn
  split
  · exact h
  · split
    · rw [List.mem_append, not_or]
      exact ⟨htake _, by decide⟩
    · exact htake _

variable {m : Memory UInt8} {buf : Int} {n : Nat} {text : List UInt8}

/-- The marker is written inside the buffer. -/
theorem writeMarkerAt_outside {marker : List UInt8} {a : Int} (ha : a < buf ∨ buf + n ≤ a) :
    writeMarkerAt m buf n marker a = m a := by
  unfold writeMarkerAt
  split
  · rfl
  · rw [write_outside (by rw [List.length_singleton]; omega)]
    split
    · exact write_outside (by omega)
    · rfl

/-- In the buffer, the marker is written as into an array. -/
theorem read_writeMarkerAt (m : Memory UInt8) (buf : Int) (n : Nat) (marker : List UInt8) :
    (writeMarkerAt m buf n marker).read buf n = writeMarker (m.read buf n) marker := by
  unfold writeMarkerAt writeMarker
  rw [length_read]
  split
  · rfl
  · rename_i hn
    have hlast : ∀ m : Memory UInt8, (m.write (buf + n - 1) [0]).read buf n = (m.read buf n).set (n - 1) 0 := by
      intro m
      rw [show buf + n - 1 = buf + ((n - 1 : Nat) : Int) by omega, read_write_within (by rw [List.length_singleton]; omega),
        List.set_eq_take_append_cons_drop, length_read, if_pos (by omega), List.append_assoc, List.length_singleton,
        List.singleton_append]
    simp only [hlast]
    split
    · rename_i hroom
      rw [show buf + n - 1 - marker.length = buf + ((n - 1 - marker.length : Nat) : Int) by omega,
        read_write_within (by omega), show n - 1 - marker.length + marker.length = n - 1 by omega]
    · rfl

/-- `snprintf` writes inside the buffer. -/
theorem snprintf_outside {a : Int} (ha : a < buf ∨ buf + n ≤ a) : (snprintf m buf n text).2 a = m a := by
  unfold snprintf
  dsimp only
  split
  · rfl
  · refine write_outside ?_
    rw [List.length_append, List.length_take, List.length_singleton]
    omega

/-- A text that fits is there, and its NUL. -/
theorem snprintf_whole (hfit : text.length < n) : (snprintf m buf n text).2.read buf (text.length + 1) = text ++ [0] := by
  have hread := read_write m buf (text ++ [0])
  rw [List.length_append, List.length_singleton] at hread
  rw [snprintf]
  dsimp only
  rw [if_neg (by omega), List.take_of_length_le (by omega), hread]

/-- A text that does not fit fills the buffer. -/
theorem snprintf_cut (hn : 0 < n) (hcut : n ≤ text.length) : (snprintf m buf n text).2.read buf n = text.take (n - 1) ++ [0] := by
  have hread := read_write m buf (text.take (n - 1) ++ [0])
  rw [List.length_append, List.length_take, List.length_singleton, Nat.min_eq_left (by omega), Nat.sub_add_cancel hn] at hread
  rw [snprintf]
  dsimp only
  rw [if_neg (by omega), hread]

/-- The marker goes over the end of a text that was cut. -/
theorem writeMarker_cut (hn : 0 < n) (hcut : n ≤ text.length) :
    writeMarker (text.take (n - 1) ++ [0]) logOutMarker = lineIn n text ++ [0] := by
  have hlen : (text.take (n - 1)).length = n - 1 := by
    rw [List.length_take]
    omega
  rw [writeMarker_eq, lineIn, if_neg (by omega)]
  split
  · rw [CharArray.markEnd_concat (by omega), hlen, List.take_take, Nat.min_eq_left (by omega)]
  · rw [CharArray.markEnd_concat_short (by omega)]

/-- What a formatter leaves in `n` bytes at `buf`, and what it reports: the line and its NUL are there, the result is its length,
nothing beside the buffer has changed, and the flag says whether the text was cut. -/
structure Prints (text : List UInt8) (m : Memory UInt8) (buf : Int) (n : Nat) (outTruncated : Option Bool) (o : FormatOut) :
    Prop where
  result : o.result = if n = 0 then 0 else min text.length (n - 1)
  line : 0 < n → o.memory.HoldsString buf 0 (lineIn n text)
  outside : ∀ a, a < buf ∨ buf + n ≤ a → o.memory a = m a
  flag : o.outTruncated = outTruncated.map fun _ => decide (n ≤ text.length)

/-- Every text that `snprintf` can print is printed. -/
theorem printLine_prints (hlen : text.length < 2 ^ 31) (hnul : (0 : UInt8) ∉ text) (outTruncated : Option Bool) :
    Prints text m buf n outTruncated (printLine m buf n outTruncated text) := by
  have hwritten : (snprintf m buf n text).1 = text.length := if_pos hlen
  have hnat : (text.length : Int).toNat = text.length := Int.toNat_natCast _
  unfold printLine formatFinish
  simp only [hwritten, hnat]
  rw [if_neg (by omega)]
  by_cases hcut : n ≤ text.length
  · rw [if_pos hcut]
    refine ⟨?_, fun hn => ?_, fun a ha => ?_, ?_⟩
    · -- a result that is cut is less than the length of the text, which an `int` holds
      have hpred : (if 0 < n then n - 1 else 0) = n - 1 := by
        split
        · rfl
        · omega
      dsimp only
      rw [hpred, BitVec.toInt_ofNat', Int.bmod_eq_of_le (by omega) (by omega)]
      split
      · omega
      · rw [Nat.min_eq_right (by omega)]
    · have hread : (writeMarkerAt (snprintf m buf n text).2 buf n logOutMarker).read buf n = lineIn n text ++ [0] := by
        rw [read_writeMarkerAt, snprintf_cut hn hcut, writeMarker_cut hn hcut]
      refine ⟨?_, lineIn_noNul hnul⟩
      rw [length_lineIn hn, Nat.min_eq_right (by omega), Nat.sub_add_cancel hn]
      exact hread
    · exact (writeMarkerAt_outside ha).trans (snprintf_outside ha)
    · rw [decide_eq_true hcut]
  · rw [if_neg hcut]
    have hwhole : lineIn n text = text := if_pos (by omega)
    refine ⟨?_, fun hn => ?_, fun a ha => snprintf_outside ha, ?_⟩
    · dsimp only
      rw [if_neg (by omega)]
      omega
    · rw [hwhole]
      exact ⟨snprintf_whole (by omega), hnul⟩
    · rw [decide_eq_false hcut]

/-- A well-formed line in `n` bytes at `buf`, for a text. -/
structure WellFormedLine (text : List UInt8) (m : Memory UInt8) (buf : Int) (n : Nat) (outTruncated : Option Bool)
    (o : FormatOut) : Prop where
  result : o.result = if n = 0 then 0 else min text.length (n - 1)
  terminated : 0 < n → o.memory.Terminated buf 0 o.result.toNat
  outside : ∀ a, a < buf ∨ buf + n ≤ a → o.memory a = m a
  flag : o.outTruncated = outTruncated.map fun _ => decide (n ≤ text.length)
  whole : text.length < n → o.memory.read buf text.length = text
  cut : n ≤ text.length → 8 ≤ n →
    o.memory.read buf (n - 8) = text.take (n - 8) ∧ o.memory.read (buf + (n - 8 : Nat)) 7 = logOutMarker
  newline : 8 ≤ n → 0 < o.result → o.memory (buf + o.result - 1) = 10

/-- With room for the marker, a line ends as its text does. -/
theorem lineIn_newline (hn : 8 ≤ n) (start : List UInt8) : ∃ before, lineIn n (start ++ [10]) = before ++ [10] := by
  unfold lineIn
  split
  · exact ⟨start, rfl⟩
  · rw [if_pos (show logOutMarker.length + 1 ≤ n from hn)]
    exact ⟨(start ++ [10]).take (n - 1 - logOutMarker.length) ++ [46, 46, 46, 91, 84, 93], by rw [List.append_assoc]; rfl⟩

/-- A printed text that ends in a newline is a well-formed line. -/
theorem Prints.wellFormed {outTruncated : Option Bool} {o : FormatOut} (h : Prints text m buf n outTruncated o)
    {start : List UInt8} (htext : text = start ++ [10]) : WellFormedLine text m buf n outTruncated o := by
  have hresult : 0 < n → o.result = (lineIn n text).length := by
    intro hn
    rw [h.result, if_neg (by omega), length_lineIn hn]
  refine ⟨h.result, fun hn => ?_, h.outside, h.flag, fun hfit => ?_, fun hcut hn => ?_, fun hn _ => ?_⟩
  · rw [hresult hn, Int.toNat_natCast]
    exact (h.line hn).terminated
  · have hline := h.line (by omega)
    rw [lineIn, if_pos hfit] at hline
    exact hline.read
  · have hline := h.line (by omega)
    have hlen : (text.take (n - 8)).length = n - 8 := by
      rw [List.length_take]
      omega
    rw [lineIn, if_neg (by omega), if_pos (show logOutMarker.length + 1 ≤ n from hn),
      show n - 1 - logOutMarker.length = n - 8 from Nat.sub_sub n 1 7] at hline
    obtain ⟨hfirst, hmarker⟩ := hline.read_append
    rw [hlen] at hfirst hmarker
    exact ⟨hfirst, hmarker⟩
  · have hline := h.line (by omega)
    obtain ⟨before, hbefore⟩ := lineIn_newline hn start
    rw [← htext] at hbefore
    rw [hresult (by omega), hbefore, List.length_append, List.length_singleton]
    rw [hbefore] at hline
    have hlast := (hline.read_append).2
    rw [show buf + ((before.length + 1 : Nat) : Int) - 1 = buf + before.length by omega]
    simpa [Memory.read] using hlast

/-! ## The formatters -/

/-- For every message and every buffer, what the built-in formatters leave is a well-formed line. -/
theorem log_formats_wellFormed (localtime : TimeConversion) (msg : LogMessage) (m : Memory UInt8) (buf : Int) (n : Nat)
    (outTruncated : Option Bool) :
    ((defaultText localtime msg).length < 2 ^ 31 →
      WellFormedLine (defaultText localtime msg) m buf n outTruncated (logFormatDefault localtime msg m buf n outTruncated)) ∧
    (∀ text, fullText localtime msg = some text → text.length < 2 ^ 31 →
      ∃ o, logFormatFull localtime msg m buf n outTruncated = some o ∧ WellFormedLine text m buf n outTruncated o) ∧
    ((minimalText msg).length < 2 ^ 31 →
      WellFormedLine (minimalText msg) m buf n outTruncated (logFormatMinimal msg m buf n outTruncated)) := by
  refine ⟨fun hlen => ?_, fun text htext hlen => ?_, fun hlen => ?_⟩
  · exact (printLine_prints hlen (defaultText_noNul localtime msg) outTruncated).wellFormed rfl
  · obtain ⟨start, hstart⟩ := fullText_newline htext
    refine ⟨_, congrArg (Option.map _) htext, ?_⟩
    exact (printLine_prints hlen (fullText_noNul htext) outTruncated).wellFormed hstart
  · exact (printLine_prints hlen (minimalText_noNul msg) outTruncated).wellFormed rfl

/-- An information, "hi", from a file in a directory. -/
def greeting : LogMessage where
  level := 2
  message := ascii "hi" ++ [0]
  truncated := false
  file := some (ascii "src/main.c")
  line := 7
  func := some (ascii "main")
  timeMs := 0

/-- The full format cuts it to 16 bytes, the minimal one does not. -/
theorem log_formats_wellFormed_greeting :
    (∃ o, logFormatFull noTime greeting (fun _ => 255) 4096 16 (some false) = some o ∧
      o.result = 15 ∧ o.outTruncated = some true ∧ o.memory.read 4096 8 = ascii "[00:00:0" ∧
      o.memory.read 4104 7 = logOutMarker) ∧
      (logFormatMinimal greeting (fun _ => 255) 4096 16 none).memory.read 4096 11 = ascii "[INFO ] hi\n" := by
  obtain ⟨-, hfull, -⟩ := log_formats_wellFormed noTime greeting (fun _ => 255) 4096 16 (some false)
  obtain ⟨-, -, hminimal⟩ := log_formats_wellFormed noTime greeting (fun _ => 255) 4096 16 none
  obtain ⟨o, ho, hline⟩ := hfull _ rfl (by decide)
  have hcut := hline.cut (by decide) (by decide)
  refine ⟨⟨o, ho, hline.result.trans (by decide), hline.flag.trans (by decide), hcut.1.trans (by decide), hcut.2⟩, ?_⟩
  exact ((hminimal (by decide)).whole (by decide)).trans (by decide)

end Copper
