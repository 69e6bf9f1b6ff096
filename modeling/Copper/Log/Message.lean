import Copper.Log.Logger

/-!
# The text of a message

`cpr_log_writev` prints its message into an array on its stack, which nothing has written before. To tell where the characters of
a message come from, the same steps are run on an array whose cells carry their origin (`messageCells`); without the origins this
is the message that is handed to formatters and sinks (`messageCells_fst`). The size of the array is any number, since
`CPR_LOG_MSG_SIZE` can be set by the build.
-/

namespace Copper

open CharArray

/-- What `vsnprintf` does: it fails, and leaves the array as it was, or it prints a text. -/
inductive Vsnprintf where
  | fails (code : Int) (hneg : code < 0)
  | prints (text : List UInt8)

/-- Where a character comes from. -/
inductive Origin where
  | stack
  | vsnprintf
  | marker
  deriving DecidableEq, Repr

/-- What `vsnprintf` returns. -/
def Vsnprintf.needed : Vsnprintf → Int
  | fails code _ => code
  | prints text => text.length

/-- What it leaves in an array. -/
def Vsnprintf.array (stack : List UInt8) : Vsnprintf → List UInt8
  | fails _ _ => stack
  | prints text => printInto 0 stack text

/-- The same, with origins. -/
def Vsnprintf.cells (stack : List UInt8) : Vsnprintf → List (UInt8 × Origin)
  | fails _ _ => stack.map (·, .stack)
  | prints text => printInto (0, .vsnprintf) (stack.map (·, .stack)) (text.map (·, .vsnprintf))

/-- The text does not fit an array of a size. -/
def Vsnprintf.Overflows (size : Nat) : Vsnprintf → Prop
  | fails _ _ => False
  | prints text => size ≤ text.length

/-- What `cpr_log_writev` makes of it: `(size_t)needed >= sizeof(msg)`, where a negative number is a large `size_t`. -/
def Vsnprintf.truncated (size : Nat) (v : Vsnprintf) : Bool := decide (v.needed < 0 ∨ (size : Int) ≤ v.needed)

/-- The array of the message, with origins. -/
def messageCells (size : Nat) (v : Vsnprintf) (stack : List UInt8) : List (UInt8 × Origin) :=
  if v.truncated size then markEnd (0, .marker) (v.cells stack) (logMsgMarker.map (·, .marker)) else v.cells stack

/-- `logMessage`, for an array of any size. -/
def logMessageOf (size : Nat) (c : LogCall) : LogMessage :=
  let truncated := decide (c.needed < 0 ∨ (size : Int) ≤ c.needed)
  { level := c.level
    message := if truncated then writeMarker c.msg logMsgMarker else c.msg
    truncated := truncated
    file := c.file
    line := c.line
    func := c.func
    timeMs := c.now }

/-- The message of the code is that of an array of its size. -/
theorem logMessage_eq (c : LogCall) : logMessage c = logMessageOf logMsgSize c := rfl

section

variable {κ φ γ : Type}

/-- `logWritev`, for an array of any size. -/
def logWritevOf (size : Nat) (cb : LogCallbacks κ φ γ) (logger : Option (Logger κ φ)) (c : LogCall) (s : γ) :
    Report κ φ × γ :=
  match logger with
  | none => ({}, s)
  | some l => if l.drops c.level then ({}, s) else l.writeLoop cb (logMessageOf size c) l.sinkCount 0 c.out s

/-- And so is the call. -/
theorem logWritev_eq (cb : LogCallbacks κ φ γ) (logger : Option (Logger κ φ)) (c : LogCall) (s : γ) :
    logWritev cb logger c s = logWritevOf logMsgSize cb logger c s := rfl

/-- A message is handed to every formatter and to every sink of a report. -/
def Report.Hands (cb : LogCallbacks κ φ γ) (m : LogMessage) (r : Report κ φ) : Prop :=
  (∀ f ∈ r.formats, ∃ out s, f.len = (cb.format f.fn m out s).1 ∧ f.out = (cb.format f.fn m out s).2.1) ∧
    ∀ w ∈ r.writes, w.message = m

/-- An empty report hands no other message on. -/
theorem Report.hands_nil (cb : LogCallbacks κ φ γ) (m : LogMessage) : Report.Hands (κ := κ) cb m {} :=
  ⟨fun _ h => absurd h List.not_mem_nil, fun _ h => absurd h List.not_mem_nil⟩

/-- The loop hands its message on. -/
theorem Logger.writeLoop_hands (l : Logger κ φ) (cb : LogCallbacks κ φ γ) (m : LogMessage) (n i : Nat) (out : List UInt8) (s : γ) :
    (l.writeLoop cb m n i out s).1.Hands cb m := by
  induction n generalizing i out s with
  | zero => exact Report.hands_nil cb m
  | succ n ih =>
    rw [Logger.writeLoop]
    split
    · exact ih _ _ _
    · split
      · exact ih _ _ _
      · dsimp only
        split
        · obtain ⟨hformats, hwrites⟩ := ih (i + 1) (cb.format (l.formatOf cb _) m out s).2.1 _
          refine ⟨List.forall_mem_cons.mpr ⟨⟨out, s, rfl, rfl⟩, hformats⟩, List.forall_mem_cons.mpr ⟨rfl, hwrites⟩⟩
        · obtain ⟨hformats, hwrites⟩ := ih (i + 1) (cb.format (l.formatOf cb _) m out s).2.1 _
          exact ⟨List.forall_mem_cons.mpr ⟨⟨out, s, rfl, rfl⟩, hformats⟩, hwrites⟩

/-- A call hands its own message to every formatter and every sink. -/
theorem logWritevOf_hands (size : Nat) (cb : LogCallbacks κ φ γ) (logger : Option (Logger κ φ)) (c : LogCall) (s : γ) :
    (logWritevOf size cb logger c s).1.Hands cb (logMessageOf size c) := by
  unfold logWritevOf
  split
  · exact Report.hands_nil cb _
  · split
    · exact Report.hands_nil cb _
    · exact Logger.writeLoop_hands _ cb _ _ _ _ s

end

/-! ## Where the characters come from -/

variable {size : Nat} {v : Vsnprintf} {stack : List UInt8} {c : LogCall}

/-- A call whose array is printed to by `vsnprintf`. -/
structure LogCall.PrintedBy (c : LogCall) (v : Vsnprintf) (stack : List UInt8) : Prop where
  needed : c.needed = v.needed
  msg : c.msg = v.array stack

/-- The text of a message is well defined: there is a NUL in its array, and all that is before the first one was printed, or is of
the marker; the message is marked as truncated exactly if there is a text that does not fit, and then it is the first part of
that text and the marker. -/
structure WellDefinedText (size : Nat) (v : Vsnprintf) (stack : List UInt8) (m : LogMessage) : Prop where
  erased : (messageCells size v stack).map Prod.fst = m.message
  length : m.message.length = size
  written : ∃ text o rest, messageCells size v stack = text ++ (0, o) :: rest ∧ ∀ cell ∈ text, cell.1 ≠ 0 ∧ cell.2 ≠ .stack
  truncated : m.truncated = true ↔ v.Overflows size
  cut : m.truncated = true → ∃ text, v = .prints text ∧ m.message = text.take (size - 15) ++ logMsgMarker ++ [0]

/-- The cells hold the bytes of the array. -/
theorem Vsnprintf.cells_fst (v : Vsnprintf) (stack : List UInt8) : (v.cells stack).map Prod.fst = v.array stack := by
  have hfst : ∀ (o : Origin) (xs : List UInt8), (xs.map (·, o)).map Prod.fst = xs := by
    intro o xs
    rw [List.map_map]
    exact List.map_id' xs
  cases v with
  | fails _ _ => exact hfst _ _
  | prints text => rw [cells, array, map_printInto, hfst, hfst]

/-- Without the origins, the cells are the message. -/
theorem messageCells_fst (hc : c.PrintedBy v stack) : (messageCells size v stack).map Prod.fst = (logMessageOf size c).message := by
  simp only [messageCells, logMessageOf, Vsnprintf.truncated, hc.needed, hc.msg, decide_eq_true_eq]
  split
  · rw [map_markEnd, Vsnprintf.cells_fst, writeMarker_eq, List.map_map]
    rfl
  · exact Vsnprintf.cells_fst v stack

/-- A text is truncated just if it is as long as the array. -/
theorem Vsnprintf.prints_truncated {text : List UInt8} : (prints text).truncated size = true ↔ size ≤ text.length := by
  rw [truncated, decide_eq_true_eq, needed]
  omega

/-- A text that fits: the cells are the printed text, its NUL, and the rest of the array. -/
theorem messageCells_whole {text : List UInt8} (hstack : stack.length = size) (hfit : text.length < size) :
    messageCells size (.prints text) stack =
      text.map (·, .vsnprintf) ++ (0, .vsnprintf) :: (stack.map (·, Origin.stack)).drop (text.length + 1) := by
  rw [messageCells, if_neg (fun h => Nat.not_le.mpr hfit (Vsnprintf.prints_truncated.mp h)), Vsnprintf.cells,
    printInto_whole (by rw [List.length_map, List.length_map, hstack]; exact hfit), List.length_map]

/-- A text that does not fit: the cells are the first part of it, the marker, and a NUL. -/
theorem messageCells_cut {text : List UInt8} (hsize : 15 ≤ size) (hstack : stack.length = size) (hcut : size ≤ text.length) :
    messageCells size (.prints text) stack =
      (text.take (size - 15)).map (·, .vsnprintf) ++ logMsgMarker.map (·, .marker) ++ [(0, .marker)] := by
  have hmarker : (logMsgMarker.map (·, Origin.marker)).length = 14 := rfl
  have hlen : (stack.map (·, Origin.stack)).length = size := by rw [List.length_map, hstack]
  rw [messageCells, if_pos (Vsnprintf.prints_truncated.mpr hcut), Vsnprintf.cells,
    markEnd_printInto_cut (by omega) (by rw [hlen, List.length_map]; exact hcut), hlen, hmarker, List.map_take, Nat.sub_sub]

/-- When `vsnprintf` prints a text, the message is well defined. -/
theorem wellDefinedText_prints {text : List UInt8} (hsize : 15 ≤ size) (hstack : stack.length = size)
    (hc : c.PrintedBy (.prints text) stack) : WellDefinedText size (.prints text) stack (logMessageOf size c) := by
  have herased : (messageCells size (.prints text) stack).map Prod.fst = (logMessageOf size c).message := messageCells_fst hc
  have htruncated : (logMessageOf size c).truncated = true ↔ size ≤ text.length := by
    rw [← Vsnprintf.prints_truncated, Vsnprintf.truncated, ← hc.needed]
    rfl
  have hprinted : ∀ cell ∈ text.map (·, Origin.vsnprintf), cell.2 ≠ .stack := by
    intro cell hcell
    obtain ⟨b, -, rfl⟩ := List.mem_map.mp hcell
    exact Origin.noConfusion
  rcases Nat.lt_or_ge text.length size with hfit | hcut
  · have hcells := messageCells_whole hstack hfit
    refine ⟨herased, ?_, ?_, htruncated, fun h => absurd (htruncated.mp h) (Nat.not_le.mpr hfit)⟩
    · rw [← herased, hcells]
      simp only [List.length_map, List.length_append, List.length_cons, List.length_drop, hstack]
      omega
    · obtain ⟨before, ⟨b, o⟩, rest, heq, hnul, hbefore⟩ := exists_first_terminator
        (fun cell : UInt8 × Origin => cell.1 = 0) (fun cell => cell.2 ≠ Origin.stack)
        (c := (0, Origin.vsnprintf)) ((stack.map (·, Origin.stack)).drop (text.length + 1)) hprinted rfl
      cases hnul
      exact ⟨before, o, rest, hcells.trans heq, hbefore⟩
  · have hcells := messageCells_cut hsize hstack hcut
    refine ⟨herased, ?_, ?_, htruncated, fun _ => ⟨text, rfl, ?_⟩⟩
    · rw [← herased, hcells]
      simp only [List.length_map, List.length_append, List.length_take, logMsgMarker, List.length_cons,
        List.length_nil]
      omega
    · have hwritten : ∀ cell ∈ (text.take (size - 15)).map (·, Origin.vsnprintf) ++ logMsgMarker.map (·, Origin.marker),
          cell.2 ≠ .stack := by
        intro cell hcell
        rcases List.mem_append.mp hcell with hcell | hcell
        · exact hprinted cell (List.map_subset _ (List.take_subset _ text) hcell)
        · obtain ⟨b, -, rfl⟩ := List.mem_map.mp hcell
          exact Origin.noConfusion
      obtain ⟨before, ⟨b, o⟩, rest, heq, hnul, hbefore⟩ := exists_first_terminator
        (fun cell : UInt8 × Origin => cell.1 = 0) (fun cell => cell.2 ≠ Origin.stack)
        (c := (0, Origin.marker)) [] hwritten rfl
      cases hnul
      exact ⟨before, o, rest, hcells.trans heq, hbefore⟩
    · rw [← herased, hcells, List.map_append, List.map_append, List.map_map, List.map_map]
      exact congrArg₂ (· ++ ·) (congrArg₂ (· ++ ·) (List.map_id' _) (List.map_id' _)) rfl

/-- For every call, and whatever stands on the stack, the text handed to formatters and sinks is well defined exactly if `vsnprintf`
does not return a negative number. -/
theorem log_message_wellDefined_iff {κ φ γ : Type} (cb : LogCallbacks κ φ γ) (logger : Option (Logger κ φ)) (s : γ)
    (hsize : 15 ≤ size) (hstack : stack.length = size) (hc : c.PrintedBy v stack) :
    (logWritevOf size cb logger c s).1.Hands cb (logMessageOf size c) ∧
      (WellDefinedText size v stack (logMessageOf size c) ↔ 0 ≤ v.needed) := by
  refine ⟨logWritevOf_hands size cb logger c s, fun h => ?_, fun hneeded => ?_⟩
  · cases v with
    | fails code hneg =>
      have htruncated : (logMessageOf size c).truncated = true := by
        rw [logMessageOf, decide_eq_true_eq, hc.needed]
        exact Or.inl hneg
      exact absurd (h.truncated.mp htruncated) id
    | prints text => exact Int.natCast_nonneg _
  · cases v with
    | fails code hneg => exact absurd hneeded (Int.not_le.mpr hneg)
    | prints text => exact wellDefinedText_prints hsize hstack hc

/-- The callbacks of a program that writes the first byte of every buffer, and keeps nothing. -/
def firstBytes : LogCallbacks Unit Unit Unit where
  sink _ := ⟨0, none⟩
  format _ _ out s := (1, out, s)
  write _ _ _ s := s

/-- `hi`, in an array of twenty characters. -/
theorem log_message_wellDefined_hi :
    WellDefinedText 20 (.prints [104, 105]) (List.replicate 20 65)
      (logMessageOf 20 ⟨2, none, 0, none, 2, [104, 105, 0] ++ List.replicate 17 65, 0, []⟩) :=
  (log_message_wellDefined_iff firstBytes (some ⟨0, false, (), [some ()], 1⟩) () (by decide)
    (show (List.replicate 20 (65 : UInt8)).length = 20 from rfl) ⟨rfl, rfl⟩).2.mpr (by decide)

/-- A `%ls` argument that cannot be encoded: `vsnprintf` returns -1, and the sink is handed what stood on the stack, marked as
truncated. -/
theorem log_message_unencodable :
    let stack := List.replicate logMsgSize (65 : UInt8)
    let v := Vsnprintf.fails (-1) (by decide)
    let logger : Logger Unit Unit := ⟨0, false, (), [some ()], 1⟩
    let c : LogCall := ⟨2, none, 0, none, -1, stack, 0, []⟩
    c.PrintedBy v stack ∧ stack.length = logMsgSize ∧
      (logWritev firstBytes (some logger) c ()).1.writes.map (·.message) = [logMessageOf logMsgSize c] ∧
      (messageCells logMsgSize v stack)[0]? = some (65, .stack) ∧
      (logMessageOf logMsgSize c).truncated = true ∧ ¬ v.Overflows logMsgSize ∧
      ¬ WellDefinedText logMsgSize v stack (logMessageOf logMsgSize c) := by
  refine ⟨⟨rfl, rfl⟩, List.length_replicate, rfl, ?_, rfl, id, fun h => h.truncated.mp rfl⟩
  decide +kernel

end Copper
