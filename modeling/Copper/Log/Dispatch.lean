import Copper.Foundation.Transition
import Copper.Log.Logger

/-!
# The logger keeps a list of sinks, and hands records to it

Whatever the history of a logger, its array holds a list (`SinkList`): adding a sink appends to it, or fails when it is full,
removing one deletes its first occurrence, and a record goes to the entries that admit it, in order (`logger_refines_list`).
What a record's dispatch does is `Dispatches`.
-/

namespace Copper

open Packed Transition

variable {κ φ γ : Type}

/-! ## The abstract logger -/

/-- A logger as its users see it. -/
structure SinkList (κ φ : Type) where
  minLevel : Int
  defaultFormat : φ
  entries : List κ
  fits : entries.length ≤ logMaxSinks

/-- The calls on a logger. -/
inductive LoggerOp (κ : Type) where
  | addSink (sink : Option κ)
  | removeSink (sink : Option κ)
  | setLevel (level : Int)
  | writev (call : LogCall)

/-- What a call returns, or does. -/
inductive LoggerAnswer (κ φ : Type) where
  | done
  | added (ok : Bool)
  | reported (report : Report κ φ)

/-- The formatter of an entry. -/
def SinkList.formatOf (a : SinkList κ φ) (cb : LogCallbacks κ φ γ) (k : κ) : φ := (cb.sink k).format.getD a.defaultFormat

/-- The entries that a record of a level goes to, with their places in the list. -/
def SinkList.admitted (a : SinkList κ φ) (cb : LogCallbacks κ φ γ) (level : Int) : List (κ × Nat) :=
  if a.minLevel ≤ level ∧ level < logOff then a.entries.zipIdx.filter fun e => (cb.sink e.1).minLevel ≤ level else []

/-- Format a message for entries one after the other, and write what comes out. -/
def deliver (cb : LogCallbacks κ φ γ) (fn : κ → φ) (msg : LogMessage) : List (κ × Nat) → List UInt8 → γ → Report κ φ × γ
  | [], _, s => ({}, s)
  | (k, i) :: es, out, s =>
    let (len, out, s) := cb.format (fn k) msg out s
    if 0 < len then
      let text := out.take len.toNat
      let (rest, s) := deliver cb fn msg es out (cb.write k msg text s)
      (⟨⟨i, k, fn k, len, out⟩ :: rest.formats, ⟨i, k, msg, text⟩ :: rest.writes⟩, s)
    else
      let (rest, s) := deliver cb fn msg es out s
      (⟨⟨i, k, fn k, len, out⟩ :: rest.formats, rest.writes⟩, s)

/-- Append a sink, if there is room. -/
def SinkList.add (a : SinkList κ φ) (k : κ) : Bool × SinkList κ φ :=
  if h : a.entries.length < logMaxSinks then (true, { a with entries := a.entries ++ [k], fits := by rwa [List.length_append] })
  else (false, a)

/-- Delete the first occurrence of a sink. -/
def SinkList.remove [DecidableEq κ] (a : SinkList κ φ) (k : κ) : SinkList κ φ :=
  { a with entries := a.entries.erase k, fits := Nat.le_trans List.length_erase_le a.fits }

/-- The abstract logger's answers. -/
def sinkListMachine [DecidableEq κ] (cb : LogCallbacks κ φ γ) : Machine (SinkList κ φ × γ) (LoggerOp κ) (LoggerAnswer κ φ) where
  next := fun (a, s) op =>
    match op with
    | .addSink none => (.added false, (a, s))
    | .addSink (some k) => (.added (a.add k).1, ((a.add k).2, s))
    | .removeSink none => (.done, (a, s))
    | .removeSink (some k) => (.done, (a.remove k, s))
    | .setLevel level => (.done, ({ a with minLevel := level }, s))
    | .writev c =>
      let (report, s) := deliver cb (a.formatOf cb) (logMessage c) (a.admitted cb c.level) c.out s
      (.reported report, (a, s))

/-- The logger's answers. -/
def loggerMachine [DecidableEq κ] (cb : LogCallbacks κ φ γ) :
    Machine (Option (Logger κ φ) × γ) (LoggerOp κ) (LoggerAnswer κ φ) where
  next := fun (logger, s) op =>
    match op with
    | .addSink sink => (.added (logAddSink logger sink).result, ((logAddSink logger sink).state, s))
    | .removeSink sink => (.done, (logRemoveSink logger sink, s))
    | .setLevel level => (.done, (logSetLevel logger level, s))
    | .writev c =>
      let (report, s) := logWritev cb logger c s
      (.reported report, (logger, s))

/-! ## The array -/

/-- The array and the fields of a logger that stands for a list. -/
structure Logger.Holds (l : Logger κ φ) (a : SinkList κ φ) : Prop where
  minLevel : l.minLevel = a.minLevel
  defaultFormat : l.defaultFormat = a.defaultFormat
  sinks : l.sinks = pack logMaxSinks a.entries
  sinkCount : l.sinkCount = a.entries.length

namespace Logger.Holds

variable {l : Logger κ φ} {a : SinkList κ φ} (h : l.Holds a)

include h

/-- A slot of the array is an entry of the list. -/
theorem slot (i : Nat) : l.sinks[i]?.join = a.entries[i]? := by
  rw [h.sinks, join_getElem?_pack a.fits]

/-- The slots past the last sink are empty. -/
theorem empty {j : Nat} (hcount : l.sinkCount ≤ j) (hj : j < logMaxSinks) : l.sinks[j]? = some none := by
  rw [h.sinks, getElem?_pack a.fits, if_pos hj, List.getElem?_eq_none (by rw [← h.sinkCount]; exact hcount)]

/-- Adding a sink adds it to the list. -/
theorem addSink (k : κ) : (logAddSink (some l) (some k)).result = (a.add k).1 ∧
    ∃ l', (logAddSink (some l) (some k)).state = some l' ∧ l'.Holds (a.add k).2 := by
  unfold logAddSink SinkList.add
  by_cases hfull : a.entries.length < logMaxSinks
  · have hroom : ¬ logMaxSinks ≤ l.sinkCount := by
      rw [h.sinkCount]
      exact Nat.not_le.mpr hfull
    rw [dif_pos hfull]
    dsimp only
    rw [if_neg hroom]
    refine ⟨rfl, _, rfl, h.minLevel, h.defaultFormat, ?_, ?_⟩
    · dsimp only
      rw [h.sinks, h.sinkCount, pack_concat hfull]
    · dsimp only
      rw [h.sinkCount, List.length_append, List.length_singleton]
  · have hnone : logMaxSinks ≤ l.sinkCount := by
      rw [h.sinkCount]
      exact Nat.not_lt.mp hfull
    rw [dif_neg hfull]
    dsimp only
    rw [if_pos hnone]
    exact ⟨rfl, l, rfl, h⟩

variable [DecidableEq κ]

/-- The slot of the first occurrence. -/
theorem removeAt {k : κ} {i : Nat} (hi : a.entries.idxOf k = i) (hlt : i < a.entries.length) :
    (l.removeAt i).Holds (a.remove k) := by
  refine ⟨h.minLevel, h.defaultFormat, ?_, ?_⟩
  · unfold Logger.removeAt SinkList.remove
    dsimp only
    rw [h.sinks, h.sinkCount, pack_eraseIdx a.fits hlt, List.erase_eq_eraseIdx_of_idxOf hi]
  · unfold Logger.removeAt SinkList.remove
    dsimp only
    rw [h.sinkCount, List.erase_eq_eraseIdx_of_idxOf hi, List.length_eraseIdx_of_lt hlt]

/-- By induction on the entries to go: none of those before `i` is the sink. -/
theorem removeLoop (k : κ) (n : Nat) : ∀ i, i + n = a.entries.length → i ≤ a.entries.idxOf k →
    (l.removeLoop k n i).Holds (a.remove k) := by
  induction n with
  | zero =>
    intro i hn hi
    have habsent : k ∉ a.entries := by
      rw [← List.idxOf_lt_length_iff]
      omega
    have hsame : a.remove k = a := by
      unfold SinkList.remove
      congr 1
      exact List.erase_of_not_mem habsent
    rw [hsame]
    exact h
  | succ n ih =>
    intro i hn hi
    rw [Logger.removeLoop, h.slot]
    by_cases hk : a.entries[i]? = some k
    · rw [if_neg (not_not.mpr hk)]
      refine h.removeAt (Nat.le_antisymm ?_ hi) (by omega)
      obtain ⟨hlt, hget⟩ := List.getElem?_eq_some_iff.mp hk
      by_contra hbefore
      have hne : (a.entries[i] == k) = false := List.not_of_lt_findIdx (Nat.not_le.mp hbefore)
      cases hne.symm.trans (beq_iff_eq.mpr hget)
    · rw [if_pos hk]
      refine ih (i + 1) (by omega) (Nat.lt_of_le_of_ne hi fun heq => hk ?_)
      rw [heq, List.getElem?_idxOf]
      exact List.idxOf_lt_length_iff.mp (by omega)

/-- Removing a sink removes it from the list. -/
theorem removeSink (k : κ) : ∃ l', logRemoveSink (some l) (some k) = some l' ∧ l'.Holds (a.remove k) :=
  ⟨_, rfl, h.removeLoop k _ 0 (by rw [h.sinkCount, Nat.zero_add]) (Nat.zero_le _)⟩

end Logger.Holds

/-! ## The dispatch of a record -/

/-- What a call that dispatched a message to entries did: it called each entry's formatter, in order, and wrote what came out
to the entry's sink where the length was positive. -/
structure Dispatches (cb : LogCallbacks κ φ γ) (fn : κ → φ) (msg : LogMessage) (es : List (κ × Nat)) (r : Report κ φ) : Prop where
  formats : r.formats.map (fun f => (f.sink, f.entry, f.fn)) = es.map fun e => (e.1, e.2, fn e.1)
  returned : ∀ f ∈ r.formats, ∃ buf s, (cb.format f.fn msg buf s).1 = f.len ∧ (cb.format f.fn msg buf s).2.1 = f.out
  writes : r.writes = (r.formats.filter fun f => 0 < f.len).map fun f => ⟨f.entry, f.sink, msg, f.out.take f.len.toNat⟩

/-- What is delivered is dispatched in the order of the list. -/
theorem dispatches_deliver (cb : LogCallbacks κ φ γ) (fn : κ → φ) (msg : LogMessage) (es : List (κ × Nat)) :
    ∀ out s, Dispatches cb fn msg es (deliver cb fn msg es out s).1 := by
  induction es with
  | nil => exact fun _ _ => ⟨rfl, fun _ hf => absurd hf List.not_mem_nil, rfl⟩
  | cons e es ih =>
    intro out s
    obtain ⟨k, i⟩ := e
    by_cases hlen : 0 < (cb.format (fn k) msg out s).1
    · have hrest := ih (cb.format (fn k) msg out s).2.1
        (cb.write k msg ((cb.format (fn k) msg out s).2.1.take (cb.format (fn k) msg out s).1.toNat) (cb.format (fn k) msg out s).2.2)
      simp only [deliver, if_pos hlen]
      refine ⟨?_, ?_, ?_⟩
      · rw [List.map_cons, hrest.formats, List.map_cons]
      · intro f hf
        rcases List.mem_cons.mp hf with rfl | hf
        · exact ⟨out, s, rfl, rfl⟩
        · exact hrest.returned f hf
      · rw [List.filter_cons_of_pos (by simpa using hlen), List.map_cons, hrest.writes]
    · have hrest := ih (cb.format (fn k) msg out s).2.1 (cb.format (fn k) msg out s).2.2
      simp only [deliver, if_neg hlen]
      refine ⟨?_, ?_, ?_⟩
      · rw [List.map_cons, hrest.formats, List.map_cons]
      · intro f hf
        rcases List.mem_cons.mp hf with rfl | hf
        · exact ⟨out, s, rfl, rfl⟩
        · exact hrest.returned f hf
      · rw [List.filter_cons_of_neg (by simpa using hlen), hrest.writes]

namespace Logger.Holds

variable {l : Logger κ φ} {a : SinkList κ φ} (h : l.Holds a) (cb : LogCallbacks κ φ γ)

include h

/-- The logger and the list have the same formatters. -/
theorem formatOf (k : κ) : l.formatOf cb k = a.formatOf cb k := by
  rw [Logger.formatOf, SinkList.formatOf, h.defaultFormat]

/-- The loop delivers to the entries that are left and admit the message. -/
theorem writeLoop (msg : LogMessage) (n : Nat) : ∀ i out s, i + n = a.entries.length →
    l.writeLoop cb msg n i out s =
      deliver cb (a.formatOf cb) msg (((a.entries.drop i).zipIdx i).filter fun e => (cb.sink e.1).minLevel ≤ msg.level) out s := by
  induction n with
  | zero =>
    intro i out s hn
    rw [List.drop_eq_nil_of_le (by omega)]
    rfl
  | succ n ih =>
    intro i out s hn
    have hi : i < a.entries.length := by omega
    rw [Logger.writeLoop, h.slot, List.getElem?_eq_getElem hi, List.drop_eq_getElem_cons hi, List.zipIdx_cons]
    dsimp only
    by_cases hlevel : msg.level < (cb.sink a.entries[i]).minLevel
    · rw [if_pos hlevel, List.filter_cons_of_neg (by simpa using hlevel)]
      exact ih (i + 1) out s (by omega)
    · rw [if_neg hlevel, List.filter_cons_of_pos (by simpa using hlevel), deliver, h.formatOf]
      simp only [ih (i + 1) _ _ (show i + 1 + n = a.entries.length by omega)]

omit cb in
/-- The logger drops what the list does not admit. -/
theorem drops_iff (level : Int) : l.drops level = true ↔ ¬ (a.minLevel ≤ level ∧ level < logOff) := by
  rw [Logger.drops, h.minLevel, Bool.or_eq_true, decide_eq_true_eq, decide_eq_true_eq]
  omega

/-- A record is delivered to the entries that admit it. -/
theorem writev (c : LogCall) (s : γ) :
    logWritev cb (some l) c s = deliver cb (a.formatOf cb) (logMessage c) (a.admitted cb c.level) c.out s := by
  unfold logWritev SinkList.admitted
  dsimp only
  by_cases hpass : a.minLevel ≤ c.level ∧ c.level < logOff
  · rw [if_neg (fun hd => (h.drops_iff c.level).mp hd hpass), if_pos hpass,
      h.writeLoop cb (logMessage c) _ 0 c.out s (by rw [h.sinkCount, Nat.zero_add])]
    rfl
  · rw [if_pos ((h.drops_iff c.level).mpr hpass), if_neg hpass]
    rfl

end Logger.Holds

/-! ## The refinement -/

/-- A logger that is there and holds the abstract one, beside the same program. -/
def LoggerRefines (p : Option (Logger κ φ) × γ) (q : SinkList κ φ × γ) : Prop :=
  p.2 = q.2 ∧ ∃ l, p.1 = some l ∧ l.Holds q.1

/-- The logger answers as the list does. -/
theorem loggerMachine_simulates [DecidableEq κ] (cb : LogCallbacks κ φ γ) :
    (loggerMachine cb).Simulates (sinkListMachine cb) LoggerRefines := by
  rintro ⟨_, s⟩ ⟨a, _⟩ op ⟨rfl, l, rfl, hl⟩
  cases op with
  | addSink sink =>
    rcases sink with _ | k
    · exact ⟨rfl, rfl, l, rfl, hl⟩
    · obtain ⟨hresult, l', hstate, hl'⟩ := hl.addSink k
      exact ⟨congrArg LoggerAnswer.added hresult, rfl, l', hstate, hl'⟩
  | removeSink sink =>
    rcases sink with _ | k
    · exact ⟨rfl, rfl, l, rfl, hl⟩
    · exact ⟨rfl, rfl, hl.removeSink k⟩
  | setLevel level => exact ⟨rfl, rfl, _, rfl, rfl, hl.defaultFormat, hl.sinks, hl.sinkCount⟩
  | writev c =>
    simp only [loggerMachine, sinkListMachine, hl.writev cb c s]
    exact ⟨trivial, rfl, l, rfl, hl⟩

/-- The list of a new logger. -/
def SinkList.new (formatDefault : φ) (config : Option (LoggerConfig φ)) : SinkList κ φ where
  minLevel := (logCreate (κ := κ) formatDefault config).minLevel
  defaultFormat := (logCreate (κ := κ) formatDefault config).defaultFormat
  entries := []
  fits := Nat.zero_le _

/-- A logger that was just created holds the empty list. -/
theorem holds_logCreate (formatDefault : φ) (config : Option (LoggerConfig φ)) :
    (logCreate formatDefault config : Logger κ φ).Holds (SinkList.new formatDefault config) :=
  ⟨rfl, rfl, rfl, rfl⟩

/-- After every history of calls on one logger, which answer what the abstract logger answers, the array holds the abstract
list and is empty past it; and a record that is logged then is formatted, with the formatter of each entry that admits it, and
written where the length is positive. -/
theorem logger_refines_list [DecidableEq κ] (cb : LogCallbacks κ φ γ) (formatDefault : φ) (config : Option (LoggerConfig φ)) (s₀ : γ)
    (ops : List (LoggerOp κ)) :
    let concrete := (loggerMachine cb).run (some (logCreate formatDefault config), s₀) ops
    let abstract := (sinkListMachine cb).run (SinkList.new formatDefault config, s₀) ops
    concrete.1 = abstract.1 ∧ concrete.2.2 = abstract.2.2 ∧
      ∃ l, concrete.2.1 = some l ∧ l.Holds abstract.2.1 ∧
        (∀ j, l.sinkCount ≤ j → j < logMaxSinks → l.sinks[j]? = some none) ∧
        ∀ c s, Dispatches cb (abstract.2.1.formatOf cb) (logMessage c) (abstract.2.1.admitted cb c.level)
          (logWritev cb concrete.2.1 c s).1 := by
  intro concrete abstract
  obtain ⟨hanswers, hstate, l, hl, hholds⟩ := (loggerMachine_simulates cb).run ops (some (logCreate formatDefault config), s₀)
    (SinkList.new formatDefault config, s₀) ⟨rfl, _, rfl, holds_logCreate formatDefault config⟩
  refine ⟨hanswers, hstate, l, hl, hholds, fun j => hholds.empty, fun c s => ?_⟩
  rw [show concrete.2.1 = some l from hl, hholds.writev]
  exact dispatches_deliver ..

end Copper
