import Copper.Foundation.Transition
import Mathlib.Data.List.Nodup
import Mathlib.Logic.Function.Basic

/-!
# Critical sections

Threads share a state and one lock. A call waits for the lock, takes the steps of its section, each of which may be followed
by steps of other threads, gives the lock up, and returns. Sections do not overlap, so a run leaves the shared state that the
sections leave one at a time, in the order in which their calls took the lock, and every call returns what its section
computes there (`inv_of_reachable`). A section whose steps compute a machine makes the calls linearizable (`Serial.machine`).
-/

namespace Critical

universe u v w x y z

/-- What calls do with the lock: the calls that take it at all, the locals of the `n`-th call to take it, the step from given
locals, which is `none` when the section is over, and the value that the call is to return. -/
structure Body (σ : Type u) (ℓ : Type v) (ι : Type w) (ο : Type x) where
  enters : ι → Bool
  start : Nat → ι → ℓ
  next : ℓ → Option (σ → ℓ × σ)
  result : ℓ → ο

/-- Where a thread is: between calls, waiting for the lock, in the section of the `n`-th call to take it, or past it. -/
inductive Phase (ℓ : Type v) (ι : Type w) (ο : Type x) where
  | idle
  | waiting (i : ι)
  | inside (i : ι) (n : Nat) (l : ℓ)
  | leaving (i : ι) (n : Nat) (o : ο)

/-- A call that has returned: which call to take the lock it was, and what it returned; or it never took the lock. -/
structure Returned (τ : Type y) (ι : Type w) (ο : Type x) where
  thread : τ
  input : ι
  answer : Option (Nat × ο)

/-- The shared state, the thread that holds the lock, and the threads. The lists are history: the calls in the order in which
they took the lock, the results of the sections in the order in which they ended, and the calls that have returned. -/
structure State (τ : Type y) (σ : Type u) (ℓ : Type v) (ι : Type w) (ο : Type x) where
  shared : σ
  holder : Option τ
  phase : τ → Phase ℓ ι ο
  entered : List (τ × ι)
  answered : List (ι × ο)
  returned : List (Returned τ ι ο)

inductive Event (τ : Type y) (ι : Type w) where
  | call (t : τ) (i : ι)
  | lock (t : τ)
  | step (t : τ)
  | unlock (t : τ)
  | ret (t : τ)

variable {τ : Type y} {σ : Type u} {ℓ : Type v} {ι : Type w} {ο : Type x}

/-- No call has been made. -/
def State.initial (s₀ : σ) : State τ σ ℓ ι ο where
  shared := s₀
  holder := none
  phase := fun _ => .idle
  entered := []
  answered := []
  returned := []

section Threads

variable [DecidableEq τ]

def State.setPhase (s : State τ σ ℓ ι ο) (t : τ) (p : Phase ℓ ι ο) : State τ σ ℓ ι ο :=
  { s with phase := Function.update s.phase t p }

/-- What an event leads to, if it is possible. Without `locks`, sections run without the lock. -/
def next (b : Body σ ℓ ι ο) (locks : Bool) (s : State τ σ ℓ ι ο) : Event τ ι → Option (State τ σ ℓ ι ο)
  | .call t i =>
    match s.phase t with
    | .idle =>
      if b.enters i then some (s.setPhase t (.waiting i))
      else some { s with returned := s.returned ++ [⟨t, i, none⟩] }
    | _ => none
  | .lock t =>
    match s.phase t with
    | .waiting i =>
      if locks && s.holder.isSome then none
      else
        some { s.setPhase t (.inside i s.entered.length (b.start s.entered.length i)) with
          holder := if locks then some t else s.holder
          entered := s.entered ++ [(t, i)] }
    | _ => none
  | .step t =>
    match s.phase t with
    | .inside i n l =>
      (b.next l).map fun f => { s.setPhase t (.inside i n (f s.shared).1) with shared := (f s.shared).2 }
    | _ => none
  | .unlock t =>
    match s.phase t with
    | .inside i n l =>
      if (b.next l).isSome then none
      else
        some { s.setPhase t (.leaving i n (b.result l)) with
          holder := if locks then none else s.holder
          answered := s.answered ++ [(i, b.result l)] }
    | _ => none
  | .ret t =>
    match s.phase t with
    | .leaving i n o => some { s.setPhase t .idle with returned := s.returned ++ [⟨t, i, some (n, o)⟩] }
    | _ => none

/-- Every interleaving of the threads' calls. -/
def system (τ : Type y) [DecidableEq τ] (b : Body σ ℓ ι ο) (locks : Bool) (s₀ : σ) :
    Transition.System (State τ σ ℓ ι ο) (Event τ ι) :=
  .ofNext (fun s => s = .initial s₀) (next b locks)

/-- What an event of calls that lock can do. -/
inductive Step (b : Body σ ℓ ι ο) (s : State τ σ ℓ ι ο) : Event τ ι → State τ σ ℓ ι ο → Prop where
  | call {t : τ} {i : ι} : s.phase t = .idle → b.enters i = true → Step b s (.call t i) (s.setPhase t (.waiting i))
  | skip {t : τ} {i : ι} : b.enters i = false →
      Step b s (.call t i) { s with returned := s.returned ++ [⟨t, i, none⟩] }
  | lock {t : τ} {i : ι} : s.phase t = .waiting i → s.holder = none →
      Step b s (.lock t) { s.setPhase t (.inside i s.entered.length (b.start s.entered.length i)) with
        holder := some t, entered := s.entered ++ [(t, i)] }
  | step {t : τ} {i : ι} {n : Nat} {l : ℓ} {f : σ → ℓ × σ} : s.phase t = .inside i n l → b.next l = some f →
      Step b s (.step t) { s.setPhase t (.inside i n (f s.shared).1) with shared := (f s.shared).2 }
  | unlock {t : τ} {i : ι} {n : Nat} {l : ℓ} : s.phase t = .inside i n l → b.next l = none →
      Step b s (.unlock t) { s.setPhase t (.leaving i n (b.result l)) with
        holder := none, answered := s.answered ++ [(i, b.result l)] }
  | ret {t : τ} {i : ι} {n : Nat} {o : ο} : s.phase t = .leaving i n o →
      Step b s (.ret t) { s.setPhase t .idle with returned := s.returned ++ [⟨t, i, some (n, o)⟩] }

/-- A step of the function is one of the relation. -/
theorem step_of_next {b : Body σ ℓ ι ο} {s s' : State τ σ ℓ ι ο} {e : Event τ ι} (h : next b true s e = some s') :
    Step b s e s' := by
  cases e with
  | call t i =>
    simp only [next] at h
    split at h
    · rename_i hphase
      split at h
      · rename_i henters
        cases h
        exact .call hphase henters
      · rename_i henters
        cases h
        exact .skip (Bool.not_eq_true _ ▸ henters)
    · cases h
  | lock t =>
    simp only [next] at h
    split at h
    · rename_i i hphase
      split at h
      · cases h
      · rename_i hholder
        cases h
        exact .lock hphase (by simpa using hholder)
    · cases h
  | step t =>
    simp only [next] at h
    split at h
    · rename_i hphase
      obtain ⟨f, hf, rfl⟩ := Option.map_eq_some_iff.mp h
      exact .step hphase hf
    · cases h
  | unlock t =>
    simp only [next] at h
    split at h
    · rename_i hphase
      split at h
      · cases h
      · rename_i hover
        cases h
        exact .unlock hphase (by simpa using hover)
    · cases h
  | ret t =>
    simp only [next] at h
    split at h
    · rename_i hphase
      cases h
      exact .ret hphase
    · cases h

end Threads

/-! ## Sections one at a time -/

/-- Steps of a section that nothing interrupts. -/
inductive Steps (b : Body σ ℓ ι ο) (l : ℓ) (s : σ) : ℓ → σ → Prop where
  | refl : Steps b l s l s
  | snoc {l' : ℓ} {s' : σ} {f : σ → ℓ × σ} : Steps b l s l' s' → b.next l' = some f → Steps b l s (f s').1 (f s').2

/-- Whole sections, one after the other: the inputs and the results of their calls. -/
inductive Serial (b : Body σ ℓ ι ο) (s₀ : σ) : List (ι × ο) → σ → Prop where
  | nil : Serial b s₀ [] s₀
  | snoc {done : List (ι × ο)} {s s' : σ} {i : ι} {l : ℓ} : Serial b s₀ done s →
      Steps b (b.start done.length i) s l s' → b.next l = none → Serial b s₀ (done ++ [(i, b.result l)]) s'

/-- What a section does to a part of the shared state when nothing interrupts it, every section does that follows others. -/
theorem Serial.machine {ρ : Type z} {b : Body σ ℓ ι ο} {m : Transition.Machine ρ ι ο} {part : σ → ρ}
    (hm : ∀ n i s l s', Steps b (b.start n i) s l s' → b.next l = none → m.next (part s) i = (b.result l, part s'))
    {s₀ s : σ} {done : List (ι × ο)} (h : Serial b s₀ done s) :
    m.run (part s₀) (done.map Prod.fst) = (done.map Prod.snd, part s) := by
  induction h with
  | nil => rfl
  | snoc _ hsteps hover ih =>
    rw [List.map_append, List.map_append, List.map_singleton, List.map_singleton, Transition.Machine.run_concat, ih,
      hm _ _ _ _ _ hsteps hover]

/-! ## The invariant -/

/-- The numbers of the calls that have returned. -/
def tickets (returned : List (Returned τ ι ο)) : List Nat := returned.filterMap fun r => r.answer.map Prod.fst

/-- What holds of a thread. -/
def PhaseOk (b : Body σ ℓ ι ο) (s : State τ σ ℓ ι ο) (t : τ) : Phase ℓ ι ο → Prop
  | .idle => True
  | .waiting i => b.enters i = true
  | .inside i n _ => s.holder = some t ∧ s.entered[n]? = some (t, i) ∧ n ∉ tickets s.returned
  | .leaving i n o => s.entered[n]? = some (t, i) ∧ s.answered[n]? = some (i, o) ∧ n ∉ tickets s.returned

/-- What holds of a call that has returned. -/
def ReturnedOk (b : Body σ ℓ ι ο) (s : State τ σ ℓ ι ο) (r : Returned τ ι ο) : Prop :=
  match r.answer with
  | none => b.enters r.input = false
  | some (n, o) => s.entered[n]? = some (r.thread, r.input) ∧ s.answered[n]? = some (r.input, o)

/-- Where the shared state is: at the end of the sections that are over, or within the one that has begun. -/
def SharedOk (b : Body σ ℓ ι ο) (s₁ : σ) (s : State τ σ ℓ ι ο) : Prop :=
  match s.holder with
  | none => s.entered.map Prod.snd = s.answered.map Prod.fst ∧ s.shared = s₁
  | some t =>
    ∃ i l, s.phase t = .inside i s.answered.length l ∧ s.entered.map Prod.snd = s.answered.map Prod.fst ++ [i] ∧
      Steps b (b.start s.answered.length i) s₁ l s.shared

structure Inv (b : Body σ ℓ ι ο) (s₀ : σ) (s : State τ σ ℓ ι ο) : Prop where
  serial : ∃ s₁, Serial b s₀ s.answered s₁ ∧ SharedOk b s₁ s
  enters : ∀ c ∈ s.entered, b.enters c.2 = true
  phase : ∀ t, PhaseOk b s t (s.phase t)
  returned : ∀ r ∈ s.returned, ReturnedOk b s r
  once : (tickets s.returned).Nodup

/-- Before any call the invariant holds. -/
theorem Inv.initial (b : Body σ ℓ ι ο) (s₀ : σ) : Inv b s₀ (State.initial s₀ : State τ σ ℓ ι ο) where
  serial := ⟨s₀, .nil, rfl, rfl⟩
  enters := fun _ hc => absurd hc List.not_mem_nil
  phase := fun _ => trivial
  returned := fun _ hr => absurd hr List.not_mem_nil
  once := List.nodup_nil

/-- The number that the call of a thread has. -/
def Phase.ticket : Phase ℓ ι ο → Option Nat
  | .inside _ n _ => some n
  | .leaving _ n _ => some n
  | _ => none

/-- What is at a place of a list is there in every longer one. -/
theorem getElem?_of_isPrefix {α : Type u} {l l' : List α} (h : l <+: l') {n : Nat} {a : α} (ha : l[n]? = some a) :
    l'[n]? = some a := by
  obtain ⟨rest, rfl⟩ := h
  rw [List.getElem?_append_left (List.getElem?_eq_some_iff.mp ha).1, ha]

/-- A ticket is one that an answered call has. -/
theorem mem_tickets {returned : List (Returned τ ι ο)} {n : Nat} :
    n ∈ tickets returned ↔ ∃ r ∈ returned, ∃ o, r.answer = some (n, o) := by
  simp [tickets, List.mem_filterMap]

/-- An answered call adds its ticket. -/
theorem tickets_concat (returned : List (Returned τ ι ο)) (t : τ) (i : ι) (n : Nat) (o : ο) :
    tickets (returned ++ [⟨t, i, some (n, o)⟩]) = tickets returned ++ [n] := by
  simp [tickets]

/-- A call that did not enter adds none. -/
theorem tickets_concat_none (returned : List (Returned τ ι ο)) (t : τ) (i : ι) :
    tickets (returned ++ [⟨t, i, none⟩]) = tickets returned := by
  simp [tickets]

section

variable {b : Body σ ℓ ι ο} {s₀ : σ} {s s' : State τ σ ℓ ι ο} {t : τ}

/-- The histories grow, and what holds of a thread goes on to hold of it unless the lock or its number is taken from it. -/
theorem PhaseOk.mono {p : Phase ℓ ι ο} (h : PhaseOk b s t p) (hholder : ∀ i n l, p = .inside i n l → s'.holder = some t)
    (hentered : s.entered <+: s'.entered) (hanswered : s.answered <+: s'.answered)
    (hfresh : ∀ n, p.ticket = some n → n ∉ tickets s'.returned) : PhaseOk b s' t p := by
  cases p with
  | idle => trivial
  | waiting i => exact h
  | inside i n l => exact ⟨hholder i n l rfl, getElem?_of_isPrefix hentered h.2.1, hfresh n rfl⟩
  | leaving i n o => exact ⟨getElem?_of_isPrefix hentered h.1, getElem?_of_isPrefix hanswered h.2.1, hfresh n rfl⟩

/-- The ticket of a call under way is no returned one. -/
theorem PhaseOk.fresh {p : Phase ℓ ι ο} (h : PhaseOk b s t p) {n : Nat} (hn : p.ticket = some n) : n ∉ tickets s.returned := by
  cases p with
  | idle => cases hn
  | waiting i => cases hn
  | inside i m l =>
    cases hn
    exact h.2.2
  | leaving i m o =>
    cases hn
    exact h.2.2

/-- It is the place of that call among those that entered. -/
theorem PhaseOk.entered {p : Phase ℓ ι ο} (h : PhaseOk b s t p) {n : Nat} (hn : p.ticket = some n) :
    ∃ i, s.entered[n]? = some (t, i) := by
  cases p with
  | idle => cases hn
  | waiting i => cases hn
  | inside i m l =>
    cases hn
    exact ⟨i, h.2.1⟩
  | leaving i m o =>
    cases hn
    exact ⟨i, h.1⟩

/-- A returned call stays accounted for as others enter and are answered. -/
theorem ReturnedOk.mono {r : Returned τ ι ο} (h : ReturnedOk b s r) (hentered : s.entered <+: s'.entered)
    (hanswered : s.answered <+: s'.answered) : ReturnedOk b s' r := by
  unfold ReturnedOk at *
  split
  · rename_i hnone
    rw [hnone] at h
    exact h
  · rename_i n o hsome
    rw [hsome] at h
    exact ⟨getElem?_of_isPrefix hentered h.1, getElem?_of_isPrefix hanswered h.2⟩

namespace Inv

variable (hs : Inv b s₀ s)

include hs

/-- No two threads have the same number. -/
theorem ticket_unique {t' : τ} {n : Nat} (h : (s.phase t).ticket = some n) (h' : (s.phase t').ticket = some n) : t' = t := by
  obtain ⟨i, hi⟩ := (hs.phase t).entered h
  obtain ⟨i', hi'⟩ := (hs.phase t').entered h'
  rw [hi] at hi'
  cases hi'
  rfl

/-- A thread that is in its section holds the lock. -/
theorem holder {i : ι} {n : Nat} {l : ℓ} (h : s.phase t = .inside i n l) : s.holder = some t := by
  have hp := hs.phase t
  rw [h] at hp
  exact hp.1

/-- The lock is free: no thread is in its section, and all sections that have begun are over. -/
theorem free (hfree : s.holder = none) : s.entered.map Prod.snd = s.answered.map Prod.fst ∧ Serial b s₀ s.answered s.shared := by
  obtain ⟨s₁, hserial, hshared⟩ := hs.serial
  rw [SharedOk, hfree] at hshared
  exact ⟨hshared.1, hshared.2 ▸ hserial⟩

/-- The section of the thread that holds the lock. -/
theorem section_of_inside {i : ι} {n : Nat} {l : ℓ} (hinside : s.phase t = .inside i n l) :
    n = s.answered.length ∧ s.entered.map Prod.snd = s.answered.map Prod.fst ++ [i] ∧
      ∃ s₁, Serial b s₀ s.answered s₁ ∧ Steps b (b.start n i) s₁ l s.shared := by
  obtain ⟨s₁, hserial, hshared⟩ := hs.serial
  rw [SharedOk, hs.holder hinside] at hshared
  obtain ⟨i', l', hinside', hentered, hsteps⟩ := hshared
  rw [hinside] at hinside'
  cases hinside'
  exact ⟨rfl, hentered, s₁, hserial, hsteps⟩

/-- A call that does not enter returns at once. -/
theorem skip {i : ι} (henters : b.enters i = false) : Inv b s₀ { s with returned := s.returned ++ [⟨t, i, none⟩] } := by
  obtain ⟨s₁, hserial, hshared⟩ := hs.serial
  refine ⟨⟨s₁, hserial, hshared⟩, hs.enters, fun t' => ?_, fun r hr => ?_, ?_⟩
  · refine (hs.phase t').mono (fun _ _ _ h => hs.holder h) (List.prefix_refl _) (List.prefix_refl _) fun n hn => ?_
    rw [tickets_concat_none]
    exact (hs.phase t').fresh hn
  · rcases List.mem_append.mp hr with hr | hr
    · exact hs.returned r hr
    · rw [List.mem_singleton.mp hr]
      exact henters
  · rw [tickets_concat_none]
    exact hs.once

/-- When sections compute a machine on a part of the shared state, the results so far are those of the machine, fed the calls
in the order in which they took the lock; and so is that part, when no section has begun that is not over. -/
theorem machine {ρ : Type z} {m : Transition.Machine ρ ι ο} {part : σ → ρ}
    (hm : ∀ n i s l s', Steps b (b.start n i) s l s' → b.next l = none → m.next (part s) i = (b.result l, part s')) :
    s.answered.map Prod.snd <+: (m.run (part s₀) (s.entered.map Prod.snd)).1 ∧
      (s.holder = none → part s.shared = (m.run (part s₀) (s.entered.map Prod.snd)).2) := by
  cases hholder : s.holder with
  | none =>
    obtain ⟨hentered, hserial⟩ := hs.free hholder
    rw [hentered, hserial.machine hm]
    exact ⟨List.prefix_refl _, fun _ => rfl⟩
  | some t =>
    obtain ⟨s₁, hserial, hshared⟩ := hs.serial
    rw [SharedOk, hholder] at hshared
    obtain ⟨i, l, -, hentered, -⟩ := hshared
    rw [hentered, Transition.Machine.run_concat, hserial.machine hm]
    exact ⟨List.prefix_append _ _, fun h => absurd h (by simp)⟩

end Inv

variable [DecidableEq τ]

/-- The clause about threads, after a step of one of them. -/
theorem phase_update {p : Phase ℓ ι ο} (hp : PhaseOk b s' t p) (hrest : ∀ t' ≠ t, PhaseOk b s' t' (s.phase t')) :
    ∀ t', PhaseOk b s' t' (Function.update s.phase t p t') := by
  intro t'
  by_cases ht : t' = t
  · subst ht
    rw [Function.update_self]
    exact hp
  · rw [Function.update_of_ne ht]
    exact hrest t' ht

/-- The shared state of a step that leaves the lock and the histories of sections alone, of a thread that is not in its
section. -/
theorem SharedOk.frame {s₁ : σ} (h : SharedOk b s₁ s) {p : Phase ℓ ι ο} (hphase : ∀ i n l, s.phase t ≠ .inside i n l)
    (returned : List (Returned τ ι ο)) : SharedOk b s₁ { s.setPhase t p with returned := returned } := by
  unfold SharedOk at *
  cases hholder : s.holder with
  | none =>
    rw [hholder] at h
    simp only [State.setPhase, hholder]
    exact h
  | some t' =>
    rw [hholder] at h
    obtain ⟨i, l, hinside, hrest⟩ := h
    simp only [State.setPhase, hholder]
    refine ⟨i, l, ?_, hrest⟩
    rw [Function.update_of_ne (fun heq => hphase _ _ _ (heq ▸ hinside))]
    exact hinside

namespace Inv

variable (hs : Inv b s₀ s)

include hs

/-- A call that enters waits. -/
theorem call {i : ι} (hidle : s.phase t = .idle) (henters : b.enters i = true) : Inv b s₀ (s.setPhase t (.waiting i)) := by
  obtain ⟨s₁, hserial, hshared⟩ := hs.serial
  refine ⟨⟨s₁, hserial, hshared.frame (by simp [hidle]) s.returned⟩, hs.enters, ?_, fun r hr => hs.returned r hr, hs.once⟩
  have hwaiting : PhaseOk b (s.setPhase t (.waiting i)) t (.waiting i) := henters
  exact phase_update hwaiting fun t' _ =>
    (hs.phase t').mono (fun _ _ _ h => hs.holder h) (List.prefix_refl _) (List.prefix_refl _) fun _ hn => (hs.phase t').fresh hn

/-- A waiting call takes the free lock. -/
theorem lock {i : ι} (hwaiting : s.phase t = .waiting i) (hfree : s.holder = none) :
    Inv b s₀ { s.setPhase t (.inside i s.entered.length (b.start s.entered.length i)) with
      holder := some t, entered := s.entered ++ [(t, i)] } := by
  obtain ⟨hentered, hserial⟩ := hs.free hfree
  have hlen : s.entered.length = s.answered.length := by
    have hlen := congrArg List.length hentered
    rwa [List.length_map, List.length_map] at hlen
  have henters : b.enters i = true := by
    have hp := hs.phase t
    rw [hwaiting] at hp
    exact hp
  have hnew : s.entered.length ∉ tickets s.returned := by
    intro hmem
    obtain ⟨r, hr, o, ho⟩ := mem_tickets.mp hmem
    have hok := hs.returned r hr
    rw [ReturnedOk, ho] at hok
    exact absurd (List.getElem?_eq_some_iff.mp hok.1).1 (Nat.lt_irrefl _)
  refine ⟨⟨s.shared, hserial, i, b.start s.answered.length i, ?_, ?_, .refl⟩, fun c hc => ?_, ?_, fun r hr => ?_, hs.once⟩
  · show Function.update _ _ _ _ = _
    rw [Function.update_self, hlen]
    rfl
  · rw [List.map_append, hentered]
    rfl
  · rcases List.mem_append.mp hc with hc | hc
    · exact hs.enters c hc
    · rw [List.mem_singleton.mp hc]
      exact henters
  · refine phase_update ⟨rfl, List.getElem?_concat_length, hnew⟩ fun t' _ => ?_
    refine (hs.phase t').mono (fun _ _ _ h => ?_) (List.prefix_append _ _) (List.prefix_refl _) fun _ hn => (hs.phase t').fresh hn
    cases hfree.symm.trans (hs.holder h)
  · exact (hs.returned r hr).mono (List.prefix_append _ _) (List.prefix_refl _)

/-- The call inside takes a step. -/
theorem step {i : ι} {n : Nat} {l : ℓ} {f : σ → ℓ × σ} (hinside : s.phase t = .inside i n l) (hf : b.next l = some f) :
    Inv b s₀ { s.setPhase t (.inside i n (f s.shared).1) with shared := (f s.shared).2 } := by
  obtain ⟨hn, hentered, s₁, hserial, hsteps⟩ := hs.section_of_inside hinside
  have hok := hs.phase t
  rw [hinside] at hok
  refine ⟨⟨s₁, hserial, ?_⟩, hs.enters, ?_, fun r hr => hs.returned r hr, hs.once⟩
  · simp only [SharedOk, State.setPhase, hok.1]
    refine ⟨i, (f s.shared).1, ?_, hentered, ?_⟩
    · rw [Function.update_self, hn]
    · rw [← hn]
      exact hsteps.snoc hf
  · exact phase_update hok fun t' _ =>
      (hs.phase t').mono (fun _ _ _ h => hs.holder h) (List.prefix_refl _) (List.prefix_refl _) fun _ hn => (hs.phase t').fresh hn

/-- The call inside gives the lock back. -/
theorem unlock {i : ι} {n : Nat} {l : ℓ} (hinside : s.phase t = .inside i n l) (hover : b.next l = none) :
    Inv b s₀ { s.setPhase t (.leaving i n (b.result l)) with
      holder := none, answered := s.answered ++ [(i, b.result l)] } := by
  obtain ⟨rfl, hentered, s₁, hserial, hsteps⟩ := hs.section_of_inside hinside
  have hok := hs.phase t
  rw [hinside] at hok
  refine ⟨⟨s.shared, hserial.snoc hsteps hover, ?_, rfl⟩, hs.enters, ?_, fun r hr => ?_, hs.once⟩
  · show s.entered.map Prod.snd = _
    rw [hentered, List.map_append]
    rfl
  · refine phase_update ⟨hok.2.1, List.getElem?_concat_length, hok.2.2⟩ fun t' ht => ?_
    refine (hs.phase t').mono (fun _ _ _ h => ?_) (List.prefix_refl _) (List.prefix_append _ _) fun _ hn => (hs.phase t').fresh hn
    have hother := hs.holder h
    rw [hok.1] at hother
    cases hother
    exact absurd rfl ht
  · exact (hs.returned r hr).mono (List.prefix_refl _) (List.prefix_append _ _)

/-- A call that has left returns. -/
theorem ret {i : ι} {n : Nat} {o : ο} (hleaving : s.phase t = .leaving i n o) :
    Inv b s₀ { s.setPhase t .idle with returned := s.returned ++ [⟨t, i, some (n, o)⟩] } := by
  obtain ⟨s₁, hserial, hshared⟩ := hs.serial
  have hok := hs.phase t
  rw [hleaving] at hok
  have hticket : (s.phase t).ticket = some n := by
    rw [hleaving]
    rfl
  refine ⟨⟨s₁, hserial, hshared.frame (by simp [hleaving]) _⟩, hs.enters, ?_, fun r hr => ?_, ?_⟩
  · refine phase_update trivial fun t' ht => ?_
    refine (hs.phase t').mono (fun _ _ _ h => hs.holder h) (List.prefix_refl _) (List.prefix_refl _) fun m hm => ?_
    rw [tickets_concat, List.mem_append, List.mem_singleton, not_or]
    refine ⟨(hs.phase t').fresh hm, fun heq => ht ?_⟩
    exact hs.ticket_unique hticket (heq ▸ hm)
  · rcases List.mem_append.mp hr with hr | hr
    · exact hs.returned r hr
    · rw [List.mem_singleton.mp hr]
      exact ⟨hok.1, hok.2.1⟩
  · rw [tickets_concat]
    exact List.nodup_append.mpr ⟨hs.once, List.nodup_singleton n, by
      intro m hm k hk heq
      rw [List.mem_singleton.mp hk] at heq
      exact hok.2.2 (heq ▸ hm)⟩

/-- Every step keeps the invariant. -/
theorem of_step {e : Event τ ι} (h : Step b s e s') : Inv b s₀ s' := by
  cases h with
  | call hidle henters => exact hs.call hidle henters
  | skip henters => exact hs.skip henters
  | lock hwaiting hfree => exact hs.lock hwaiting hfree
  | step hinside hf => exact hs.step hinside hf
  | unlock hinside hover => exact hs.unlock hinside hover
  | ret hleaving => exact hs.ret hleaving

end Inv

end

/-- Sections that lock run as if one at a time, in every reachable state of every interleaving. -/
theorem inv_of_reachable [DecidableEq τ] {b : Body σ ℓ ι ο} {s₀ : σ} {s : State τ σ ℓ ι ο}
    (h : (system τ b true s₀).Reachable s) : Inv b s₀ s :=
  h.invariant ⟨fun _ hinit => hinit ▸ Inv.initial b s₀, fun _ _ _ hs hst => hs.of_step (step_of_next hst)⟩

/-! ## Sections that read and write a cell -/

/-- What a section does with a shared cell: it reads it and goes on with what it read, writes it, or ends. -/
inductive Access (σ : Type u) (ο : Type x) where
  | ret (o : ο)
  | read (k : σ → Access σ ο)
  | write (s : σ) (k : Access σ ο)

namespace Access

/-- What a section computes when nothing interrupts it, and what it leaves in the cell. -/
def exec : Access σ ο → σ → ο × σ
  | ret o, s => (o, s)
  | read k, s => (k s).exec s
  | write s' k, _ => k.exec s'

/-- Each access is a step. -/
def next : Access σ ο → Option (σ → Access σ ο × σ)
  | ret _ => none
  | read k => some fun s => (k s, s)
  | write s' k => some fun _ => (k, s')

def result [Inhabited ο] : Access σ ο → ο
  | ret o => o
  | _ => default

/-- The calls whose sections are given by their inputs; all of them lock. -/
def body [Inhabited ο] (code : ι → Access σ ο) : Body σ (Access σ ο) ι ο where
  enters := fun _ => true
  start := fun _ i => code i
  next := next
  result := result

variable [Inhabited ο] {code : ι → Access σ ο}

/-- What a section is going to compute does not change while it computes it. -/
theorem exec_of_steps {l l' : Access σ ο} {s s' : σ} (h : Steps (body code) l s l' s') : l'.exec s' = l.exec s := by
  induction h with
  | refl => rfl
  | snoc _ hf ih =>
    rename_i l' _ _ _
    rw [← ih]
    cases l' with
    | ret o => cases hf
    | read k =>
      cases hf
      rfl
    | write s' k =>
      cases hf
      rfl

/-- The machine that computes whole sections. -/
def machine (code : ι → Access σ ο) : Transition.Machine σ ι ο := ⟨fun s i => (code i).exec s⟩

/-- A body that is run to its end makes a step of the machine. -/
theorem machine_of_steps (n : Nat) (i : ι) (s : σ) (l : Access σ ο) (s' : σ)
    (h : Steps (body code) ((body code).start n i) s l s') (hover : (body code).next l = none) :
    (machine code).next s i = ((body code).result l, s') := by
  unfold machine
  dsimp only
  rw [← exec_of_steps (l := code i) h]
  cases l with
  | ret o => rfl
  | read k => cases hover
  | write s' k => cases hover

end Access

/-- Calls that access a cell under the lock are linearizable: a call that has returned has a place of its own in the order in
which calls took the lock, and returned what the machine answers there; and when no call is in its section, the cell is as the
machine leaves it. -/
theorem Access.linearizable [Inhabited ο] [DecidableEq τ] {code : ι → Access σ ο} {s₀ : σ}
    {s : State τ σ (Access σ ο) ι ο} (h : (system τ (body code) true s₀).Reachable s) :
    (∀ r ∈ s.returned, ∃ n o, r.answer = some (n, o) ∧ s.entered[n]? = some (r.thread, r.input) ∧
      ((machine code).run s₀ (s.entered.map Prod.snd)).1[n]? = some o) ∧
    (tickets s.returned).Nodup ∧
    (s.holder = none → s.shared = ((machine code).run s₀ (s.entered.map Prod.snd)).2) := by
  have hs := inv_of_reachable h
  have hmachine : ∀ n i s l s', Steps (body code) ((body code).start n i) s l s' → (body code).next l = none →
      (machine code).next (id s) i = ((body code).result l, id s') := machine_of_steps
  obtain ⟨hanswers, hshared⟩ := hs.machine hmachine
  refine ⟨fun r hr => ?_, hs.once, hshared⟩
  have hok := hs.returned r hr
  unfold ReturnedOk at hok
  split at hok
  · cases hok
  · rename_i n o hanswer
    refine ⟨n, o, hanswer, hok.1, getElem?_of_isPrefix hanswers ?_⟩
    rw [List.getElem?_map, hok.2]
    rfl

end Critical
