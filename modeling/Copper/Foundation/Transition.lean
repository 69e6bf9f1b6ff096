import Mathlib.Logic.Relation

/-!
# Transition systems

Two shapes of system, each with the one induction its statements rest on. A `System` moves by labelled steps chosen by its
environment: what every step keeps holds of every reachable state (`Reachable.invariant`). A `Machine` answers one input after
the other: two machines whose answers agree step by step, under a relation of their states, answer every run alike
(`Simulates.run`).
-/

namespace Transition

universe u v w x

/-- A labelled transition system: the states a run may start from, and the states each event may lead to. -/
structure System (σ : Type u) (ε : Type v) where
  init : σ → Prop
  step : σ → ε → σ → Prop

namespace System

variable {σ : Type u} {ε : Type v} {sys : System σ ε}

/-- `sys.Run s es t`: the events `es`, in order, lead from `s` to `t`. -/
inductive Run (sys : System σ ε) (s : σ) : List ε → σ → Prop where
  | nil : Run sys s [] s
  | snoc {t u : σ} {es : List ε} {e : ε} : Run sys s es t → sys.step t e u → Run sys s (es ++ [e]) u

/-- A state that a run from an initial state reaches. -/
def Reachable (sys : System σ ε) (t : σ) : Prop := ∃ s es, sys.init s ∧ sys.Run s es t

/-- A predicate that holds initially and that every step keeps. -/
structure Inductive (sys : System σ ε) (I : σ → Prop) : Prop where
  init : ∀ s, sys.init s → I s
  step : ∀ s e t, I s → sys.step s e t → I t

/-- The system cut down to the steps that meet a condition on the state before and the event. -/
def restrict (sys : System σ ε) (C : σ → ε → Prop) : System σ ε where
  init := sys.init
  step s e t := sys.step s e t ∧ C s e

theorem Run.single {s t : σ} {e : ε} (h : sys.step s e t) : sys.Run s [e] t :=
  Run.nil.snoc h

/-- Runs compose. -/
theorem Run.trans {s t u : σ} {es es' : List ε} (h : sys.Run s es t) (h' : sys.Run t es' u) :
    sys.Run s (es ++ es') u := by
  induction h' with
  | nil => rwa [List.append_nil]
  | snoc _ hs ih => rw [← List.append_assoc]; exact ih.snoc hs

/-- What every step keeps, every run keeps. -/
theorem Run.keeps {I : σ → Prop} (hstep : ∀ s e t, I s → sys.step s e t → I t) {s t : σ} {es : List ε}
    (h : sys.Run s es t) (hs : I s) : I t := by
  induction h with
  | nil => exact hs
  | snoc _ hst ih => exact hstep _ _ _ ih hst

/-- A run stays within the reachable states. -/
theorem Run.reachable {s t : σ} {es : List ε} (h : sys.Run s es t) (hs : sys.Reachable s) : sys.Reachable t := by
  obtain ⟨s₀, es₀, h₀, hr⟩ := hs
  exact ⟨s₀, es₀ ++ es, h₀, hr.trans h⟩

theorem Reachable.of_init {s : σ} (h : sys.init s) : sys.Reachable s :=
  ⟨s, [], h, Run.nil⟩

/-- An inductive predicate holds of every reachable state. -/
theorem Reachable.invariant {I : σ → Prop} {t : σ} (h : sys.Reachable t) (hI : sys.Inductive I) : I t := by
  obtain ⟨s, es, hs, hr⟩ := h
  exact hr.keeps hI.step (hI.init s hs)

/-! ### Systems whose steps a function computes -/

/-- The system whose steps a partial function computes. -/
def ofNext (init : σ → Prop) (next : σ → ε → Option σ) : System σ ε where
  init := init
  step s e t := next s e = some t

/-- Take the steps of a list of events, if each is possible. -/
def replay (next : σ → ε → Option σ) (s : σ) : List ε → Option σ
  | [] => some s
  | e :: es => (next s e).bind fun t => replay next t es

variable {init : σ → Prop} {next : σ → ε → Option σ}

/-- A replay that goes through is a run. -/
theorem run_of_replay (es : List ε) : ∀ {s t : σ}, replay next s es = some t → (ofNext init next).Run s es t := by
  induction es with
  | nil =>
    intro s t h
    cases h
    exact Run.nil
  | cons e es ih =>
    intro s t h
    obtain ⟨u, hu, ht⟩ := Option.bind_eq_some_iff.mp h
    exact (Run.single hu).trans (ih ht)

/-- A replay that also checks a condition at every step, and goes through, is a run of the system cut down to it. -/
theorem run_restrict_of_replay {C : σ → ε → Prop} [∀ s e, Decidable (C s e)] (es : List ε) {s t : σ}
    (h : replay (fun s e => if C s e then next s e else none) s es = some t) : ((ofNext init next).restrict C).Run s es t := by
  induction es generalizing s with
  | nil =>
    cases h
    exact Run.nil
  | cons e es ih =>
    obtain ⟨u, hu, ht⟩ := Option.bind_eq_some_iff.mp h
    dsimp only at hu
    split at hu
    · rename_i hC
      have hstep : ((ofNext init next).restrict C).step s e u := ⟨hu, hC⟩
      exact (Run.single hstep).trans (ih ht)
    · cases hu

/-! ### Restricted runs -/

/-- A run whose events all meet a condition is a run of the system cut down to it. -/
theorem Run.restrict {Q : ε → Prop} {s t : σ} {es : List ε} (h : sys.Run s es t) (hQ : ∀ e ∈ es, Q e) :
    (sys.restrict fun _ e => Q e).Run s es t := by
  induction h with
  | nil => exact Run.nil
  | snoc _ hst ih =>
    exact (ih fun e he => hQ e (List.mem_append_left _ he)).snoc ⟨hst, hQ _ (List.mem_append_right _ List.mem_cons_self)⟩

/-- A system that can take every step of another has its runs. -/
theorem Run.mono {sys' : System σ ε} (hstep : ∀ s e t, sys.step s e t → sys'.step s e t) {s t : σ} {es : List ε}
    (h : sys.Run s es t) : sys'.Run s es t := by
  induction h with
  | nil => exact Run.nil
  | snoc _ hst ih => exact ih.snoc (hstep _ _ _ hst)

/-- A relation to the states of another system, which takes for each step the steps that this one shows there, relates the ends of
runs too. -/
theorem Run.simulated {τ : Type w} {δ : Type x} {sys' : System τ δ} {R : σ → τ → Prop} {shown : ε → List δ}
    (hstep : ∀ s e s' t, R s t → sys.step s e s' → ∃ t', sys'.Run t (shown e) t' ∧ R s' t') {s s' : σ} {es : List ε}
    (h : sys.Run s es s') {t : τ} (hR : R s t) : ∃ t', sys'.Run t (es.flatMap shown) t' ∧ R s' t' := by
  induction h with
  | nil => exact ⟨t, Run.nil, hR⟩
  | snoc _ hst ih =>
    obtain ⟨u, hu, hRu⟩ := ih
    obtain ⟨t', ht', hR'⟩ := hstep _ _ _ _ hRu hst
    rw [List.flatMap_append, List.flatMap_singleton]
    exact ⟨t', hu.trans ht', hR'⟩

/-- A rank that steps of one kind lower and no other step changes: a run with that many steps of this kind passes a state of rank
zero. -/
theorem Run.passes_zero {rank : σ → Nat} {own : ε → Bool}
    (hown : ∀ s e t, sys.step s e t → own e = true → rank s ≠ 0 → rank t < rank s)
    (hother : ∀ s e t, sys.step s e t → own e = false → rank t = rank s) {s t : σ} {es : List ε} (h : sys.Run s es t)
    (hlong : rank s ≤ es.countP own) : ∃ es₁ es₂ u, es = es₁ ++ es₂ ∧ sys.Run s es₁ u ∧ rank u = 0 := by
  have hpasses : (∃ es₁ es₂ u, es = es₁ ++ es₂ ∧ sys.Run s es₁ u ∧ rank u = 0) ∨ rank t + es.countP own ≤ rank s := by
    clear hlong
    induction h with
    | nil => exact .inr (Nat.le_refl _)
    | @snoc t u es e hr hst ih =>
      rcases ih with ⟨es₁, es₂, v, rfl, hv, hzero⟩ | hle
      · exact .inl ⟨es₁, es₂ ++ [e], v, List.append_assoc _ _ _, hv, hzero⟩
      by_cases hzero : rank t = 0
      · exact .inl ⟨es, [e], t, rfl, hr, hzero⟩
      right
      rw [List.countP_append, List.countP_singleton]
      cases he : own e with
      | true =>
        have hlt := hown _ _ _ hst he hzero
        rw [if_pos rfl]
        omega
      | false =>
        have heq := hother _ _ _ hst he
        rw [if_neg Bool.false_ne_true]
        omega
  rcases hpasses with hpass | hle
  · exact hpass
  · exact ⟨es, [], t, (List.append_nil _).symm, h, by omega⟩

/-- A property that a step keeps exactly when it meets a condition holds at the end of a run exactly when all its steps meet
the condition. -/
theorem Run.holds_iff_restrict {I P : σ → Prop} {C : σ → ε → Prop} (hI : ∀ s e t, I s → sys.step s e t → I t)
    (hP : ∀ s e t, I s → sys.step s e t → (P t ↔ P s ∧ C s e)) {s t : σ} {es : List ε} (h : sys.Run s es t) (hs : I s)
    (hPs : P s) : P t ↔ (sys.restrict C).Run s es t := by
  constructor
  · intro ht
    induction h with
    | nil => exact Run.nil
    | snoc hr hst ih =>
      obtain ⟨hu, hC⟩ := (hP _ _ _ (hr.keeps hI hs) hst).mp ht
      exact (ih hu).snoc ⟨hst, hC⟩
  · intro hr
    have hkeeps := hr.keeps (I := fun u => I u ∧ P u) ?_ ⟨hs, hPs⟩
    · exact hkeeps.2
    · rintro u e v ⟨hu, hPu⟩ ⟨hst, hC⟩
      exact ⟨hI u e v hu hst, (hP u e v hu hst).mpr ⟨hPu, hC⟩⟩

end System

/-- A machine that answers every input and moves. -/
structure Machine (σ : Type u) (ι : Type v) (ο : Type w) where
  next : σ → ι → ο × σ

namespace Machine

variable {σ : Type u} {τ : Type u} {ι : Type v} {ο : Type w}

/-- The answers to a list of inputs, and the state they leave. -/
def run (m : Machine σ ι ο) (s : σ) : List ι → List ο × σ
  | [] => ([], s)
  | i :: is => ((m.next s i).1 :: (m.run (m.next s i).2 is).1, (m.run (m.next s i).2 is).2)

theorem run_concat (m : Machine σ ι ο) (is : List ι) (i : ι) : ∀ s : σ,
    m.run s (is ++ [i]) = ((m.run s is).1 ++ [(m.next (m.run s is).2 i).1], (m.next (m.run s is).2 i).2) := by
  induction is with
  | nil =>
    intro s
    rfl
  | cons j is ih =>
    intro s
    rw [List.cons_append, run, ih, run, List.cons_append]

/-- `R` relates states of the two machines that answer every input alike and stay related. -/
def Simulates (m : Machine σ ι ο) (m' : Machine τ ι ο) (R : σ → τ → Prop) : Prop :=
  ∀ s t i, R s t → (m.next s i).1 = (m'.next t i).1 ∧ R (m.next s i).2 (m'.next t i).2

/-- Related states answer every list of inputs alike, and the states they leave are related. -/
theorem Simulates.run {m : Machine σ ι ο} {m' : Machine τ ι ο} {R : σ → τ → Prop} (h : m.Simulates m' R)
    (is : List ι) : ∀ s t, R s t → (m.run s is).1 = (m'.run t is).1 ∧ R (m.run s is).2 (m'.run t is).2 := by
  induction is with
  | nil => intro s t hR; exact ⟨rfl, hR⟩
  | cons i is ih =>
    intro s t hR
    obtain ⟨ho, hR'⟩ := h s t i hR
    obtain ⟨hos, hR''⟩ := ih _ _ hR'
    exact ⟨by rw [Machine.run, Machine.run, ho, hos], hR''⟩

end Machine

end Transition
