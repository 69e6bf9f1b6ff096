import Mathlib.Logic.Function.Basic

/-!
# Owned resources

Resources that exist or do not, each with what is stored in it, and places that may own one. The ledger is in order (`Owned`) when
every place owns a resource that exists and stores what the place expects, no two places own one, and every resource that exists is
owned. A place that acquires a resource nobody has, stores to its own, gives it up or hands it on keeps the ledger in order, whatever
the other places own.
-/

namespace Ledger

universe u v w

variable {π : Type u} {α : Type v} {β : Type w}

/-- `own p` is what the place `p` owns, and what it expects there. -/
structure Owned (heap : α → Option β) (own : π → Option (α × β)) : Prop where
  holds : ∀ p a b, own p = some (a, b) → heap a = some b
  unique : ∀ p q a b c, own p = some (a, b) → own q = some (a, c) → p = q
  covered : ∀ a b, heap a = some b → ∃ p, own p = some (a, b)

namespace Owned

variable {heap : α → Option β} {own : π → Option (α × β)} (h : Owned heap own)

/-- Nothing exists when nothing is owned. -/
theorem eq_none (h : Owned heap own) (hown : ∀ p, own p = none) (a : α) : heap a = none := by
  cases ha : heap a with
  | none => rfl
  | some b =>
    obtain ⟨p, hp⟩ := h.covered a b ha
    exact absurd ((hown p).symm.trans hp) (by nofun)

/-- What exists has one owner. -/
theorem existsUnique {a : α} {b : β} (h : Owned heap own) (ha : heap a = some b) : ∃! p, own p = some (a, b) := by
  obtain ⟨p, hp⟩ := h.covered a b ha
  exact ⟨p, hp, fun q hq => h.unique q p a b b hq hp⟩

theorem of_eq {own' : π → Option (α × β)} (h : Owned heap own) (heq : own' = own) : Owned heap own' := heq ▸ h

theorem none : Owned (fun _ => none : α → Option β) (fun _ => none : π → Option (α × β)) :=
  ⟨nofun, nofun, nofun⟩

/-- What nobody has is nobody's. -/
theorem ne_of_none {p : π} {a a' : α} {b : β} (h : Owned heap own) (ha : heap a = .none) (hp : own p = some (a', b)) : a' ≠ a := by
  rintro rfl
  exact absurd ((h.holds p a' b hp).symm.trans ha) (by nofun)

variable [DecidableEq π]

/-- A place that is given what it owns. -/
theorem update_same {p : π} {x : Option (α × β)} (hp : own p = x) : Function.update own p x = own := by
  rw [← hp]
  exact Function.update_eq_self p own

variable [DecidableEq α]

include h

/-- A place that owns nothing acquires a resource nobody has. -/
theorem acquire {p : π} {a : α} (b : β) (ha : heap a = .none) (hp : own p = .none) :
    Owned (Function.update heap a (some b)) (Function.update own p (some (a, b))) where
  holds q a' b' hq := by
    by_cases hqp : q = p
    · subst hqp
      rw [Function.update_self] at hq
      cases hq
      exact Function.update_self ..
    · rw [Function.update_of_ne hqp] at hq
      rw [Function.update_of_ne (h.ne_of_none ha hq)]
      exact h.holds q a' b' hq
  unique q r a' b' c' hq hr := by
    by_cases hqp : q = p <;> by_cases hrp : r = p
    · rw [hqp, hrp]
    · rw [hqp, Function.update_self] at hq
      rw [Function.update_of_ne hrp] at hr
      cases hq
      exact absurd rfl (h.ne_of_none ha hr)
    · rw [hrp, Function.update_self] at hr
      rw [Function.update_of_ne hqp] at hq
      cases hr
      exact absurd rfl (h.ne_of_none ha hq)
    · rw [Function.update_of_ne hqp] at hq
      rw [Function.update_of_ne hrp] at hr
      exact h.unique q r a' b' c' hq hr
  covered a' b' ha' := by
    by_cases haa : a' = a
    · subst haa
      rw [Function.update_self] at ha'
      cases ha'
      exact ⟨p, Function.update_self ..⟩
    · rw [Function.update_of_ne haa] at ha'
      obtain ⟨q, hq⟩ := h.covered a' b' ha'
      refine ⟨q, ?_⟩
      rw [Function.update_of_ne]
      · exact hq
      · rintro rfl
        exact absurd (hp.symm.trans hq) (by nofun)

/-- A place gives its resource up. -/
theorem release {p : π} {a : α} {b : β} (hp : own p = some (a, b)) :
    Owned (Function.update heap a .none) (Function.update own p .none) where
  holds q a' b' hq := by
    by_cases hqp : q = p
    · rw [hqp, Function.update_self] at hq
      cases hq
    · rw [Function.update_of_ne hqp] at hq
      rw [Function.update_of_ne]
      · exact h.holds q a' b' hq
      · rintro rfl
        exact hqp (h.unique q p a' b' b hq hp)
  unique q r a' b' c' hq hr := by
    by_cases hqp : q = p
    · rw [hqp, Function.update_self] at hq
      cases hq
    · by_cases hrp : r = p
      · rw [hrp, Function.update_self] at hr
        cases hr
      · rw [Function.update_of_ne hqp] at hq
        rw [Function.update_of_ne hrp] at hr
        exact h.unique q r a' b' c' hq hr
  covered a' b' ha' := by
    by_cases haa : a' = a
    · rw [haa, Function.update_self] at ha'
      cases ha'
    · rw [Function.update_of_ne haa] at ha'
      obtain ⟨q, hq⟩ := h.covered a' b' ha'
      refine ⟨q, ?_⟩
      rw [Function.update_of_ne]
      · exact hq
      · rintro rfl
        exact haa (Prod.mk.inj (Option.some.inj (hq.symm.trans hp))).1

/-- A place stores to its resource. -/
theorem store {p : π} {a : α} {b : β} (hp : own p = some (a, b)) (b' : β) :
    Owned (Function.update heap a (some b')) (Function.update own p (some (a, b'))) := by
  have hgone := (h.release hp).acquire b' (Function.update_self ..) (Function.update_self ..)
  rwa [Function.update_idem, Function.update_idem] at hgone

/-- A place hands its resource to one that owns nothing. -/
theorem move {p q : π} {a : α} {b : β} (hp : own p = some (a, b)) (hq : own q = .none) :
    Owned heap (Function.update (Function.update own p .none) q (some (a, b))) := by
  have hne : q ≠ p := by
    rintro rfl
    exact absurd (hq.symm.trans hp) (by nofun)
  have hq' : Function.update own p .none q = .none := by rw [Function.update_of_ne hne, hq]
  have hmoved := (h.release hp).acquire b (Function.update_self ..) hq'
  rwa [Function.update_idem, ← h.holds p a b hp, Function.update_eq_self] at hmoved

end Owned

end Ledger
