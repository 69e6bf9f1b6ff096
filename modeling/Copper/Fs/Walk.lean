import Copper.Fs.Scan

/-!
# Walking up

`cpr_path_dirname`, over and over. Each time the path gets shorter, until it is `.` or a lone separator; and it starts with a
separator as long as it did at first (`rooted_parent`). On POSIX this is what makes a path absolute. On Windows it takes two
separators or a drive to make one absolute, and neither survives: the walk leaves every absolute path.
-/

namespace Copper.Fs

variable {platform : Platform} {p q : List UInt8} {bufSize : Nat}

/-- Whether a path starts with a separator. -/
def rooted (platform : Platform) (p : List UInt8) : Bool := p.head?.any (fsIsSep platform)

/-- `cpr_path_dirname`, `k` times, each time of the string that it wrote before. -/
def walkUp (platform : Platform) (bufSize : Nat) : Nat → List UInt8 → Option (List UInt8)
  | 0, p => some p
  | k + 1, p => (pathDirname platform (.room bufSize) (some p)).state.bind (walkUp platform bufSize k)

/-- `cpr_path_dirname` writes the string that it is given. -/
def AtTop (platform : Platform) (bufSize : Nat) (q : List UInt8) : Prop :=
  pathDirname platform (.room bufSize) (some q) = { result := true, state := some q }

/-- The directory of an absolute path is absolute; and in at most one step more than the path has bytes the walk gets to where
it stays, which is absolute if the path is, and `.` if the path is relative and does not start with a separator. -/
def WalksUp (platform : Platform) (bufSize : Nat) (p : List UInt8) : Prop :=
  (pathIsAbs platform (some p) = true →
    ∃ d, pathDirname platform (.room bufSize) (some p) = { result := true, state := some d } ∧
      pathIsAbs platform (some d) = true) ∧
  ∃ k q, k ≤ p.length + 1 ∧ walkUp platform bufSize k p = some q ∧ AtTop platform bufSize q ∧
    (pathIsAbs platform (some p) = true → pathIsAbs platform (some q) = true) ∧
    (pathIsAbs platform (some p) = false → rooted platform p = false → q = [46])

/-! ## One step -/

/-- The directory of a path starts with a separator exactly when the path does. -/
theorem rooted_parent (platform : Platform) (p : List UInt8) : rooted platform (parent platform p) = rooted platform p := by
  rcases cut_last_sep platform p with hp | ⟨a, c, b, rfl, hc, hb⟩
  · have hdot : rooted platform [46] = false := by
      cases platform <;> rfl
    rw [parent_of_noSep hp, hdot]
    cases p with
    | nil => rfl
    | cons c p => exact (hp c List.mem_cons_self).symm
  · rw [parent_cut hc hb]
    cases a with
    | nil => rfl
    | cons d a => rfl

/-- The walk stays at `.` and at a lone separator. -/
theorem parent_eq_self_iff : parent platform p = p ↔ p = [46] ∨ ∃ c, fsIsSep platform c = true ∧ p = [c] := by
  constructor
  · intro h
    rcases cut_last_sep platform p with hp | ⟨a, c, b, rfl, hc, hb⟩
    · rw [parent_of_noSep hp] at h
      exact .inl h.symm
    · rw [parent_cut hc hb] at h
      have hlen := congrArg List.length h
      rw [List.length_append, List.length_cons] at hlen
      right
      split at h
      · rename_i ha
        rw [ha, List.nil_append] at h ⊢
        exact ⟨c, hc, h.symm⟩
      · rename_i ha
        rw [if_neg ha] at hlen
        omega
  · rintro (rfl | ⟨c, hc, rfl⟩)
    · refine parent_of_noSep fun c hc => ?_
      rw [List.mem_singleton.mp hc]
      cases platform <;> rfl
    · exact parent_cut (a := []) hc fun d hd => absurd hd List.not_mem_nil

/-- Elsewhere it gets shorter, or to `.`. -/
theorem parent_cases (platform : Platform) (p : List UInt8) :
    parent platform (parent platform p) = parent platform p ∨ (parent platform p).length < p.length := by
  rcases cut_last_sep platform p with hp | ⟨a, c, b, rfl, hc, hb⟩
  · rw [parent_of_noSep hp]
    exact .inl (parent_eq_self_iff.mpr (.inl rfl))
  · rw [parent_cut hc hb]
    by_cases ha : a = []
    · rw [if_pos ha]
      exact .inl (parent_eq_self_iff.mpr (.inr ⟨c, hc, rfl⟩))
    · rw [if_neg ha, List.length_append, List.length_cons]
      exact .inr (by omega)

theorem atTop_iff (hroom : max 2 q.length ≤ bufSize) : AtTop platform bufSize q ↔ parent platform q = q := by
  rw [AtTop, pathDirname_fits hroom]
  constructor
  · intro h
    exact Option.some.inj (congrArg Outcome.state h)
  · intro h
    rw [h]

theorem parent_of_atTop (h : AtTop platform bufSize q) : parent platform q = q :=
  (eq_parent_of_state (congrArg Outcome.state h)).symm

/-! ## The whole walk -/

theorem walkUp_succ (hroom : max 2 p.length ≤ bufSize) (k : Nat) :
    walkUp platform bufSize (k + 1) p = walkUp platform bufSize k (parent platform p) := by
  rw [walkUp, pathDirname_fits hroom]
  rfl

/-- By induction on the length of the path: what a step keeps holds where the walk ends. -/
theorem walkUp_reaches (hroom : max 2 p.length ≤ bufSize) {I : List UInt8 → Prop} (hI : ∀ r, I r → I (parent platform r))
    (hp : I p) : ∃ k q, k ≤ p.length + 1 ∧ walkUp platform bufSize k p = some q ∧ AtTop platform bufSize q ∧ I q := by
  induction hn : p.length using Nat.strongRecOn generalizing p with
  | ind n ih =>
    have hlen := length_parent platform p
    have hnext : max 2 (parent platform p).length ≤ bufSize := by omega
    rcases parent_cases platform p with htop | hlt
    · refine ⟨1, parent platform p, by omega, ?_, (atTop_iff hnext).mpr htop, hI p hp⟩
      rw [walkUp_succ hroom, walkUp]
    · obtain ⟨k, q, hk, hwalk, hq⟩ := ih _ (hn ▸ hlt) hnext (hI p hp) rfl
      refine ⟨k + 1, q, by omega, ?_, hq⟩
      rw [walkUp_succ hroom, hwalk]

theorem pathIsAbs_posix_eq (p : List UInt8) : pathIsAbs .posix (some p) = rooted .posix p := by
  cases p with
  | nil => rfl
  | cons c p =>
    rw [Bool.eq_iff_iff, pathIsAbs_posix, rooted, List.head?_cons, Option.any_some, fsIsSep_posix, Option.some.injEq]

/-- A path that starts with a separator does not get to `.`, and one that does not gets nowhere else. -/
theorem eq_dot_of_atTop (h : AtTop platform bufSize q) (hroot : rooted platform q = false) : q = [46] := by
  rcases parent_eq_self_iff.mp (parent_of_atTop h) with rfl | ⟨c, hc, rfl⟩
  · rfl
  · rw [rooted, List.head?_cons, Option.any_some, hc] at hroot
    cases hroot

/-- No path where the walk ends is absolute on Windows. -/
theorem not_abs_of_atTop (h : AtTop .windows bufSize q) : pathIsAbs .windows (some q) = false := by
  rcases parent_eq_self_iff.mp (parent_of_atTop h) with rfl | ⟨c, -, rfl⟩
  · rfl
  · simp [pathIsAbs]

/-- With a buffer that is large enough, walking up from a path is well behaved on POSIX, and on Windows exactly from the paths
that are not absolute. -/
theorem walksUp_iff (platform : Platform) (p : List UInt8) {bufSize : Nat} (hroom : max 2 p.length ≤ bufSize) :
    WalksUp platform bufSize p ↔ platform = .posix ∨ pathIsAbs .windows (some p) = false := by
  have hwalk := walkUp_reaches (I := fun r => rooted platform r = rooted platform p) hroom
    (fun r hr => (rooted_parent platform r).trans hr) rfl
  obtain ⟨k, q, hk, hreach, htop, hroot⟩ := hwalk
  constructor
  · rintro ⟨-, k, q, -, -, htop, habs, -⟩
    cases platform with
    | posix => exact .inl rfl
    | windows =>
      right
      by_contra hp
      have hq := habs (eq_true_of_ne_false hp)
      rw [not_abs_of_atTop htop] at hq
      cases hq
  · intro h
    cases platform with
    | posix =>
      refine ⟨fun habs => ⟨parent .posix p, pathDirname_fits hroom, ?_⟩, k, q, hk, hreach, htop, ?_, ?_⟩
      · rwa [pathIsAbs_posix_eq, rooted_parent, ← pathIsAbs_posix_eq]
      · rw [pathIsAbs_posix_eq, pathIsAbs_posix_eq, hroot]
        exact id
      · intro _ hp
        exact eq_dot_of_atTop htop (hroot.trans hp)
    | windows =>
      have hrel := h.resolve_left (by decide)
      rw [WalksUp, hrel]
      exact ⟨fun habs => absurd habs (by decide), k, q, hk, hreach, htop, fun habs => absurd habs (by decide),
        fun _ hp => eq_dot_of_atTop htop (hroot.trans hp)⟩

/-- From `/a/b`, and on Windows from `a\b`. -/
theorem walksUp_simple :
    (WalksUp .posix 5 [47, 97, 47, 98] ↔ Platform.posix = .posix ∨ pathIsAbs .windows (some [47, 97, 47, 98]) = false) ∧
      (WalksUp .windows 4 [97, 92, 98] ↔ Platform.windows = .posix ∨ pathIsAbs .windows (some [97, 92, 98]) = false) ∧
      pathIsAbs .windows (some [97, 92, 98]) = false :=
  ⟨walksUp_iff .posix [47, 97, 47, 98] (by decide), walksUp_iff .windows [97, 92, 98] (by decide), by decide⟩

/-- On Windows, from `C:\a` the walk leaves the drive's root for `C:`, and ends at `.`. -/
theorem not_walksUp :
    pathIsAbs .windows (some [67, 58, 92, 97]) = true ∧
      (pathDirname .windows (.room 4096) (some [67, 58, 92, 97])).state = some [67, 58] ∧
      pathIsAbs .windows (some [67, 58]) = false ∧ walkUp .windows 4096 2 [67, 58, 92, 97] = some [46] ∧
      ¬ WalksUp .windows 4096 [67, 58, 92, 97] := by
  refine ⟨by decide, by decide, by decide, by decide, ?_⟩
  rintro ⟨hdir, -⟩
  obtain ⟨d, hd, habs⟩ := hdir (by decide)
  obtain rfl : [67, 58] = d := Option.some.inj (Eq.trans (by decide) (congrArg Outcome.state hd))
  exact absurd habs (by decide)

end Copper.Fs
