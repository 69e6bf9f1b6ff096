import Copper.Fs.Lexical
import Copper.Fs.Scan

/-!
# Paths put together

On POSIX, `cpr_path_join` is associative (`pathJoin_assoc`). It puts together what `cpr_path_dirname` and `cpr_path_basename`
take from one path, but the two do not part a path at the same place when it ends in a separator: `cpr_path_basename` keeps
the separator with the name before it, `cpr_path_dirname` does not take that name off. `PartsMeet` says where this does not
show.
-/

namespace Copper.Fs

/-! ## Three parts -/

/-- The last part that is absolute replaces those before it; the others are joined in any order. -/
theorem joinedPath_assoc (a b c : List UInt8) :
    joinedPath .posix (joinedPath .posix a b) c = joinedPath .posix a (joinedPath .posix b c) := by
  by_cases hc : pathIsAbs .posix (some c) = true
  · simp only [joinedPath, hc, if_true]
  · by_cases hb : pathIsAbs .posix (some b) = true
    · have hne : b ≠ [] := by
        rintro rfl
        exact absurd hb (by decide)
      have hbc : pathIsAbs .posix (some (joined .posix b c)) = true := by
        rw [pathIsAbs_posix, head?_joined .posix c hne]
        exact (pathIsAbs_posix b).mp hb
      simp only [joinedPath, hb, hc, hbc, if_true, if_false, Bool.false_eq_true]
    · have hbc : ¬ pathIsAbs .posix (some (joined .posix b c)) = true := by
        by_cases hne : b = []
        · rw [hne, nil_joined]
          exact hc
        · rw [pathIsAbs_posix, head?_joined .posix c hne, ← pathIsAbs_posix]
          exact hb
      simp only [joinedPath, hb, hc, hbc, if_false, Bool.false_eq_true]
      exact joined_assoc .posix a b c

/-- On POSIX, for buffers that are large enough, it does not matter which two of three parts are joined first. -/
theorem pathJoin_assoc (a b c : List UInt8) {n₁ n₂ n₃ n₄ : Nat}
    (hroom : a.length + b.length + c.length + 3 ≤ min (min n₁ n₂) (min n₃ n₄)) :
    ∃ ab bc abc,
      pathJoin .posix (.room n₁) (some a) (some b) = { result := true, state := some ab } ∧
      pathJoin .posix (.room n₂) (some ab) (some c) = { result := true, state := some abc } ∧
      pathJoin .posix (.room n₃) (some b) (some c) = { result := true, state := some bc } ∧
      pathJoin .posix (.room n₄) (some a) (some bc) = { result := true, state := some abc } := by
  have hab := length_joinedPath .posix a b
  have hbc := length_joinedPath .posix b c
  refine ⟨joinedPath .posix a b, joinedPath .posix b c, joinedPath .posix (joinedPath .posix a b) c, ?_, ?_, ?_, ?_⟩
  · exact pathJoin_fits (by omega)
  · exact pathJoin_fits (by omega)
  · exact pathJoin_fits (by omega)
  · rw [joinedPath_assoc]
    exact pathJoin_fits (by omega)

/-- `a/`, `b` and `../c`. -/
theorem pathJoin_assoc_simple :
    ∃ ab bc abc,
      pathJoin .posix (.room 11) (some [97, 47]) (some [98]) = { result := true, state := some ab } ∧
      pathJoin .posix (.room 11) (some ab) (some [46, 46, 47, 99]) = { result := true, state := some abc } ∧
      pathJoin .posix (.room 11) (some [98]) (some [46, 46, 47, 99]) = { result := true, state := some bc } ∧
      pathJoin .posix (.room 11) (some [97, 47]) (some bc) = { result := true, state := some abc } :=
  pathJoin_assoc [97, 47] [98] [46, 46, 47, 99] (by decide)

/-! ## Components -/

/-- `p` and `q` lead to the same place: from the same start, through the same components. -/
def SamePath (p q : List UInt8) : Prop :=
  pathIsAbs .posix (some p) = pathIsAbs .posix (some q) ∧ pathComponents p = pathComponents q

instance (p q : List UInt8) : Decidable (SamePath p q) := inferInstanceAs (Decidable (_ ∧ _))

theorem pathComponents_append_sep (a b : List UInt8) : pathComponents (a ++ 47 :: b) = pathComponents a ++ pathComponents b := by
  rw [pathComponents, List.splitOn_append_cons_self, List.filter_append, pathComponents, pathComponents]

theorem pathComponents_concat_sep (a : List UInt8) : pathComponents (a ++ [47]) = pathComponents a := by
  rw [pathComponents_append_sep]
  exact List.append_nil _

theorem pathComponents_of_noSep {n : List UInt8} (h : NoSep .posix n) :
    pathComponents n = if n = [] ∨ n = [46] then [] else [n] := by
  rw [pathComponents, List.splitOn_eq_singleton ((noSep_posix n).mp h)]
  by_cases hn : n = [] ∨ n = [46]
  · rw [if_pos hn, List.filter_cons_of_neg (by simpa [or_iff_not_imp_left] using hn), List.filter_nil]
  · rw [if_neg hn, List.filter_cons_of_pos (by simpa [not_or] using hn), List.filter_nil]

/-- Joining a relative part adds its components. -/
theorem pathComponents_joined (base : List UInt8) {part : List UInt8} (hpart : part ≠ []) :
    pathComponents (joined .posix base part) = pathComponents base ++ pathComponents part := by
  by_cases hbase : base = []
  · rw [hbase, nil_joined]
    rfl
  obtain ⟨init, c, rfl⟩ := (List.eq_nil_or_concat base).resolve_left hbase
  rw [List.concat_eq_append]
  by_cases hc : c = 47
  · rw [joined, if_neg, hc, List.append_nil, List.append_assoc, List.singleton_append, pathComponents_append_sep,
      pathComponents_concat_sep]
    rw [needSep_iff]
    simp [fsIsSep, hc]
  · rw [joined, if_pos, List.append_assoc, fsSep, List.singleton_append, pathComponents_append_sep]
    rw [needSep_iff]
    simp [fsIsSep, hc, hpart]

theorem samePath_joined_iff {base part p : List UInt8} (hbase : base ≠ []) (hpart : part ≠ []) (hhead : base.head? = p.head?) :
    SamePath (joined .posix base part) p ↔ pathComponents base ++ pathComponents part = pathComponents p := by
  have habs : pathIsAbs .posix (some (joined .posix base part)) = pathIsAbs .posix (some p) := by
    rw [Bool.eq_iff_iff, pathIsAbs_posix, pathIsAbs_posix, head?_joined .posix part hbase, hhead]
  rw [SamePath, pathComponents_joined base hpart]
  exact and_iff_right habs

/-! ## A path taken apart -/

/-- Where `cpr_path_dirname` and `cpr_path_basename` part a path at the same place, or what they disagree about is `.` or
nothing: the path does not end in a separator, ends in `./`, or has no components and is absolute. -/
def PartsMeet (p : List UInt8) : Prop :=
  p.getLast? ≠ some 47 ∨ p = [46, 47] ∨ [47, 46, 47] <:+ p ∨ pathIsAbs .posix (some p) = true ∧ pathComponents p = []

instance (p : List UInt8) : Decidable (PartsMeet p) := inferInstanceAs (Decidable (_ ∨ _))

/-- The string that `cpr_path_join` makes of what `cpr_path_dirname` and `cpr_path_basename` find. -/
def rejoined (p : List UInt8) : List UInt8 :=
  joinedPath .posix (parent .posix p) (p.drop (lastName .posix p 0 0))

theorem rejoined_eq {p base : List UInt8} (h : pathBasename .posix (some p) = some base) :
    rejoined p = joinedPath .posix (parent .posix p) base := by
  rw [pathBasename, Option.map_some, Option.some.injEq] at h
  rw [rejoined, h]

theorem not_abs_of_noSep {b : List UInt8} (hb : NoSep .posix b) : ¬ pathIsAbs .posix (some b) = true := by
  rw [pathIsAbs_posix]
  intro h
  exact (noSep_posix b).mp hb (List.mem_of_head? h)

/-- A name by itself. -/
theorem samePath_rejoined_name {p : List UInt8} (hp : NoSep .posix p) : SamePath (rejoined p) p ∧ PartsMeet p := by
  constructor
  · by_cases hnil : p = []
    · rw [hnil]
      decide
    obtain ⟨init, d, rfl⟩ := (List.eq_nil_or_concat' _).resolve_left hnil
    have hinit : NoSep .posix init := fun c hc => hp c (List.mem_append_left _ hc)
    rw [rejoined_eq (pathBasename_of_noSep hinit), parent_of_noSep hp, joinedPath, if_neg (not_abs_of_noSep hp)]
    have hrel : pathIsAbs .posix (some (init ++ [d])) = false := eq_false_of_ne_true (not_abs_of_noSep hp)
    refine ⟨?_, ?_⟩
    · rw [hrel, ← Bool.not_eq_true, pathIsAbs_posix, head?_joined .posix _ (by decide)]
      decide
    · rw [pathComponents_joined [46] hnil]
      rfl
  · left
    intro h
    exact (noSep_posix p).mp hp (List.mem_of_getLast? h)

/-- A name after a separator. -/
theorem samePath_rejoined_cut (a : List UInt8) {b : List UInt8} (hb : NoSep .posix b) (hne : b ≠ []) :
    SamePath (rejoined (a ++ 47 :: b)) (a ++ 47 :: b) ∧ PartsMeet (a ++ 47 :: b) := by
  obtain ⟨init, d, rfl⟩ := (List.eq_nil_or_concat' _).resolve_left hne
  have hinit : NoSep .posix init := fun c hc => hb c (List.mem_append_left _ hc)
  constructor
  · rw [rejoined_eq (pathBasename_cut rfl hinit), parent_cut rfl hb, joinedPath, if_neg (not_abs_of_noSep hb)]
    by_cases ha : a = []
    · rw [if_pos ha, ha]
      refine (samePath_joined_iff (List.cons_ne_nil 47 []) hne ?_).mpr (pathComponents_append_sep [] _).symm
      rfl
    · rw [if_neg ha]
      refine (samePath_joined_iff ha hne ?_).mpr (pathComponents_append_sep a _).symm
      rw [List.head?_append_of_ne_nil _ ha]
  · left
    intro h
    refine (noSep_posix _).mp hb ?_
    rw [← List.singleton_append, ← List.append_assoc, ← List.append_assoc, List.getLast?_concat, Option.some.injEq] at h
    simp [h]

/-- Only a separator. -/
theorem samePath_rejoined_root : SamePath (rejoined [47]) [47] ∧ PartsMeet [47] := by
  decide

/-- Separators at the end: the last of them is taken for an absolute path. -/
theorem samePath_rejoined_separators (a : List UInt8) :
    SamePath (rejoined (a ++ 47 :: [47])) (a ++ 47 :: [47]) ↔ PartsMeet (a ++ 47 :: [47]) := by
  have hbase : pathBasename .posix (some (a ++ 47 :: [47])) = some [47] :=
    pathBasename_cut (b := []) rfl fun c hc => absurd hc List.not_mem_nil
  rw [rejoined_eq hbase, joinedPath, if_pos (by decide)]
  have hslash : pathComponents [47] = [] := by decide
  have habs : pathIsAbs .posix (some [47]) = true := by decide
  constructor
  · rintro ⟨hstart, hcomps⟩
    exact .inr (.inr (.inr ⟨hstart.symm.trans habs, hcomps.symm.trans hslash⟩))
  · rintro (hlast | heq | ⟨t, ht⟩ | ⟨hstart, hcomps⟩)
    · exact absurd (by simp) hlast
    · have hlen := congrArg (fun p => p.reverse.tail.head?) heq
      simp at hlen
    · have hlen := congrArg (fun p => p.reverse.tail.head?) ht
      simp at hlen
    · exact ⟨habs.trans hstart.symm, hslash.trans hcomps.symm⟩

/-- A name, and one separator at the end: the name is kept on both sides. -/
theorem samePath_rejoined_trailing {q b : List UInt8} (hq : q ≠ []) (hb : NoSep .posix b) (hne : b ≠ [])
    (hbase : pathBasename .posix (some (q ++ [47])) = some (b ++ [47])) :
    SamePath (rejoined (q ++ [47])) (q ++ [47]) ↔ b = [46] := by
  have hpart : ¬ pathIsAbs .posix (some (b ++ [47])) = true := by
    rw [pathIsAbs_posix, List.head?_append_of_ne_nil _ hne, ← pathIsAbs_posix]
    exact not_abs_of_noSep hb
  have hparent : parent .posix (q ++ [47]) = q := by
    rw [parent_cut rfl fun c hc => absurd hc List.not_mem_nil, if_neg hq]
  have hhead : q.head? = (q ++ [47]).head? := (List.head?_append_of_ne_nil _ hq).symm
  rw [rejoined_eq hbase, hparent, joinedPath, if_neg hpart, samePath_joined_iff hq (by simp) hhead, pathComponents_concat_sep,
    pathComponents_concat_sep, List.append_right_eq_self, pathComponents_of_noSep hb]
  simp [hne]

theorem eq_dot_of_pathComponents {b : List UInt8} (hb : NoSep .posix b) (hne : b ≠ []) (h : pathComponents b = []) : b = [46] := by
  rw [pathComponents_of_noSep hb] at h
  simpa [hne] using h

/-- A name and one separator at the end: only `.` passes unnoticed. -/
theorem partsMeet_trailing {a b : List UInt8} (ha : a = [] ∨ ∃ c, a = c ++ [47]) (hb : NoSep .posix b) (hne : b ≠ []) :
    PartsMeet (a ++ b ++ [47]) ↔ b = [46] := by
  constructor
  · rintro (hlast | heq | ⟨t, ht⟩ | ⟨-, hcomps⟩)
    · exact absurd List.getLast?_concat hlast
    · have heq : a ++ b ++ [47] = [46] ++ [47] := heq
      have hab : a ++ b = [46] := List.append_cancel_right heq
      rcases List.append_eq_singleton_iff.mp hab with ⟨-, h⟩ | ⟨-, h⟩
      · exact h
      · exact absurd h hne
    · obtain ⟨init, d, rfl⟩ := (List.eq_nil_or_concat' _).resolve_left hne
      have hcut : (t ++ [47]) ++ [46, 47] = (a ++ init) ++ [d, 47] := by simpa using ht
      obtain ⟨hinit, hd⟩ := List.append_inj' hcut rfl
      obtain rfl : 46 = d := List.head_eq_of_cons_eq hd
      by_cases hnil : init = []
      · rw [hnil]
        rfl
      · obtain ⟨init, e, rfl⟩ := (List.eq_nil_or_concat' _).resolve_left hnil
        rw [← List.append_assoc] at hinit
        obtain ⟨-, he⟩ := List.append_inj' hinit rfl
        exact absurd (by simp [← he]) ((noSep_posix _).mp hb)
    · rw [pathComponents_concat_sep] at hcomps
      refine eq_dot_of_pathComponents hb hne ?_
      rcases ha with rfl | ⟨c, rfl⟩
      · exact hcomps
      · rw [List.append_assoc, List.singleton_append, pathComponents_append_sep] at hcomps
        exact (List.append_eq_nil_iff.mp hcomps).2
  · rintro rfl
    rcases ha with rfl | ⟨c, rfl⟩
    · exact .inr (.inl rfl)
    · exact .inr (.inr (.inl ⟨c, by simp⟩))

/-- What the two find in a path leads back to it exactly where they part it at the same place. -/
theorem samePath_rejoined_iff (p : List UInt8) : SamePath (rejoined p) p ↔ PartsMeet p := by
  rcases cut_last_sep .posix p with hp | ⟨a, c, b, rfl, hc, hb⟩
  · exact iff_of_true (samePath_rejoined_name hp).1 (samePath_rejoined_name hp).2
  rw [fsIsSep_posix] at hc
  subst hc
  by_cases hne : b = []
  · subst hne
    rcases cut_last_sep .posix a with ha | ⟨a, c, b, rfl, hc, hb⟩
    · by_cases hnil : a = []
      · rw [hnil]
        exact iff_of_true samePath_rejoined_root.1 samePath_rejoined_root.2
      · rw [samePath_rejoined_trailing hnil ha hnil (pathBasename_of_noSep ha)]
        exact (@partsMeet_trailing [] a (.inl rfl) ha hnil).symm
    · rw [fsIsSep_posix] at hc
      subst hc
      by_cases hname : b = []
      · rw [hname]
        simpa using samePath_rejoined_separators a
      · have hsplit : a ++ 47 :: b ++ [47] = (a ++ [47]) ++ b ++ [47] := by simp
        have hbase : pathBasename .posix (some (a ++ 47 :: b ++ [47])) = some (b ++ [47]) := by
          rw [List.append_assoc, List.cons_append]
          exact pathBasename_cut rfl hb
        rw [samePath_rejoined_trailing (by simp) hb hname hbase, hsplit, partsMeet_trailing (.inr ⟨a, rfl⟩) hb hname]
  · exact iff_of_true (samePath_rejoined_cut a hb hne).1 (samePath_rejoined_cut a hb hne).2

/-- On POSIX, with buffers that are large enough, `cpr_path_join` makes of what `cpr_path_dirname` and `cpr_path_basename` find
in a path one that leads to the same place, exactly where the two part it at the same place. -/
theorem dirname_join_basename (p : List UInt8) {n m : Nat} (hn : p.length + 2 ≤ n) (hm : 2 * p.length + 3 ≤ m) :
    ∃ d base j,
      pathDirname .posix (.room n) (some p) = { result := true, state := some d } ∧
      pathBasename .posix (some p) = some base ∧
      pathJoin .posix (.room m) (some d) (some base) = { result := true, state := some j } ∧
      (SamePath j p ↔ PartsMeet p) := by
  refine ⟨parent .posix p, p.drop (lastName .posix p 0 0), rejoined p, pathDirname_fits (by omega), rfl, pathJoin_fits ?_,
    samePath_rejoined_iff p⟩
  have hdir := length_parent .posix p
  have hbase := List.length_drop (l := p) (i := lastName .posix p 0 0)
  omega

/-- `/a//b`, and `a/./`. -/
theorem dirname_join_basename_simple :
    (∃ d base j,
      pathDirname .posix (.room 7) (some [47, 97, 47, 47, 98]) = { result := true, state := some d } ∧
      pathBasename .posix (some [47, 97, 47, 47, 98]) = some base ∧
      pathJoin .posix (.room 13) (some d) (some base) = { result := true, state := some j } ∧
      (SamePath j [47, 97, 47, 47, 98] ↔ PartsMeet [47, 97, 47, 47, 98])) ∧
    PartsMeet [47, 97, 47, 47, 98] ∧ PartsMeet [97, 47, 46, 47] :=
  ⟨dirname_join_basename [47, 97, 47, 47, 98] (by decide) (by decide), by decide, by decide⟩

/-- `a/` becomes `a/a/`, and `a//` becomes `/`. -/
theorem dirname_join_basename_differs :
    (pathDirname .posix (.room 4096) (some [97, 47])).state = some [97] ∧
      pathBasename .posix (some [97, 47]) = some [97, 47] ∧
      (pathJoin .posix (.room 4096) (some [97]) (some [97, 47])).state = some [97, 47, 97, 47] ∧
      ¬ SamePath [97, 47, 97, 47] [97, 47] ∧
      (pathDirname .posix (.room 4096) (some [97, 47, 47])).state = some [97, 47] ∧
      pathBasename .posix (some [97, 47, 47]) = some [47] ∧
      (pathJoin .posix (.room 4096) (some [97, 47]) (some [47])).state = some [47] ∧ ¬ SamePath [47] [97, 47, 47] := by
  decide

end Copper.Fs
