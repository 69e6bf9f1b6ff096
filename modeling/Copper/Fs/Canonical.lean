import Copper.Fs.Lexical

/-!
# Normalised paths are canonical

Whatever the depth of the path, and whatever the stack has lost track of, the result has the shape of a normalised path
(`normalize_canonical`).
-/

namespace Copper.Fs

open Separated

/-! ## The shape of the result -/

/-- The components of a result, of which `/` has none. -/
def resultComponents (out : List UInt8) : List (List UInt8) :=
  if out = [47] then [] else (if out.head? = some 47 then out.tail else out).splitOn 47

/-- The shape of a normalised path. -/
structure Canonical (path out : List UInt8) : Prop where
  absolute : out.head? = some 47 ↔ path.head? = some 47
  nonempty : [] ∉ resultComponents out
  trailing : out.getLast? = some 47 → out = [47]
  dot : [46] ∈ resultComponents out → out = [46]
  rooted : path.head? = some 47 → [46, 46] ∉ resultComponents out
  dotsFirst : ∃ dots names, resultComponents out = List.replicate dots [46, 46] ++ names ∧ [46, 46] ∉ names

section

variable {isAbs : Bool} {ns : List (List UInt8)}

theorem head?_spell (hns : isAbs = false → ns ≠ []) (h : ∀ n ∈ ns, n ≠ [] ∧ (47 : UInt8) ∉ n) :
    (spell isAbs ns).head? = some 47 ↔ isAbs = true := by
  cases isAbs with
  | true => exact iff_of_true rfl rfl
  | false =>
    obtain ⟨c, hc, hne⟩ := head?_intercalate (hns rfl) h
    refine iff_of_false (fun heq => hne ?_) Bool.false_ne_true
    rw [spell, if_neg Bool.false_ne_true, List.nil_append, hc] at heq
    exact Option.some.inj heq

/-- The components of a spelling. -/
theorem resultComponents_spell (hns : isAbs = false → ns ≠ []) (h : ∀ n ∈ ns, n ≠ [] ∧ (47 : UInt8) ∉ n) :
    resultComponents (spell isAbs ns) = ns := by
  by_cases hempty : ns = []
  · cases isAbs with
    | true =>
      rw [hempty]
      rfl
    | false => exact absurd hempty (hns rfl)
  · have hroot : spell isAbs ns ≠ [47] := by
      intro hroot
      obtain ⟨c, hc, hne⟩ := getLast?_spell isAbs hempty h
      rw [hroot] at hc
      cases hc
      exact hne rfl
    have hbody : (if (spell isAbs ns).head? = some 47 then (spell isAbs ns).tail else spell isAbs ns) = [47].intercalate ns := by
      cases isAbs with
      | true => rfl
      | false => rw [if_neg fun hhead => Bool.false_ne_true ((head?_spell hns h).mp hhead)]; rfl
    rw [resultComponents, if_neg hroot, hbody, List.splitOn_intercalate 47 (fun n hn => (h n hn).2) hempty]

theorem trailing_spell (hns : isAbs = false → ns ≠ []) (h : ∀ n ∈ ns, n ≠ [] ∧ (47 : UInt8) ∉ n)
    (hlast : (spell isAbs ns).getLast? = some 47) : spell isAbs ns = [47] := by
  by_cases hempty : ns = []
  · cases isAbs with
    | true =>
      rw [hempty]
      rfl
    | false => exact absurd hempty (hns rfl)
  · obtain ⟨c, hc, hne⟩ := getLast?_spell isAbs hempty h
    rw [hc] at hlast
    exact absurd (Option.some.inj hlast) hne

end

section

variable {isAbs : Bool} {k : Kept}

/-- The result of a relative path has a component. -/
theorem Kept.result_ne_nil (habs : isAbs = false) : k.result isAbs ≠ [] := by
  unfold Kept.result
  split
  · exact List.cons_ne_nil _ _
  · rename_i hempty
    split
    · exact List.cons_ne_nil _ _
    · exact fun h => hempty ⟨habs, h⟩

/-- The result is `.`, or `..` only at the front, of a relative path, and then names. -/
theorem Kept.Valid.result_cases (hk : k.Valid isAbs) :
    (isAbs = false ∧ k.result isAbs = [[46]]) ∨
      ∃ dots names, k.result isAbs = List.replicate dots [46, 46] ++ names ∧ (isAbs = true → dots = 0) ∧
        ∀ n ∈ names, n ≠ [46] ∧ n ≠ [46, 46] := by
  unfold Kept.result
  split
  · rename_i hempty
    exact Or.inl ⟨hempty.1, rfl⟩
  · split
    · refine Or.inr ⟨0, [[92, 46]], rfl, fun _ => rfl, fun n hn => ?_⟩
      rw [List.mem_singleton.mp hn]
      decide
    · refine Or.inr ⟨k.dots, k.tracked ++ k.untracked, List.append_assoc _ _ _, hk.abs, fun n hn => ?_⟩
      exact ⟨(hk.names n hn).2.1, (hk.names n hn).2.2.1⟩

end

/-- On POSIX, whatever the depth of the path, a call that returns true leaves a canonical path. -/
theorem normalize_canonical {mem : Nat → UInt8} {bufSize : Nat} {path : List UInt8}
    (h : (normalizePath .posix mem (.room bufSize) (some path)).result = true) :
    Canonical path (normalizePath .posix mem (.room bufSize) (some path)).state.text := by
  rw [(state_of_result h).2, (text_normalized mem path).1]
  have habs : path.head? = some 47 ↔ pathIsAbs .posix (some path) = true := by
    rw [pathIsAbs, decide_eq_true_eq, List.head?_eq_getElem?]
  have hk := (tracks_looped mem path).1
  generalize pathIsAbs .posix (some path) = isAbs at *
  have hns := fun h0 => @Kept.result_ne_nil isAbs (kept isAbs path) h0
  have hcomponents := resultComponents_spell hns hk.result
  refine ⟨(head?_spell hns hk.result).trans habs.symm, ?_, trailing_spell hns hk.result, ?_, ?_, ?_⟩
  · rw [hcomponents]
    exact fun hmem => (hk.result _ hmem).1 rfl
  · rw [hcomponents]
    intro hmem
    rcases hk.result_cases with ⟨hrel, hdot⟩ | ⟨dots, names, hresult, -, hnames⟩
    · rw [hdot, hrel]
      rfl
    · rw [hresult, List.mem_append] at hmem
      rcases hmem with hmem | hmem
      · cases List.eq_of_mem_replicate hmem
      · exact absurd rfl (hnames _ hmem).1
  · rw [hcomponents]
    intro hhead hmem
    rcases hk.result_cases with ⟨hrel, -⟩ | ⟨dots, names, hresult, hdots, hnames⟩
    · rw [habs.mp hhead] at hrel
      cases hrel
    · rw [hresult, hdots (habs.mp hhead)] at hmem
      exact (hnames _ hmem).2 rfl
  · rw [hcomponents]
    rcases hk.result_cases with ⟨-, hdot⟩ | ⟨dots, names, hresult, -, hnames⟩
    · exact ⟨0, [[46]], hdot, by decide⟩
    · exact ⟨dots, names, hresult, fun hmem => (hnames _ hmem).2 rfl⟩

/-- `//a/./..//b/`. -/
theorem normalize_canonical_rooted :
    (normalizePath .posix (fun _ => 0) (.room 13) (some [47, 47, 97, 47, 46, 47, 46, 46, 47, 47, 98, 47])).result = true ∧
      Canonical [47, 47, 97, 47, 46, 47, 46, 46, 47, 47, 98, 47] [47, 98] := by
  have h : (normalizePath .posix (fun _ => 0) (.room 13) (some [47, 47, 97, 47, 46, 47, 46, 46, 47, 47, 98, 47])).result = true := by
    decide
  have hcanonical := normalize_canonical h
  rw [show (normalizePath .posix (fun _ => 0) (.room 13) (some [47, 47, 97, 47, 46, 47, 46, 46, 47, 47, 98, 47])).state.text
    = [47, 98] by decide] at hcanonical
  exact ⟨h, hcanonical⟩

/-! ## Normalising twice -/

section

variable {isAbs : Bool} {ns : List (List UInt8)}

/-- The names of a spelling. -/
theorem names_spell (h : ∀ n ∈ ns, n ≠ [] ∧ (47 : UInt8) ∉ n) : names 47 (spell isAbs ns) = ns := by
  have hinter : names 47 ([47].intercalate ns) = ns := by
    by_cases hempty : ns = []
    · rw [hempty]
      exact names_nil
    · rw [names, List.splitOn_intercalate 47 (fun n hn => (h n hn).2) hempty]
      exact List.filter_eq_self.mpr fun n hn => by simpa using (h n hn).1
  cases isAbs with
  | false => exact hinter
  | true => exact names_cons_self.trans hinter

/-- Names are kept, and the stack is not asked for a position. -/
theorem Lexical.foldl_names (ms : List (List UInt8)) : ∀ r : Lexical, (∀ n ∈ ms, n ≠ [46, 46]) →
    ms.foldl (Lexical.step isAbs) r = { r with names := r.names ++ ms } ∧ Lexical.fits isAbs r ms = true := by
  induction ms with
  | nil => exact fun r _ => ⟨by rw [List.append_nil]; rfl, rfl⟩
  | cons m ms ih =>
    intro r hms
    have hm := hms m List.mem_cons_self
    obtain ⟨hfold, hfits⟩ := ih (r.step isAbs m) fun n hn => hms n (List.mem_cons_of_mem m hn)
    rw [List.foldl_cons, hfold, Lexical.fits, hfits, Lexical.step, if_neg hm]
    exact ⟨by rw [List.append_assoc]; rfl, by simp [hm]⟩

/-- Some `..` and then names are kept as they are. -/
theorem Lexical.foldl_front {names : List (List UInt8)} (hnames : ∀ n ∈ names, n ≠ [46, 46]) (dots : Nat) : ∀ d,
    (isAbs = true → dots = 0) →
    (List.replicate dots [46, 46] ++ names).foldl (Lexical.step isAbs) ⟨d, []⟩ = ⟨d + dots, names⟩ ∧
      Lexical.fits isAbs ⟨d, []⟩ (List.replicate dots [46, 46] ++ names) = true := by
  induction dots with
  | zero => exact fun d _ => Lexical.foldl_names names ⟨d, []⟩ hnames
  | succ dots ih =>
    intro d hroot
    have hrel : ¬ isAbs = true := fun h => Nat.succ_ne_zero dots (hroot h)
    have hstep : Lexical.step isAbs ⟨d, []⟩ [46, 46] = ⟨d + 1, []⟩ := by
      rw [Lexical.step, if_pos rfl, if_neg (not_not.mpr rfl), if_neg hrel]
    obtain ⟨hfold, hfits⟩ := ih (d + 1) fun h => absurd h hrel
    rw [List.replicate_succ, List.cons_append, List.foldl_cons, Lexical.fits, hstep, hfold, hfits]
    exact ⟨by rw [Nat.add_right_comm, Nat.add_assoc], rfl⟩

/-- A lone backslash does not come out. -/
theorem Kept.result_ne_backslash (k : Kept) (habs : isAbs = false) : k.result isAbs ≠ [[92]] := by
  unfold Kept.result
  split
  · decide
  · split
    · decide
    · rename_i hslash
      exact fun h => hslash ⟨habs, h⟩

theorem two_dots_isPrefix {dots : Nat} {names : List (List UInt8)} (hnames : ∀ n ∈ names, n ≠ [46, 46]) :
    [[46, 46], [46, 46]] <+: List.replicate dots [46, 46] ++ names ↔ 2 ≤ dots := by
  match dots with
  | 0 =>
    refine iff_of_false (fun h => ?_) (by omega)
    exact hnames _ (h.subset List.mem_cons_self) rfl
  | 1 =>
    refine iff_of_false (fun h => ?_) (by omega)
    have htail : [[46, 46]] <+: names := (List.cons_prefix_cons.mp h).2
    exact hnames _ (htail.subset List.mem_cons_self) rfl
  | dots + 2 => exact iff_of_true ⟨List.replicate dots [46, 46] ++ names, rfl⟩ (by omega)

end

/-- On POSIX, whatever the depth of the path, normalising a normalised path changes it exactly when it starts with `../..`. -/
theorem normalize_twice {mem mem' : Nat → UInt8} {bufSize bufSize' : Nat} {path : List UInt8}
    (h : (normalizePath .posix mem (.room bufSize) (some path)).result = true)
    (h' : (normalizePath .posix mem' (.room bufSize')
      (some (normalizePath .posix mem (.room bufSize) (some path)).state.text)).result = true) :
    (normalizePath .posix mem' (.room bufSize')
        (some (normalizePath .posix mem (.room bufSize) (some path)).state.text)).state.text =
        (normalizePath .posix mem (.room bufSize) (some path)).state.text ↔
      ¬ [[46, 46], [46, 46]] <+: resultComponents (normalizePath .posix mem (.room bufSize) (some path)).state.text := by
  have htext := (text_normalized mem path).1
  rw [← (state_of_result h).2] at htext
  have hk := (tracks_looped mem path).1
  rw [htext] at h' ⊢
  generalize pathIsAbs .posix (some path) = isAbs at *
  generalize kept isAbs path = k at *
  have hne := fun habs => @Kept.result_ne_nil isAbs k habs
  have hwell := text_reference h'
  have hwellOnly := normalizesWell_of_text h'
  rw [resultComponents_spell hne hk.result]
  rcases hk.result_cases with ⟨hrel, hdot⟩ | ⟨dots, names, hresult, hroot, hnames⟩
  · rw [hdot, hrel] at hwell ⊢
    exact iff_of_true (hwell ⟨by decide, by decide, by decide⟩) (by decide)
  · have habs : pathIsAbs .posix (some (spell isAbs (k.result isAbs))) = isAbs := by
      rw [Bool.eq_iff_iff, pathIsAbs, decide_eq_true_eq, ← List.head?_eq_getElem?]
      exact head?_spell hne hk.result
    have hcomps : pathComponents (spell isAbs (k.result isAbs)) = k.result isAbs := by
      rw [pathComponents_eq, names_spell hk.result, List.filter_eq_self, hresult]
      intro n hn
      rcases List.mem_append.mp hn with hn | hn
      · rw [List.eq_of_mem_replicate hn]
        decide
      · exact decide_eq_true (hnames n hn).1
    obtain ⟨hfold, hfits⟩ := Lexical.foldl_front (fun n hn => (hnames n hn).2) dots 0 hroot
    rw [← hresult, Nat.zero_add] at hfold
    rw [← hresult] at hfits
    have hlexical : lexical (spell isAbs (k.result isAbs)) = ⟨dots, names⟩ := by rw [lexical, habs, hcomps, hfold]
    have hstack : StackSuffices (spell isAbs (k.result isAbs)) := by rw [StackSuffices, habs, hcomps, hfits]
    have hsame : (⟨dots, names⟩ : Lexical).comps = k.result isAbs := hresult.symm
    have href : reference (spell isAbs (k.result isAbs)) = spell isAbs (k.result isAbs) := by
      rw [reference_eq, habs, hlexical, Lexical.result, hsame, if_neg fun h0 => hne h0.1 h0.2]
    have hslash : ¬ LoneBackslash (spell isAbs (k.result isAbs)) := by
      rintro ⟨hrel, hlone⟩
      rw [hlexical, hsame] at hlone
      exact k.result_ne_backslash (habs ▸ hrel) hlone
    rw [href] at hwell hwellOnly
    have hiff : NormalizesWell (spell isAbs (k.result isAbs)) ↔ dots ≤ 1 := by
      rw [NormalizesWell, hlexical]
      exact ⟨fun hw => hw.2.1, fun hd => ⟨hstack, hd, hslash⟩⟩
    rw [hresult, two_dots_isPrefix fun n hn => (hnames n hn).2, ← hresult, Nat.not_le, Nat.lt_succ_iff, ← hiff]
    exact ⟨hwellOnly hstack, hwell⟩

/-- `.././//a` becomes `../a`, and stays that. -/
theorem normalize_twice_up :
    (normalizePath .posix (fun _ => 0) (.room 9)
      (some (normalizePath .posix (fun _ => 0) (.room 9) (some [46, 46, 47, 46, 47, 47, 47, 97])).state.text)).state.text =
      (normalizePath .posix (fun _ => 0) (.room 9) (some [46, 46, 47, 46, 47, 47, 47, 97])).state.text :=
  (normalize_twice (by decide) (by decide)).mpr (by decide)

end Copper.Fs
