import Copper.Foundation.Separated
import Copper.Fs.Scan
import Mathlib.Data.List.DropRight

/-!
# The last component

`cpr_path_basename` looks one byte ahead, so it passes over one separator at the end of a path and takes any further one for
the start of a name; `cpr_path_ext` looks for its dot in what that returns. On POSIX the two isolate the last component of a
path exactly when it ends plainly (`PlainEnd`).
-/

namespace Copper.Fs

open Separated (names)

/-- The last component that is not empty. -/
def lastComponent (p : List UInt8) : List UInt8 := (names 47 p).getLast?.getD []

/-- The separators at the end. -/
def trailing (p : List UInt8) : List UInt8 := p.rtakeWhile (· = 47)

/-- `cpr_path_basename` returns the last component and the separators after it. `cpr_path_ext` returns nothing, or what
follows from the last dot of that component on, which is not its first byte; and this holds no separator and no other dot. -/
def IsolatesLast (p : List UInt8) : Prop :=
  (∃ before, p = before ++ (lastComponent p ++ trailing p) ∧ (before = [] ∨ before.getLast? = some 47)) ∧
    pathBasename .posix (some p) = some (lastComponent p ++ trailing p) ∧
    ∃ ext, pathExt .posix (some p) = some ext ∧
      (ext = [] ∨ ∃ stem rest, stem ≠ [] ∧ lastComponent p = stem ++ 46 :: rest ∧ (46 : UInt8) ∉ rest ∧
        ext = 46 :: rest ++ trailing p ∧ (47 : UInt8) ∉ ext ∧ (46 : UInt8) ∉ ext.tail)

/-- No separator at the end; or one, after a component without a dot past its first byte. -/
def PlainEnd (p : List UInt8) : Prop := trailing p = [] ∨ trailing p = [47] ∧ (46 : UInt8) ∉ (lastComponent p).tail

instance (p : List UInt8) : Decidable (PlainEnd p) := inferInstanceAs (Decidable (_ ∨ _))

/-! ## Parts of a path -/

variable {p before name : List UInt8}

/-- `p` is what is before its last component, the component, and the separators after it. -/
structure Parts (p before name : List UInt8) : Prop where
  spells : p = before ++ (name ++ trailing p)
  start : before = [] ∨ ∃ a, before = a ++ [47]
  proper : name ≠ [] ∧ NoSep .posix name
  last : name = lastComponent p

/-- A name is its own only name. -/
theorem names_of_noSep (hname : name ≠ [] ∧ NoSep .posix name) : names 47 name = [name] := by
  rw [names, List.splitOn_eq_singleton ((noSep_posix name).mp hname.2), List.filter_cons_of_pos (by simpa using hname.1),
    List.filter_nil]

/-- The names of two paths with a separator between them. -/
theorem names_append_sep (a b : List UInt8) : names 47 (a ++ 47 :: b) = names 47 a ++ names 47 b := by
  rw [names, List.splitOn_append_cons_self, List.filter_append, names, names]

/-- The last component is the name after the last separator. -/
theorem lastComponent_append_sep (a : List UInt8) (hname : name ≠ [] ∧ NoSep .posix name) :
    lastComponent (a ++ 47 :: name) = name := by
  rw [lastComponent, names_append_sep, names_of_noSep hname, List.getLast?_concat, Option.getD_some]

/-- A separator at the end does not change the last component. -/
theorem lastComponent_concat_sep (p : List UInt8) : lastComponent (p ++ [47]) = lastComponent p := by
  rw [lastComponent, names_append_sep, Separated.names_nil, List.append_nil, lastComponent]

/-- It is one more of those at the end. -/
theorem trailing_concat_sep (p : List UInt8) : trailing (p ++ [47]) = trailing p ++ [47] := by
  rw [trailing, List.rtakeWhile_concat_pos _ _ _ (by simp), trailing]

/-- A path that ends in a name has none. -/
theorem trailing_append (a : List UInt8) (hname : name ≠ [] ∧ NoSep .posix name) : trailing (a ++ name) = [] := by
  rw [trailing, List.rtakeWhile_eq_nil_iff]
  intro hne hlast
  rw [List.getLast_append_of_ne_nil _ hname.1, decide_eq_true_eq] at hlast
  exact (noSep_posix name).mp hname.2 (hlast ▸ List.getLast_mem hname.1)

/-- They are separators. -/
theorem eq_of_mem_trailing {c : UInt8} (h : c ∈ trailing p) : c = 47 := by
  simpa using List.mem_rtakeWhile_imp h

/-- A path with a byte that is no separator has a last component. By induction from the end of the path. -/
theorem parts_of_mem (h : ∃ c ∈ p, c ≠ 47) : ∃ before name, Parts p before name := by
  induction p using List.reverseRecOn with
  | nil =>
    obtain ⟨c, hc, -⟩ := h
    exact absurd hc List.not_mem_nil
  | append_singleton p d ih =>
    by_cases hd : d = 47
    · subst hd
      have hp : ∃ c ∈ p, c ≠ 47 := by
        obtain ⟨c, hc, hne⟩ := h
        rcases List.mem_append.mp hc with hc | hc
        · exact ⟨c, hc, hne⟩
        · exact absurd (List.mem_singleton.mp hc) hne
      obtain ⟨before, name, hparts⟩ := ih hp
      refine ⟨before, name, ?_, hparts.start, hparts.proper, ?_⟩
      · rw [trailing_concat_sep, ← List.append_assoc, ← List.append_assoc, List.append_assoc before, ← hparts.spells]
      · rw [lastComponent_concat_sep]
        exact hparts.last
    · rcases cut_last_sep .posix (p ++ [d]) with hsep | ⟨a, c, b, heq, hc, hb⟩
      · have hname : p ++ [d] ≠ [] ∧ NoSep .posix (p ++ [d]) := ⟨by simp, hsep⟩
        have hnone : trailing (p ++ [d]) = [] := trailing_append [] hname
        refine ⟨[], p ++ [d], ?_, .inl rfl, hname, ?_⟩
        · rw [hnone, List.append_nil, List.nil_append]
        · rw [lastComponent, names_of_noSep hname]
          rfl
      · rw [fsIsSep_posix] at hc
        subst hc
        have hname : b ≠ [] ∧ NoSep .posix b := by
          refine ⟨?_, hb⟩
          rintro rfl
          exact hd (List.append_inj_right' heq rfl |> List.head_eq_of_cons_eq)
        rw [heq]
        refine ⟨a ++ [47], b, ?_, .inr ⟨a, rfl⟩, hname, (lastComponent_append_sep a hname).symm⟩
        rw [List.append_cons, trailing_append _ hname, List.append_nil]

/-! ## `cpr_path_basename` -/

/-- The name after the last separator that something follows. -/
theorem pathBasename_after (hbefore : before = [] ∨ ∃ a, before = a ++ [47]) (hname : NoSep .posix name) (d : UInt8) :
    pathBasename .posix (some (before ++ (name ++ [d]))) = some (name ++ [d]) := by
  rcases hbefore with rfl | ⟨a, rfl⟩
  · exact pathBasename_of_noSep hname
  · rw [List.append_assoc, List.singleton_append]
    exact pathBasename_cut rfl hname

/-- `cpr_path_basename` returns the last component unless two separators end the path. -/
theorem pathBasename_iff (h : Parts p before name) :
    pathBasename .posix (some p) = some (name ++ trailing p) ↔ trailing p = [] ∨ trailing p = [47] := by
  rcases List.eq_nil_or_concat' (trailing p) with hnone | ⟨t, d, ht⟩
  · refine iff_of_true ?_ (.inl hnone)
    obtain ⟨init, d, hinit⟩ := (List.eq_nil_or_concat' name).resolve_left h.proper.1
    have hsep : NoSep .posix init := fun c hc => h.proper.2 c (hinit ▸ List.mem_append_left _ hc)
    have heq := h.spells
    rw [hnone, List.append_nil, hinit] at heq ⊢
    rw [heq]
    exact pathBasename_after h.start hsep d
  · obtain rfl : d = 47 := eq_of_mem_trailing (p := p) (by simp [ht])
    rcases List.eq_nil_or_concat' t with rfl | ⟨t, e, rfl⟩
    · refine iff_of_true ?_ (.inr ht)
      have heq := h.spells
      rw [ht, List.nil_append] at heq ⊢
      rw [heq]
      exact pathBasename_after h.start h.proper.2 47
    · obtain rfl : e = 47 := eq_of_mem_trailing (p := p) (by simp [ht])
      have heq : p = (before ++ name ++ t) ++ 47 :: ([] ++ [47]) := by
        conv_lhs => rw [h.spells, ht]
        simp
      have hbase : pathBasename .posix (some p) = some ([] ++ [47]) := by
        rw [heq]
        exact pathBasename_cut rfl fun c hc => absurd hc List.not_mem_nil
      rw [hbase, ht]
      constructor
      · intro h'
        have hlen := congrArg List.length (Option.some.inj h')
        simp at hlen
        omega
      · rintro (h' | h')
        · simp at h'
        · have hlen := congrArg List.length h'
          simp at hlen

/-! ## `cpr_path_ext` -/

/-- There is no such byte; or a last one. -/
theorem strrchr_cases (c : UInt8) (s : List UInt8) :
    c ∉ s ∧ strrchr c s = none ∨ ∃ a b, s = a ++ c :: b ∧ c ∉ b ∧ strrchr c s = some a.length := by
  induction s with
  | nil => exact .inl ⟨List.not_mem_nil, rfl⟩
  | cons d s ih =>
    rcases ih with ⟨hmem, hnone⟩ | ⟨a, b, hs, hb, hsome⟩
    · by_cases hd : d = c
      · right
        refine ⟨[], s, ?_, hmem, ?_⟩
        · rw [hd, List.nil_append]
        · rw [strrchr, hnone]
          exact if_pos hd
      · left
        constructor
        · rintro (_ | ⟨_, hc⟩)
          · exact hd rfl
          · exact hmem hc
        · rw [strrchr, hnone]
          exact if_neg hd
    · right
      refine ⟨d :: a, b, ?_, hb, ?_⟩
      · rw [hs, List.cons_append]
      · rw [strrchr, hsome]
        rfl

/-- What `cpr_path_ext` returns for a name: nothing, or what follows from the last dot on. -/
theorem pathExt_cases {base : List UInt8} (hbase : pathBasename .posix (some p) = some base) :
    pathExt .posix (some p) = some [] ∧ (46 : UInt8) ∉ base.tail ∨
      ∃ stem rest, stem ≠ [] ∧ base = stem ++ 46 :: rest ∧ (46 : UInt8) ∉ rest ∧ pathExt .posix (some p) = some (46 :: rest) := by
  rw [pathExt, hbase, Option.map_some]
  rcases strrchr_cases 46 base with ⟨hmem, hnone⟩ | ⟨stem, rest, rfl, hrest, hsome⟩
  · rw [hnone]
    exact .inl ⟨rfl, fun h => hmem (List.mem_of_mem_tail h)⟩
  · rw [hsome]
    by_cases hstem : stem = []
    · rw [hstem]
      exact .inl ⟨rfl, hrest⟩
    · right
      refine ⟨stem, rest, hstem, rfl, hrest, ?_⟩
      dsimp only
      rw [if_pos (fun h => hstem (List.length_eq_zero_iff.mp h)), List.drop_left]

/-- A dot in a name and a separator is a dot in the name. -/
theorem cut_dot_sep {stem rest : List UInt8} (h : name ++ [47] = stem ++ 46 :: rest) :
    ∃ init, rest = init ++ [47] ∧ name = stem ++ 46 :: init := by
  rcases List.eq_nil_or_concat' rest with rfl | ⟨init, d, rfl⟩
  · exact absurd (List.head_eq_of_cons_eq (List.append_inj_right' h rfl)) (by decide)
  · have hcut : name ++ [47] = (stem ++ 46 :: init) ++ [d] := by rw [h]; simp
    obtain ⟨hname, hd⟩ := List.append_inj' hcut rfl
    exact ⟨init, by rw [hd], hname⟩

/-- On POSIX, for a path with a byte that is no separator, `cpr_path_basename` and `cpr_path_ext` isolate the last component
exactly when the path ends plainly. -/
theorem isolates_last_iff (p : List UInt8) (h : ∃ c ∈ p, c ≠ 47) : IsolatesLast p ↔ PlainEnd p := by
  obtain ⟨before, name, hparts⟩ := parts_of_mem h
  have hbase := pathBasename_iff hparts
  have hsep := (noSep_posix name).mp hparts.proper.2
  rw [IsolatesLast, PlainEnd, ← hparts.last]
  constructor
  · rintro ⟨-, hname, ext, hext, hlast⟩
    rcases hbase.mp hname with htrail | htrail
    · exact .inl htrail
    · refine .inr ⟨htrail, ?_⟩
      rw [htrail] at hname
      rcases pathExt_cases hname with ⟨-, hdot⟩ | ⟨stem, rest, -, hcut, -, hrest⟩
      · rw [List.tail_append_of_ne_nil hparts.proper.1] at hdot
        exact fun h46 => hdot (List.mem_append_left _ h46)
      · obtain ⟨init, rfl, -⟩ := cut_dot_sep hcut
        obtain rfl : 46 :: (init ++ [47]) = ext := Option.some.inj (hrest.symm.trans hext)
        rcases hlast with hnil | ⟨_, _, _, _, _, _, h47, _⟩
        · cases hnil
        · exact absurd (by simp) h47
  · intro hplain
    have hname := hbase.mpr (hplain.imp_right And.left)
    refine ⟨⟨before, hparts.spells, hparts.start.imp_right ?_⟩, hname, ?_⟩
    · rintro ⟨a, rfl⟩
      exact List.getLast?_concat
    · rcases pathExt_cases hname with ⟨hext, -⟩ | ⟨stem, rest, hstem, hcut, hdot, hext⟩
      · exact ⟨[], hext, .inl rfl⟩
      · rcases hplain with htrail | ⟨htrail, htail⟩
        · rw [htrail, List.append_nil] at hcut
          rw [htrail]
          refine ⟨46 :: rest, hext, .inr ⟨stem, rest, hstem, hcut, hdot, (List.append_nil _).symm, fun h47 => hsep ?_, hdot⟩⟩
          rw [hcut]
          exact List.mem_append_right _ h47
        · rw [htrail] at hcut
          obtain ⟨init, -, hinit⟩ := cut_dot_sep hcut
          rw [hinit, List.tail_append_of_ne_nil hstem] at htail
          exact absurd (by simp) htail

/-- `/a/b.c`, and `.a/`. -/
theorem isolates_last_simple :
    (IsolatesLast [47, 97, 47, 98, 46, 99] ↔ PlainEnd [47, 97, 47, 98, 46, 99]) ∧ PlainEnd [47, 97, 47, 98, 46, 99] ∧
      PlainEnd [46, 97, 47] :=
  ⟨isolates_last_iff [47, 97, 47, 98, 46, 99] ⟨97, by decide, by decide⟩, by decide, by decide⟩

/-- For `a//` it returns the last separator, and for `a.b/` an extension that ends in one. -/
theorem not_isolates_last :
    pathBasename .posix (some [97, 47, 47]) = some [47] ∧ lastComponent [97, 47, 47] = [97] ∧ trailing [97, 47, 47] = [47, 47] ∧
      pathExt .posix (some [97, 46, 98, 47]) = some [46, 98, 47] ∧ ¬ IsolatesLast [97, 47, 47] ∧ ¬ IsolatesLast [97, 46, 98, 47] := by
  refine ⟨by decide, by decide, by decide, by decide, ?_, ?_⟩
  · rintro ⟨-, hname, -⟩
    exact absurd hname (by decide)
  · rintro ⟨-, -, ext, hext, hlast⟩
    obtain rfl : [46, 98, 47] = ext := Option.some.inj (Eq.trans (by decide) hext)
    rcases hlast with hnil | ⟨_, _, _, _, _, _, h47, _⟩
    · cases hnil
    · exact h47 (by decide)

end Copper.Fs
