import Copper.Fs.Path
import Mathlib.Data.List.Induction

/-!
# What the scans of a path find

`cpr_path_dirname` and `cpr_path_basename` go through a path once. The first remembers the last separator; the second the last
one that something follows, so that one separator at the end, and only one, stays with the name before it. A path is therefore
read from its end: the bytes after a separator that hold no other (`cut_last_sep`).
-/

namespace Copper.Fs

/-- No byte is a separator. -/
def NoSep (platform : Platform) (p : List UInt8) : Prop := ∀ c ∈ p, fsIsSep platform c = false

instance (platform : Platform) (p : List UInt8) : Decidable (NoSep platform p) := inferInstanceAs (Decidable (∀ c ∈ p, _))

variable {platform : Platform} {a b p : List UInt8} {c d : UInt8}

/-- A path has no separator, or a last one. -/
theorem cut_last_sep (platform : Platform) (p : List UInt8) :
    NoSep platform p ∨ ∃ a c b, p = a ++ c :: b ∧ fsIsSep platform c = true ∧ NoSep platform b := by
  induction p with
  | nil => exact .inl (fun c hc => absurd hc List.not_mem_nil)
  | cons d p ih =>
    rcases ih with hp | ⟨a, c, b, rfl, hc, hb⟩
    · by_cases hd : fsIsSep platform d = true
      · exact .inr ⟨[], d, p, rfl, hd, hp⟩
      · left
        intro c hc
        rcases List.mem_cons.mp hc with rfl | hc
        · exact eq_false_of_ne_true hd
        · exact hp c hc
    · exact .inr ⟨d :: a, c, b, rfl, hc, hb⟩

/-! ## On POSIX -/

/-- On POSIX an absolute path starts with a separator. -/
theorem pathIsAbs_posix (p : List UInt8) : pathIsAbs .posix (some p) = true ↔ p.head? = some 47 := by
  simp [pathIsAbs, List.head?_eq_getElem?]

/-- On POSIX the separator is the slash. -/
theorem fsIsSep_posix (c : UInt8) : fsIsSep .posix c = true ↔ c = 47 := by
  simp [fsIsSep]

/-- On POSIX a path without a separator is one without a slash. -/
theorem noSep_posix (p : List UInt8) : NoSep .posix p ↔ (47 : UInt8) ∉ p := by
  constructor
  · intro h hmem
    exact Bool.false_ne_true ((h 47 hmem).symm.trans ((fsIsSep_posix 47).mpr rfl))
  · intro h c hc
    rw [← Bool.not_eq_true, fsIsSep_posix]
    rintro rfl
    exact h hc

/-! ## `cpr_path_dirname` -/

/-- The scan finds nothing where there is no separator. -/
theorem lastSep_of_noSep (h : NoSep platform p) : ∀ i last, lastSep platform p i last = last := by
  induction p with
  | nil => exact fun _ _ => rfl
  | cons d p ih =>
    intro i last
    rw [lastSep, ih fun c hc => h c (List.mem_cons_of_mem d hc), h d List.mem_cons_self]
    rfl

/-- The scan finds the last separator. -/
theorem lastSep_cut (hc : fsIsSep platform c = true) (hb : NoSep platform b) :
    ∀ i last, lastSep platform (a ++ c :: b) i last = some (i + a.length) := by
  induction a with
  | nil =>
    intro i last
    rw [List.nil_append, lastSep, lastSep_of_noSep hb, if_pos hc]
    rfl
  | cons d a ih =>
    intro i last
    rw [List.cons_append, lastSep, ih, List.length_cons, Nat.add_right_comm, Nat.add_assoc]

/-- The string that `cpr_path_dirname` writes. -/
def parent (platform : Platform) (path : List UInt8) : List UInt8 :=
  match lastSep platform path 0 none with
  | none => [46]
  | some i => path.take (if i = 0 then 1 else i)

/-- The directory of a path without a separator is the current one. -/
theorem parent_of_noSep (h : NoSep platform p) : parent platform p = [46] := by
  rw [parent, lastSep_of_noSep h]

/-- What is before the last separator; or the separator, when nothing is. -/
theorem parent_cut (hc : fsIsSep platform c = true) (hb : NoSep platform b) :
    parent platform (a ++ c :: b) = if a = [] then [c] else a := by
  rw [parent, lastSep_cut hc hb]
  dsimp only
  rw [Nat.zero_add]
  by_cases ha : a = []
  · rw [if_pos ha, ha]
    rfl
  · rw [if_neg ha, if_neg (fun h => ha (List.length_eq_zero_iff.mp h)), List.take_left]

/-- A directory is shorter than its path, but for the current one. -/
theorem length_parent (platform : Platform) (p : List UInt8) : (parent platform p).length ≤ max 1 (p.length - 1) := by
  rcases cut_last_sep platform p with hp | ⟨a, c, b, rfl, hc, hb⟩
  · rw [parent_of_noSep hp]
    exact Nat.le_max_left _ _
  · rw [parent_cut hc hb, List.length_append, List.length_cons]
    split
    · exact Nat.le_max_left _ _
    · omega

/-- The directory of a path needs no more room than the path, but room for `.`. -/
theorem pathDirname_fits {bufSize : Nat} (h : max 2 p.length ≤ bufSize) :
    pathDirname platform (.room bufSize) (some p) = { result := true, state := some (parent platform p) } := by
  have hzero : ¬ bufSize = 0 := by omega
  have htwo : ¬ bufSize < 2 := by omega
  unfold pathDirname parent
  dsimp only
  rw [if_neg hzero]
  rcases cut_last_sep platform p with hp | ⟨a, c, b, rfl, hc, hb⟩
  · rw [lastSep_of_noSep hp]
    dsimp only
    rw [if_neg htwo]
  · rw [List.length_append, List.length_cons] at h
    rw [lastSep_cut hc hb]
    dsimp only
    rw [if_neg]
    split <;> omega

/-- What `cpr_path_dirname` writes is the directory. -/
theorem eq_parent_of_state {bufSize : Nat} {d : List UInt8} (h : (pathDirname platform (.room bufSize) (some p)).state = some d) :
    d = parent platform p := by
  unfold pathDirname at h
  unfold parent
  dsimp only at h
  split at h
  · cases h
  · cases hlast : lastSep platform p 0 none with
    | none =>
      rw [hlast] at h
      dsimp only at h
      split at h
      · cases h
      · exact (Option.some.inj h).symm
    | some i =>
      rw [hlast] at h
      dsimp only at h ⊢
      generalize (if i = 0 then 1 else i) = len at *
      split at h
      · cases h
      · exact (Option.some.inj h).symm

/-! ## `cpr_path_basename` -/

/-- Nothing follows the last byte, so it is not looked at. -/
theorem lastName_of_noSep (hb : NoSep platform b) : ∀ i last, lastName platform (b ++ [d]) i last = last := by
  induction b with
  | nil => intro i last; simp [lastName]
  | cons e b ih =>
    intro i last
    rw [List.cons_append, lastName, ih fun c hc => hb c (List.mem_cons_of_mem e hc), if_neg]
    simp [hb e List.mem_cons_self]

/-- The last name starts after the last separator. -/
theorem lastName_cut (hc : fsIsSep platform c = true) (hb : NoSep platform b) :
    ∀ i last, lastName platform (a ++ c :: (b ++ [d])) i last = i + a.length + 1 := by
  induction a with
  | nil =>
    intro i last
    rw [List.nil_append, lastName, lastName_of_noSep hb, if_pos ⟨hc, by simp⟩]
    rfl
  | cons e a ih =>
    intro i last
    rw [List.cons_append, lastName, ih, List.length_cons]
    omega

/-- A path without a separator is its own last name. -/
theorem pathBasename_of_noSep (hb : NoSep platform b) : pathBasename platform (some (b ++ [d])) = some (b ++ [d]) := by
  rw [pathBasename, Option.map_some, lastName_of_noSep hb, List.drop_zero]

/-- The last name is what follows the last separator. -/
theorem pathBasename_cut (hc : fsIsSep platform c = true) (hb : NoSep platform b) :
    pathBasename platform (some (a ++ c :: (b ++ [d]))) = some (b ++ [d]) := by
  rw [pathBasename, Option.map_some, lastName_cut hc hb, List.append_cons a c]
  exact congrArg some (List.drop_left' (by simp))

/-! ## `cpr_path_join` -/

/-- The string that `cpr_path_join` writes. -/
def joinedPath (platform : Platform) (base part : List UInt8) : List UInt8 :=
  if pathIsAbs platform (some part) then part else joined platform base part

/-- At most one separator is put in. -/
theorem toNat_needSep_le (platform : Platform) (base part : List UInt8) : (needSep platform base part).toNat ≤ 1 :=
  Bool.toNat_le _

/-- A joined path is at most one longer than its two parts. -/
theorem length_joinedPath (platform : Platform) (base part : List UInt8) :
    (joinedPath platform base part).length ≤ base.length + part.length + 1 := by
  have hlen := length_joined platform base part
  have hsep := toNat_needSep_le platform base part
  unfold joinedPath
  split <;> omega

/-- A buffer with room for both parts and a separator has room for the joined path. -/
theorem pathJoin_fits {base part : List UInt8} {bufSize : Nat} (h : base.length + part.length + 2 ≤ bufSize) :
    pathJoin platform (.room bufSize) (some base) (some part)
      = { result := true, state := some (joinedPath platform base part) } := by
  have hsep := toNat_needSep_le platform base part
  have hzero : ¬ bufSize = 0 := by omega
  have hpart : ¬ part.length + 1 > bufSize := by omega
  have hboth : ¬ base.length + (needSep platform base part).toNat + part.length + 1 > bufSize := by omega
  unfold pathJoin joinedPath
  dsimp only
  rw [if_neg hzero, if_neg hpart, if_neg hboth]
  split <;> rfl

/-- A separator is put between two parts just if the first does not end in one, and neither is empty. -/
theorem needSep_iff (platform : Platform) (base part : List UInt8) :
    needSep platform base part = true ↔ base ≠ [] ∧ base.getLast?.any (fsIsSep platform) = false ∧ part ≠ [] := by
  simp [needSep, List.length_pos_iff, and_assoc]

/-- Joining an empty part adds nothing. -/
theorem joined_nil (platform : Platform) (base : List UInt8) : joined platform base [] = base := by
  simp [joined, needSep]

/-- Joining to an empty base gives the part. -/
theorem nil_joined (platform : Platform) (part : List UInt8) : joined platform [] part = part := by
  simp [joined, needSep]

/-- The last byte of what is joined is the one of what is joined last. -/
theorem getLast?_joined (base : List UInt8) {part : List UInt8} (h : part ≠ []) :
    (joined platform base part).getLast? = part.getLast? := by
  obtain ⟨c, hc⟩ := Option.ne_none_iff_exists'.mp fun h0 => h (List.getLast?_eq_none_iff.mp h0)
  rw [joined, List.getLast?_append, hc, Option.some_or]

/-- A joined path starts as its base does. -/
theorem head?_joined (platform : Platform) {base : List UInt8} (part : List UInt8) (h : base ≠ []) :
    (joined platform base part).head? = base.head? := by
  obtain ⟨c, base, rfl⟩ := List.exists_cons_of_ne_nil h
  rfl

/-- The parts of a relative path are joined in any order. -/
theorem joined_assoc (platform : Platform) (a b c : List UInt8) :
    joined platform (joined platform a b) c = joined platform a (joined platform b c) := by
  by_cases ha : a = []
  · rw [ha, nil_joined, nil_joined]
  by_cases hb : b = []
  · rw [hb, joined_nil, nil_joined]
  by_cases hc : c = []
  · rw [hc, joined_nil, joined_nil]
  have hbc : joined platform b c ≠ [] := by
    intro h
    have hhead := head?_joined platform c hb
    rw [h] at hhead
    exact hb (List.head?_eq_none_iff.mp hhead.symm)
  have hab : joined platform a b ≠ [] := by
    intro h
    have hhead := head?_joined platform b ha
    rw [h] at hhead
    exact ha (List.head?_eq_none_iff.mp hhead.symm)
  -- The separator between `a` and the rest does not depend on `c`, the one before `c` not on `a`.
  have hfirst : needSep platform a (joined platform b c) = needSep platform a b := by
    rw [Bool.eq_iff_iff, needSep_iff, needSep_iff]
    simp only [hbc, hb, ne_eq, not_false_eq_true, and_true]
  have hsecond : needSep platform (joined platform a b) c = needSep platform b c := by
    rw [Bool.eq_iff_iff, needSep_iff, needSep_iff, getLast?_joined a hb]
    simp only [hab, hb, ne_eq, not_false_eq_true, true_and]
  rw [joined, hsecond, joined.eq_1 platform a (joined platform b c), hfirst, joined, joined]
  simp only [List.append_assoc]

end Copper.Fs
