import Copper.Fs.RemoveDir

/-!
# What a recursive removal removes

The paths that `cpr__rmdir_force` makes are the given one followed by names (`below`), and everything that it removes is the
entry that such a path names at that moment. `rmdirForce_keeps` is the rule for invariants of the tree that follows from it.
-/

namespace Copper.Fs

/-! ## Names in paths -/

/-- A name that is cut is a name. -/
theorem take_valid {n : List UInt8} (h : ValidName n) : ValidName (n.take (fsNameMax - 1)) := by
  obtain ⟨hne, hdot, hdots, hsep, hnul⟩ := h
  have hmem : ∀ c, c ∉ n → c ∉ n.take (fsNameMax - 1) := fun c hc hin => hc (List.mem_of_mem_take hin)
  rcases Nat.lt_or_ge (fsNameMax - 1) n.length with hlong | hshort
  · have hlen : (n.take (fsNameMax - 1)).length = 255 := by
      rw [List.length_take]
      exact Nat.min_eq_left (Nat.le_of_lt hlong)
    refine ⟨?_, ?_, ?_, hmem _ hsep, hmem _ hnul⟩ <;> intro heq <;> rw [heq] at hlen <;> cases hlen
  · rw [List.take_of_length_le hshort]
    exact ⟨hne, hdot, hdots, hsep, hnul⟩

/-- What `cpr_next_dir` keeps of a name. -/
def shorten (n : FileName) : FileName := ⟨n.val.take (fsNameMax - 1), take_valid n.2⟩

/-- And fits its array. -/
theorem length_shorten (n : FileName) : (shorten n).val.length < fsNameMax := by
  have hle := List.length_take_le (fsNameMax - 1) n.val
  exact Nat.lt_of_le_of_lt hle (by decide)

/-- A name is neither `.` nor `..`. -/
theorem isDots_name (n : FileName) : isDots n.val = false := by
  rw [isDots, decide_eq_false_iff_not, not_or]
  exact ⟨n.2.2.1, n.2.2.2.1⟩

/-- A path and a name in what it leads to. -/
def child (path : List UInt8) (n : FileName) : List UInt8 := joined .posix path n.val

/-- A path followed by names. -/
def below (path : List UInt8) (ns : List FileName) : List UInt8 := ns.foldl child path

/-- A name is put after a separator, unless the path ends in one. -/
theorem child_eq {path : List UInt8} (hpath : path ≠ []) (n : FileName) :
    child path n = if path.getLast? = some 47 then path ++ n.val else path ++ 47 :: n.val := by
  have hn : 0 < n.val.length := List.length_pos_of_ne_nil n.2.1
  have hp : 0 < path.length := List.length_pos_of_ne_nil hpath
  obtain ⟨c, hc⟩ := Option.ne_none_iff_exists'.mp (mt List.getLast?_eq_none_iff.mp hpath)
  have hsep : needSep .posix path n.val = !decide (c = 47) := by
    rw [needSep, hc]
    simp [hn, hp, fsIsSep]
  rw [child, joined, hsep, hc]
  by_cases h : c = 47
  · simp [h]
  · simp [h, fsSep]

/-- The path of an entry is not empty. -/
theorem child_ne_nil {path : List UInt8} (hpath : path ≠ []) (n : FileName) : child path n ≠ [] := by
  rw [child_eq hpath]
  split <;> simp [hpath]

/-- Nor is one further below. -/
theorem below_ne_nil {path : List UInt8} (hpath : path ≠ []) (ns : List FileName) : below path ns ≠ [] := by
  induction ns generalizing path with
  | nil => exact hpath
  | cons n ns ih => exact ih (child_ne_nil hpath n)

/-- The path of an entry is longer. -/
theorem length_child_gt {path : List UInt8} (hpath : path ≠ []) (n : FileName) : path.length < (child path n).length := by
  have hn : 0 < n.val.length := List.length_pos_of_ne_nil n.2.1
  rw [child_eq hpath]
  split <;> simp [hn]

/-- And so is one further below. -/
theorem length_below_ge {path : List UInt8} (hpath : path ≠ []) (ns : List FileName) : path.length ≤ (below path ns).length := by
  induction ns generalizing path with
  | nil => exact Nat.le_refl _
  | cons n ns ih => exact Nat.le_trans (Nat.le_of_lt (length_child_gt hpath n)) (ih (child_ne_nil hpath n))

/-- Joining a name to a path into a buffer of `CPR_FS_PATH_MAX` bytes. -/
theorem pathJoin_name (path : List UInt8) (n : FileName) :
    pathJoin .posix (.room fsPathMax) (some path) (some n.val) =
      if (child path n).length < fsPathMax then { result := true, state := some (child path n) }
      else .fail none false .errOverflow "buffer too small" := by
  have habs : pathIsAbs .posix (some n.val) = false := by
    have hsep := n.2.2.2.2.1
    cases hn : n.val with
    | nil => rfl
    | cons c rest =>
      rw [hn, List.mem_cons, not_or] at hsep
      simpa [pathIsAbs] using fun h => hsep.1 h.symm
  have hjoined : joined .posix path n.val = child path n := rfl
  have hlen := length_joined .posix path n.val
  rw [hjoined] at hlen
  have hmax : fsPathMax ≠ 0 := by decide
  simp only [pathJoin, habs, Bool.false_eq_true, if_false, if_neg hmax, ← hlen, hjoined]
  by_cases h : (child path n).length < fsPathMax
  · rw [if_neg (by omega), if_pos h]
  · rw [if_pos (by omega), if_neg h]

/-! ## Routes of paths with names -/

/-- The steps of a path to a name are those of the path and one down, but for a separator at the end of the path. -/
theorem steps_child {path : List UInt8} (hpath : path ≠ []) (n : FileName) (w : World) :
    w.start (child path n) = w.start path ∧
      ∃ a, stepsOf (child path n) = a ++ [.down n] ∧ (stepsOf path = a ∨ stepsOf path = a ++ [.here]) := by
  have hhead : ∀ q : List UInt8, w.start (path ++ q) = w.start path := by
    intro q
    rw [World.start, World.start, List.head?_append_of_ne_nil path hpath]
  rw [child_eq hpath]
  split
  · rename_i hlast
    have hsplit := (List.dropLast_append_getLast? _ hlast).symm
    refine ⟨hhead _, stepsOf path.dropLast, ?_, .inr ?_⟩
    · rw [hsplit, List.append_assoc, List.dropLast_concat]
      exact stepsOf_concat path.dropLast n
    · rw [hsplit, List.dropLast_concat, stepsOf_append]
      rfl
  · exact ⟨hhead _, stepsOf path, stepsOf_concat path n, .inl rfl⟩

section

variable (w : World) (t : Tree) {path : List UInt8} (hpath : path ≠ []) (n : FileName)

include hpath

/-- A path with a name leads to where the name leads from where the path leads. -/
theorem reach_child : w.reach t (child path n) = (w.reach t path).bind fun r => t.walk r.1 r.2 [.down n] := by
  obtain ⟨hstart, a, hchild, hsteps⟩ := steps_child hpath n w
  rw [World.reach, World.reach, if_neg hpath, if_neg (child_ne_nil hpath n), hstart, hchild, FileTree.walk_append]
  rcases hsteps with hsteps | hsteps
  · rw [hsteps]
  · rw [hsteps, FileTree.walk_append, Option.bind_assoc]
    refine Option.bind_congr fun r _ => ?_
    rw [FileTree.walk_here]
    by_cases hdir : t.isDir r.2 = true
    · rw [if_pos hdir, FileTree.walk_nil, Option.bind_some]
    · rw [if_neg hdir, FileTree.walk_down_not_dir hdir, Option.bind_none]

/-- A path with a name names an entry of the directory that the path leads to. -/
theorem entry_child :
    w.entry t (child path n) =
      (w.reach t path).bind fun r => if (t.node (r.2 ++ [n])).isSome then some (r.2 ++ [n]) else none := by
  obtain ⟨hstart, a, hchild, hsteps⟩ := steps_child hpath n w
  rw [World.reach, World.entry, if_neg hpath, if_neg (child_ne_nil hpath n), hstart, hchild, FileTree.entry_concat]
  rcases hsteps with hsteps | hsteps
  · rw [hsteps]
  · rw [hsteps, FileTree.walk_append, Option.bind_assoc]
    refine Option.bind_congr fun r _ => ?_
    rw [FileTree.walk_here]
    by_cases hdir : t.isDir r.2 = true
    · rw [if_pos hdir, FileTree.walk_nil, Option.bind_some]
    · rw [if_neg hdir, Option.bind_none, if_neg]
      intro hsome
      exact hdir (FileTree.isDir_iff.mpr (t.parent _ n (Option.isSome_iff_ne_none.mp hsome)))

/-- There is no separator at the end of a path with a name. -/
theorem strip_child : (child path n).rdropWhile (· = 47) = child path n := by
  rw [List.rdropWhile_eq_self_iff]
  intro hne hlast
  have hmem : (child path n).getLast hne ∈ n.val := by
    have hn : n.val ≠ [] := n.2.1
    have heq : (child path n).getLast hne = n.val.getLast hn := by
      simp only [child_eq hpath]
      split
      · exact List.getLast_append_of_ne_nil _ hn
      · rw [List.getLast_append_of_ne_nil _ (List.cons_ne_nil 47 n.val), List.getLast_cons hn]
    rw [heq]
    exact List.getLast_mem hn
  rw [of_decide_eq_true hlast] at hmem
  exact n.2.2.2.2.1 hmem

end

/-- A path that names a directory leads to it; separators at its end do not count. -/
theorem reach_of_entry (w : World) {t : Tree} {path : List UInt8} {l : Place}
    (hentry : w.entry t (path.rdropWhile (· = 47)) = some l) (hdir : t.isDir l = true) :
    path ≠ [] ∧ ∃ k, w.reach t path = some (k, l) := by
  induction path using List.reverseRecOn with
  | nil => cases hentry
  | append_singleton p c ih =>
    by_cases hc : c = 47
    · rw [List.rdropWhile_concat, if_pos (decide_eq_true hc)] at hentry
      obtain ⟨hp, k, hreach⟩ := ih hentry
      refine ⟨by simp, k, ?_⟩
      rw [World.reach, if_neg hp] at hreach
      have hsteps : stepsOf (p ++ [c]) = stepsOf p ++ [.here] := by
        rw [hc, stepsOf_append]
        rfl
      rw [World.reach, if_neg (by simp), World.start, List.head?_append_of_ne_nil p hp, hsteps, FileTree.walk_append]
      rw [World.start] at hreach
      rw [hreach, Option.bind_some, FileTree.walk_here, if_pos hdir, FileTree.walk_nil]
    · rw [List.rdropWhile_concat, if_neg fun h => hc (of_decide_eq_true h)] at hentry
      have hne : p ++ [c] ≠ [] := by simp
      rw [World.entry, if_neg hne] at hentry
      obtain ⟨k, hwalk⟩ := FileTree.walk_of_entry hentry (FileTree.isDir_iff.mp hdir) (by simp)
      exact ⟨hne, k, by rw [World.reach, if_neg hne, hwalk]⟩

/-! ## One removal -/

/-- What a path that `cpr_remove_file` or `cpr__rmdir` is called with can remove. -/
inductive Removes (w : World) (t : Tree) (path : List UInt8) (l : Place) : Prop where
  | file (hentry : w.entry t path = some l) (hdir : t.isDir l = false)
  | dir (hentry : w.entry t (path.rdropWhile (· = 47)) = some l) (hdir : t.isDir l = true) (hempty : t.names l = [])

/-- Removing a file changes nothing, or erases the node that its path names, which is no directory. -/
theorem removeFile_spec (w : World) (path : List UInt8) (s : FsState) :
    (removeFile w (some path) s).1.tree = s.tree ∨
      ∃ l, w.entry s.tree path = some l ∧ s.tree.isDir l = false ∧ (removeFile w (some path) s).1.tree = s.tree.erase l := by
  simp only [removeFile, World.unlink]
  by_cases hfails : (w.decision s.calls).fails = true
  · rw [if_pos hfails]
    exact .inl rfl
  · rw [if_neg hfails]
    cases hentry : w.entry s.tree path with
    | none => exact .inl rfl
    | some l =>
      cases hdir : s.tree.isDir l with
      | true => exact .inl (by simp [hdir])
      | false => exact .inr ⟨l, rfl, hdir, by simp [hdir]⟩

/-- Removing a directory changes nothing, or erases the directory that its path names, which is empty. -/
theorem rmdir_spec (w : World) (path : List UInt8) (s : FsState) :
    (rmdir w path s).1.tree = s.tree ∨
      ∃ l, w.entry s.tree (path.rdropWhile (· = 47)) = some l ∧ s.tree.isDir l = true ∧ s.tree.names l = [] ∧
        (rmdir w path s).1.tree = s.tree.erase l := by
  simp only [rmdir, World.rmdir]
  by_cases hfails : (w.decision s.calls).fails = true
  · rw [if_pos hfails]
    exact .inl rfl
  · rw [if_neg hfails]
    cases hentry : w.entry s.tree (path.rdropWhile (· = 47)) with
    | none => exact .inl rfl
    | some l =>
      by_cases hdir : s.tree.isDir l = true ∧ s.tree.names l = []
      · exact .inr ⟨l, rfl, hdir.1, hdir.2, by simp [hdir]⟩
      · exact .inl (by simp [hdir])

/-- A listing of names, and of `.` and `..`. -/
def Named (rest : List Dirent) : Prop := ∀ d ∈ rest, isDots d.name = false → ∃ n : FileName, d.name = n.val

/-- What is listed are names. -/
theorem listing_named (t : Tree) (l : Place) : Named (World.listing t l) := by
  intro d hd hdots
  simp only [World.listing, List.mem_cons, List.mem_map] at hd
  rcases hd with rfl | rfl | ⟨n, _, rfl⟩
  · cases hdots
  · cases hdots
  · exact ⟨n, rfl⟩

/-- What an opened directory is: the one that the path leads to, with a listing of names. -/
theorem openDir_spec {w : World} {path : List UInt8} {s s' : FsState} {r : Option DirIterator}
    (h : openDir w (some path) s = (s', r)) :
    s'.tree = s.tree ∧ ∀ it, r = some it →
      w.resolve s.tree path = some it.dir ∧ s.tree.isDir it.dir = true ∧ Named it.rest := by
  simp only [openDir, World.opendir] at h
  by_cases hoom : (w.decision s.calls).fails = true
  · rw [if_pos hoom] at h
    cases h
    exact ⟨rfl, by simp⟩
  · rw [if_neg hoom] at h
    by_cases hfails : (w.decision s.tick.calls).fails = true
    · rw [if_pos hfails] at h
      cases h
      exact ⟨rfl, by simp⟩
    · rw [if_neg hfails] at h
      simp only [FsState.tick_tree] at h
      cases hres : w.resolve s.tree path with
      | none =>
        rw [hres] at h
        cases h
        exact ⟨rfl, by simp⟩
      | some l =>
        rw [hres] at h
        cases hdir : s.tree.isDir l with
        | false =>
          simp only [hdir] at h
          cases h
          exact ⟨rfl, by simp⟩
        | true =>
          simp only [hdir] at h
          cases h
          refine ⟨rfl, fun it hit => ?_⟩
          cases hit
          refine ⟨rfl, hdir, fun d hd => ?_⟩
          exact listing_named s.tree l d ((Decision.perm _ _).mem_iff.mp hd)

/-! ## Runs -/

/-- What one turn of the loop does, when names are listed: nothing is left and the directory is removed, or the path of an entry is
too long, or the entry is removed and the loop goes on. -/
inductive Turn (w : World) (force : List UInt8 → FsState → Option (FsState × CprResult)) (path : List UInt8) (it : DirIterator)
    (s : FsState) : Prop where
  | last (s1 : FsState) (htree : s1.tree = s.tree) (heq : removeEntries w force path it s = some (rmdir w path s1))
  | long (s1 : FsState) (htree : s1.tree = s.tree) (heq : removeEntries w force path it s = some (s1, .errOverflow))
  | entry (s1 : FsState) (it' : DirIterator) (n : FileName) (type : FsType) (htree : s1.tree = s.tree)
      (hshorter : it'.rest.length < it.rest.length) (hnamed : Named it'.rest) (hname : n.val.length < fsNameMax)
      (hfits : (child path n).length < fsPathMax)
      (heq : removeEntries w force path it s =
        (removeEntry w force (child path n) type s1).bind fun run =>
          if run.2.err then some run else removeEntries w force path it' run.1)

/-- One turn of the loop over the entries. -/
theorem removeEntries_turn (w : World) (force : List UInt8 → FsState → Option (FsState × CprResult)) (path : List UInt8)
    {it : DirIterator} (s : FsState) (hnamed : Named it.rest) : Turn w force path it s := by
  obtain ⟨s1, it', e, hnext⟩ : ∃ s1 it' e, nextDir w it s = (s1, it', e) := ⟨_, _, _, rfl⟩
  obtain ⟨htree, _, hsub, hentry⟩ := nextDir_spec hnext
  cases e with
  | none => exact .last s1 htree (removeEntries_null hnext)
  | some e =>
    obtain ⟨hshorter, d, hd, hdots, hname⟩ := hentry e rfl
    obtain ⟨n, hn⟩ := hnamed d hd hdots
    have hshort : e.name = (shorten n).val := by rw [hname, hn]; rfl
    have hrun : removeEntries w force path it s = _ := removeEntries_entry hnext
    rw [hshort, pathJoin_name] at hrun
    by_cases hfits : (child path (shorten n)).length < fsPathMax
    · simp only [if_pos hfits] at hrun
      exact .entry s1 it' (shorten n) e.type htree hshorter (fun x hx => hnamed x (hsub hx)) (length_shorten n) hfits hrun
    · simp only [if_neg hfits, Outcome.fail] at hrun
      refine .long _ ?_ hrun
      exact htree

/-- What the body of the loop keeps. -/
theorem removeEntry_keeps {w : World} {force : List UInt8 → FsState → Option (FsState × CprResult)} {path : List UInt8}
    {Inv : Tree → Prop} (hforce : ∀ s s' r, force path s = some (s', r) → Inv s.tree → Inv s'.tree)
    (hfile : ∀ t l, Inv t → Removes w t path l → Inv (t.erase l)) {type : FsType} {s s' : FsState} {r : CprResult}
    (hs : Inv s.tree) (h : removeEntry w force path type s = some (s', r)) : Inv s'.tree := by
  rw [removeEntry] at h
  split at h
  · exact hforce s s' r h hs
  · have hinv : Inv (removeFile w (some path) s).1.tree := by
      rcases removeFile_spec w path s with htree | ⟨l, hentry, hdir, htree⟩
      · rw [htree]
        exact hs
      · rw [htree]
        exact hfile s.tree l hs (.file hentry hdir)
    generalize removeFile w (some path) s = res at h hinv
    obtain ⟨s1, ok⟩ := res
    cases ok <;> cases h <;> exact hinv

/-- What the loop leaves is what it keeps of every removal of an entry, or that after `rmdir`. -/
theorem removeEntries_keeps {w : World} {force : List UInt8 → FsState → Option (FsState × CprResult)} {path : List UInt8}
    (Inv : Tree → Prop)
    (hforce : ∀ n s s' r, n.val.length < fsNameMax → (child path n).length < fsPathMax → force (child path n) s = some (s', r) →
      Inv s.tree → Inv s'.tree)
    (hfile : ∀ n t l, n.val.length < fsNameMax → (child path n).length < fsPathMax → Inv t → Removes w t (child path n) l →
      Inv (t.erase l))
    {it : DirIterator} {s s' : FsState} {r : CprResult} (hnamed : Named it.rest) (hs : Inv s.tree)
    (h : removeEntries w force path it s = some (s', r)) :
    ∃ s1 : FsState, Inv s1.tree ∧ (s'.tree = s1.tree ∨ s'.tree = (rmdir w path s1).1.tree) := by
  induction hlen : it.rest.length using Nat.strongRecOn generalizing it s with
  | _ len ih =>
    cases removeEntries_turn w force path s hnamed with
    | last s1 htree heq =>
      rw [heq] at h
      exact ⟨s1, htree ▸ hs, .inr (congrArg (fun r => r.1.tree) (Option.some.inj h)).symm⟩
    | long s1 htree heq =>
      rw [heq] at h
      cases h
      exact ⟨s', htree ▸ hs, .inl rfl⟩
    | entry s1 it' n type htree hshorter hnamed' hname hfits heq =>
      rw [heq] at h
      rw [← htree] at hs
      obtain ⟨⟨s2, r2⟩, hremove, h⟩ := Option.bind_eq_some_iff.mp h
      have hs2 : Inv s2.tree :=
        removeEntry_keeps (fun s s' r => hforce n s s' r hname hfits) (fun t l => hfile n t l hname hfits) hs hremove
      split at h
      · cases h
        exact ⟨s', hs2, .inl rfl⟩
      · exact ih _ (hlen ▸ hshorter) hnamed' hs2 h rfl

/-- The names are ones that an entry is not shortened to, and the path of them fits its buffer. -/
def Fits (path : List UInt8) (ns : List FileName) : Prop :=
  (∀ n ∈ ns, n.val.length < fsNameMax) ∧ (below path ns).length < fsPathMax

/-- A path below another one ends in a name. -/
theorem below_concat (path : List UInt8) (ns : List FileName) (n : FileName) :
    below path (ns ++ [n]) = child (below path ns) n := by
  rw [below, List.foldl_concat]
  rfl

/-- The rule for `cpr__rmdir_force`: what every removal at a path below the given one keeps holds in the end, but for the
removal of what the path itself names. -/
theorem rmdirForce_keeps {w : World} {fuel : Nat} {path : List UInt8} {Inv : Tree → Prop}
    (hkeep : ∀ t ns l, ns ≠ [] → Fits path ns → Inv t → Removes w t (below path ns) l → Inv (t.erase l))
    {s s' : FsState} {r : CprResult} (hs : Inv s.tree) (h : rmdirForce w fuel path s = some (s', r)) :
    Inv s'.tree ∨
      ∃ t l, Inv t ∧ w.entry t (path.rdropWhile (· = 47)) = some l ∧ t.isDir l = true ∧ t.names l = [] ∧
        s'.tree = t.erase l := by
  induction fuel generalizing path s s' r with
  | zero => cases h
  | succ fuel ih =>
    rw [rmdirForce] at h
    obtain ⟨s1, it, hopen⟩ : ∃ s1 it, openDir w (some path) s = (s1, it) := ⟨_, _, rfl⟩
    obtain ⟨htree, hit⟩ := openDir_spec hopen
    rw [hopen] at h
    rw [← htree] at hs
    cases it with
    | none =>
      cases h
      exact .inl hs
    | some it =>
      obtain ⟨_, _, hnamed⟩ := hit it rfl
      have hkeep1 : ∀ n t l, n.val.length < fsNameMax → (child path n).length < fsPathMax → Inv t →
          Removes w t (child path n) l → Inv (t.erase l) := by
        intro n t l hn hfits ht hl
        exact hkeep t [n] l (List.cons_ne_nil n []) ⟨by simpa using hn, hfits⟩ ht hl
      have hforce : ∀ n s s' r, n.val.length < fsNameMax → (child path n).length < fsPathMax →
          rmdirForce w fuel (child path n) s = some (s', r) → Inv s.tree → Inv s'.tree := by
        intro n s s' r hn hfits hrun hs
        have hkeep' : ∀ t ns l, ns ≠ [] → Fits (child path n) ns → Inv t → Removes w t (below (child path n) ns) l →
            Inv (t.erase l) := by
          intro t ns l _ hns ht hl
          refine hkeep t (n :: ns) l (List.cons_ne_nil n ns) ⟨fun m hm => ?_, hns.2⟩ ht hl
          rcases List.mem_cons.mp hm with rfl | hm
          · exact hn
          · exact hns.1 m hm
        rcases ih hkeep' hs hrun with hinv | ⟨t, l, ht, hentry, hdir, hempty, htree⟩
        · exact hinv
        · rw [htree]
          exact hkeep1 n t l hn hfits ht (.dir hentry hdir hempty)
      obtain ⟨s2, hs2, htree2⟩ := removeEntries_keeps Inv hforce hkeep1 hnamed hs h
      rcases htree2 with htree2 | htree2
      · rw [htree2]
        exact .inl hs2
      · rcases rmdir_spec w path s2 with hsame | ⟨l, hentry, hdir, hempty, herase⟩
        · rw [htree2, hsame]
          exact .inl hs2
        · exact .inr ⟨s2.tree, l, hs2, hentry, hdir, hempty, htree2.trans herase⟩

/-- A recursive removal only removes. -/
theorem rmdirForce_le {w : World} {fuel : Nat} {path : List UInt8} {s s' : FsState} {r : CprResult}
    (h : rmdirForce w fuel path s = some (s', r)) : s'.tree ≤ s.tree := by
  have hkeep : ∀ t ns l, ns ≠ [] → Fits path ns → t ≤ s.tree → Removes w t (below path ns) l → t.erase l ≤ s.tree :=
    fun t _ l _ _ ht _ => FileTree.le_trans (t.erase_le l) ht
  rcases rmdirForce_keeps hkeep (FileTree.le_refl s.tree) h with hle | ⟨t, l, ht, _, _, _, htree⟩
  · exact hle
  · rw [htree]
    exact FileTree.le_trans (t.erase_le l) ht

/-- What the loop leaves has less than what it began with. -/
theorem removeEntries_le {w : World} {fuel : Nat} {path : List UInt8} {it : DirIterator} {s s' : FsState} {r : CprResult}
    (hnamed : Named it.rest) (h : removeEntries w (rmdirForce w fuel) path it s = some (s', r)) : s'.tree ≤ s.tree := by
  have hforce : ∀ n s1 s2 r, n.val.length < fsNameMax → (child path n).length < fsPathMax →
      rmdirForce w fuel (child path n) s1 = some (s2, r) → s1.tree ≤ s.tree → s2.tree ≤ s.tree :=
    fun _ _ _ _ _ _ hrun hle => FileTree.le_trans (rmdirForce_le hrun) hle
  have hfile : ∀ n t l, n.val.length < fsNameMax → (child path n).length < fsPathMax → t ≤ s.tree → Removes w t (child path n) l →
      t.erase l ≤ s.tree := fun _ t l _ _ hle _ => FileTree.le_trans (t.erase_le l) hle
  obtain ⟨s1, hle, htree⟩ := removeEntries_keeps (· ≤ s.tree) hforce hfile hnamed (FileTree.le_refl _) h
  rcases htree with htree | htree
  · rw [htree]
    exact hle
  · rw [htree]
    rcases rmdir_spec w path s1 with hsame | ⟨l, _, _, _, herase⟩
    · rw [hsame]
      exact hle
    · rw [herase]
      exact FileTree.le_trans (s1.tree.erase_le l) hle

/-! ## Every run ends -/

/-- The loop ends if every call of `force` does. -/
theorem removeEntries_total {w : World} {force : List UInt8 → FsState → Option (FsState × CprResult)} {path : List UInt8}
    (hforce : ∀ n s, (child path n).length < fsPathMax → force (child path n) s ≠ none) {it : DirIterator} {s : FsState}
    (hnamed : Named it.rest) : removeEntries w force path it s ≠ none := by
  induction hlen : it.rest.length using Nat.strongRecOn generalizing it s with
  | _ len ih =>
    cases removeEntries_turn w force path s hnamed with
    | last s1 _ heq =>
      rw [heq]
      simp
    | long s1 _ heq =>
      rw [heq]
      simp
    | entry s1 it' n type _ hshorter hnamed' _ hfits heq =>
      have hremove : removeEntry w force (child path n) type s1 ≠ none := by
        rw [removeEntry]
        split
        · exact hforce n s1 hfits
        · split <;> simp
      obtain ⟨⟨s2, r2⟩, hremove⟩ := Option.ne_none_iff_exists'.mp hremove
      rw [heq, hremove, Option.bind_some]
      split
      · simp
      · exact ih _ (hlen ▸ hshorter) hnamed' rfl

/-- Every level adds to the path, which fits its buffer. -/
theorem rmdirForce_total {w : World} {fuel : Nat} {path : List UInt8} {s : FsState} (hfuel : 0 < fuel)
    (hlen : fsPathMax ≤ fuel + path.length) : rmdirForce w fuel path s ≠ none := by
  induction fuel generalizing path s with
  | zero => cases hfuel
  | succ fuel ih =>
    rw [rmdirForce]
    obtain ⟨s1, it, hopen⟩ : ∃ s1 it, openDir w (some path) s = (s1, it) := ⟨_, _, rfl⟩
    obtain ⟨_, hit⟩ := openDir_spec hopen
    rw [hopen]
    cases it with
    | none => simp
    | some it =>
      obtain ⟨hres, _, hnamed⟩ := hit it rfl
      have hpath : path ≠ [] := by
        rintro rfl
        cases hres
      refine removeEntries_total (fun n s hfits => ?_) hnamed
      have hlonger := length_child_gt hpath n
      exact ih (by omega) (by omega)

end Copper.Fs
