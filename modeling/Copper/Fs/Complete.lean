import Copper.Fs.Escape

/-!
# Recursive removal is complete

Where nothing fails, no link is in the way and every path fits its buffer, `cpr_remove_dir` removes a directory with everything in it:
the listing of a directory is at every turn of the loop what is left of its entries (`Lists`), so that it is empty when `rmdir`
comes. Whatever fails, the run ends, only entries of the directory are gone, and it says so if a call that removes or opens failed.
Which calls these are is said by following the recursion (`removalCalls`), and the run makes just these (`removalCalls_makes`).
-/

namespace Copper.Fs

variable {w : World} {path : List UInt8} {s : FsState} {l : Place}

/-! ## Paths that stay -/

/-- A path that names a directory, and does so whatever is removed from the directory. -/
def Roots (w : World) (t : Tree) (path : List UInt8) (l : Place) : Prop :=
  w.entry (t.clear l) (path.rdropWhile (· = 47)) = some l ∧ t.isDir l = true

namespace Roots

variable {t : Tree}

/-- The directory that a path leads to by itself is not the root. -/
theorem ne_nil (h : Roots w t path l) : l ≠ [] := by
  rintro rfl
  have hentry := h.1
  unfold World.entry at hentry
  split at hentry
  · cases hentry
  · obtain ⟨_, _, _, _, _, _, heq, _⟩ := FileTree.entry_eq_some hentry
    simp at heq

/-- A path that leads somewhere is not empty. -/
theorem path_ne_nil (h : Roots w t path l) : path ≠ [] := by
  rintro rfl
  cases h.1

/-- It names the entry of its directory in the whole tree. -/
theorem entry (h : Roots w t path l) : w.entry t (path.rdropWhile (· = 47)) = some l := entry_mono (t.clear_le l) h.1

/-- It leads there in the tree without what is below. -/
theorem reach_clear (h : Roots w t path l) : ∃ k, w.reach (t.clear l) path = some (k, l) := by
  have hdir : (t.clear l).isDir l = true := by
    rw [FileTree.isDir_iff, FileTree.node_clear_self, ← FileTree.isDir_iff]
    exact h.2
  exact (reach_of_entry w h.1 hdir).2

/-- And in the whole tree. -/
theorem reach (h : Roots w t path l) : ∃ k, w.reach t path = some (k, l) := by
  obtain ⟨k, hk⟩ := h.reach_clear
  exact ⟨k, reach_mono (t.clear_le l) hk⟩

/-- The system resolves it to that directory. -/
theorem resolve (h : Roots w t path l) : w.resolve t path = some l := by
  obtain ⟨k, hk⟩ := h.reach
  rw [World.resolve, hk, Option.map_some]

/-- Removing something from the directory. -/
theorem erase (h : Roots w t path l) (n : FileName) : Roots w (t.erase (l ++ [n])) path l := by
  refine ⟨?_, ?_⟩
  · rw [FileTree.clear_erase t (List.prefix_append l [n]) (by simp)]
    exact h.1
  · rw [FileTree.isDir_iff, FileTree.node_erase_of_not_prefix, ← FileTree.isDir_iff]
    · exact h.2
    · intro hpre
      have hlen := hpre.length_le
      rw [List.length_append, List.length_singleton] at hlen
      omega

/-- An entry of the directory, by name. -/
theorem entry_child (h : Roots w t path l) {n : FileName} (hn : t.node (l ++ [n]) ≠ none) :
    w.entry t (child path n) = some (l ++ [n]) := by
  obtain ⟨k, hk⟩ := h.reach
  rw [Fs.entry_child w t h.path_ne_nil n, hk, Option.bind_some, if_pos (Option.isSome_iff_ne_none.mpr hn)]

/-- A directory in the directory. -/
theorem child (h : Roots w t path l) {n : FileName} (hn : t.node (l ++ [n]) = some .dir) : Roots w t (child path n) (l ++ [n]) := by
  refine ⟨?_, FileTree.isDir_iff.mpr hn⟩
  obtain ⟨k, hk⟩ := h.reach_clear
  have hk' := reach_mono (t.clear_le_clear (List.prefix_append l [n])) hk
  rw [strip_child h.path_ne_nil, Fs.entry_child w _ h.path_ne_nil n, hk', Option.bind_some, FileTree.node_clear_self, hn]
  rfl

/-- Where there are no links, a path without `..` that names a directory goes through nothing that is in it. -/
theorem of_no_up (hlinks : ∀ m route, t.node m ≠ some (.link route)) (hup : .up ∉ stepsOf (path.rdropWhile (· = 47)))
    (hentry : w.entry t (path.rdropWhile (· = 47)) = some l) (hdir : t.isDir l = true) : Roots w t path l := by
  refine ⟨?_, hdir⟩
  unfold World.entry at hentry ⊢
  split at hentry
  · cases hentry
  · rename_i hpath
    rw [if_neg hpath]
    obtain ⟨a, n, j, d, hsteps, hwalk, rfl, hn⟩ := FileTree.entry_eq_some hentry
    rw [hsteps] at hup ⊢
    have hkept : ∀ m, m <+: d → (t.clear (d ++ [n])).node m = t.node m := by
      intro m hm
      rw [FileTree.node_clear, if_neg]
      intro h
      have hlen := (h.1.trans hm).length_le
      rw [List.length_append, List.length_singleton] at hlen
      omega
    have hup' : .up ∉ a := fun h => hup (List.mem_append_left _ h)
    refine FileTree.entry_concat_of_walk (FileTree.walk_down_only hlinks hup' hkept hwalk).2 ?_
    rw [FileTree.node_clear_self]
    exact hn

end Roots

/-! ## Iteration -/

/-- The state has moved on, and the tree is the same. -/
def FsState.Reads (s s' : FsState) : Prop := s'.tree = s.tree ∧ s.calls ≤ s'.calls

/-- A call that is counted reads only. -/
theorem FsState.reads_tick (s : FsState) : s.Reads s.tick := ⟨rfl, Nat.le_succ _⟩

/-- Reads after reads are reads. -/
theorem FsState.Reads.trans {s s' s'' : FsState} (h : s.Reads s') (h' : s'.Reads s'') : s.Reads s'' :=
  ⟨h'.1.trans h.1, Nat.le_trans h.2 h'.2⟩

/-- What a directory still lists, `.` and `..` apart, is what is in it, each entry once. -/
structure Lists (t : Tree) (l : Place) (rest : List Dirent) : Prop where
  entry : ∀ d ∈ rest, isDots d.name = false →
    ∃ n : FileName, d = ⟨n.val, World.direntType (t.node (l ++ [n])), l ++ [n]⟩ ∧ t.node (l ++ [n]) ≠ none
  nodup : (rest.map Dirent.name).Nodup
  complete : ∀ n : FileName, t.node (l ++ [n]) ≠ none → n.val ∈ rest.map Dirent.name

/-- What the system lists at first is what there is. -/
theorem lists_listing (t : Tree) (l : Place) : Lists t l (World.listing t l) where
  entry d hd hdots := by
    simp only [World.listing, List.mem_cons, List.mem_map] at hd
    rcases hd with rfl | rfl | ⟨n, hn, rfl⟩
    · cases hdots
    · cases hdots
    · exact ⟨n, rfl, FileTree.mem_names.mp hn⟩
  nodup := by
    have hnames : ((t.names l).map fun n : FileName => n.val).Nodup := (t.names_nodup l).map Subtype.val_injective
    have hdots : ∀ m : List UInt8, isDots m = true → m ∉ (t.names l).map fun n : FileName => n.val := by
      intro m hm hmem
      obtain ⟨n, _, rfl⟩ := List.mem_map.mp hmem
      rw [isDots_name] at hm
      cases hm
    simp only [World.listing, List.map_cons, List.map_map]
    refine List.nodup_cons.mpr ⟨?_, List.nodup_cons.mpr ⟨hdots _ rfl, hnames⟩⟩
    rw [List.mem_cons, not_or]
    exact ⟨by decide, hdots _ rfl⟩
  complete n hn := by
    refine List.mem_map.mpr ⟨⟨n.val, World.direntType (t.node (l ++ [n])), l ++ [n]⟩, ?_, rfl⟩
    simp only [World.listing, List.mem_cons, List.mem_map]
    exact Or.inr (Or.inr ⟨n, FileTree.mem_names.mpr hn, rfl⟩)

namespace Lists

variable {t : Tree} {d : Dirent} {rest rest' : List Dirent}

/-- The order of the entries does not matter. -/
theorem perm (h : Lists t l rest) (hperm : rest'.Perm rest) : Lists t l rest' where
  entry d hd := h.entry d (hperm.mem_iff.mp hd)
  nodup := (hperm.map Dirent.name).nodup_iff.mpr h.nodup
  complete n hn := (hperm.map Dirent.name).mem_iff.mpr (h.complete n hn)

/-- Without an entry that is none. -/
theorem tail (h : Lists t l (d :: rest)) (hd : isDots d.name = true) : Lists t l rest where
  entry d hd := h.entry d (List.mem_cons_of_mem _ hd)
  nodup := (List.nodup_cons.mp h.nodup).2
  complete n hn := by
    rcases List.mem_cons.mp (h.complete n hn) with heq | hmem
    · rw [← heq, isDots_name] at hd
      cases hd
    · exact hmem

/-- Once its first entry is removed. -/
theorem erase {n : FileName} (h : Lists t l (d :: rest)) (hd : d.name = n.val) : Lists (t.erase (l ++ [n])) l rest := by
  have hnot : n.val ∉ rest.map Dirent.name := hd ▸ (List.nodup_cons.mp h.nodup).1
  have hkept : ∀ m : FileName, m ≠ n → (t.erase (l ++ [n])).node (l ++ [m]) = t.node (l ++ [m]) := by
    intro m hm
    apply FileTree.node_erase_of_not_prefix
    rw [List.prefix_append_right_inj, List.cons_prefix_cons]
    exact fun heq => hm heq.1.symm
  exact {
    entry := by
      intro e he hdots
      obtain ⟨m, heq, hm⟩ := h.entry e (List.mem_cons_of_mem _ he) hdots
      have hne : m ≠ n := by
        rintro rfl
        exact hnot (List.mem_map.mpr ⟨e, he, by rw [heq]⟩)
      refine ⟨m, ?_, ?_⟩
      · rw [hkept m hne]
        exact heq
      · rw [hkept m hne]
        exact hm
    nodup := (List.nodup_cons.mp h.nodup).2
    complete := by
      intro m hm
      have hne : m ≠ n := by
        rintro rfl
        rw [FileTree.node_erase _ (by simp), if_pos (List.prefix_refl _)] at hm
        exact hm rfl
      rw [hkept m hne] at hm
      rcases List.mem_cons.mp (h.complete m hm) with heq | hmem
      · exact absurd (Subtype.ext (heq.trans hd)) hne
      · exact hmem }

/-- Where nothing is listed there are no names. -/
theorem names_nil (h : Lists t l []) : t.names l = [] := by
  refine List.eq_nil_iff_forall_not_mem.mpr fun n hn => ?_
  exact absurd (h.complete n (FileTree.mem_names.mp hn)) List.not_mem_nil

end Lists

/-- The next entry depends on the directory and on what the next read gives. -/
theorem nextDir_congr {it it' : DirIterator} {s s' : FsState} (hdir : it.dir = it'.dir)
    (hread : w.readdir it.rest s = w.readdir it'.rest s') : nextDir w it s = nextDir w it' s' := by
  obtain ⟨s1, rest, e, h⟩ : ∃ s1 rest e, w.readdir it'.rest s' = (s1, rest, e) := ⟨_, _, _, rfl⟩
  cases e with
  | none => rw [nextDir_null h, nextDir_null (hread.trans h), hdir]
  | some e => rw [nextDir_entry h, nextDir_entry (hread.trans h), hdir]

/-- The type of an entry that is no link, known from the listing or not. -/
theorem entryType_spec {n : FileName} {x : FileTree.Node FileName (List UInt8)} {e : Dirent} (hworks : w.WorksFrom s.calls)
    (hn : s.tree.node (l ++ [n]) = some x) (hlink : ∀ route, x ≠ .link route) (hname : e.name = n.val)
    (htype : e.type = World.direntType (some x) ∨ e.type = .unknown) :
    s.Reads (entryType w l e s).1 ∧ (entryType w l e s).2 = if s.tree.isDir (l ++ [n]) then .dir else .file := by
  have hstat : w.fstatat l e.name s = (s.tick, some x) := by
    rw [World.fstatat, hworks _ (Nat.le_refl _), if_neg (by decide), hname, stepOf_name, FileTree.walk_down_node hn hlink,
      FileTree.walk_nil, Option.bind_some, hn]
  rw [FileTree.isDir, hn]
  rcases htype with htype | htype <;> cases x with
  | file c =>
    simp only [entryType, htype, hstat, World.direntType]
    first
      | exact ⟨s.reads_tick, rfl⟩
      | exact ⟨⟨rfl, Nat.le_refl _⟩, rfl⟩
  | dir =>
    simp only [entryType, htype, hstat, World.direntType]
    first
      | exact ⟨s.reads_tick, rfl⟩
      | exact ⟨⟨rfl, Nat.le_refl _⟩, rfl⟩
  | link route => exact absurd rfl (hlink route)

/-- What stands in no removal's way: there are no links below a place, and what is there has short names and a path that fits. -/
structure Plain (t : Tree) (path : List UInt8) (l : Place) : Prop where
  links : ∀ m route, l <+: m → t.node m ≠ some (.link route)
  fits : ∀ ns, ns ≠ [] → t.node (l ++ ns) ≠ none → Fits path ns

namespace Plain

variable {t : Tree} {n : FileName}

/-- What is plain in a tree is plain in what is left of it. -/
theorem mono (h : Plain t path l) {u : Tree} (hle : u ≤ t) : Plain u path l where
  links m route hm hlink := h.links m route hm (hle m _ hlink)
  fits ns hns hnode := by
    obtain ⟨x, hx⟩ := Option.ne_none_iff_exists'.mp hnode
    exact h.fits ns hns (by simp [hle _ _ hx])

/-- What lies in a plain directory is plain. -/
theorem child (h : Plain t path l) (n : FileName) : Plain t (child path n) (l ++ [n]) where
  links m route hm := h.links m route ((List.prefix_append l [n]).trans hm)
  fits ns _ hnode := by
    rw [List.append_assoc] at hnode
    obtain ⟨hnames, hlen⟩ := h.fits (n :: ns) (List.cons_ne_nil n ns) hnode
    exact ⟨fun m hm => hnames m (List.mem_cons_of_mem n hm), hlen⟩

/-- An entry of the directory. -/
theorem fits_child (h : Plain t path l) (hn : t.node (l ++ [n]) ≠ none) :
    n.val.length < fsNameMax ∧ (Fs.child path n).length < fsPathMax := by
  obtain ⟨hnames, hlen⟩ := h.fits [n] (List.cons_ne_nil n []) hn
  exact ⟨hnames n List.mem_cons_self, hlen⟩

end Plain

/-- The next entry, or that there is none, because the directory is empty. -/
theorem nextDir_lists {rest : List Dirent} (hworks : w.WorksFrom s.calls) (hplain : Plain s.tree path l)
    (hlists : Lists s.tree l rest) :
    (∃ s1, nextDir w ⟨l, rest⟩ s = (s1, ⟨l, []⟩, none) ∧ s.Reads s1 ∧ s.tree.names l = []) ∨
      ∃ s1 n rest', nextDir w ⟨l, rest⟩ s =
          (s1, ⟨l, rest'⟩, some ⟨n.val, if s.tree.isDir (l ++ [n]) then .dir else .file⟩) ∧
        s.Reads s1 ∧ rest'.length < rest.length ∧ s.tree.node (l ++ [n]) ≠ none ∧ Lists (s.tree.erase (l ++ [n])) l rest' := by
  induction rest generalizing s with
  | nil => exact Or.inl ⟨s.tick, nextDir_null rfl, s.reads_tick, hlists.names_nil⟩
  | cons d rest ih =>
    have hworks' : w.WorksFrom s.tick.calls := hworks.mono (Nat.le_succ _)
    cases hdots : isDots d.name with
    | true =>
      have hnext : nextDir w ⟨l, d :: rest⟩ s = nextDir w ⟨l, rest⟩ s.tick := by
        by_cases hskip : s.tree.node d.place = none ∧ (w.decision s.calls).skips = true
        · refine nextDir_congr rfl ?_
          rw [World.readdir, hworks _ (Nat.le_refl _), if_neg (by decide), if_pos hskip]
        · have hread : w.readdir (d :: rest) s =
              (s.tick, rest, some (if (w.decision s.calls).untyped then { d with type := .unknown } else d)) := by
            rw [World.readdir, hworks _ (Nat.le_refl _), if_neg (by decide), if_neg hskip]
          refine nextDir_dots hread ?_
          split <;> exact hdots
      rw [hnext]
      rcases ih hworks' hplain (hlists.tail hdots) with ⟨s1, heq, hreads, hempty⟩ | ⟨s1, n, rest', heq, hreads, hlt, hn, hrest⟩
      · exact Or.inl ⟨s1, heq, s.reads_tick.trans hreads, hempty⟩
      · exact Or.inr ⟨s1, n, rest', heq, s.reads_tick.trans hreads, Nat.lt_succ_of_lt hlt, hn, hrest⟩
    | false =>
      obtain ⟨n, hd, hn⟩ := hlists.entry d List.mem_cons_self hdots
      obtain ⟨x, hx⟩ := Option.ne_none_iff_exists'.mp hn
      have hname : d.name = n.val := by rw [hd]
      have hlink : ∀ route, x ≠ .link route := by
        rintro route rfl
        exact hplain.links _ route (List.prefix_append l [n]) hx
      have hread : w.readdir (d :: rest) s =
          (s.tick, rest, some (if (w.decision s.calls).untyped then { d with type := .unknown } else d)) := by
        rw [World.readdir, hworks _ (Nat.le_refl _), if_neg (by decide), if_neg]
        rw [hd]
        exact fun h => hn h.1
      obtain ⟨hreads, htype⟩ := entryType_spec (w := w) (s := s.tick) (l := l)
        (e := if (w.decision s.calls).untyped then { d with type := .unknown } else d) hworks' hx hlink
        (by split <;> exact hname) (by
          split
          · exact Or.inr rfl
          · rw [hd, hx]
            exact Or.inl rfl)
      refine Or.inr ⟨_, n, rest, ?_, s.reads_tick.trans hreads, Nat.lt_succ_self _, hn, hlists.erase hname⟩
      rw [nextDir_entry hread, htype]
      have hname' : (if (w.decision s.calls).untyped then { d with type := .unknown } else d : Dirent).name = n.val := by
        split <;> exact hname
      rw [hname', isDots_name, if_neg (by decide), List.take_of_length_le (Nat.le_sub_one_of_lt (hplain.fits_child hn).1)]
      rfl

/-! ## Removal -/

/-- A call that removes a place, and nothing else, and says so. -/
def Removed (l : Place) (s : FsState) (run : Option (FsState × CprResult)) : Prop :=
  ∃ s', run = some (s', .ok) ∧ s'.tree = s.tree.erase l ∧ s.calls ≤ s'.calls

/-- The loop removes every entry, each by a call that does, and then the directory. -/
theorem removeEntries_complete (force : List UInt8 → FsState → Option (FsState × CprResult)) {rest : List Dirent}
    (hforce : ∀ n (s' : FsState), s'.tree ≤ s.tree → s.calls ≤ s'.calls → (child path n).length < fsPathMax →
      s'.tree.node (l ++ [n]) = some .dir → Roots w s'.tree path l → Removed (l ++ [n]) s' (force (child path n) s'))
    (hworks : w.WorksFrom s.calls) (hplain : Plain s.tree path l) (hroots : Roots w s.tree path l)
    (hlists : Lists s.tree l rest) : Removed l s (removeEntries w force path ⟨l, rest⟩ s) := by
  induction hlen : rest.length using Nat.strongRecOn generalizing rest s with
  | _ len ih =>
    rcases nextDir_lists hworks hplain hlists with ⟨s1, hnext, hreads, hempty⟩ | ⟨s1, n, rest', hnext, hreads, hlt, hn, hrest⟩
    · rw [removeEntries_null hnext]
      refine ⟨s1.tick.erase l, ?_, by rw [FsState.erase_tree, FsState.tick_tree, hreads.1], Nat.le_succ_of_le hreads.2⟩
      have hentry := hroots.entry
      have hdir := hroots.2
      rw [← hreads.1] at hempty hentry hdir
      simp [rmdir, World.rmdir, hworks s1.calls hreads.2, hentry, hdir, hempty]
    · obtain ⟨_, hfits⟩ := hplain.fits_child hn
      rw [removeEntries_entry hnext]
      simp only [pathJoin_name, if_pos hfits]
      have hremoved : Removed (l ++ [n]) s1
          (removeEntry w force (child path n) (if s.tree.isDir (l ++ [n]) then .dir else .file) s1) := by
        rw [← hreads.1] at hn hroots ⊢
        by_cases hdir : s1.tree.isDir (l ++ [n]) = true
        · rw [if_pos hdir, removeEntry, if_pos rfl]
          exact hforce n s1 (hreads.1 ▸ FileTree.le_refl _) hreads.2 hfits (FileTree.isDir_iff.mp hdir) hroots
        · have hfails := hworks s1.calls hreads.2
          rw [if_neg hdir]
          refine ⟨s1.tick.erase (l ++ [n]), ?_, rfl, Nat.le_succ _⟩
          simp [removeEntry, removeFile, World.unlink, hfails, hroots.entry_child hn, hdir]
      obtain ⟨s2, hremove, htree, hcalls⟩ := hremoved
      rw [hremove, Option.bind_some]
      simp only [CprResult.err, ne_eq, not_true_eq_false, decide_false, Bool.false_eq_true, if_false]
      rw [hreads.1] at htree
      have hle : s2.tree ≤ s.tree := htree ▸ s.tree.erase_le _
      have hcalls2 := Nat.le_trans hreads.2 hcalls
      obtain ⟨s3, hrun, htree3, hcalls3⟩ := ih _ (hlen ▸ hlt) (s := s2)
        (fun n s' hle' hcalls' => hforce n s' (FileTree.le_trans hle' hle) (Nat.le_trans hcalls2 hcalls'))
        (hworks.mono hcalls2) (hplain.mono hle) (htree ▸ hroots.erase n) (htree ▸ hrest) rfl
      refine ⟨s3, hrun, ?_, Nat.le_trans hcalls2 hcalls3⟩
      rw [htree3, htree, FileTree.erase_erase _ hroots.ne_nil (List.prefix_append l [n])]

/-- Each level of a recursion bounded by the length of its path removes its directory. -/
theorem rmdirForce_complete {fuel : Nat} (hfuel : 0 < fuel) (hlen : fsPathMax ≤ fuel + path.length) (hworks : w.WorksFrom s.calls)
    (hplain : Plain s.tree path l) (hroots : Roots w s.tree path l) : Removed l s (rmdirForce w fuel path s) := by
  induction fuel generalizing path s l with
  | zero => cases hfuel
  | succ fuel ih =>
    have hopen := openDir_eq (hworks _ (Nat.le_refl _)) (hworks _ (Nat.le_succ _)) hroots.resolve hroots.2
    rw [rmdirForce, hopen]
    have hlists := (lists_listing s.tree l).perm ((w.decision (s.calls + 1)).perm _)
    have hcalls : s.calls ≤ s.tick.tick.calls := Nat.le_add_right _ 2
    obtain ⟨s', hrun, htree, hcalls'⟩ := removeEntries_complete (rmdirForce w fuel) (s := s.tick.tick)
      (fun n s' hle hcalls' hfits hdir hroots' => by
        have hlonger := length_child_gt hroots.path_ne_nil n
        exact ih (by omega) (by omega) (hworks.mono (Nat.le_trans hcalls hcalls')) ((hplain.mono hle).child n)
          (hroots'.child hdir))
      (hworks.mono hcalls) hplain hroots hlists
    exact ⟨s', hrun, htree, Nat.le_trans hcalls hcalls'⟩

/-! ## Failures -/

/-- The calls that a removal makes to open a directory or to remove something. -/
inductive RemovalCall where
  | opendir (path : List UInt8)
  | unlink (path : List UInt8)
  | rmdir (path : List UInt8)

/-- Whether a call succeeds. -/
def RemovalCall.succeeds (w : World) : RemovalCall → FsState → Bool
  | .opendir path, s => (w.opendir path s).2.isSome
  | .unlink path, s => (w.unlink path s).2
  | .rmdir path, s => (w.rmdir path s).2

/-- The calls of the loop of `cpr__rmdir_force` and of `cpr__rmdir` after it, each with the state that it is made in; with
`force`, and the calls of that, for its call of itself. -/
def entriesCalls (w : World) (force : List UInt8 → FsState → Option (FsState × CprResult))
    (calls : List UInt8 → FsState → List (RemovalCall × FsState)) (path : List UInt8) (it : DirIterator) (s : FsState) :
    List (RemovalCall × FsState) :=
  match _h : nextDir w it s with
  | (s, _, none) => [(.rmdir path, s)]
  | (s, it', some entry) =>
    match (pathJoin .posix (.room fsPathMax) (some path) (some entry.name)).state with
    | none => []
    | some child =>
      (if entry.type = .dir then calls child s else [(.unlink child, s)]) ++
        match removeEntry w force child entry.type s with
        | some (s, .ok) => entriesCalls w force calls path it' s
        | _ => []
termination_by it.rest.length
decreasing_by exact ((nextDir_spec _h).2.2.2 entry rfl).1

/-- The calls of `cpr__rmdir_force`; none, if there is no memory for its iterator. -/
def removalCalls (w : World) : Nat → List UInt8 → FsState → List (RemovalCall × FsState)
  | 0, _, _ => []
  | fuel + 1, path, s =>
    if (w.decision s.calls).fails then []
    else
      (.opendir path, s.tick) ::
        match openDir w (some path) s with
        | (_, none) => []
        | (s, some it) => entriesCalls w (rmdirForce w fuel) (removalCalls w fuel) path it s

/-- At the end of the entries the directory itself is removed. -/
theorem entriesCalls_null {force : List UInt8 → FsState → Option (FsState × CprResult)}
    {calls : List UInt8 → FsState → List (RemovalCall × FsState)} {it it' : DirIterator} {s s1 : FsState}
    (h : nextDir w it s = (s1, it', none)) : entriesCalls w force calls path it s = [(.rmdir path, s1)] := by
  rw [entriesCalls]
  split
  · rename_i hr
    rw [h] at hr
    cases hr
    rfl
  · rename_i hr
    rw [h] at hr
    cases hr

/-- The calls for an entry stand before those for the entries that follow. -/
theorem entriesCalls_entry {force : List UInt8 → FsState → Option (FsState × CprResult)}
    {calls : List UInt8 → FsState → List (RemovalCall × FsState)} {it it' : DirIterator} {s s1 : FsState} {entry : DirEntry}
    (h : nextDir w it s = (s1, it', some entry)) :
    entriesCalls w force calls path it s =
      match (pathJoin .posix (.room fsPathMax) (some path) (some entry.name)).state with
      | none => []
      | some child =>
        (if entry.type = .dir then calls child s1 else [(.unlink child, s1)]) ++
          match removeEntry w force child entry.type s1 with
          | some (s, .ok) => entriesCalls w force calls path it' s
          | _ => [] := by
  rw [entriesCalls]
  split
  · rename_i hr
    rw [h] at hr
    cases hr
  · rename_i hr
    rw [h] at hr
    cases hr
    rfl

/-- Where `cpr__rmdir` succeeds the system has removed the directory. -/
theorem rmdir_succeeds {s' : FsState} (h : rmdir w path s = (s', .ok)) : (w.rmdir path s).2 = true := by
  unfold rmdir at h
  split at h
  · rename_i hr
    rw [hr]
  · cases h

/-- Every call for an entry succeeds, if the body of the loop says so. -/
theorem removeEntry_succeeds {force : List UInt8 → FsState → Option (FsState × CprResult)}
    {calls : List UInt8 → FsState → List (RemovalCall × FsState)} {child : List UInt8} {type : FsType} {s' : FsState}
    (hforce : ∀ s', force child s = some (s', .ok) → ∀ c ∈ calls child s, c.1.succeeds w c.2 = true)
    (hrun : removeEntry w force child type s = some (s', .ok)) :
    ∀ c ∈ if type = .dir then calls child s else [(.unlink child, s)], c.1.succeeds w c.2 = true := by
  unfold removeEntry at hrun
  split at hrun
  · rename_i htype
    rw [if_pos htype]
    exact hforce s' hrun
  · rename_i htype
    rw [if_neg htype]
    intro c hc
    rw [List.mem_singleton] at hc
    subst hc
    unfold removeFile at hrun
    cases hunlink : (w.unlink child s).2 with
    | true => exact hunlink
    | false =>
      obtain ⟨s1, hs1⟩ : ∃ s1, w.unlink child s = (s1, false) := ⟨_, Prod.ext rfl hunlink⟩
      simp only [hs1] at hrun
      cases hrun

/-- Every call of the loop succeeds, if it says so. -/
theorem entriesCalls_succeed {force : List UInt8 → FsState → Option (FsState × CprResult)}
    {calls : List UInt8 → FsState → List (RemovalCall × FsState)}
    (hforce : ∀ child s s', force child s = some (s', .ok) → ∀ c ∈ calls child s, c.1.succeeds w c.2 = true) {it : DirIterator}
    {s s' : FsState} (hrun : removeEntries w force path it s = some (s', .ok)) :
    ∀ c ∈ entriesCalls w force calls path it s, c.1.succeeds w c.2 = true := by
  induction hlen : it.rest.length using Nat.strongRecOn generalizing it s with
  | _ len ih =>
    obtain ⟨s1, it', e, hnext⟩ : ∃ s1 it' e, nextDir w it s = (s1, it', e) := ⟨_, _, _, rfl⟩
    obtain ⟨_, _, _, hentry⟩ := nextDir_spec hnext
    cases e with
    | none =>
      rw [removeEntries_null hnext, Option.some.injEq] at hrun
      rw [entriesCalls_null hnext]
      intro c hc
      rw [List.mem_singleton] at hc
      subst hc
      exact rmdir_succeeds hrun
    | some e =>
      obtain ⟨hshorter, _⟩ := hentry e rfl
      rw [removeEntries_entry hnext] at hrun
      rw [entriesCalls_entry hnext]
      cases hjoin : (pathJoin .posix (.room fsPathMax) (some path) (some e.name)).state with
      | none =>
        simp only [hjoin] at hrun
        cases hrun
      | some child =>
        simp only [hjoin] at hrun ⊢
        obtain ⟨⟨s2, r⟩, hremove, hrun⟩ := Option.bind_eq_some_iff.mp hrun
        have hr : r = .ok := by
          by_contra hne
          simp only [CprResult.err, hne, ne_eq, not_false_eq_true, decide_true, if_true] at hrun
          cases hrun
          exact hne rfl
        subst hr
        simp only [CprResult.err, ne_eq, not_true_eq_false, decide_false, Bool.false_eq_true, if_false] at hrun
        rw [hremove]
        intro c hc
        rcases List.mem_append.mp hc with hc | hc
        · exact removeEntry_succeeds (hforce child s1) hremove c hc
        · exact ih _ (hlen ▸ hshorter) hrun rfl c hc

/-- Every call that opens a directory or removes something succeeds, if the removal says so. -/
theorem removalCalls_succeed {fuel : Nat} {s' : FsState} (hrun : rmdirForce w fuel path s = some (s', .ok)) :
    ∀ c ∈ removalCalls w fuel path s, c.1.succeeds w c.2 = true := by
  induction fuel generalizing path s s' with
  | zero => cases hrun
  | succ fuel ih =>
    rw [removalCalls]
    split
    · exact fun c hc => absurd hc List.not_mem_nil
    · rename_i hoom
      rw [rmdirForce] at hrun
      obtain ⟨s1, it, hopen⟩ : ∃ s1 it, openDir w (some path) s = (s1, it) := ⟨_, _, rfl⟩
      rw [hopen] at hrun ⊢
      cases it with
      | none => cases hrun
      | some it =>
        intro c hc
        rcases List.mem_cons.mp hc with rfl | hc
        · simp only [openDir, if_neg hoom] at hopen
          split at hopen
          · rename_i hr
            rw [RemovalCall.succeeds, hr]
            rfl
          · cases hopen
        · exact entriesCalls_succeed (fun child s s' h => ih h) hrun c hc

/-! ## That these are the calls of a run -/

/-- The state that a call leaves. -/
def RemovalCall.after (w : World) : RemovalCall → FsState → FsState
  | .opendir path, s => (w.opendir path s).1
  | .unlink path, s => (w.unlink path s).1
  | .rmdir path, s => (w.rmdir path s).1

/-- From one state to another just these calls are made, each in the state that stands with it, and besides only calls that read. -/
inductive Makes (w : World) : FsState → List (RemovalCall × FsState) → FsState → Prop where
  | reads {s s' : FsState} (h : s.Reads s') : Makes w s [] s'
  | call {s s₁ s' : FsState} {c : RemovalCall} {calls : List (RemovalCall × FsState)} (h : s.Reads s₁)
      (rest : Makes w (c.after w s₁) calls s') : Makes w s ((c, s₁) :: calls) s'

/-- One call after ones that read, and before such. -/
theorem Makes.single {s₁ s' : FsState} {c : RemovalCall} (h : s.Reads s₁) (h' : (c.after w s₁).Reads s') :
    Makes w s [(c, s₁)] s' :=
  .call h (.reads h')

/-- What is read before calls that are made does not count. -/
theorem Makes.after_reads {s₁ s' : FsState} {calls : List (RemovalCall × FsState)} (h : s.Reads s₁) (hmakes : Makes w s₁ calls s') :
    Makes w s calls s' := by
  cases hmakes with
  | reads h' => exact .reads (h.trans h')
  | call h' rest => exact .call (h.trans h') rest

/-- Calls that are made after others. -/
theorem Makes.append {s₁ s' : FsState} {calls more : List (RemovalCall × FsState)} (h : Makes w s calls s₁)
    (h' : Makes w s₁ more s') : Makes w s (calls ++ more) s' := by
  induction h with
  | reads h => exact h'.after_reads h
  | call h _ ih => exact .call h (ih h')

/-- Nothing is read. -/
theorem FsState.Reads.refl (s : FsState) : s.Reads s := ⟨rfl, Nat.le_refl _⟩

/-- Recording an error changes no file. -/
theorem FsState.reads_setError (s : FsState) (code : CprResult) (message : String) : s.Reads (s.setError code message) :=
  ⟨rfl, Nat.le_refl _⟩

/-- A read of a directory changes no file. -/
theorem readdir_reads (w : World) (rest : List Dirent) (s : FsState) : s.Reads (w.readdir rest s).1 := by
  induction rest generalizing s with
  | nil => exact s.reads_tick
  | cons e rest ih =>
    rw [World.readdir]
    split
    · exact s.reads_tick
    · split
      · exact s.reads_tick.trans (ih s.tick)
      · exact s.reads_tick

/-- Nor does asking for the type of an entry. -/
theorem entryType_reads (w : World) (dir : Place) (e : Dirent) (s : FsState) : s.Reads (entryType w dir e s).1 := by
  have hstat : s.Reads (w.fstatat dir e.name s).1 := by
    unfold World.fstatat
    split <;> exact s.reads_tick
  unfold entryType
  split
  · exact .refl s
  · exact .refl s
  · generalize w.fstatat dir e.name s = r at hstat
    obtain ⟨s1, x⟩ := r
    rcases x with _ | c | _ | route <;> exact hstat

/-- Nor does `cpr_next_dir`. -/
theorem nextDir_reads {it it' : DirIterator} {s1 : FsState} {r : Option DirEntry} (h : nextDir w it s = (s1, it', r)) : s.Reads s1 := by
  induction hlen : it.rest.length using Nat.strongRecOn generalizing it s with
  | _ len ih =>
    obtain ⟨s2, rest, e, hread⟩ : ∃ s2 rest e, w.readdir it.rest s = (s2, rest, e) := ⟨_, _, _, rfl⟩
    have hreads : s.Reads s2 := by
      have hmoved := readdir_reads w it.rest s
      rwa [hread] at hmoved
    cases e with
    | none =>
      rw [nextDir_null hread] at h
      cases h
      exact hreads
    | some e =>
      rw [nextDir_entry hread] at h
      split at h
      · exact hreads.trans (ih _ (hlen ▸ readdir_length hread) h rfl)
      · cases h
        exact hreads.trans (entryType_reads w it.dir e s2)

/-- `cpr_remove_file` makes its `unlink`, and changes no file besides. -/
theorem removeFile_reads (w : World) (path : List UInt8) (s : FsState) :
    ((RemovalCall.unlink path).after w s).Reads (removeFile w (some path) s).1 := by
  have hafter : (RemovalCall.unlink path).after w s = (w.unlink path s).1 := rfl
  rw [hafter, removeFile]
  generalize w.unlink path s = r
  obtain ⟨s1, ok⟩ := r
  cases ok with
  | true => exact .refl s1
  | false => exact s1.reads_setError _ _

/-- `cpr__rmdir` makes its `rmdir`, and changes no file besides. -/
theorem rmdir_reads (w : World) (path : List UInt8) (s : FsState) :
    ((RemovalCall.rmdir path).after w s).Reads (rmdir w path s).1 := by
  have hafter : (RemovalCall.rmdir path).after w s = (w.rmdir path s).1 := rfl
  rw [hafter, rmdir]
  generalize w.rmdir path s = r
  obtain ⟨s1, ok⟩ := r
  cases ok with
  | true => exact .refl s1
  | false => exact s1.reads_setError _ _

/-- The calls for an entry are those of the body of the loop. -/
theorem removeEntry_makes {force : List UInt8 → FsState → Option (FsState × CprResult)}
    {calls : List UInt8 → FsState → List (RemovalCall × FsState)} {child : List UInt8} {type : FsType} {s' : FsState} {r : CprResult}
    (hforce : ∀ s' r, force child s = some (s', r) → Makes w s (calls child s) s')
    (hrun : removeEntry w force child type s = some (s', r)) :
    Makes w s (if type = .dir then calls child s else [(.unlink child, s)]) s' := by
  unfold removeEntry at hrun
  split at hrun
  · rename_i htype
    rw [if_pos htype]
    exact hforce s' r hrun
  · rename_i htype
    rw [if_neg htype]
    have hreads := removeFile_reads w child s
    split at hrun
    · rename_i hremove
      rw [hremove] at hreads
      cases hrun
      exact .single (.refl s) hreads
    · rename_i hremove
      rw [hremove] at hreads
      cases hrun
      exact .single (.refl s) hreads

/-- The calls of a directory are those that its removal makes, if those of each entry are. -/
theorem entriesCalls_makes {force : List UInt8 → FsState → Option (FsState × CprResult)}
    {calls : List UInt8 → FsState → List (RemovalCall × FsState)}
    (hforce : ∀ child s s' r, force child s = some (s', r) → Makes w s (calls child s) s') {it : DirIterator}
    {s s' : FsState} {r : CprResult} (hrun : removeEntries w force path it s = some (s', r)) :
    Makes w s (entriesCalls w force calls path it s) s' := by
  induction hlen : it.rest.length using Nat.strongRecOn generalizing it s with
  | _ len ih =>
    obtain ⟨s1, it', e, hnext⟩ : ∃ s1 it' e, nextDir w it s = (s1, it', e) := ⟨_, _, _, rfl⟩
    have hreads := nextDir_reads hnext
    obtain ⟨_, _, _, hentry⟩ := nextDir_spec hnext
    cases e with
    | none =>
      rw [removeEntries_null hnext, Option.some.injEq] at hrun
      rw [entriesCalls_null hnext]
      have hafter := rmdir_reads w path s1
      rw [hrun] at hafter
      exact .single hreads hafter
    | some e =>
      obtain ⟨hshorter, _⟩ := hentry e rfl
      rw [removeEntries_entry hnext] at hrun
      rw [entriesCalls_entry hnext]
      refine .after_reads hreads ?_
      cases hjoin : (pathJoin .posix (.room fsPathMax) (some path) (some e.name)).state with
      | none =>
        simp only [hjoin] at hrun ⊢
        cases hrun
        exact .reads ⟨FsState.record_tree _ _, Nat.le_of_eq (FsState.record_calls _ _).symm⟩
      | some child =>
        simp only [hjoin] at hrun ⊢
        obtain ⟨⟨s2, r'⟩, hremove, hrun⟩ := Option.bind_eq_some_iff.mp hrun
        have hmakes := removeEntry_makes (hforce child s1) hremove
        refine hmakes.append ?_
        rw [hremove]
        by_cases hr : r' = .ok
        · subst hr
          simp only [CprResult.err, ne_eq, not_true_eq_false, decide_false, Bool.false_eq_true, if_false] at hrun
          exact ih _ (hlen ▸ hshorter) hrun rfl
        · simp only [CprResult.err, hr, ne_eq, not_false_eq_true, decide_true, if_true] at hrun
          cases hrun
          split
          · rename_i heq
            cases heq
            exact absurd rfl hr
          · exact .reads (.refl _)

/-- The calls that open a directory or remove something are those of the run, in its order. -/
theorem removalCalls_makes {fuel : Nat} {s' : FsState} {r : CprResult} (hrun : rmdirForce w fuel path s = some (s', r)) :
    Makes w s (removalCalls w fuel path s) s' := by
  induction fuel generalizing path s s' r with
  | zero => cases hrun
  | succ fuel ih =>
    rw [rmdirForce] at hrun
    rw [removalCalls]
    split
    · rename_i hoom
      simp only [openDir, if_pos hoom] at hrun
      cases hrun
      exact .reads (s.reads_tick.trans (s.tick.reads_setError _ _))
    · rename_i hoom
      cases hopen : w.opendir path s.tick with
      | mk s1 opened =>
        have hafter : (RemovalCall.opendir path).after w s.tick = s1 := congrArg Prod.fst hopen
        refine .call s.reads_tick ?_
        rw [hafter]
        cases opened with
        | none =>
          simp only [openDir, if_neg hoom, hopen] at hrun ⊢
          cases hrun
          exact .reads (s1.reads_setError _ _)
        | some it =>
          simp only [openDir, if_neg hoom, hopen] at hrun ⊢
          exact entriesCalls_makes (fun child s s' r h => ih h) hrun

/-! ## Complete removal -/

/-- Where nothing fails, a directory that no link is in, and whose paths and names fit, is removed with everything in it. -/
theorem removeDir_works (hroots : Roots w s.tree path l) (hplain : Plain s.tree path l) (hworks : w.WorksFrom s.calls) :
    ∃ s', removeDir w (some path) true s = some (s', true) ∧ ∀ m, s'.tree.node m = if l <+: m then none else s.tree.node m := by
  obtain ⟨s', hrun, htree, _⟩ := rmdirForce_complete (by decide : 0 < fsPathMax) (Nat.le_add_right _ _) hworks hplain hroots
  refine ⟨s', ?_, fun m => ?_⟩
  · simp only [removeDir, if_true, hrun, Option.map_some]
    rfl
  · rw [htree, FileTree.node_erase _ hroots.ne_nil]

/-- Where nothing fails, a directory without links, whose paths and names fit, is removed with everything in it, and nothing else is.
Whatever fails, the call returns, only entries of the directory are gone, and it returns false if a call that opens a directory or
removes something failed; these are just the calls of the list. -/
theorem removeDir_complete (w : World) (path : List UInt8) (s : FsState) (l : Place) (hroots : Roots w s.tree path l)
    (hplain : Plain s.tree path l) :
    (w.WorksFrom s.calls → ∃ s', removeDir w (some path) true s = some (s', true) ∧
        ∀ m, s'.tree.node m = if l <+: m then none else s.tree.node m) ∧
      ∃ s' ok, removeDir w (some path) true s = some (s', ok) ∧
        (∀ m, s'.tree.node m ≠ s.tree.node m → l <+: m ∧ s'.tree.node m = none) ∧
        Makes w s (removalCalls w fsPathMax path s) s' ∧
        ((∃ c ∈ removalCalls w fsPathMax path s, c.1.succeeds w c.2 = false) → ok = false) := by
  constructor
  · exact removeDir_works hroots hplain
  · have htotal : rmdirForce w fsPathMax path s ≠ none := rmdirForce_total (by decide) (Nat.le_add_right _ _)
    obtain ⟨⟨s', r⟩, hrun⟩ := Option.ne_none_iff_exists'.mp htotal
    have hremove : removeDir w (some path) true s = some (s', !r.err) := by
      simp only [removeDir, if_true, hrun, Option.map_some]
    refine ⟨s', !r.err, hremove, fun m hm => ?_, removalCalls_makes hrun, ?_⟩
    · have hcontained := contained_of_no_links hroots.resolve fun m route hm => hplain.links m route hm
      obtain ⟨s'', ok, hrun', hframe⟩ := stays_inside_of_contained hroots.resolve hcontained
      rw [hremove, Option.some.injEq, Prod.mk.injEq] at hrun'
      obtain ⟨rfl, _⟩ := hrun'
      refine ⟨by_contra fun hout => hm (hframe m hout), ?_⟩
      by_contra hsome
      obtain ⟨x, hx⟩ := Option.ne_none_iff_exists'.mp hsome
      rw [hx, rmdirForce_le hrun m x hx] at hm
      exact hm rfl
    · rintro ⟨c, hc, hfails⟩
      by_contra hok
      have hr : r = .ok := by
        by_contra hne
        simp [CprResult.err, hne] at hok
      subst hr
      rw [removalCalls_succeed hrun c hc] at hfails
      cases hfails

/-- A directory `/d` with a directory `/d/a`, a file in that, and a file `/d/o`; and a file `/o`. -/
def deepTree : Tree :=
  .ofEntries [([nameD], .dir), ([nameD, nameA], .dir), ([nameD, nameA, nameO], .file [1]), ([nameD, nameO], .file [2]),
    ([nameO], .file [3])] (by decide)

/-- What there is in the tree. -/
theorem deepTree_node {m : Place} {x : FileTree.Node FileName (List UInt8)} (hx : deepTree.node ([nameD] ++ m) = some x) :
    (∀ route, x ≠ .link route) ∧ (m = [] ∨ m = [nameA] ∨ m = [nameA, nameO] ∨ m = [nameO]) := by
  have hmem := FileTree.ofEntries_mem (by decide) hx (by simp)
  simp only [List.singleton_append, List.mem_cons, Prod.mk.injEq, List.cons.injEq, true_and, List.not_mem_nil, or_false] at hmem
  rcases hmem with ⟨rfl, rfl⟩ | ⟨rfl, rfl⟩ | ⟨rfl, rfl⟩ | ⟨rfl, rfl⟩ | ⟨⟨h, _⟩, _⟩
  · simp
  · simp
  · simp
  · simp
  · exact absurd h (by decide)

/-- Removing `/d/` drops all of it. -/
theorem removeDir_complete_deep :
    ∃ s', removeDir ⟨40, [], fun _ => .lists nameO⟩ (some [47, 100, 47]) true ⟨deepTree, 0, none⟩ = some (s', true) ∧
      ∀ m, s'.tree.node m = if [nameD] <+: m then none else deepTree.node m := by
  refine (removeDir_complete ⟨40, [], fun _ => .lists nameO⟩ [47, 100, 47] ⟨deepTree, 0, none⟩ [nameD] ⟨by decide, by decide⟩
    ⟨?_, ?_⟩).1 fun _ _ => rfl
  · rintro m route ⟨m', rfl⟩ hm
    exact (deepTree_node hm).1 route rfl
  · intro ns hns hnode
    obtain ⟨x, hx⟩ := Option.ne_none_iff_exists'.mp hnode
    rcases (deepTree_node hx).2 with rfl | rfl | rfl | rfl
    · exact absurd rfl hns
    · exact ⟨by decide, by decide⟩
    · exact ⟨by decide, by decide⟩
    · exact ⟨by decide, by decide⟩

end Copper.Fs
