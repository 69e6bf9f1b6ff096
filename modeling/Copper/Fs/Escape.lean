import Copper.Fs.Contained

/-!
# How a recursive removal leaves its directory

The converse of `stays_inside_of_contained`: from a path below the directory to an entry outside that can be removed,
decisions of the system under which it is. Every directory on the way lists the next name first, and a link that is the entry
itself is not followed because `fstatat` fails. Together the two directions say exactly which removals stay inside.
-/

namespace Copper.Fs

/-! ## Decisions -/

/-- The entries of one name first. -/
def front (n : FileName) (l : List Dirent) : List Dirent := l.filter (·.name = n.val) ++ l.filter fun e => !(e.name = n.val : Bool)

/-- Nothing fails, and a directory lists the entry of one name first. -/
def Decision.lists (n : FileName) : Decision where
  fails := false
  untyped := false
  skips := false
  order := front n
  perm := List.filter_append_perm _

/-- The call fails. -/
def Decision.refuses : Decision where
  fails := true
  untyped := false
  skips := false
  order := id
  perm := List.Perm.refl

/-- The decisions so far, and from then on those under which a directory lists one entry first. -/
def listsFrom (w : World) (calls : Nat) (n : FileName) : Nat → Decision := fun i => if i < calls then w.decision i else .lists n

theorem listsFrom_of_le (w : World) {calls i : Nat} (n : FileName) (h : calls ≤ i) : listsFrom w calls n i = .lists n :=
  if_neg (Nat.not_lt.mpr h)

/-! ## Steps of a run -/

/-- An entry of a listing with a name is the entry of that name. -/
theorem listing_of_name {t : Tree} {l : Place} {n : FileName} {e : Dirent} (he : e ∈ World.listing t l) (hname : e.name = n.val) :
    e = ⟨n.val, World.direntType (t.node (l ++ [n])), l ++ [n]⟩ := by
  simp only [World.listing, List.mem_cons, List.mem_map] at he
  rcases he with rfl | rfl | ⟨m, _, rfl⟩
  · exact absurd hname.symm n.2.2.1
  · exact absurd hname.symm n.2.2.2.1
  · obtain rfl : m = n := Subtype.ext hname
    rfl

/-- A listing of a directory with the entry of one name first. -/
theorem front_listing {t : Tree} {l : Place} {n : FileName} (hn : t.node (l ++ [n]) ≠ none) :
    ∃ rest, front n (World.listing t l) = ⟨n.val, World.direntType (t.node (l ++ [n])), l ++ [n]⟩ :: rest ∧ Named rest := by
  have hmem : (⟨n.val, World.direntType (t.node (l ++ [n])), l ++ [n]⟩ : Dirent) ∈ World.listing t l := by
    simp only [World.listing, List.mem_cons, List.mem_map]
    exact .inr (.inr ⟨n, FileTree.mem_names.mpr hn, rfl⟩)
  have hfilter : (World.listing t l).filter (·.name = n.val) ≠ [] :=
    List.ne_nil_of_mem (List.mem_filter.mpr ⟨hmem, decide_eq_true rfl⟩)
  obtain ⟨e, more, hcons⟩ := List.exists_cons_of_ne_nil hfilter
  have he : e ∈ (World.listing t l).filter (·.name = n.val) := hcons ▸ List.mem_cons_self
  obtain ⟨hin, hname⟩ := List.mem_filter.mp he
  have hfront : front n (World.listing t l) = e :: (more ++ (World.listing t l).filter fun e => !(e.name = n.val : Bool)) := by
    rw [front, hcons, List.cons_append]
  rw [listing_of_name hin (of_decide_eq_true hname)] at hfront
  refine ⟨_, hfront, fun d hd => listing_named t l d ?_⟩
  have hperm : (front n (World.listing t l)).Perm (World.listing t l) := List.filter_append_perm _ _
  exact hperm.mem_iff.mp (hfront ▸ List.mem_cons_of_mem _ hd)

/-- A directory that is opened. -/
theorem openDir_eq {w : World} {path : List UInt8} {s : FsState} {l : Place} (hoom : (w.decision s.calls).fails = false)
    (hopen : (w.decision (s.calls + 1)).fails = false) (hres : w.resolve s.tree path = some l) (hdir : s.tree.isDir l = true) :
    openDir w (some path) s =
      (s.tick.tick, some ⟨l, (w.decision (s.calls + 1)).order (World.listing s.tree l)⟩) := by
  simp [openDir, World.opendir, hoom, hopen, hres, hdir]

/-- The first entry of a directory whose listing starts with a name. -/
theorem nextDir_front {w : World} {s : FsState} {dir : Place} {n : FileName} {x : FileTree.Node FileName (List UInt8)}
    (rest : List Dirent) (hlists : w.decision s.calls = .lists n) (hn : s.tree.node (dir ++ [n]) = some x)
    (hshort : n.val.length < fsNameMax) :
    let e : Dirent := ⟨n.val, World.direntType (some x), dir ++ [n]⟩
    nextDir w ⟨dir, e :: rest⟩ s =
      ((entryType w dir e s.tick).1, ⟨dir, rest⟩, some ⟨n.val, (entryType w dir e s.tick).2⟩) := by
  intro e
  have hread : w.readdir (e :: rest) s = (s.tick, rest, some e) := by
    have hplace : s.tree.node e.place ≠ none := by
      rw [hn]
      simp
    simp [World.readdir, hlists, Decision.lists, hplace]
  have hname : n.val.take (fsNameMax - 1) = n.val := List.take_of_length_le (Nat.le_sub_one_of_lt hshort)
  rw [nextDir_entry hread, isDots_name n, if_neg (by decide), hname]

/-- A run on a directory whose listing starts with a name: what removing that entry drops stays dropped. -/
theorem rmdirForce_front {w : World} {fuel k : Nat} {path : List UInt8} {s s1 s2 : FsState} {d l : Place} {n : FileName}
    {x : FileTree.Node FileName (List UInt8)} {type : FsType} {r : CprResult} (hpath : path ≠ [])
    (hfuel : fsPathMax ≤ fuel + 1 + path.length) (hreach : w.reach s.tree path = some (k, d))
    (hn : s.tree.node (d ++ [n]) = some x) (hshort : n.val.length < fsNameMax) (hfits : (child path n).length < fsPathMax)
    (hlists : ∀ i, s.calls ≤ i → i < s.calls + 3 → w.decision i = .lists n)
    (htype : entryType w d ⟨n.val, World.direntType (some x), d ++ [n]⟩ s.tick.tick.tick = (s1, type))
    (hremove : removeEntry w (rmdirForce w fuel) (child path n) type s1 = some (s2, r)) (hl : s2.tree.node l = none) :
    ∃ s' r', rmdirForce w (fuel + 1) path s = some (s', r') ∧ s'.tree.node l = none := by
  have hres : w.resolve s.tree path = some d := by
    rw [World.resolve, hreach]
    rfl
  have hnone : s.tree.node (d ++ [n]) ≠ none := by
    rw [hn]
    simp
  have hdir : s.tree.isDir d = true := FileTree.isDir_iff.mpr (s.tree.parent d n hnone)
  obtain ⟨rest, hfront, hnamed⟩ := front_listing hnone
  have hopen := openDir_eq (w := w) (s := s) (by rw [hlists _ (by omega) (by omega)]; rfl)
    (by rw [hlists _ (by omega) (by omega)]; rfl) hres hdir
  rw [hlists (s.calls + 1) (by omega) (by omega)] at hopen
  have horder : (Decision.lists n).order (World.listing s.tree d) = _ := hfront
  rw [horder, hn] at hopen
  have hnext := nextDir_front (w := w) (s := s.tick.tick) rest (hlists (s.calls + 2) (by omega) (by omega)) hn hshort
  simp only [htype] at hnext
  rw [rmdirForce, hopen]
  simp only
  rw [removeEntries_entry hnext]
  simp only [pathJoin_name, if_pos hfits, hremove, Option.bind_some]
  by_cases herr : r.err = true
  · rw [if_pos herr]
    exact ⟨s2, r, rfl, hl⟩
  · rw [if_neg herr]
    have htotal : removeEntries w (rmdirForce w fuel) path ⟨d, rest⟩ s2 ≠ none := by
      refine removeEntries_total (fun m s3 hm => ?_) hnamed
      have hlonger := length_child_gt hpath m
      exact rmdirForce_total (by omega) (by omega)
    obtain ⟨⟨s', r'⟩, hrun⟩ := Option.ne_none_iff_exists'.mp htotal
    refine ⟨s', r', hrun, ?_⟩
    have hle := removeEntries_le hnamed hrun
    by_contra hsome
    obtain ⟨y, hy⟩ := Option.ne_none_iff_exists'.mp hsome
    rw [hle l y hy] at hl
    cases hl

/-- The body of the loop for an entry that is not taken for a directory, and is none. -/
theorem removeEntry_eq {w : World} (force : List UInt8 → FsState → Option (FsState × CprResult)) {path : List UInt8}
    {type : FsType} {s : FsState} {l : Place} (htype : type ≠ .dir) (hfails : (w.decision s.calls).fails = false)
    (hentry : w.entry s.tree path = some l) (hdir : s.tree.isDir l = false) :
    removeEntry w force path type s = some (s.tick.erase l, .ok) := by
  simp [removeEntry, htype, removeFile, World.unlink, hfails, hentry, hdir]

/-- A run on an empty directory. -/
theorem rmdirForce_empty {w : World} (fuel : Nat) {path : List UInt8} {s : FsState} {n : FileName} {l : Place}
    (hlists : ∀ i, s.calls ≤ i → w.decision i = .lists n) (hentry : w.entry s.tree (path.rdropWhile (· = 47)) = some l)
    (hdir : s.tree.isDir l = true) (hempty : s.tree.names l = []) :
    ∃ s', rmdirForce w (fuel + 1) path s = some (s', .ok) ∧ s'.tree = s.tree.erase l := by
  obtain ⟨_, k, hreach⟩ := reach_of_entry w hentry hdir
  have hres : w.resolve s.tree path = some l := by
    rw [World.resolve, hreach]
    rfl
  have hopen := openDir_eq (w := w) (s := s) (by rw [hlists _ (Nat.le_refl _)]; rfl)
    (by rw [hlists _ (Nat.le_succ _)]; rfl) hres hdir
  have hlisting : (w.decision (s.calls + 1)).order (World.listing s.tree l) = [⟨[46], .dir, l⟩, ⟨[46, 46], .dir, l.dropLast⟩] := by
    have hdot : ¬ [46] = n.val := fun h => n.2.2.1 h.symm
    have hdots : ¬ [46, 46] = n.val := fun h => n.2.2.2.1 h.symm
    rw [hlists _ (Nat.le_succ _), World.listing, hempty]
    simp [Decision.lists, front, hdot, hdots]
  rw [hlisting] at hopen
  have hnext : nextDir w ⟨l, [⟨[46], .dir, l⟩, ⟨[46, 46], .dir, l.dropLast⟩]⟩ s.tick.tick =
      (s.tick.tick.tick.tick.tick, ⟨l, []⟩, none) := by
    have hread1 : w.readdir [⟨[46], .dir, l⟩, ⟨[46, 46], .dir, l.dropLast⟩] s.tick.tick =
        (s.tick.tick.tick, [⟨[46, 46], .dir, l.dropLast⟩], some ⟨[46], .dir, l⟩) := by
      simp [World.readdir, hlists (s.calls + 1 + 1) (by omega), Decision.lists]
    have hread2 : w.readdir [⟨[46, 46], .dir, l.dropLast⟩] s.tick.tick.tick =
        (s.tick.tick.tick.tick, [], some ⟨[46, 46], .dir, l.dropLast⟩) := by
      simp [World.readdir, hlists (s.calls + 1 + 1 + 1) (by omega), Decision.lists]
    rw [nextDir_dots hread1 rfl, nextDir_dots hread2 rfl]
    exact nextDir_null rfl
  refine ⟨s.tick.tick.tick.tick.tick.tick.erase l, ?_, rfl⟩
  rw [rmdirForce, hopen]
  simp only
  rw [removeEntries_null hnext]
  simp [rmdir, World.rmdir, hlists (s.calls + 1 + 1 + 1 + 1 + 1) (by omega), Decision.lists, hentry, hdir, hempty]

/-! ## Whole runs -/

/-- If a name in the directory is that of an entry that can be removed, the system can decide so that it is. -/
theorem rmdirForce_drops {w : World} {fuel k : Nat} {path : List UInt8} {s : FsState} {d : Place} {n : FileName} (hpath : path ≠ [])
    (hfuel : fsPathMax ≤ fuel + 1 + path.length) (hreach : w.reach s.tree path = some (k, d))
    (hn : s.tree.node (d ++ [n]) ≠ none) (hshort : n.val.length < fsNameMax) (hchild : (child path n).length < fsPathMax)
    (hleaf : s.tree.isDir (d ++ [n]) = true → s.tree.names (d ++ [n]) = []) :
    ∃ decision, (∀ i < s.calls, decision i = w.decision i) ∧
      ∃ s' r, rmdirForce (w.deciding decision) (fuel + 1) path s = some (s', r) ∧ s'.tree.node (d ++ [n]) = none := by
  obtain ⟨x, hx⟩ := Option.ne_none_iff_exists'.mp hn
  have hname : w.entry s.tree (child path n) = some (d ++ [n]) := by
    rw [entry_child w s.tree hpath n, hreach, Option.bind_some, if_pos (Option.isSome_iff_ne_none.mpr hn)]
  have hgone : (s.tree.erase (d ++ [n])).node (d ++ [n]) = none := by
    rw [s.tree.node_erase (by simp), if_pos (List.prefix_refl _)]
  cases x with
  | file c =>
    have hdir : s.tree.isDir (d ++ [n]) = false := by
      rw [FileTree.isDir, hx]
    refine ⟨listsFrom w s.calls n, fun i hi => if_pos hi, ?_⟩
    have hlists := fun i (hi : s.calls ≤ i) => listsFrom_of_le w n hi
    have hremove := removeEntry_eq (w := w.deciding (listsFrom w s.calls n)) (s := s.tick.tick.tick)
      (rmdirForce (w.deciding (listsFrom w s.calls n)) fuel) (show FsType.file ≠ .dir by decide)
      (congrArg Decision.fails (hlists (s.calls + 3) (by omega))) hname hdir
    exact rmdirForce_front hpath hfuel hreach hx hshort hchild (fun i hi _ => hlists i hi) rfl hremove hgone
  | link route =>
    have hdir : s.tree.isDir (d ++ [n]) = false := by
      rw [FileTree.isDir, hx]
    -- `fstatat` fails, so that the link is not taken for what it leads to.
    let decision : Nat → Decision := fun i => if i = s.calls + 3 then .refuses else listsFrom w s.calls n i
    have hlists : ∀ i, s.calls ≤ i → i ≠ s.calls + 3 → decision i = .lists n :=
      fun i hi hne => (if_neg hne).trans (listsFrom_of_le w n hi)
    have hrefuses : decision (s.calls + 3) = .refuses := if_pos rfl
    refine ⟨decision, fun i hi => (if_neg (by omega)).trans (if_pos hi), ?_⟩
    have htype : entryType (w.deciding decision) d ⟨n.val, World.direntType (some (.link route)), d ++ [n]⟩ s.tick.tick.tick =
        (s.tick.tick.tick.tick, .other) := by
      have hstat : (w.deciding decision).fstatat d n.val s.tick.tick.tick = (s.tick.tick.tick.tick, none) :=
        if_pos (congrArg Decision.fails hrefuses)
      simp only [entryType, World.direntType, hstat]
    have hremove := removeEntry_eq (w := w.deciding decision) (s := s.tick.tick.tick.tick)
      (rmdirForce (w.deciding decision) fuel) (show FsType.other ≠ .dir by decide)
      (congrArg Decision.fails (hlists (s.calls + 4) (by omega) (by omega))) hname hdir
    exact rmdirForce_front hpath hfuel hreach hx hshort hchild (fun i hi hlt => hlists i hi (by omega)) htype hremove hgone
  | dir =>
    have hdir := FileTree.isDir_iff.mpr hx
    have hlonger := length_child_gt hpath n
    obtain ⟨fuel, rfl⟩ : ∃ f, fuel = f + 1 := ⟨fuel - 1, by omega⟩
    refine ⟨listsFrom w s.calls n, fun i hi => if_pos hi, ?_⟩
    have hlists := fun i (hi : s.calls ≤ i) => listsFrom_of_le w n hi
    have hstrip : w.entry s.tree ((child path n).rdropWhile (· = 47)) = some (d ++ [n]) := by
      rw [strip_child hpath]
      exact hname
    obtain ⟨s', hrun, htree⟩ := rmdirForce_empty (w := w.deciding (listsFrom w s.calls n)) (s := s.tick.tick.tick) fuel
      (fun i (hi : s.calls + 3 ≤ i) => hlists i (by omega)) hstrip hdir (hleaf hdir)
    have hremove : removeEntry (w.deciding (listsFrom w s.calls n)) (rmdirForce (w.deciding (listsFrom w s.calls n)) (fuel + 1))
        (child path n) .dir s.tick.tick.tick = some (s', .ok) := by
      rw [removeEntry, if_pos rfl, hrun]
    exact rmdirForce_front hpath hfuel hreach hx hshort hchild (fun i hi _ => hlists i hi) rfl hremove
      (by rw [htree]; exact hgone)

/-- A path leaves no more links than are allowed. -/
theorem reach_le {w : World} {t : Tree} {path : List UInt8} {r : Nat × Place} (h : w.reach t path = some r) : r.1 ≤ w.maxLinks := by
  unfold World.reach at h
  split at h
  · cases h
  · exact FileTree.walk_le h

/-- A link that leads to a directory is reported as one, if nothing fails. -/
theorem entryType_link {w : World} {s : FsState} {k j : Nat} {d m name : Place} {n : FileName}
    (hfails : (w.decision s.calls).fails = false) (hk : k ≤ w.maxLinks) (hwalk : s.tree.walk k d [.down n] = some (j, m))
    (hdir : s.tree.node m = some .dir) : entryType w d ⟨n.val, .lnk, name⟩ s = (s.tick, .dir) := by
  have hmore := FileTree.walk_more hwalk (w.maxLinks - k)
  rw [Nat.add_sub_cancel' hk] at hmore
  have hstat : w.fstatat d n.val s = (s.tick, some .dir) := by
    rw [World.fstatat, if_neg (by rw [hfails]; decide), stepOf_name, hmore, Option.bind_some, hdir]
  simp only [entryType, hstat]

/-- If a path below the given one names an entry that can be removed, the system can decide so that it is. -/
theorem rmdirForce_escapes {w : World} {fuel : Nat} {path : List UInt8} {ns : List FileName} {s : FsState} {l : Place}
    (hpath : path ≠ []) (hfuel : fsPathMax ≤ fuel + path.length) (hns : ns ≠ []) (hfits : Fits path ns)
    (hentry : w.entry s.tree (below path ns) = some l) (hleaf : s.tree.isDir l = true → s.tree.names l = []) :
    ∃ decision, (∀ i < s.calls, decision i = w.decision i) ∧
      ∃ s' r, rmdirForce (w.deciding decision) fuel path s = some (s', r) ∧ s'.tree.node l = none := by
  induction ns generalizing w fuel path s with
  | nil => exact absurd rfl hns
  | cons n ns ih =>
    obtain ⟨k, d, _, _, heq, hreach, hn⟩ := reach_of_below hpath hentry hns
    cases heq
    have hshort := hfits.1 n List.mem_cons_self
    have hlonger := length_child_gt hpath n
    have hchild : (child path n).length < fsPathMax :=
      Nat.lt_of_le_of_lt (length_below_ge (child_ne_nil hpath n) ns) hfits.2
    obtain ⟨fuel, rfl⟩ : ∃ f, fuel = f + 1 := ⟨fuel - 1, by omega⟩
    by_cases hnil : ns = []
    · -- The entry itself.
      subst hnil
      have hname : w.entry s.tree (child path n) = some l := hentry
      rw [entry_child w s.tree hpath n, hreach, Option.bind_some, if_pos (Option.isSome_iff_ne_none.mpr hn)] at hname
      obtain rfl : d ++ [n] = l := Option.some.inj hname
      exact rmdirForce_drops hpath hfuel hreach hn hshort hchild hleaf
    · -- A directory, or a link to one, on the way to the entry.
      obtain ⟨k', d', n', _, _, hreach', hn'⟩ := reach_of_below (child_ne_nil hpath n) hentry hnil
      have hdir' := s.tree.parent d' n' hn'
      have hwalk : s.tree.walk k d [.down n] = some (k', d') := by
        rw [reach_child w s.tree hpath n, hreach] at hreach'
        exact hreach'
      have hfits' : Fits (child path n) ns := ⟨fun m hm => hfits.1 m (List.mem_cons_of_mem n hm), hfits.2⟩
      have hlists := fun i (hi : s.calls ≤ i) => listsFrom_of_le w n hi
      obtain ⟨x, hx⟩ := Option.ne_none_iff_exists'.mp hn
      cases x with
      | file c =>
        rw [FileTree.walk_down_node hx (by simp), FileTree.walk_nil] at hwalk
        cases hwalk
        rw [hdir'] at hx
        cases hx
      | dir =>
        obtain ⟨decision, hsame, s', r, hrun, hgone⟩ := @ih (w.deciding (listsFrom w s.calls n)) fuel
          (child path n) s.tick.tick.tick (child_ne_nil hpath n) (by omega) hnil hfits' hentry hleaf
        refine ⟨decision, fun i hi => (hsame i (show i < s.calls + 3 by omega)).trans (if_pos hi), ?_⟩
        have hremove : removeEntry (w.deciding decision) (rmdirForce (w.deciding decision) fuel) (child path n) .dir
            s.tick.tick.tick = some (s', r) := by
          rw [removeEntry, if_pos rfl]
          exact hrun
        exact rmdirForce_front (w := w.deciding decision) hpath hfuel hreach hx hshort hchild
          (fun i hi hlt => (hsame i hlt).trans (hlists i hi)) rfl hremove hgone
      | link route =>
        obtain ⟨decision, hsame, s', r, hrun, hgone⟩ := @ih (w.deciding (listsFrom w s.calls n)) fuel
          (child path n) s.tick.tick.tick.tick (child_ne_nil hpath n) (by omega) hnil hfits' hentry hleaf
        refine ⟨decision, fun i hi => (hsame i (show i < s.calls + 4 by omega)).trans (if_pos hi), ?_⟩
        have hremove : removeEntry (w.deciding decision) (rmdirForce (w.deciding decision) fuel) (child path n) .dir
            s.tick.tick.tick.tick = some (s', r) := by
          rw [removeEntry, if_pos rfl]
          exact hrun
        have hlists3 : decision (s.calls + 3) = .lists n :=
          (hsame _ (show s.calls + 3 < s.calls + 4 by omega)).trans (hlists _ (by omega))
        have htype : entryType (w.deciding decision) d ⟨n.val, .lnk, d ++ [n]⟩ s.tick.tick.tick =
            (s.tick.tick.tick.tick, .dir) :=
          entryType_link (congrArg Decision.fails hlists3) (reach_le hreach) hwalk hdir'
        exact rmdirForce_front (w := w.deciding decision) hpath hfuel hreach hx hshort hchild
          (fun i hi hlt => (hsame i (show i < s.calls + 4 by omega)).trans (hlists i hi)) htype hremove hgone

/-! ## The frame of a removal -/

/-- If whatever the system decides a removal stays inside, the directory is contained. -/
theorem contained_of_stays_inside {w : World} {path : List UInt8} {s : FsState} {dir : Place}
    (hdir : w.resolve s.tree path = some dir) (hstays : ∀ decision, StaysInside (w.deciding decision) path s dir) :
    Contained w s.tree path dir := by
  intro ns l hns hfits hentry hout
  by_contra hleaf
  have hpath : path ≠ [] := by
    rintro rfl
    cases hdir
  have hleaf' : s.tree.isDir l = true → s.tree.names l = [] := fun h => by_contra fun hne => hleaf ⟨h, hne⟩
  obtain ⟨decision, _, s', r, hrun, hgone⟩ := rmdirForce_escapes hpath (Nat.le_add_right fsPathMax _) hns hfits hentry hleaf'
  obtain ⟨s'', ok, hrun', hframe⟩ := hstays decision
  simp only [removeDir, if_true, hrun, Option.map_some, Option.some.injEq, Prod.mk.injEq] at hrun'
  obtain ⟨rfl, _⟩ := hrun'
  obtain ⟨ns', n, rfl⟩ : ∃ ns' n, ns = ns' ++ [n] := ⟨_, _, (List.dropLast_concat_getLast hns).symm⟩
  rw [below_concat, entry_child w s.tree (below_ne_nil hpath ns')] at hentry
  obtain ⟨r, _, hentry⟩ := Option.bind_eq_some_iff.mp hentry
  split at hentry
  · rename_i hsome
    obtain rfl := Option.some.inj hentry
    rw [← hframe _ hout, hgone] at hsome
    cases hsome
  · cases hentry

/-- A recursive removal leaves alone, whatever the system decides, what is outside of the directory that the path leads to
exactly when no path below it names an entry outside that is a file, a link or an empty directory. -/
theorem removeDir_stays_inside_iff (w : World) (path : List UInt8) (s : FsState) (dir : Place)
    (hdir : w.resolve s.tree path = some dir) :
    (∀ decision, StaysInside (w.deciding decision) path s dir) ↔ Contained w s.tree path dir :=
  ⟨contained_of_stays_inside hdir,
    fun hcontained decision => stays_inside_of_contained (w := w.deciding decision) hdir hcontained⟩

/-- The names `a`, `d` and `o`. -/
def nameA : FileName := ⟨[97], by decide⟩

def nameD : FileName := ⟨[100], by decide⟩

def nameO : FileName := ⟨[111], by decide⟩

/-- A directory `/d` with a file in it, and a file `/o`. -/
def plainTree : Tree := .ofEntries [([nameD], .dir), ([nameD, nameA], .file [1]), ([nameO], .file [2])] (by decide)

/-- Removing `/d` leaves `/o` alone. -/
theorem removeDir_stays_inside_plain :
    StaysInside ⟨40, [], fun _ => .lists nameA⟩ [47, 100] ⟨plainTree, 0, none⟩ [nameD] := by
  refine (removeDir_stays_inside_iff ⟨40, [], fun _ => .refuses⟩ [47, 100] ⟨plainTree, 0, none⟩ [nameD] (by decide)).mpr
    (contained_of_no_links (by decide) ?_) fun _ => .lists nameA
  rintro l route ⟨m, rfl⟩ hl
  have hmem := FileTree.ofEntries_mem (by decide) hl (by simp)
  simp at hmem

/-- A directory `/d` with a link `/d/a` to the directory `/o`, and a file `/o/a` in that. -/
def linkedTree : Tree :=
  .ofEntries [([nameD], .dir), ([nameD, nameA], .link ⟨true, [.down nameO]⟩), ([nameO], .dir), ([nameO, nameA], .file [1])]
    (by decide)

/-- Removing `/d` does not leave `/o/a` alone, though nothing fails. -/
theorem removeDir_escapes_linked :
    ¬ StaysInside ⟨40, [], fun _ => .lists nameA⟩ [47, 100] ⟨linkedTree, 0, none⟩ [nameD] := by
  let w : World := ⟨40, [], fun _ => .lists nameA⟩
  have hfile : removeEntry w (rmdirForce w 4094) [47, 100, 47, 97, 47, 97] .file ⟨linkedTree, 7, none⟩ =
      some (⟨linkedTree.erase [nameO, nameA], 8, none⟩, .ok) :=
    removeEntry_eq _ (by decide) rfl (by decide) (by decide)
  obtain ⟨s2, r2, hrun2, hgone2⟩ : ∃ s' r, rmdirForce w 4095 [47, 100, 47, 97] ⟨linkedTree, 4, none⟩ = some (s', r) ∧
      s'.tree.node [nameO, nameA] = none :=
    rmdirForce_front (k := 39) (d := [nameO]) (n := nameA) (x := .file [1]) (by decide) (by decide) (by decide) (by decide)
      (by decide) (by decide) (fun _ _ _ => rfl) rfl hfile (by decide)
  have htype : entryType w [nameD] ⟨[97], .lnk, [nameD, nameA]⟩ ⟨linkedTree, 3, none⟩ = (⟨linkedTree, 4, none⟩, .dir) :=
    entryType_link (n := nameA) (k := 40) (j := 39) (m := [nameO]) rfl (by decide) (by decide) (by decide)
  have hlink : removeEntry w (rmdirForce w 4095) [47, 100, 47, 97] .dir ⟨linkedTree, 4, none⟩ = some (s2, r2) := by
    rw [removeEntry, if_pos rfl, hrun2]
  obtain ⟨s1, r1, hrun1, hgone1⟩ : ∃ s' r, rmdirForce w fsPathMax [47, 100] ⟨linkedTree, 0, none⟩ = some (s', r) ∧
      s'.tree.node [nameO, nameA] = none :=
    rmdirForce_front (k := 40) (d := [nameD]) (n := nameA) (by decide) (by decide) (by decide)
      (x := .link ⟨true, [.down nameO]⟩) (by decide) (by decide) (by decide) (fun _ _ _ => rfl) htype hlink hgone2
  rintro ⟨s', ok, hrun, hframe⟩
  have hsame : s1 = s' := by
    simp only [removeDir, if_true] at hrun
    obtain ⟨⟨s3, r3⟩, hrun3, heq⟩ := Option.map_eq_some_iff.mp hrun
    rw [hrun1] at hrun3
    cases hrun3
    exact congrArg Prod.fst heq
  have hkept := hframe [nameO, nameA] (by decide)
  rw [← hsame, hgone1] at hkept
  cases hkept

end Copper.Fs
