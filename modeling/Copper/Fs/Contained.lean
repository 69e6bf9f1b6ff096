import Copper.Fs.Removal

/-!
# Where a recursive removal stays

`cpr_next_dir` takes the type of a symbolic link from `fstatat` without flags, that is from what the link leads to. A link to a
directory is then a directory to `cpr__rmdir_force`, which opens it through the link and removes what is there. A removal stays
inside its directory exactly when no path below the directory names an entry outside that can be removed (`Contained`).
-/

namespace Copper.Fs

/-- The world with other decisions. -/
def World.deciding (w : World) (decision : Nat → Decision) : World := { w with decision := decision }

/-- The entries outside of a directory that paths below it name, by way of links, are all directories that are not empty. -/
def Contained (w : World) (t : Tree) (path : List UInt8) (dir : Place) : Prop :=
  ∀ ns l, ns ≠ [] → Fits path ns → w.entry t (below path ns) = some l → ¬ dir <+: l → t.isDir l = true ∧ t.names l ≠ []

/-- The call returns, and what is outside of a directory is as it was. -/
def StaysInside (w : World) (path : List UInt8) (s : FsState) (dir : Place) : Prop :=
  ∃ s' ok, removeDir w (some path) true s = some (s', ok) ∧ ∀ l, ¬ dir <+: l → s'.tree.node l = s.tree.node l

/-! ## Contained directories -/

/-- A path below another one that names an entry goes through the directory that the other one leads to. -/
theorem reach_of_below {w : World} {t : Tree} {path : List UInt8} {ns : List FileName} {l : Place} (hpath : path ≠ [])
    (hentry : w.entry t (below path ns) = some l) (hns : ns ≠ []) :
    ∃ k d n rest, ns = n :: rest ∧ w.reach t path = some (k, d) ∧ t.node (d ++ [n]) ≠ none := by
  induction ns generalizing path with
  | nil => exact absurd rfl hns
  | cons n ns ih =>
    cases ns with
    | nil =>
      have hchild : w.entry t (child path n) = some l := hentry
      rw [entry_child w t hpath n] at hchild
      obtain ⟨⟨k, d⟩, hreach, hchild⟩ := Option.bind_eq_some_iff.mp hchild
      split at hchild
      · rename_i hsome
        exact ⟨k, d, n, [], rfl, hreach, Option.isSome_iff_ne_none.mp hsome⟩
      · cases hchild
    | cons n' ns =>
      obtain ⟨k, d, _, _, _, hreach, _⟩ := ih (child_ne_nil hpath n) hentry (List.cons_ne_nil n' ns)
      rw [reach_child w t hpath n] at hreach
      obtain ⟨⟨k', d'⟩, hreach', hwalk⟩ := Option.bind_eq_some_iff.mp hreach
      refine ⟨k', d', n, n' :: ns, rfl, hreach', fun hnone => ?_⟩
      rw [FileTree.walk_down, hnone] at hwalk
      cases hwalk

/-- A path leads to the same place in any tree that has more. -/
theorem reach_mono {w : World} {t u : Tree} (h : t ≤ u) {path : List UInt8} {r : Nat × Place} (hr : w.reach t path = some r) :
    w.reach u path = some r := by
  unfold World.reach at hr ⊢
  split at hr
  · cases hr
  · rename_i hpath
    rw [if_neg hpath]
    exact FileTree.walk_mono h hr

/-- A path names the same entry in any tree that has more. -/
theorem entry_mono {w : World} {t u : Tree} (h : t ≤ u) {path : List UInt8} {l : Place} (hl : w.entry t path = some l) :
    w.entry u path = some l := by
  unfold World.entry at hl ⊢
  split at hl
  · cases hl
  · rename_i hpath
    rw [if_neg hpath]
    exact FileTree.entry_mono h hl

/-- A removal below a contained directory is one inside it, as long as nothing outside has been removed. -/
theorem removes_inside {w : World} {t u : Tree} {path : List UInt8} {dir : Place} (hpath : path ≠ [])
    (hdir : w.resolve u path = some dir) (hcontained : Contained w u path dir) (hle : t ≤ u)
    (hout : ∀ l, ¬ dir <+: l → t.node l = u.node l) {ns : List FileName} (hns : ns ≠ []) (hfits : Fits path ns) {l : Place}
    (hremoves : Removes w t (below path ns) l) : dir <+: l := by
  by_contra hoff
  have hsame : t.isDir l = u.isDir l := by
    rw [FileTree.isDir, FileTree.isDir, hout l hoff]
  cases hremoves with
  | file hentry hfile =>
    obtain ⟨hudir, _⟩ := hcontained ns l hns hfits (entry_mono hle hentry) hoff
    rw [← hsame, hfile] at hudir
    cases hudir
  | dir hentry htdir hempty =>
    have hstrip : (below path ns).rdropWhile (· = 47) = below path ns := by
      rw [← List.dropLast_concat_getLast hns, below_concat]
      exact strip_child (below_ne_nil hpath _) _
    rw [hstrip] at hentry
    obtain ⟨_, hnames⟩ := hcontained ns l hns hfits (entry_mono hle hentry) hoff
    obtain ⟨n, hn⟩ := List.exists_mem_of_ne_nil _ hnames
    have hun := FileTree.mem_names.mp hn
    have htn : t.node (l ++ [n]) = none := by
      by_contra h
      have hmem := FileTree.mem_names.mpr h
      rw [hempty] at hmem
      cases hmem
    -- What is missing below `l` can only be the directory itself, but a path below it still goes through it.
    by_cases hin : dir <+: l ++ [n]
    · have heq : dir = l ++ [n] := (List.prefix_concat_iff.mp hin).resolve_right hoff
      obtain ⟨k, d, m, _, _, hreach, hm⟩ := reach_of_below hpath hentry hns
      have hd : d = dir := by
        rw [World.resolve, reach_mono hle hreach] at hdir
        exact Option.some.inj hdir
      have htdir := t.parent _ _ hm
      rw [hd, heq, htn] at htdir
      cases htdir
    · exact hun (hout _ hin ▸ htn)

/-- A removal of a contained directory leaves alone what is outside. -/
theorem stays_inside_of_contained {w : World} {path : List UInt8} {s : FsState} {dir : Place}
    (hdir : w.resolve s.tree path = some dir) (hcontained : Contained w s.tree path dir) : StaysInside w path s dir := by
  have hpath : path ≠ [] := by
    rintro rfl
    cases hdir
  have htotal : rmdirForce w fsPathMax path s ≠ none := rmdirForce_total (by decide) (Nat.le_add_right _ _)
  obtain ⟨⟨s', r⟩, hrun⟩ := Option.ne_none_iff_exists'.mp htotal
  refine ⟨s', !r.err, ?_, ?_⟩
  · simp only [removeDir, if_true, hrun, Option.map_some]
  · have hkeep : ∀ t ns l, ns ≠ [] → Fits path ns → (t ≤ s.tree ∧ ∀ m, ¬ dir <+: m → t.node m = s.tree.node m) →
        Removes w t (below path ns) l → t.erase l ≤ s.tree ∧ ∀ m, ¬ dir <+: m → (t.erase l).node m = s.tree.node m := by
      rintro t ns l hns hfits ⟨hle, hout⟩ hremoves
      have hin := removes_inside hpath hdir hcontained hle hout hns hfits hremoves
      refine ⟨FileTree.le_trans (t.erase_le l) hle, fun m hm => ?_⟩
      rw [t.node_erase_of_not_prefix fun hlm => hm (hin.trans hlm)]
      exact hout m hm
    rcases rmdirForce_keeps hkeep ⟨FileTree.le_refl _, fun _ _ => rfl⟩ hrun with hinv | ⟨t, l, ⟨hle, hout⟩, hentry, htdir, _, htree⟩
    · exact hinv.2
    · obtain ⟨_, k, hreach⟩ := reach_of_entry w hentry htdir
      have hl : l = dir := by
        rw [World.resolve, reach_mono hle hreach] at hdir
        exact Option.some.inj hdir
      intro m hm
      rw [htree, hl, t.node_erase_of_not_prefix hm]
      exact hout m hm

/-! ## Directories without links -/

/-- Where there are no links, a path below another one names an entry below the place that the other one leads to. -/
theorem entry_below_inside {w : World} {t : Tree} {dir : Place} (hlinks : ∀ l route, dir <+: l → t.node l ≠ some (.link route))
    {path : List UInt8} {ns : List FileName} {k : Nat} {m l : Place} (hpath : path ≠ []) (hreach : w.reach t path = some (k, m))
    (hm : dir <+: m) (hns : ns ≠ []) (hentry : w.entry t (below path ns) = some l) : dir <+: l := by
  induction ns generalizing path m with
  | nil => exact absurd rfl hns
  | cons n ns ih =>
    have hmn : dir <+: m ++ [n] := hm.trans (List.prefix_append m [n])
    obtain ⟨k', m', _, _, heq, hreach', hn⟩ := reach_of_below hpath hentry hns
    cases heq
    rw [hreach] at hreach'
    cases hreach'
    by_cases hnil : ns = []
    · subst hnil
      have hname : w.entry t (child path n) = some l := hentry
      rw [entry_child w t hpath n, hreach, Option.bind_some, if_pos (Option.isSome_iff_ne_none.mpr hn)] at hname
      rw [← Option.some.inj hname]
      exact hmn
    · obtain ⟨x, hx⟩ := Option.ne_none_iff_exists'.mp hn
      have hnolink : ∀ route, x ≠ .link route := by
        rintro route rfl
        exact hlinks _ route hmn hx
      have hchild : w.reach t (child path n) = some (k, m ++ [n]) := by
        rw [reach_child w t hpath n, hreach, Option.bind_some, FileTree.walk_down_node hx hnolink, FileTree.walk_nil]
      exact ih (child_ne_nil hpath n) hchild hmn hnil hentry

/-- A directory with no links in it is contained. -/
theorem contained_of_no_links {w : World} {t : Tree} {path : List UInt8} {dir : Place} (hdir : w.resolve t path = some dir)
    (hlinks : ∀ l route, dir <+: l → t.node l ≠ some (.link route)) : Contained w t path dir := by
  intro ns l hns _ hentry hout
  obtain ⟨⟨k, m⟩, hreach, rfl⟩ := Option.map_eq_some_iff.mp hdir
  have hpath : path ≠ [] := by
    rintro rfl
    cases hreach
  exact absurd (entry_below_inside hlinks hpath hreach (List.prefix_refl m) hns hentry) hout

end Copper.Fs
