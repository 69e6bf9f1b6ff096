import Copper.Fs.Canonical
import Copper.Fs.Escape
import Copper.Fs.Join

/-!
# What the path functions mean

The strings that the path functions of `fs.c` write on POSIX, read as paths of a tree that may have symbolic links. A normalised
path leads where the path led, through the same links, if no `..` takes back a name that is a link (`normalize_keeps_place`). A
joined path leads where its second part leads from where its first part does (`join_leads`), and a path that does not end in a
separator leads where its last name leads from its directory (`dirname_basename_lead`).
-/

namespace Copper.Fs

open Separated

variable {w : World} {t : Tree} {k : Nat} {l : Place} {r : Nat × Place}

/-! ## Components and steps -/

theorem components_eq (p : List UInt8) : components p = p.splitOn 47 := by
  induction p with
  | nil => rfl
  | cons c p ih =>
    rw [components, ih, List.splitOn_cons_eq_if_modifyHead]
    by_cases hc : c = 47
    · rw [if_pos hc, if_pos (by simpa using hc)]
    · rw [if_neg hc, if_neg (by simpa using hc)]
      cases hp : p.splitOn 47 with
      | nil => exact absurd hp (List.splitOn_ne_nil 47 p)
      | cons first rest => rfl

/-- The components of a path that are neither empty nor `.`, as they are found in a C string. -/
structure Component (n : List UInt8) : Prop where
  nonempty : n ≠ []
  dot : n ≠ [46]
  noSep : 47 ∉ n
  noNul : 0 ∉ n

theorem component_of_mem {path n : List UInt8} (hnul : 0 ∉ path) (hn : n ∈ pathComponents path) : Component n := by
  obtain ⟨hsplit, hkept⟩ := List.mem_filter.mp hn
  have hkept := of_decide_eq_true hkept
  exact ⟨hkept.1, hkept.2, not_mem_of_mem_splitOn path n hsplit, fun h => hnul (subset_of_mem_splitOn path n hsplit h)⟩

/-- A component other than `..` is a name. -/
theorem Component.valid {n : List UInt8} (h : Component n) (hdots : n ≠ [46, 46]) : ValidName n :=
  ⟨h.nonempty, h.dot, hdots, h.noSep, h.noNul⟩

theorem Component.stepOf {n : List UInt8} (h : Component n) (hdots : n ≠ [46, 46]) :
    Fs.stepOf n = .down ⟨n, h.valid hdots⟩ := stepOf_name ⟨n, h.valid hdots⟩

/-- Empty components and `.` can be left out of a route that leads somewhere. -/
theorem walk_filter {ns : List (List UInt8)} (hw : t.walk k l (ns.map stepOf) = some r) :
    t.walk k l ((ns.filter fun n => n ≠ [] ∧ n ≠ [46]).map stepOf) = some r := by
  induction ns generalizing k l with
  | nil => exact hw
  | cons n ns ih =>
    by_cases hn : n ≠ [] ∧ n ≠ [46]
    · rw [List.filter_cons_of_pos (by simpa using hn), List.map_cons, ← List.singleton_append, FileTree.walk_append]
      rw [List.map_cons, ← List.singleton_append, FileTree.walk_append] at hw
      obtain ⟨q, hq, hrest⟩ := Option.bind_eq_some_iff.mp hw
      rw [hq, Option.bind_some]
      exact ih hrest
    · rw [List.filter_cons_of_neg (by simpa using hn)]
      have hhere : stepOf n = .here := by
        rcases not_and_or.mp hn with hn | hn <;> rw [not_not.mp hn] <;> rfl
      rw [List.map_cons, hhere] at hw
      exact ih (FileTree.walk_of_here hw)

/-- The steps of a spelling: at the root first, if the path is absolute. -/
theorem stepsOf_spell {isAbs : Bool} {ns : List (List UInt8)} (hne : ns ≠ []) (hns : ∀ n ∈ ns, (47 : UInt8) ∉ n) :
    stepsOf (spell isAbs ns) = (if isAbs then [.here] else []) ++ ns.map stepOf := by
  have hinter : components ([47].intercalate ns) = ns := by rw [components_eq, List.splitOn_intercalate 47 hns hne]
  cases isAbs with
  | false => rw [stepsOf, spell, if_neg Bool.false_ne_true, if_neg Bool.false_ne_true, List.nil_append, List.nil_append, hinter]
  | true => rw [stepsOf, spell, if_pos rfl, if_pos rfl, List.singleton_append, components, if_pos rfl, hinter]; rfl

theorem start_spell {isAbs : Bool} {ns : List (List UInt8)} (hns : isAbs = false → ns ≠ [])
    (h : ∀ n ∈ ns, n ≠ [] ∧ (47 : UInt8) ∉ n) : w.start (spell isAbs ns) = if isAbs then [] else w.cwd := by
  rw [World.start, ite_congr (propext (head?_spell hns h)) (fun _ => rfl) (fun _ => rfl)]

/-! ## Normalised paths -/

/-- No `..` takes back a name that is a link, where the route up to it leads. -/
def BacksFromNoLink (t : Tree) (k : Nat) (l : Place) (isAbs : Bool) (kept : Lexical) (ns : List (List UInt8)) : Prop :=
  ∀ pre post, ns = pre ++ [46, 46] :: post → (pre.foldl (Lexical.step isAbs) kept).names ≠ [] →
    ∀ m route, t.entry k l ((pre.foldl (Lexical.step isAbs) kept).comps.map stepOf) = some m → t.node m ≠ some (.link route)

theorem BacksFromNoLink.cons {isAbs : Bool} {kept : Lexical} {n : List UInt8} {ns : List (List UInt8)}
    (h : BacksFromNoLink t k l isAbs kept (n :: ns)) : BacksFromNoLink t k l isAbs (kept.step isAbs n) ns := by
  rintro pre post rfl hnames m route hentry
  exact h (n :: pre) post rfl hnames m route hentry

/-- What a `..` takes back can be left out of the route. -/
theorem walk_back {isAbs : Bool} {kept : Lexical} {ns init : List (List UInt8)} {last : List UInt8} (hkept : kept.names = init ++ [last])
    (hlast : Component last) (hdots : last ≠ [46, 46]) (hback : BacksFromNoLink t k l isAbs kept ([46, 46] :: ns))
    (hw : t.walk k l (kept.comps.map stepOf ++ .up :: ns.map stepOf) = some r) :
    t.walk k l (({ kept with names := init } : Lexical).comps.map stepOf ++ ns.map stepOf) = some r := by
  have hcomps : kept.comps.map stepOf = ({ kept with names := init } : Lexical).comps.map stepOf ++ [.down ⟨last, hlast.valid hdots⟩] := by
    rw [Lexical.comps, Lexical.comps, hkept, ← List.append_assoc, List.map_append, List.map_singleton, hlast.stepOf hdots]
  have hentry := hback [] ns rfl (by simp [hkept])
  rw [List.foldl_nil] at hentry
  rw [hcomps] at hw hentry
  rw [List.append_assoc, List.singleton_append, FileTree.walk_append] at hw
  obtain ⟨⟨j, m⟩, hm, hrest⟩ := Option.bind_eq_some_iff.mp hw
  rw [FileTree.walk_append, hm, Option.bind_some]
  refine FileTree.walk_of_back (n := ⟨last, hlast.valid hdots⟩) (fun route hlink => ?_) hrest
  have hthere := FileTree.entry_concat_of_walk hm (n := ⟨last, hlast.valid hdots⟩) (by rw [hlink]; simp)
  exact hentry _ route hthere hlink

/-- What is kept of the components of a route that leads somewhere leads there too. By induction on the components that are
left; those that were kept so far come before them. -/
theorem walk_kept {isAbs : Bool} (habs : isAbs = true → l = []) (ns : List (List UInt8)) : ∀ kept : Lexical,
    (isAbs = true → kept.dots = 0) → (∀ n ∈ kept.names, Component n ∧ n ≠ [46, 46]) → (∀ n ∈ ns, Component n) →
    BacksFromNoLink t k l isAbs kept ns → t.walk k l (kept.comps.map stepOf ++ ns.map stepOf) = some r →
    t.walk k l ((ns.foldl (Lexical.step isAbs) kept).comps.map stepOf) = some r := by
  induction ns with
  | nil =>
    intro kept _ _ _ _ hw
    rwa [List.map_nil, List.append_nil] at hw
  | cons n ns ih =>
    intro kept hroot hnames hns hback hw
    have hns' : ∀ m ∈ ns, Component m := fun m hm => hns m (List.mem_cons_of_mem _ hm)
    rw [List.foldl_cons]
    have hback' := hback.cons
    unfold Lexical.step at hback' ⊢
    rw [List.map_cons] at hw
    by_cases hdots : n = [46, 46]
    · rw [if_pos hdots] at hback' ⊢
      by_cases hempty : kept.names = []
      · rw [if_neg (not_not.mpr hempty)] at hback' ⊢
        cases isAbs with
        | true =>
          -- The root is above itself, and nothing is kept.
          have hnone : kept.comps = [] := by rw [Lexical.comps, hroot rfl, hempty]; rfl
          refine ih kept hroot hnames hns' hback' ?_
          rw [hnone, habs rfl, List.map_nil, List.nil_append] at hw ⊢
          rw [hdots] at hw
          exact (FileTree.walk_up_root t k _).symm.trans hw
        | false =>
          rw [if_neg Bool.false_ne_true] at hback' ⊢
          refine ih _ (fun h => absurd h Bool.false_ne_true) hnames hns' hback' ?_
          have hcomps : ({ kept with dots := kept.dots + 1 } : Lexical).comps = kept.comps ++ [[46, 46]] := by
            rw [Lexical.comps, Lexical.comps, hempty, List.append_nil, List.append_nil, List.replicate_succ']
          rwa [hcomps, List.map_append, List.append_assoc, ← hdots]
      · obtain ⟨init, last, hlast⟩ := (List.eq_nil_or_concat' kept.names).resolve_left hempty
        have hmem := hnames last (hlast ▸ List.mem_append_right _ List.mem_cons_self)
        rw [if_pos hempty, hlast, List.dropLast_concat] at hback' ⊢
        refine ih _ hroot (fun m hm => hnames m (hlast ▸ List.mem_append_left _ hm)) hns' hback' ?_
        rw [hdots] at hw hback
        exact walk_back hlast hmem.1 hmem.2 hback hw
    · rw [if_neg hdots] at hback' ⊢
      refine ih _ hroot (fun m hm => ?_) hns' hback' ?_
      · rcases List.mem_append.mp hm with hm | hm
        · exact hnames m hm
        · rw [List.mem_singleton.mp hm]
          exact ⟨hns n List.mem_cons_self, hdots⟩
      · have hcomps : ({ kept with names := kept.names ++ [n] } : Lexical).comps = kept.comps ++ [n] := by
          rw [Lexical.comps, Lexical.comps, List.append_assoc]
        rwa [hcomps, List.map_append, List.append_assoc]

/-- No `..` of a path takes back a name that is a link. -/
def TakesBackNoLink (w : World) (t : Tree) (path : List UInt8) : Prop :=
  BacksFromNoLink t w.maxLinks (w.start path) (pathIsAbs .posix (some path)) {} (pathComponents path)

theorem start_eq (w : World) (path : List UInt8) : w.start path = if pathIsAbs .posix (some path) then [] else w.cwd := by
  rw [World.start, ite_congr (propext (pathIsAbs_posix path)) (fun _ => rfl) (fun _ => rfl)]

/-- What is kept of a path leads where the path does. -/
theorem walk_lexical {path : List UInt8} (hnul : 0 ∉ path) (hback : TakesBackNoLink w t path) (hr : w.reach t path = some r) :
    t.isDir (w.start path) = true ∧ t.walk w.maxLinks (w.start path) ((lexical path).comps.map stepOf) = some r := by
  have hpath : path ≠ [] := by
    rintro rfl
    cases hr
  rw [World.reach, if_neg hpath, stepsOf, components_eq] at hr
  constructor
  · obtain ⟨n, ns, hsplit⟩ := List.exists_cons_of_ne_nil (List.splitOn_ne_nil 47 path)
    rw [hsplit] at hr
    exact FileTree.isDir_of_walk hr
  · refine walk_kept (fun habs => ?_) (pathComponents path) {} (fun _ => rfl) (fun n hn => absurd hn List.not_mem_nil)
      (fun n hn => component_of_mem hnul hn) hback (walk_filter hr)
    rw [start_eq, habs]
    rfl

/-- What is kept of components is some of them. -/
theorem mem_names_foldl {isAbs : Bool} (ns : List (List UInt8)) : ∀ kept : Lexical, ∀ n ∈ (ns.foldl (Lexical.step isAbs) kept).names,
    n ∈ kept.names ∨ n ∈ ns := by
  induction ns with
  | nil => exact fun _ _ hn => Or.inl hn
  | cons m ns ih =>
    intro kept n hn
    rw [List.foldl_cons] at hn
    rcases ih _ n hn with hn | hn
    · unfold Lexical.step at hn
      split at hn
      · split at hn
        · exact Or.inl (List.dropLast_subset _ hn)
        · split at hn <;> exact Or.inl hn
      · rcases List.mem_append.mp hn with hn | hn
        · exact Or.inl hn
        · exact Or.inr (List.mem_singleton.mp hn ▸ List.mem_cons_self)
    · exact Or.inr (List.mem_cons_of_mem m hn)

theorem comps_lexical (path : List UInt8) : ∀ n ∈ (lexical path).comps, n ≠ [] ∧ (47 : UInt8) ∉ n := by
  intro n hn
  rcases List.mem_append.mp hn with hn | hn
  · rw [List.eq_of_mem_replicate hn]
    decide
  · have hmem := (mem_names_foldl (pathComponents path) {} n hn).resolve_left List.not_mem_nil
    rw [pathComponents_eq] at hmem
    exact of_mem_names (List.mem_of_mem_filter hmem)

/-- The reference leads where the path does. -/
theorem reach_reference {path : List UInt8} (hnul : 0 ∉ path) (hback : TakesBackNoLink w t path) (hr : w.reach t path = some r) :
    w.reach t (reference path) = some r := by
  obtain ⟨hdir, hw⟩ := walk_lexical hnul hback hr
  have hroot : t.isDir [] = true := FileTree.isDir_iff.mpr t.root
  rw [start_eq] at hdir hw
  by_cases hempty : (lexical path).comps = []
  · rw [hempty] at hw
    rw [reference, if_pos hempty]
    cases habs : pathIsAbs .posix (some path) with
    | true =>
      rw [habs] at hw
      exact (FileTree.walk_stay hroot (a := [.here, .here]) (by simp)).1.trans ((FileTree.walk_nil t _ _).symm.trans hw)
    | false =>
      rw [habs] at hw hdir
      exact (FileTree.walk_stay hdir (a := [.here]) (by simp)).1.trans ((FileTree.walk_nil t _ _).symm.trans hw)
  · have hsteps := @stepsOf_spell (pathIsAbs .posix (some path)) _ hempty fun n hn => (comps_lexical path n hn).2
    have hstart := @start_spell w (pathIsAbs .posix (some path)) _ (fun _ => hempty) (comps_lexical path)
    have hne : spell (pathIsAbs .posix (some path)) (lexical path).comps ≠ [] := by
      intro hnil
      exact intercalate_ne_nil hempty (comps_lexical path) (List.append_eq_nil_iff.mp hnil).2
    rw [reference, if_neg hempty]
    change w.reach t (spell (pathIsAbs .posix (some path)) (lexical path).comps) = some r
    rw [World.reach, if_neg hne, hsteps, hstart]
    cases habs : pathIsAbs .posix (some path) with
    | true =>
      rw [habs] at hw
      rw [if_pos rfl, if_pos rfl, List.singleton_append, FileTree.walk_here]
      exact (if_pos hroot).trans hw
    | false =>
      rw [habs] at hw
      exact hw

/-- On POSIX, over any tree, a normalised path leads to the place that the path leads to, through as many links, if the path
normalises well and no `..` takes back a name that is a link. -/
theorem normalize_keeps_place {mem : Nat → UInt8} {bufSize : Nat} {path : List UInt8} (hnul : 0 ∉ path)
    (hwell : NormalizesWell path) (hback : TakesBackNoLink w t path)
    (h : (normalizePath .posix mem (.room bufSize) (some path)).result = true) (hr : w.reach t path = some r) :
    w.reach t (normalizePath .posix mem (.room bufSize) (some path)).state.text = some r := by
  rw [text_reference h hwell]
  exact reach_reference hnul hback hr

/-- `/o/../d/./a//a`, where `/d/a` is a link to `/o`. -/
theorem normalize_keeps_place_linked :
    World.reach ⟨40, [], fun _ => .refuses⟩ linkedTree
      (normalizePath .posix (fun _ => 0) (.room 15)
        (some [47, 111, 47, 46, 46, 47, 100, 47, 46, 47, 97, 47, 47, 97])).state.text = some (39, [nameO, nameA]) := by
  refine normalize_keeps_place (by decide) ⟨by decide, by decide, by decide⟩ ?_ (by decide) (by decide)
  intro pre post hsplit _ m route hentry hlink
  have hcomps : pathComponents [47, 111, 47, 46, 46, 47, 100, 47, 46, 47, 97, 47, 47, 97] = [[111], [46, 46], [100], [97], [97]] := by
    decide
  rw [hcomps] at hsplit
  obtain rfl : pre = [[111]] := by
    match pre with
    | [] => simp at hsplit
    | [_] => exact congrArg (fun c => [c]) (List.head_eq_of_cons_eq hsplit).symm
    | [_, _] => simp at hsplit
    | [_, _, _] => simp at hsplit
    | [_, _, _, _] => simp at hsplit
    | _ :: _ :: _ :: _ :: _ :: pre => simp at hsplit
  have hplace : linkedTree.entry 40 [] [.down nameO] = some [nameO] := by decide
  obtain rfl : [nameO] = m := Option.some.inj (hplace.symm.trans hentry)
  exact absurd hlink (by simp [linkedTree, FileTree.ofEntries, FileTree.nodeIn])

/-! ## Joined paths -/

/-- A separator between two parts, or the one at the end of the first. -/
theorem stepsOf_joined {base part : List UInt8} (hbase : base ≠ []) (hpart : part ≠ []) (k : Nat) (l : Place) :
    t.walk k l (stepsOf (joined .posix base part)) =
      (t.walk k l (stepsOf base)).bind fun r => t.walk r.1 r.2 (stepsOf part) := by
  rw [← FileTree.walk_append]
  obtain ⟨init, c, rfl⟩ := (List.eq_nil_or_concat' base).resolve_left hbase
  by_cases hc : c = 47
  · subst hc
    have hjoined : joined .posix (init ++ [47]) part = init ++ 47 :: part := by
      rw [joined, if_neg, List.append_nil, List.append_assoc, List.singleton_append]
      rw [needSep_iff]
      simp [fsIsSep]
    have hlast : stepsOf (init ++ [47]) = stepsOf init ++ [.here] := stepsOf_append init []
    rw [hjoined, stepsOf_append, hlast, List.append_assoc, FileTree.walk_append, FileTree.walk_append]
    cases t.walk k l (stepsOf init) with
    | none => rfl
    | some q =>
      obtain ⟨s, a, hsteps⟩ := List.exists_cons_of_ne_nil (show stepsOf part ≠ [] by simp [stepsOf, components_ne_nil])
      rw [Option.bind_some, Option.bind_some, List.singleton_append, hsteps, FileTree.walk_here_cons]
  · have hjoined : joined .posix (init ++ [c]) part = init ++ [c] ++ 47 :: part := by
      rw [joined, if_pos, List.append_assoc, fsSep, List.singleton_append]
      rw [needSep_iff]
      simp [fsIsSep, hc, hpart]
    rw [hjoined, stepsOf_append]

/-- On POSIX, over any tree, a relative part leads on from where the part before it leads; an absolute one stands for itself, and
one that is empty changes nothing. -/
theorem join_leads {bufSize : Nat} {base part : List UInt8} (hbase : base ≠ []) (hroom : base.length + part.length + 2 ≤ bufSize) :
    ∃ j, pathJoin .posix (.room bufSize) (some base) (some part) = { result := true, state := some j } ∧
      w.reach t j =
        if pathIsAbs .posix (some part) then w.reach t part
        else if part = [] then w.reach t base
        else (w.reach t base).bind fun r => t.walk r.1 r.2 (stepsOf part) := by
  refine ⟨joinedPath .posix base part, pathJoin_fits hroom, ?_⟩
  unfold joinedPath
  split
  · rfl
  · split
    · rename_i hpart
      rw [hpart, joined_nil]
    · rename_i hpart
      have hne : joined .posix base part ≠ [] := by simp [joined, hbase]
      have hstart : w.start (joined .posix base part) = w.start base := by
        rw [World.start, World.start, head?_joined .posix part hbase]
      rw [World.reach, if_neg hne, World.reach, if_neg hbase, hstart]
      exact stepsOf_joined hbase hpart _ _

/-- `/d/a` and `../d`, where `/d/a` is a link to `/o`. -/
theorem join_leads_linked :
    ∃ j, pathJoin .posix (.room 20) (some [47, 100, 47, 97]) (some [46, 46, 47, 100]) = { result := true, state := some j } ∧
      World.reach ⟨40, [], fun _ => .refuses⟩ linkedTree j = some (39, [nameD]) := by
  obtain ⟨j, hj, hreach⟩ := @join_leads ⟨40, [], fun _ => .refuses⟩ linkedTree 20 [47, 100, 47, 97] [46, 46, 47, 100]
    (by decide) (by decide)
  exact ⟨j, hj, hreach.trans (by decide)⟩

/-! ## The directory and the last name -/

/-- A path is a route to its directory and a step from there. -/
theorem exists_last_step (w : World) (t : Tree) {p : List UInt8} (hp : p ≠ []) (hlast : p.getLast? ≠ some 47) :
    ∃ base before, pathBasename .posix (some p) = some base ∧
      w.reach t (parent .posix p) = t.walk w.maxLinks (w.start p) before ∧
      (∀ k l, t.walk k l (stepsOf p) = t.walk k l (before ++ [stepOf base])) ∧
      ∀ k l, t.entry k l (stepsOf p) = t.entry k l (before ++ [stepOf base]) := by
  have hroot : t.isDir [] = true := FileTree.isDir_iff.mpr t.root
  rcases cut_last_sep .posix p with hsep | ⟨a, c, b, rfl, hc, hb⟩
  · obtain ⟨init, d, rfl⟩ := (List.eq_nil_or_concat' p).resolve_left hp
    have hsteps : stepsOf (init ++ [d]) = [stepOf (init ++ [d])] := by
      rw [stepsOf, components_of_not_mem ((noSep_posix _).mp hsep), List.map_singleton]
    have hrel : ¬ pathIsAbs .posix (some (init ++ [d])) = true := not_abs_of_noSep hsep
    refine ⟨init ++ [d], [.here], pathBasename_of_noSep fun c hc => hsep c (List.mem_append_left _ hc), ?_, fun k l => ?_, fun k l => ?_⟩
    · rw [parent_of_noSep hsep, start_eq, if_neg hrel]
      rfl
    · rw [hsteps]
      exact (FileTree.walk_here_cons t k l _ []).symm
    · rw [hsteps]
      exact (FileTree.entry_here t k l _).symm
  · rw [fsIsSep_posix] at hc
    subst hc
    have hne : b ≠ [] := by
      rintro rfl
      exact hlast List.getLast?_concat
    obtain ⟨init, d, rfl⟩ := (List.eq_nil_or_concat' b).resolve_left hne
    have hsteps : stepsOf (a ++ 47 :: (init ++ [d])) = stepsOf a ++ [stepOf (init ++ [d])] := by
      rw [stepsOf_append, stepsOf, stepsOf, components_of_not_mem ((noSep_posix _).mp hb), List.map_singleton]
    refine ⟨init ++ [d], stepsOf a, pathBasename_cut rfl fun c hc => hb c (List.mem_append_left _ hc), ?_, fun k l => ?_, fun k l => ?_⟩
    · rw [parent_cut rfl hb]
      by_cases ha : a = []
      · rw [if_pos ha, ha]
        have hslash : w.reach t [47] = some (w.maxLinks, []) := (FileTree.walk_stay hroot (a := [.here, .here]) (by simp)).1
        exact hslash.trans (FileTree.walk_stay hroot (a := [.here]) (by simp)).1.symm
      · rw [if_neg ha, World.reach, if_neg ha]
        obtain ⟨c, a, rfl⟩ := List.exists_cons_of_ne_nil ha
        rfl
    · rw [hsteps]
    · rw [hsteps]

/-- On POSIX, over any tree, a path that does not end in a separator leads where its last name leads from its directory; and it
names the entry of that name there. -/
theorem dirname_basename_lead {bufSize : Nat} {p : List UInt8} (hp : p ≠ []) (hlast : p.getLast? ≠ some 47)
    (hroom : p.length + 2 ≤ bufSize) :
    ∃ d base, pathDirname .posix (.room bufSize) (some p) = { result := true, state := some d } ∧
      pathBasename .posix (some p) = some base ∧
      w.reach t p = ((w.reach t d).bind fun r => t.walk r.1 r.2 [stepOf base]) ∧
      ∀ n : FileName, n.val = base →
        w.entry t p = (w.resolve t d).bind fun l => if (t.node (l ++ [n])).isSome then some (l ++ [n]) else none := by
  obtain ⟨base, before, hbase, hdir, hwalk, hentry⟩ := exists_last_step w t hp hlast
  refine ⟨parent .posix p, base, pathDirname_fits (by omega), hbase, ?_, ?_⟩
  · rw [hdir, ← FileTree.walk_append, ← hwalk, World.reach, if_neg hp]
  · rintro n rfl
    rw [World.entry, if_neg hp, hentry, stepOf_name, FileTree.entry_concat, World.resolve, hdir]
    cases t.walk w.maxLinks (w.start p) before <;> rfl

/-- `d/a` names the link, and leads to `/o`. -/
theorem dirname_basename_lead_linked :
    ∃ d base, pathDirname .posix (.room 5) (some [100, 47, 97]) = { result := true, state := some d } ∧
      pathBasename .posix (some [100, 47, 97]) = some base ∧
      World.reach ⟨40, [], fun _ => .refuses⟩ linkedTree [100, 47, 97] =
        ((World.reach ⟨40, [], fun _ => .refuses⟩ linkedTree d).bind fun r => linkedTree.walk r.1 r.2 [stepOf base]) ∧
      World.reach ⟨40, [], fun _ => .refuses⟩ linkedTree [100, 47, 97] = some (39, [nameO]) ∧
      World.entry ⟨40, [], fun _ => .refuses⟩ linkedTree [100, 47, 97] = some [nameD, nameA] := by
  obtain ⟨d, base, hd, hbase, hreach, -⟩ := @dirname_basename_lead ⟨40, [], fun _ => .refuses⟩ linkedTree 5 [100, 47, 97] (by decide) (by decide)
    (by decide)
  exact ⟨d, base, hd, hbase, hreach, by decide, by decide⟩

end Copper.Fs
