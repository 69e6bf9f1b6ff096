import Copper.Fs.Complete
import Copper.Fs.MakeAll
import Copper.Fs.Scan
import Mathlib.Algebra.GroupWithZero.Nat

/-!
# Undoing `cpr_mkdir_all`

A path without `..`, in a tree without links. The place of each of its levels is below those of the shorter ones, so that the first
level whose place is taken by something else comes before any that is missing: the call makes every level or changes nothing. What
it makes is at or below the first level that was missing, and `cpr_remove_dir` of that level takes it all back
(`mkdirAll_restorable`).
-/

namespace Copper.Fs

variable {w : World} {t : Tree} {s : FsState} {path q q' : List UInt8}

/-! ## The levels of a path -/

/-- No level of a path is empty. -/
theorem ne_nil_of_level (hpath : path ≠ []) (hq : q ∈ levels path) : q ≠ [] := by
  rintro rfl
  rcases mem_levels.mp hq with h | ⟨_, _, _, hc, _⟩
  · exact hpath h.symm
  · cases hc

/-- A longer level goes on after a separator. -/
theorem level_split (hq : q ∈ levels path) (hq' : q' ∈ levels path) (hlen : q.length ≤ q'.length) :
    q' = q ∨ ∃ a, q' = q ++ 47 :: a := by
  have hpre : ∀ {p : List UInt8}, p ∈ levels path → p <+: path := by
    intro p hp
    rcases mem_levels.mp hp with rfl | ⟨rest, hsplit, -⟩
    · exact List.prefix_refl p
    · exact ⟨47 :: rest, hsplit.symm⟩
  obtain ⟨a, rfl⟩ := List.prefix_of_prefix_length_le (hpre hq) (hpre hq') hlen
  cases a with
  | nil => exact Or.inl (List.append_nil q)
  | cons c a =>
    obtain ⟨b, hb⟩ := hpre hq'
    rcases mem_levels.mp hq with rfl | ⟨rest, hsplit, -⟩
    · simpa using congrArg List.length hb
    · rw [hsplit, List.append_assoc, List.append_cancel_left_eq, List.cons_append, List.cons.injEq] at hb
      exact Or.inr ⟨a, by rw [hb.1]⟩

/-- No `..` is in a level of a path without one. -/
theorem up_not_mem_level (hup : .up ∉ stepsOf path) (hq : q ∈ levels path) : .up ∉ stepsOf q := by
  rcases mem_levels.mp hq with rfl | ⟨rest, rfl, -⟩
  · exact hup
  · rw [stepsOf_append] at hup
    exact fun h => hup (List.mem_append_left _ h)

/-- The rest of a longer level is its part of the route. -/
theorem stepsOf_rest {a : List UInt8} (hq : q ++ 47 :: a ∈ levels path) {x : FileTree.Step FileName} (hx : x ∈ stepsOf a) :
    x ∈ stepsOf path := by
  have hlevel : x ∈ stepsOf (q ++ 47 :: a) := by
    rw [stepsOf_append]
    exact List.mem_append_right _ hx
  rcases mem_levels.mp hq with heq | ⟨rest, hsplit, -⟩
  · rwa [heq] at hlevel
  · rw [hsplit, stepsOf_append]
    exact List.mem_append_left _ hlevel

/-- The place of a longer level. -/
theorem place_rest {a : List UInt8} (hpath : path ≠ []) (hup : .up ∉ stepsOf path) (hq : q ∈ levels path)
    (hqa : q ++ 47 :: a ∈ levels path) : w.place (q ++ 47 :: a) = w.place q ++ FileTree.downs (stepsOf a) := by
  have hstart : w.start (q ++ 47 :: a) = w.start q := by
    rw [World.start, World.start, List.head?_append_of_ne_nil q (ne_nil_of_level hpath hq)]
  rw [World.place, World.place, hstart, stepsOf_append, FileTree.lexical_append]
  exact FileTree.lexical_eq_append_downs (fun h => hup (stepsOf_rest hqa h)) _

/-- A longer level is below a shorter one. -/
theorem place_level (hpath : path ≠ []) (hup : .up ∉ stepsOf path) (hq : q ∈ levels path) (hq' : q' ∈ levels path)
    (hlen : q.length ≤ q'.length) : w.place q <+: w.place q' := by
  rcases level_split hq hq' hlen with rfl | ⟨a, rfl⟩
  · exact List.prefix_refl _
  · rw [place_rest hpath hup hq hq']
    exact List.prefix_append _ _

/-! ## All or nothing -/

/-- What is new was missing. -/
theorem LevelsDone.missing {ls : List (List UInt8)} {r : FsState × Bool} (h : LevelsDone w ls s r) {m : Place}
    (hm : r.1.tree.node m ≠ s.tree.node m) : s.tree.node m = none := by
  cases hnode : s.tree.node m with
  | none => rfl
  | some x => exact absurd ((h.le m x hnode).trans hnode.symm) hm

/-- Where the levels of a path fail, nothing is new. -/
theorem LevelsDone.nothing {r : FsState × Bool} (h : LevelsDone w (levels path) s r) (hpath : path ≠ []) (hup : .up ∉ stepsOf path)
    (hfails : r.2 = false) (m : Place) : r.1.tree.node m = s.tree.node m := by
  obtain ⟨q, hq, hthere, hother⟩ : ∃ q ∈ levels path, s.tree.node (w.place q) ≠ none ∧ s.tree.node (w.place q) ≠ some .dir := by
    by_contra hfree
    push Not at hfree
    rw [h.result.mpr fun q hq => or_iff_not_imp_left.mpr (hfree q hq)] at hfails
    cases hfails
  by_contra hm
  obtain ⟨hdir, q', hq', rfl, -⟩ := h.new m hm
  have hnone := h.missing hm
  rcases Nat.le_total q'.length q.length with hlen | hlen
  · have hne : w.place q ≠ w.place q' := fun heq => hthere (heq ▸ hnone)
    exact hthere (FileTree.node_below (by rw [hnone]; simp) (place_level hpath hup hq' hq hlen) hne)
  · obtain ⟨x, hx⟩ := Option.ne_none_iff_exists'.mp hthere
    have hkept : r.1.tree.node (w.place q) ≠ some .dir := by
      rw [h.le _ x hx, ← hx]
      exact hother
    have hne : w.place q' ≠ w.place q := fun heq => hkept (heq ▸ hdir)
    rw [FileTree.node_below hkept (place_level hpath hup hq hq' hlen) hne] at hdir
    cases hdir

/-- Making levels makes no links. -/
theorem LevelsDone.noLinks {ls : List (List UInt8)} {r : FsState × Bool} (h : LevelsDone w ls s r) (hlinks : NoLinks s.tree) :
    NoLinks r.1.tree := hlinks.of_new fun m hm => (h.new m hm).1

/-- The system counts a `mkdir`. -/
theorem World.calls_mkdir (w : World) (path : List UInt8) (s : FsState) : (w.mkdir path s).1.calls = s.calls + 1 := by
  unfold World.mkdir
  split
  · rfl
  · split
    · rfl
    · split <;> rfl

/-- Making a directory takes no call back. -/
theorem calls_le_mkdir (w : World) (path : List UInt8) (s : FsState) : s.calls ≤ (mkdir w (some path) s).1.calls := by
  have hcalls := w.calls_mkdir path s
  rw [mkdir]
  generalize w.mkdir path s = r at hcalls ⊢
  obtain ⟨s1, made⟩ := r
  cases made <;> exact Nat.le_of_lt (Nat.lt_of_lt_of_eq (Nat.lt_succ_self _) hcalls.symm)

/-- Nor does making a level. -/
theorem calls_le_mkdirLevel (hworks : w.WorksFrom s.calls) (path : List UInt8) : s.calls ≤ (mkdirLevel w path s).1.calls := by
  rw [mkdirLevel, pathIsDir_eq hworks]
  cases (w.resolve s.tree path).any s.tree.isDir with
  | true => exact Nat.le_succ _
  | false => exact Nat.le_trans (Nat.le_succ _) (calls_le_mkdir w path s.tick)

/-- Nor does making all of them. -/
theorem calls_le_mkdirLevels {rest : List UInt8} (hworks : w.WorksFrom s.calls) : s.calls ≤ (mkdirLevels w path rest s).1.calls := by
  induction rest generalizing path s with
  | nil => exact calls_le_mkdirLevel hworks path
  | cons c rest ih =>
    rw [mkdirLevels]
    split
    · have hcalls := calls_le_mkdirLevel hworks path
      generalize mkdirLevel w path s = r at hcalls ⊢
      obtain ⟨s1, ok⟩ := r
      cases ok with
      | false => exact hcalls
      | true => exact Nat.le_trans hcalls (ih (hworks.mono hcalls))
    · exact ih hworks

/-- Nor does `cpr_mkdir_all`. -/
theorem calls_le_mkdirAll (hworks : w.WorksFrom s.calls) (path : List UInt8) : s.calls ≤ (mkdirAll w (some path) s).1.calls := by
  rw [mkdirAll]
  split
  · exact Nat.le_refl _
  · exact calls_le_mkdirLevels hworks

/-! ## A second time -/

/-- Where every level is a directory, making them does nothing. -/
theorem LevelsDone.again {ls : List (List UInt8)} {r r' : FsState × Bool} (h : LevelsDone w ls s r) (hok : r.2 = true)
    (h' : LevelsDone w ls r.1 r') : r'.2 = true ∧ ∀ m, r'.1.tree.node m = r.1.tree.node m := by
  have hdirs : ∀ q ∈ ls, r.1.tree.node (w.place q) = some .dir := fun q hq => FileTree.isDir_iff.mp (h.leads hok q hq).2
  refine ⟨h'.result.mpr fun q hq => Or.inr (hdirs q hq), fun m => ?_⟩
  by_contra hm
  obtain ⟨-, q, hq, rfl, -⟩ := h'.new m hm
  have hdir := hdirs q hq
  rw [h'.missing hm] at hdir
  cases hdir

/-! ## Taking it back -/

/-- The first level of a path with nothing at its place. -/
structure FirstMissing (w : World) (t : Tree) (path q : List UInt8) : Prop where
  level : q ∈ levels path
  missing : t.node (w.place q) = none
  first : ∀ q' ∈ levels path, q'.length < q.length → t.node (w.place q') ≠ none

/-- Where a level is missing there is a first one. -/
theorem exists_firstMissing (hq : q ∈ levels path) (hn : t.node (w.place q) = none) : ∃ q, FirstMissing w t path q := by
  induction hlen : q.length using Nat.strongRecOn generalizing q with
  | _ len ih =>
    by_cases hfirst : ∀ q' ∈ levels path, q'.length < q.length → t.node (w.place q') ≠ none
    · exact ⟨q, hq, hn, hfirst⟩
    · push Not at hfirst
      obtain ⟨q', hq', hlt, hn'⟩ := hfirst
      exact ih _ (hlen ▸ hlt) hq' hn' rfl

/-- A path ends in a component. -/
theorem exists_endsIn (path : List UInt8) : ∃ a comp, EndsIn path a comp := by
  rcases cut_last_sep .posix path with hsep | ⟨b, c, comp, rfl, hc, hcomp⟩
  · exact ⟨[], path, fun h => by simpa [fsIsSep] using hsep 47 h, Or.inl ⟨rfl, rfl⟩⟩
  · rw [fsIsSep_posix] at hc
    subst hc
    exact ⟨stepsOf b, comp, fun h => by simpa [fsIsSep] using hcomp 47 h, Or.inr ⟨b, rfl, rfl⟩⟩

namespace FirstMissing

/-- It ends in a name. -/
theorem named (h : FirstMissing w t path q) (hpath : path ≠ []) (hstart : t.isDir (w.start path) = true) (hup : .up ∉ stepsOf path) :
    ∃ a n, stepsOf q = a ++ [.down n] ∧ q.rdropWhile (· = 47) = q ∧ w.place q = FileTree.lexical (w.start q) a ++ [n] := by
  obtain ⟨a, comp, hends⟩ := exists_endsIn q
  have hsteps := hends.stepsOf_eq
  have hplace : w.place q = FileTree.lexical (FileTree.lexical (w.start q) a) [stepOf comp] := by
    rw [World.place, hsteps, FileTree.lexical_append]
  have hstartQ : t.isDir (w.start q) = true := by rwa [start_of_level h.level (ne_nil_of_level hpath h.level)]
  have hthere : w.place q ≠ w.start q := fun heq => by
    have hmissing := h.missing
    rw [heq, FileTree.isDir_iff.mp hstartQ] at hmissing
    cases hmissing
  cases hstep : stepOf comp with
  | here =>
    exfalso
    rw [hstep] at hplace
    rcases hends.split with ⟨-, rfl⟩ | ⟨b, hq, rfl⟩
    · exact hthere hplace
    · by_cases hb : ∃ c ∈ b, c ≠ 47
      · -- What is before the last separator is a level with the same place.
        have hlevel : b ∈ levels path := by
          rcases mem_levels.mp h.level with heq | ⟨rest, hrest, -⟩
          · exact mem_levels.mpr (Or.inr ⟨comp, heq ▸ hq, hb⟩)
          · exact mem_levels.mpr (Or.inr ⟨comp ++ 47 :: rest, by rw [hrest, hq, List.append_assoc, List.cons_append], hb⟩)
        have hstartB : w.start q = w.start b := by
          rw [start_of_level h.level (ne_nil_of_level hpath h.level), start_of_level hlevel (ne_nil_of_level hpath hlevel)]
        have hlonger : b.length < q.length := by
          rw [hq, List.length_append, List.length_cons]
          omega
        refine h.first b hlevel hlonger ?_
        rw [World.place, ← hstartB]
        exact hplace ▸ h.missing
      · push Not at hb
        exact hthere (hplace.trans (FileTree.walk_stay (k := 0) hstartQ (stepsOf_seps hb)).2)
  | up =>
    refine absurd ?_ (up_not_mem_level hup h.level)
    rw [hsteps, hstep]
    exact List.mem_append_right _ List.mem_cons_self
  | down n =>
    rw [hstep] at hsteps hplace
    refine ⟨a, n, hsteps, hends.strip ?_, hplace⟩
    rintro rfl
    cases hstep

/-- Once it is made, it can be removed, and nothing on the way to it is in it. -/
theorem roots (h : FirstMissing w t path q) (hpath : path ≠ []) (hstart : t.isDir (w.start path) = true) (hup : .up ∉ stepsOf path)
    {u : Tree} (hlinks : NoLinks u) (hleads : Leads w u q) : Roots w u q (w.place q) := by
  obtain ⟨a, n, hsteps, hstrip, hplace⟩ := h.named hpath hstart hup
  obtain ⟨hreach, hdir⟩ := hleads
  have hne := ne_nil_of_level hpath h.level
  refine Roots.of_no_up hlinks ?_ ?_ hdir
  · rw [hstrip]
    exact up_not_mem_level hup h.level
  · rw [World.reach, if_neg hne, hsteps, FileTree.walk_append] at hreach
    obtain ⟨⟨j, d⟩, hwalk, -⟩ := Option.bind_eq_some_iff.mp hreach
    have hd : d = FileTree.lexical (w.start q) a := congrArg Prod.snd (FileTree.walk_eq_lexical hlinks hwalk)
    rw [hstrip, World.entry, if_neg hne, hsteps, hplace, ← hd]
    refine FileTree.entry_concat_of_walk hwalk ?_
    rw [hd, ← hplace, FileTree.isDir_iff.mp hdir]
    simp

end FirstMissing

/-! ## Lengths -/

/-- A name, and perhaps a separator, makes the path longer. -/
theorem length_child_le (hpath : path ≠ []) (n : FileName) : (child path n).length ≤ path.length + (n.val.length + 1) := by
  rw [child_eq hpath]
  split <;> simp

/-- A separator for each name is all that is added. -/
theorem length_below_le (hpath : path ≠ []) (ns : List FileName) :
    (below path ns).length ≤ path.length + (ns.map fun n => n.val.length + 1).sum := by
  induction ns generalizing path with
  | nil => exact Nat.le_refl _
  | cons n ns ih =>
    have hchild := length_child_le hpath n
    have hrest := ih (child_ne_nil hpath n)
    rw [List.map_cons, List.sum_cons]
    exact Nat.le_trans hrest (by omega)

/-- The components of a path, each with its separator. -/
theorem sum_length_components (p : List UInt8) : ((components p).map fun c => c.length + 1).sum = p.length + 1 := by
  induction p with
  | nil => rfl
  | cons c p ih =>
    rw [components]
    split
    · rw [List.map_cons, List.sum_cons, ih, List.length_cons, List.length_nil]
      omega
    · cases hp : components p with
      | nil => exact absurd hp (components_ne_nil p)
      | cons first rest =>
        rw [hp, List.map_cons, List.sum_cons] at ih
        rw [List.map_cons, List.sum_cons, List.length_cons, List.length_cons]
        omega

/-- The names among some components are no longer than those. -/
theorem sum_length_downs_le (cs : List (List UInt8)) :
    ((FileTree.downs (cs.map stepOf)).map fun n => n.val.length + 1).sum ≤ (cs.map fun c => c.length + 1).sum := by
  induction cs with
  | nil => exact Nat.le_refl _
  | cons c cs ih =>
    rw [List.map_cons, List.map_cons, List.sum_cons]
    cases hstep : stepOf c with
    | here => exact Nat.le_trans ih (Nat.le_add_left _ _)
    | up => exact Nat.le_trans ih (Nat.le_add_left _ _)
    | down n =>
      have hn : n.val = c := by
        unfold stepOf at hstep
        split at hstep
        · cases hstep
        · split at hstep
          · cases hstep
            rfl
          · cases hstep
      rw [FileTree.downs, List.map_cons, List.sum_cons, hn]
      exact Nat.add_le_add_left ih _

/-- And so the names that it goes down through. -/
theorem sum_length_downs_stepsOf_le (p : List UInt8) :
    ((FileTree.downs (stepsOf p)).map fun n => n.val.length + 1).sum ≤ p.length + 1 :=
  Nat.le_trans (sum_length_downs_le (components p)) (Nat.le_of_eq (sum_length_components p))

/-! ## What was made -/

/-- All that is new is at or below the first level that was missing. -/
theorem FirstMissing.prefix_of_new {r : FsState × Bool} (h : FirstMissing w s.tree path q) (hdone : LevelsDone w (levels path) s r)
    {m : Place} (hm : r.1.tree.node m ≠ s.tree.node m) :
    ∃ q', q' ∈ levels path ∧ m = w.place q' ∧ (q' = q ∨ ∃ a, q' = q ++ 47 :: a) := by
  obtain ⟨-, q', hq', rfl, -⟩ := hdone.new m hm
  refine ⟨q', hq', rfl, level_split h.level hq' ?_⟩
  by_contra hlt
  exact h.first q' hq' (by omega) (hdone.missing hm)

/-- What was made can be removed by names and paths that fit their buffers. -/
theorem FirstMissing.plain {r : FsState × Bool} (h : FirstMissing w s.tree path q) (hdone : LevelsDone w (levels path) s r)
    (hlinks : NoLinks s.tree) (hpath : path ≠ []) (hlen : path.length < fsPathMax) (hup : .up ∉ stepsOf path)
    (hnames : ∀ n, .down n ∈ stepsOf path → n.val.length < fsNameMax) : Plain r.1.tree q (w.place q) := by
  refine ⟨fun m route _ => hdone.noLinks hlinks m route, fun ns hns hnode => ?_⟩
  have hnone : s.tree.node (w.place q ++ ns) = none :=
    FileTree.node_below (by rw [h.missing]; simp) (List.prefix_append _ _) (by simpa using hns)
  obtain ⟨q', hq', hplace, hafter⟩ := h.prefix_of_new hdone fun heq => hnode (heq.trans hnone)
  rcases hafter with rfl | ⟨a, rfl⟩
  · exact absurd (by simpa using hplace) hns
  · rw [place_rest hpath hup h.level hq', List.append_cancel_left_eq] at hplace
    have hbelow := length_below_le (ne_nil_of_level hpath h.level) ns
    have hsum := sum_length_downs_stepsOf_le a
    have hlevel : (q ++ 47 :: a).length ≤ path.length := by
      rcases mem_levels.mp hq' with heq | ⟨rest, hrest, -⟩
      · rw [heq]
      · exact (congrArg List.length hrest).symm ▸ (List.prefix_append _ _).length_le
    rw [List.length_append, List.length_cons] at hlevel
    rw [← hplace] at hsum
    refine ⟨fun n hn => hnames n (stepsOf_rest hq' ?_), by omega⟩
    rw [hplace] at hn
    exact FileTree.mem_downs.mp hn

/-- On a path without `..`, in a tree without links, where nothing fails of its own: if `cpr_mkdir_all` fails it has changed nothing,
and if it succeeds it does nothing the second time; and if it made anything, there was a first level that was missing, and
`cpr_remove_dir` of that level leaves everything as it was. -/
theorem mkdirAll_restorable (w : World) (path : List UInt8) (s : FsState) (hworks : w.WorksFrom s.calls) (hlinks : NoLinks s.tree)
    (hstart : s.tree.isDir (w.start path) = true) (hpath : path ≠ []) (hlen : path.length < fsPathMax) (hup : .up ∉ stepsOf path)
    (hnames : ∀ n, .down n ∈ stepsOf path → n.val.length < fsNameMax) :
    let r := mkdirAll w (some path) s
    (r.2 = false → ∀ m, r.1.tree.node m = s.tree.node m) ∧
      (r.2 = true → (mkdirAll w (some path) r.1).2 = true ∧
        ∀ m, (mkdirAll w (some path) r.1).1.tree.node m = r.1.tree.node m) ∧
      (r.2 = true → (∀ m, r.1.tree.node m = s.tree.node m) ∨ ∃ q, FirstMissing w s.tree path q) ∧
      (r.2 = true → ∀ q, FirstMissing w s.tree path q →
        ∃ s', removeDir w (some q) true r.1 = some (s', true) ∧ ∀ m, s'.tree.node m = s.tree.node m) := by
  intro r
  have hdone : LevelsDone w (levels path) s r := mkdirAll_spec hworks hlinks hstart hpath hlen
  have hworks' : w.WorksFrom r.1.calls := hworks.mono (calls_le_mkdirAll hworks path)
  have hlinks' := hdone.noLinks hlinks
  refine ⟨hdone.nothing hpath hup, fun hok => ?_, fun _ => ?_, fun hok q hq => ?_⟩
  · have hstart' : r.1.tree.isDir (w.start path) = true := FileTree.isDir_iff.mpr (hdone.le _ _ (FileTree.isDir_iff.mp hstart))
    exact hdone.again hok (mkdirAll_spec hworks' hlinks' hstart' hpath hlen)
  · by_contra hnew
    push Not at hnew
    obtain ⟨⟨m, hm⟩, hnone⟩ := hnew
    obtain ⟨-, q, hq, rfl, -⟩ := hdone.new m hm
    obtain ⟨q', hq'⟩ := exists_firstMissing hq (hdone.missing hm)
    exact hnone q' hq'
  · have hroots := hq.roots hpath hstart hup hlinks' (hdone.leads hok q hq.level)
    obtain ⟨s', hremove, htree⟩ := removeDir_works hroots (hq.plain hdone hlinks hpath hlen hup hnames) hworks'
    refine ⟨s', hremove, fun m => ?_⟩
    rw [htree]
    split
    · rename_i hbelow
      by_cases hm : m = w.place q
      · rw [hm, hq.missing]
      · rw [FileTree.node_below (by rw [hq.missing]; simp) hbelow hm]
    · rename_i hout
      by_contra hm
      obtain ⟨q', hq', rfl, hafter⟩ := hq.prefix_of_new hdone hm
      refine hout (place_level hpath hup hq.level hq' ?_)
      rcases hafter with rfl | ⟨a, rfl⟩
      · exact Nat.le_refl _
      · rw [List.length_append]
        exact Nat.le_add_right _ _

/-- `d//x/y/` below `/`, where there is `/d` but no `/d/x`: what is made goes with `d//x`. -/
theorem mkdirAll_restorable_deep :
    ∃ s', (removeDir ⟨40, [], fun _ => .lists nameA⟩ (some [100, 47, 47, 120]) true
        (mkdirAll ⟨40, [], fun _ => .lists nameA⟩ (some [100, 47, 47, 120, 47, 121, 47]) ⟨plainTree, 0, none⟩).1) = some (s', true) ∧
      ∀ m, s'.tree.node m = plainTree.node m := by
  have hlinks : NoLinks plainTree := by
    intro m route hm
    by_cases hnil : m = []
    · rw [hnil, plainTree.root] at hm
      cases hm
    · have hmem := FileTree.ofEntries_mem (by decide) hm hnil
      simp at hmem
  have hnames : ∀ n ∈ FileTree.downs (stepsOf [100, 47, 47, 120, 47, 121, 47]), n.val.length < fsNameMax := by decide
  obtain ⟨-, -, -, hback⟩ := mkdirAll_restorable ⟨40, [], fun _ => .lists nameA⟩ [100, 47, 47, 120, 47, 121, 47] ⟨plainTree, 0, none⟩
    (fun _ _ => rfl) hlinks (by decide) (by decide) (by decide) (by decide) fun n hn => hnames n (FileTree.mem_downs.mpr hn)
  exact hback (by decide) [100, 47, 47, 120] ⟨by decide, by decide, by decide⟩

end Copper.Fs
