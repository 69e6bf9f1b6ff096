import Copper.Fs.Escape
import Copper.Fs.MakeDir

/-!
# What `cpr_mkdir_all` makes

In a tree without links a path leads, if anywhere, to its lexical place, where `..` takes back the name before it (`World.place`).
`cpr_mkdir_all` goes from level to level: each is one component more than the last one, which leads to a directory by then
(`Prepared`), so that its place is a directory already, or is made one, or is something else and stops the call.
-/

namespace Copper.Fs

variable {w : World} {t : Tree} {s : FsState}

/-- There are no links. -/
def NoLinks (t : Tree) : Prop := ∀ m route, t.node m ≠ some (.link route)

/-- Where a path leads if everything on the way is a directory. -/
def World.place (w : World) (path : List UInt8) : Place := FileTree.lexical (w.start path) (stepsOf path)

/-- There is something at the place of a path, or of what is before one of its separators, and it is no directory. -/
def Blocked (w : World) (t : Tree) (path : List UInt8) : Prop :=
  ∃ q ∈ levels path, t.node (w.place q) ≠ none ∧ t.node (w.place q) ≠ some .dir

/-! ## From level to level -/

/-- A path is a component after a route: the whole of it, or what is after its last separator. -/
structure EndsIn (path : List UInt8) (a : List (FileTree.Step FileName)) (comp : List UInt8) : Prop where
  noSep : 47 ∉ comp
  split : path = comp ∧ a = [] ∨ ∃ b, path = b ++ 47 :: comp ∧ a = stepsOf b

namespace EndsIn

variable {path comp : List UInt8} {a : List (FileTree.Step FileName)}

/-- The steps of a path end in the step of its last component. -/
theorem stepsOf_eq (h : EndsIn path a comp) : stepsOf path = a ++ [stepOf comp] := by
  rcases h.split with ⟨rfl, rfl⟩ | ⟨b, rfl, rfl⟩
  · rw [stepsOf, components_of_not_mem h.noSep]
    rfl
  · rw [stepsOf_append, stepsOf, stepsOf, components_of_not_mem h.noSep, List.map_singleton]

/-- A byte that is no separator belongs to the last component. -/
theorem char (h : EndsIn path a comp) {c : UInt8} (hc : c ≠ 47) : EndsIn (path ++ [c]) a (comp ++ [c]) where
  noSep := by
    rw [List.mem_append, List.mem_singleton, not_or]
    exact ⟨h.noSep, fun h => hc h.symm⟩
  split := by
    rcases h.split with ⟨rfl, ha⟩ | ⟨b, rfl, ha⟩
    · exact Or.inl ⟨rfl, ha⟩
    · exact Or.inr ⟨b, by rw [List.append_assoc, List.cons_append], ha⟩

/-- A path that ends in something else than a separator. -/
theorem strip (h : EndsIn path a comp) (hcomp : comp ≠ []) : path.rdropWhile (· = 47) = path := by
  obtain ⟨init, c, rfl⟩ : ∃ init c, comp = init ++ [c] := ⟨_, _, (List.dropLast_concat_getLast hcomp).symm⟩
  have hc : c ≠ 47 := by
    rintro rfl
    exact h.noSep (List.mem_append_right _ List.mem_cons_self)
  obtain ⟨p, rfl⟩ : ∃ p, path = p ++ [c] := by
    rcases h.split with ⟨rfl, _⟩ | ⟨b, rfl, _⟩
    · exact ⟨init, rfl⟩
    · exact ⟨b ++ 47 :: init, by rw [List.append_assoc, List.cons_append]⟩
  exact List.rdropWhile_concat_neg _ _ _ (by simpa using hc)

/-- After a separator a component starts. -/
theorem sep (path : List UInt8) : EndsIn (path ++ [47]) (stepsOf path) [] := ⟨List.not_mem_nil, Or.inr ⟨path, rfl, rfl⟩⟩

end EndsIn

/-- What is before the last component of a path leads to its lexical place, a directory. -/
def Prepared (w : World) (t : Tree) (path : List UInt8) : Prop :=
  ∃ a comp, EndsIn path a comp ∧
    t.walk w.maxLinks (w.start path) a = some (w.maxLinks, FileTree.lexical (w.start path) a) ∧
    t.isDir (FileTree.lexical (w.start path) a) = true

/-- A path leads to its lexical place, a directory. -/
def Leads (w : World) (t : Tree) (path : List UInt8) : Prop :=
  w.reach t path = some (w.maxLinks, w.place path) ∧ t.isDir (w.place path) = true

/-- What is prepared in a tree is prepared in a greater one. -/
theorem Prepared.mono {u : Tree} {path : List UInt8} (h : Prepared w t path) (hle : t ≤ u) : Prepared w u path := by
  obtain ⟨a, comp, hends, hwalk, hdir⟩ := h
  exact ⟨a, comp, hends, FileTree.walk_mono hle hwalk, FileTree.isDir_iff.mpr (hle _ _ (FileTree.isDir_iff.mp hdir))⟩

/-- And what leads to a directory leads to it. -/
theorem Leads.mono {u : Tree} {path : List UInt8} (h : Leads w t path) (hle : t ≤ u) : Leads w u path :=
  ⟨reach_mono hle h.1, FileTree.isDir_iff.mpr (hle _ _ (FileTree.isDir_iff.mp h.2))⟩

/-- One byte more does not change where a path starts. -/
theorem start_concat {path : List UInt8} (c : UInt8) (h : path ≠ [] ∨ c ≠ 47) : w.start (path ++ [c]) = w.start path := by
  cases path with
  | nil =>
    have hc : c ≠ 47 := h.resolve_left fun hne => hne rfl
    simp [World.start, hc]
  | cons d path => rfl

/-- A byte that is no separator needs nothing more to be prepared. -/
theorem Prepared.char {path : List UInt8} (h : Prepared w t path) {c : UInt8} (hc : c ≠ 47) : Prepared w t (path ++ [c]) := by
  obtain ⟨a, comp, hends, hwalk, hdir⟩ := h
  rw [← start_concat c (Or.inr hc)] at hwalk hdir
  exact ⟨a, comp ++ [c], hends.char hc, hwalk, hdir⟩

/-- Once a path leads to a directory, it can be followed by another component. -/
theorem Leads.sep {path : List UInt8} (h : Leads w t path) : Prepared w t (path ++ [47]) := by
  have hpath : path ≠ [] := by
    rintro rfl
    cases h.1
  obtain ⟨hreach, hdir⟩ := h
  rw [World.reach, if_neg hpath] at hreach
  refine ⟨stepsOf path, [], EndsIn.sep path, ?_⟩
  rw [start_concat 47 (Or.inl hpath)]
  exact ⟨hreach, hdir⟩

/-- What a level is: it leads to a directory, there is nothing at its place but a directory to make it in, or there is something else
at its place. -/
inductive Level (w : World) (t : Tree) (path : List UInt8) : Prop where
  | there (hleads : Leads w t path)
  | missing (l : Place) (n : FileName) (hplace : w.place path = l ++ [n]) (hslot : w.slot t path = some (l, n))
    (hstrip : path.rdropWhile (· = 47) = path) (hl : t.isDir l = true) (hn : t.node (l ++ [n]) = none)
    (hresolve : w.resolve t path = none)
  | other (l : Place) (n : FileName) (hplace : w.place path = l ++ [n]) (hslot : w.slot t path = some (l, n))
    (hstrip : path.rdropWhile (· = 47) = path) (hn : t.node (l ++ [n]) ≠ none) (hdir : t.isDir (l ++ [n]) = false)
    (hresolve : w.resolve t path = some (l ++ [n]))

/-- A prepared path is a level. -/
theorem Prepared.level {path : List UInt8} (hlinks : NoLinks t) (h : Prepared w t path) (hpath : path ≠ []) : Level w t path := by
  obtain ⟨a, comp, hends, hwalk, hdir⟩ := h
  have hsteps := hends.stepsOf_eq
  have hplace : w.place path = FileTree.lexical (FileTree.lexical (w.start path) a) [stepOf comp] := by
    rw [World.place, hsteps, FileTree.lexical_append]
  have hreach : w.reach t path = t.walk w.maxLinks (FileTree.lexical (w.start path) a) [stepOf comp] := by
    rw [World.reach, if_neg hpath, hsteps, FileTree.walk_append, hwalk, Option.bind_some]
  cases hstep : stepOf comp with
  | here =>
    rw [hstep] at hplace hreach
    refine .there ⟨?_, ?_⟩
    · rw [hreach, hplace, FileTree.walk_here, if_pos hdir, FileTree.walk_nil]
      rfl
    · rw [hplace]
      exact hdir
  | up =>
    rw [hstep] at hplace hreach
    refine .there ⟨?_, ?_⟩
    · rw [hreach, hplace, FileTree.walk_up, if_pos hdir, FileTree.walk_nil]
      rfl
    · rw [hplace]
      exact FileTree.isDir_dropLast hdir
  | down n =>
    rw [hstep] at hplace hreach hsteps
    have hslot : w.slot t path = some (FileTree.lexical (w.start path) a, n) := by
      rw [World.slot, hsteps, List.getLast?_concat]
      simp only [List.dropLast_concat, hwalk, Option.map_some]
    have hcomp : comp ≠ [] := by
      rintro rfl
      cases hstep
    have hstrip := hends.strip hcomp
    cases hn : t.node (FileTree.lexical (w.start path) a ++ [n]) with
    | none =>
      refine .missing _ n hplace hslot hstrip hdir hn ?_
      rw [World.resolve, hreach, FileTree.walk_down, hn]
      rfl
    | some x =>
      have hwalk' := FileTree.walk_down_node (k := w.maxLinks) (a := []) hn fun route hx => hlinks _ route (hx ▸ hn)
      rw [FileTree.walk_nil] at hwalk'
      cases hx : t.isDir (FileTree.lexical (w.start path) a ++ [n]) with
      | true => exact .there ⟨by rw [hreach, hwalk', hplace]; rfl, by rw [hplace]; exact hx⟩
      | false =>
        refine .other _ n hplace hslot hstrip (by rw [hn]; simp) hx ?_
        rw [World.resolve, hreach, hwalk']
        rfl

/-! ## One level -/

/-- A system that works says whether a path leads to a directory. -/
theorem pathIsDir_eq {path : List UInt8} (hworks : w.WorksFrom s.calls) :
    pathIsDir w (some path) s = (s.tick, (w.resolve s.tree path).any s.tree.isDir) := by
  rw [pathIsDir, World.stat, hworks _ (Nat.le_refl _), if_neg (by decide)]
  cases hres : w.resolve s.tree path with
  | none => rfl
  | some l =>
    simp only [Option.bind_some, Option.any_some, FileTree.isDir]
    rcases s.tree.node l with _ | _ | _ | _ <;> rfl

/-- What a level leaves: nothing is changed and it fails, or it leads to a directory, and nothing but that may be new. -/
inductive LevelDone (w : World) (path : List UInt8) (s : FsState) (r : FsState × Bool) : Prop where
  | ok (hresult : r.2 = true) (hleads : Leads w r.1.tree path) (hle : s.tree ≤ r.1.tree)
    (hnew : ∀ m, r.1.tree.node m ≠ s.tree.node m → m = w.place path ∧ r.1.tree.node m = some .dir)
    (hplace : s.tree.node (w.place path) = none ∨ s.tree.node (w.place path) = some .dir)
  | fails (hresult : r.2 = false) (htree : r.1.tree = s.tree)
    (hplace : s.tree.node (w.place path) ≠ none ∧ s.tree.node (w.place path) ≠ some .dir)

/-- Making a directory that is missing. -/
theorem mkdir_missing {path : List UInt8} {l : Place} {n : FileName} (hworks : w.WorksFrom s.calls)
    (hslot : w.slot s.tree path = some (l, n)) (hstrip : path.rdropWhile (· = 47) = path) (hl : s.tree.isDir l = true)
    (hn : s.tree.node (l ++ [n]) = none) : mkdir w (some path) s = (s.tick.addDir l n, true) := by
  simp [mkdir, World.mkdir, hworks _ (Nat.le_refl _), hstrip, hslot, hl, hn]

/-- Nothing is made where there is something. -/
theorem mkdir_other {path : List UInt8} {l : Place} {n : FileName} (hslot : w.slot s.tree path = some (l, n))
    (hstrip : path.rdropWhile (· = 47) = path) (hn : s.tree.node (l ++ [n]) ≠ none) :
    mkdir w (some path) s = (s.tick.setError .errIo "mkdir failed", false) := by
  have hmkdir : w.mkdir path s = (s.tick, false) := by
    simp [World.mkdir, hstrip, hslot, hn]
  rw [mkdir, hmkdir]

/-- A new directory is no link. -/
theorem NoLinks.of_new {u : Tree} (h : NoLinks t) (hnew : ∀ m, u.node m ≠ t.node m → u.node m = some .dir) : NoLinks u := by
  intro m route hm
  by_cases hsame : u.node m = t.node m
  · exact h m route (hsame ▸ hm)
  · rw [hnew m hsame] at hm
    cases hm

/-- In a tree where its place is a directory, a level leads to it. -/
theorem Prepared.leads {path : List UInt8} (hlinks : NoLinks t) (h : Prepared w t path) (hpath : path ≠ [])
    (hdir : t.node (w.place path) = some .dir) : Leads w t path := by
  cases h.level hlinks hpath with
  | there hleads => exact hleads
  | missing l n hplace _ _ _ hn _ =>
    rw [← hplace, hdir] at hn
    cases hn
  | other l n hplace _ _ _ hother _ =>
    rw [← hplace, FileTree.isDir, hdir] at hother
    cases hother

/-- A level leads to the directory that is made at its place, and nothing else is new. -/
theorem Prepared.made {path : List UInt8} {l : Place} {n : FileName} (hlinks : NoLinks t) (h : Prepared w t path) (hpath : path ≠ [])
    (hplace : w.place path = l ++ [n]) (hl : t.isDir l = true) (hn : t.node (l ++ [n]) = none) :
    Leads w (t.addDir l n) path ∧
      ∀ m, (t.addDir l n).node m ≠ t.node m → m = w.place path ∧ (t.addDir l n).node m = some .dir := by
  have hnode := t.node_addDir hl hn
  have hnew : ∀ m, (t.addDir l n).node m ≠ t.node m → m = w.place path ∧ (t.addDir l n).node m = some .dir := by
    intro m hm
    rw [hnode] at hm ⊢
    split at hm
    · rename_i heq
      exact ⟨by rw [hplace, heq], if_pos heq⟩
    · exact absurd rfl hm
  refine ⟨?_, hnew⟩
  refine (h.mono (t.le_addDir l n)).leads (hlinks.of_new fun m hm => (hnew m hm).2) hpath ?_
  rw [hplace, hnode, if_pos rfl]

/-- What making a level does. -/
theorem mkdirLevel_spec {path : List UInt8} (hworks : w.WorksFrom s.calls) (hlinks : NoLinks s.tree)
    (hprep : Prepared w s.tree path) (hpath : path ≠ []) :
    LevelDone w path s (mkdirLevel w path s) ∧ s.calls ≤ (mkdirLevel w path s).1.calls := by
  have hcalls : s.calls ≤ s.tick.calls := Nat.le_succ _
  rw [mkdirLevel, pathIsDir_eq hworks]
  cases hprep.level hlinks hpath with
  | there hleads =>
    have hresolve : w.resolve s.tree path = some (w.place path) := by rw [World.resolve, hleads.1, Option.map_some]
    rw [hresolve, Option.any_some, hleads.2]
    exact ⟨.ok rfl hleads (FileTree.le_refl _) (fun m hm => absurd rfl hm) (Or.inr (FileTree.isDir_iff.mp hleads.2)), hcalls⟩
  | missing l n hplace hslot hstrip hl hn hresolve =>
    rw [hresolve, Option.any_none]
    simp only [mkdir_missing (s := s.tick) (hworks.mono hcalls) hslot hstrip hl hn]
    obtain ⟨hleads, hnew⟩ := hprep.made hlinks hpath hplace hl hn
    exact ⟨.ok rfl hleads (s.tree.le_addDir l n) hnew (Or.inl (by rw [hplace, hn])), Nat.le_add_right _ 2⟩
  | other l n hplace hslot hstrip hn hdir hresolve =>
    rw [hresolve, Option.any_some, hdir]
    simp only [mkdir_other (s := s.tick) hslot hstrip hn]
    refine ⟨.fails rfl rfl ?_, Nat.le_add_right _ 2⟩
    rw [hplace]
    exact ⟨hn, fun h => by rw [FileTree.isDir_iff.mpr h] at hdir; cases hdir⟩

/-! ## All levels -/

/-- What some levels leave: all of them directories if there was nothing else at their places, and nothing else new. -/
structure LevelsDone (w : World) (ls : List (List UInt8)) (s : FsState) (r : FsState × Bool) : Prop where
  result : r.2 = true ↔ ∀ q ∈ ls, s.tree.node (w.place q) = none ∨ s.tree.node (w.place q) = some .dir
  leads : r.2 = true → ∀ q ∈ ls, Leads w r.1.tree q
  le : s.tree ≤ r.1.tree
  new : ∀ m, r.1.tree.node m ≠ s.tree.node m → r.1.tree.node m = some .dir ∧ ∃ q ∈ ls, m = w.place q ∧ Leads w r.1.tree q

/-- A level that is one, and those after it. -/
theorem LevelsDone.cons {path : List UInt8} {ls : List (List UInt8)} {r r' : FsState × Bool} (h : LevelDone w path s r)
    (hok : r.2 = true) (h' : LevelsDone w ls r.1 r') : LevelsDone w (path :: ls) s r' := by
  cases h with
  | ok _ hleads hle hnew hplace =>
    have hsame : ∀ m, (s.tree.node m = none ∨ s.tree.node m = some .dir) ↔ (r.1.tree.node m = none ∨ r.1.tree.node m = some .dir) := by
      intro m
      by_cases heq : r.1.tree.node m = s.tree.node m
      · rw [heq]
      · have hdir := (hnew m heq).2
        refine iff_of_true ?_ (Or.inr hdir)
        cases hm : s.tree.node m with
        | none => exact Or.inl rfl
        | some x => exact absurd (by rw [hm, hle m x hm]) heq
    refine ⟨?_, fun hr q hq => ?_, FileTree.le_trans hle h'.le, fun m hm => ?_⟩
    · rw [h'.result, List.forall_mem_cons]
      simp only [← hsame]
      exact ⟨fun h => ⟨hplace, h⟩, fun h => h.2⟩
    · rcases List.mem_cons.mp hq with rfl | hq
      · exact hleads.mono h'.le
      · exact h'.leads hr q hq
    · by_cases heq : r'.1.tree.node m = r.1.tree.node m
      · rw [heq] at hm ⊢
        exact ⟨(hnew m hm).2, path, List.mem_cons_self, (hnew m hm).1, hleads.mono h'.le⟩
      · obtain ⟨hdir, q, hq, hmq⟩ := h'.new m heq
        exact ⟨hdir, q, List.mem_cons_of_mem _ hq, hmq⟩
  | fails hresult _ _ =>
    rw [hresult] at hok
    cases hok

/-- A level that is none stops the loop. -/
theorem LevelsDone.stop {path : List UInt8} (ls : List (List UInt8)) {r : FsState × Bool} (h : LevelDone w path s r)
    (hfails : r.2 = false) : LevelsDone w (path :: ls) s r := by
  cases h with
  | ok hresult _ _ _ _ =>
    rw [hresult] at hfails
    cases hfails
  | fails _ htree hplace =>
    refine ⟨iff_of_false (by simp [hfails]) fun h => ?_, fun h => ?_, ?_, fun m hm => absurd (by rw [htree]) hm⟩
    · exact (h path List.mem_cons_self).elim hplace.1 hplace.2
    · rw [hfails] at h
      cases h
    · rw [htree]
      exact FileTree.le_refl _

/-- The last level. -/
theorem LevelDone.levels {path : List UInt8} {r : FsState × Bool} (h : LevelDone w path s r) : LevelsDone w [path] s r := by
  cases hr : r.2 with
  | true => exact LevelsDone.cons h hr ⟨by simp [hr], by simp, FileTree.le_refl _, fun m hm => absurd rfl hm⟩
  | false => exact LevelsDone.stop [] h hr

/-- Making a level makes no link. -/
theorem LevelDone.noLinks {path : List UInt8} {r : FsState × Bool} (h : LevelDone w path s r) (hlinks : NoLinks s.tree) :
    NoLinks r.1.tree := by
  cases h with
  | ok _ _ _ hnew _ => exact hlinks.of_new fun m hm => (hnew m hm).2
  | fails _ htree _ => exact htree ▸ hlinks

/-- A path of something but separators has begun where it ends. -/
theorem begun_at_end {path : List UInt8} (h : path ≠ [] ∨ ∃ c more, ([] : List UInt8) = c :: more ∧ c ≠ 47) : path ≠ [] := by
  refine h.resolve_right ?_
  rintro ⟨c, more, hnil, -⟩
  cases hnil

/-- It has begun where it has a separator. -/
theorem begun_at_sep {path rest : List UInt8} {c : UInt8} (hc : c = 47)
    (h : path ≠ [] ∨ ∃ d more, c :: rest = d :: more ∧ d ≠ 47) : path ≠ [] := by
  refine h.resolve_right ?_
  rintro ⟨d, more, hcons, hd⟩
  obtain ⟨rfl, -⟩ := List.cons.inj hcons
  exact hd hc

/-- What making the levels that are left does. -/
theorem mkdirLevels_spec {path rest : List UInt8} (hworks : w.WorksFrom s.calls) (hlinks : NoLinks s.tree)
    (hprep : Prepared w s.tree path) (hne : path ≠ [] ∨ ∃ c more, rest = c :: more ∧ c ≠ 47) :
    LevelsDone w (levelsFrom path rest) s (mkdirLevels w path rest s) := by
  induction rest generalizing path s with
  | nil =>
    have hpath : path ≠ [] := begun_at_end hne
    exact (mkdirLevel_spec hworks hlinks hprep hpath).1.levels
  | cons c rest ih =>
    rw [mkdirLevels, levelsFrom]
    by_cases hc : c = 47
    · have hpath : path ≠ [] := begun_at_sep hc hne
      rw [if_pos hc, if_pos (by simpa [fsIsSep] using hc), hc]
      obtain ⟨hdone, hcalls⟩ := mkdirLevel_spec hworks hlinks hprep hpath
      have hlinks' := hdone.noLinks hlinks
      generalize mkdirLevel w path s = r at hdone hcalls hlinks' ⊢
      obtain ⟨s1, ok⟩ := r
      cases ok with
      | false => exact LevelsDone.stop _ hdone rfl
      | true =>
        cases hdone with
        | ok hresult hleads hle hnew hplace =>
          exact LevelsDone.cons (.ok hresult hleads hle hnew hplace) rfl
            (ih (hworks.mono hcalls) hlinks' hleads.sep (Or.inl (by simp)))
        | fails hresult _ _ => cases hresult
    · rw [if_neg hc, if_neg (by simpa [fsIsSep] using hc)]
      exact ih hworks hlinks (hprep.char hc) (Or.inl (by simp))

/-- Separators lead nowhere. -/
theorem stepsOf_seps {b : List UInt8} (hb : ∀ c ∈ b, c = 47) : ∀ a ∈ stepsOf b, a = .here := by
  induction b with
  | nil =>
    intro a ha
    exact List.mem_singleton.mp ha
  | cons c b ih =>
    rw [stepsOf, components, if_pos (hb c List.mem_cons_self), List.map_cons]
    intro a ha
    rcases List.mem_cons.mp ha with rfl | ha
    · rfl
    · exact ih (fun c hc => hb c (List.mem_cons_of_mem _ hc)) a ha

/-- The separators that lead a path lead to the root, and where there are none the path starts at the working directory. -/
theorem prepared_leading {path : List UInt8} (hstart : t.isDir (w.start path) = true) :
    Prepared w t (path.takeWhile (· = 47)) := by
  have hall : ∀ c ∈ path.takeWhile (· = 47), c = 47 := by
    intro c hc
    simpa using List.mem_takeWhile_imp hc
  have hcwd : path.takeWhile (· = 47) = [] → t.isDir w.cwd = true := by
    intro hnil
    rw [World.start] at hstart
    cases path with
    | nil => exact hstart
    | cons c path =>
      have hc : c ≠ 47 := by
        rintro rfl
        simp at hnil
      rwa [if_neg (by simpa using hc)] at hstart
  generalize path.takeWhile (· = 47) = seps at hall hcwd ⊢
  induction seps using List.reverseRecOn with
  | nil => exact ⟨[], [], ⟨List.not_mem_nil, Or.inl ⟨rfl, rfl⟩⟩, FileTree.walk_nil t _ _, hcwd rfl⟩
  | append_singleton b c _ =>
    obtain rfl := hall c (List.mem_append_right _ List.mem_cons_self)
    have hroot : w.start (b ++ [47]) = [] := by
      cases b with
      | nil => rfl
      | cons d b =>
        rw [hall d (by simp)]
        rfl
    obtain ⟨hwalk, hlexical⟩ := FileTree.walk_stay (k := w.maxLinks) (FileTree.isDir_iff.mpr t.root)
      (stepsOf_seps fun c hc => hall c (List.mem_append_left _ hc))
    refine ⟨stepsOf b, [], EndsIn.sep b, ?_⟩
    rw [hroot, hlexical]
    exact ⟨hwalk, FileTree.isDir_iff.mpr t.root⟩

/-- After the separators that lead it a path goes on, if there are none. -/
theorem leading_ne {path : List UInt8} (hpath : path ≠ []) :
    path.takeWhile (· = 47) ≠ [] ∨ ∃ c more, path.dropWhile (· = 47) = c :: more ∧ c ≠ 47 := by
  cases hrest : path.dropWhile (· = 47) with
  | nil =>
    left
    intro hnil
    have hsplit := List.takeWhile_append_dropWhile (p := fun c : UInt8 => decide (c = 47)) (l := path)
    rw [hrest, hnil] at hsplit
    exact hpath hsplit.symm
  | cons c more =>
    have hhead := List.head?_dropWhile_not (fun c : UInt8 => decide (c = 47)) path
    rw [hrest] at hhead
    exact Or.inr ⟨c, more, rfl, by simpa using hhead⟩

/-- What `cpr_mkdir_all` does, level by level. -/
theorem mkdirAll_spec {path : List UInt8} (hworks : w.WorksFrom s.calls) (hlinks : NoLinks s.tree)
    (hstart : s.tree.isDir (w.start path) = true) (hpath : path ≠ []) (hlen : path.length < fsPathMax) :
    LevelsDone w (levels path) s (mkdirAll w (some path) s) := by
  have hpos := List.length_pos_iff.mpr hpath
  rw [mkdirAll, if_neg (by omega), posix_isSep, levels]
  exact mkdirLevels_spec hworks hlinks (prepared_leading hstart) (leading_ne hpath)

/-! ## Blocked paths -/

/-- A path goes on from the place of what is before one of its separators, if no `..` follows. -/
theorem place_prefix {q : List UInt8} (hq : q ≠ []) {a : List UInt8} (hup : .up ∉ stepsOf a) :
    w.place q <+: w.place (q ++ 47 :: a) := by
  have hstart : w.start (q ++ 47 :: a) = w.start q := by
    rw [World.start, World.start, List.head?_append_of_ne_nil q hq]
  rw [World.place, World.place, hstart, stepsOf_append, FileTree.lexical_append]
  exact FileTree.prefix_lexical hup _

/-- If a level is blocked and no `..` follows, some level leads to what is no directory. -/
theorem blocked_levels {path rest : List UInt8} (hlinks : NoLinks t) (hprep : Prepared w t path)
    (hne : path ≠ [] ∨ ∃ c more, rest = c :: more ∧ c ≠ 47) (hup : .up ∉ stepsOf (path ++ rest)) {q : List UInt8}
    (hq : q ∈ levelsFrom path rest) (hnode : t.node (w.place q) ≠ none) (hdir : t.node (w.place q) ≠ some .dir) :
    ∃ q ∈ levelsFrom path rest, ∃ l, w.resolve t q = some l ∧ t.isDir l = false := by
  induction rest generalizing path with
  | nil =>
    have hpath : path ≠ [] := begun_at_end hne
    obtain rfl := List.mem_singleton.mp hq
    cases hprep.level hlinks hpath with
    | there hleads => exact absurd (FileTree.isDir_iff.mp hleads.2) hdir
    | missing l n hplace _ _ _ hn _ => exact absurd (hplace ▸ hn) hnode
    | other l n _ _ _ _ hother hresolve => exact ⟨q, hq, _, hresolve, hother⟩
  | cons c rest ih =>
    rw [levelsFrom] at hq ⊢
    by_cases hc : c = 47
    · have hpath : path ≠ [] := begun_at_sep hc hne
      rw [if_pos hc] at hq ⊢
      subst hc
      cases hprep.level hlinks hpath with
      | there hleads =>
        rcases List.mem_cons.mp hq with rfl | hq
        · exact absurd (FileTree.isDir_iff.mp hleads.2) hdir
        · obtain ⟨q', hq', hl⟩ := ih hleads.sep (Or.inl (by simp)) (by simpa using hup) hq
          exact ⟨q', List.mem_cons_of_mem _ hq', hl⟩
      | missing l n hplace _ _ _ hn _ =>
        -- Nothing can be further on.
        exfalso
        rcases List.mem_cons.mp hq with rfl | hq
        · exact hnode (hplace ▸ hn)
        · have hrest : .up ∉ stepsOf rest := by
            intro h
            rw [stepsOf_append] at hup
            exact hup (List.mem_append_right _ h)
          have hpre : w.place path <+: w.place q := by
            rcases mem_levelsFrom.mp hq with rfl | ⟨a, b, rfl, rfl⟩
            · rw [List.append_assoc]
              exact place_prefix hpath hrest
            · rw [List.append_assoc]
              refine place_prefix hpath fun h => hrest ?_
              rw [stepsOf_append]
              exact List.mem_append_left _ h
          rw [← hplace] at hn
          by_cases heq : w.place q = w.place path
          · exact hnode (heq ▸ hn)
          · exact hnode (FileTree.node_below (by simp [hn]) hpre heq)
      | other l n _ _ _ _ hother hresolve => exact ⟨path, List.mem_cons_self, _, hresolve, hother⟩
    · rw [if_neg hc] at hq ⊢
      exact ih (hprep.char hc) (Or.inl (by simp)) (by simpa using hup) hq

/-- Levels start where their path does. -/
theorem start_of_level {path q : List UInt8} (hq : q ∈ levels path) (hne : q ≠ []) : w.start q = w.start path := by
  rcases mem_levels.mp hq with rfl | ⟨rest, rfl, _⟩
  · rfl
  · rw [World.start, World.start, List.head?_append_of_ne_nil q hne]

/-- On a path without `..` a level is blocked just if one leads to something that is no directory. -/
theorem blocked_iff_of_no_up {path : List UInt8} (hlinks : NoLinks t) (hstart : t.isDir (w.start path) = true) (hpath : path ≠ [])
    (hup : .up ∉ stepsOf path) :
    Blocked w t path ↔ ∃ q ∈ levels path, ∃ l, w.resolve t q = some l ∧ t.isDir l = false := by
  constructor
  · rintro ⟨q, hq, hnode, hdir⟩
    refine blocked_levels hlinks (prepared_leading hstart) (leading_ne hpath) ?_ hq hnode hdir
    rw [List.takeWhile_append_dropWhile]
    exact hup
  · rintro ⟨q, hq, l, hresolve, hdir⟩
    obtain ⟨r, hreach, rfl⟩ := Option.map_eq_some_iff.mp hresolve
    unfold World.reach at hreach
    split at hreach
    · cases hreach
    · rename_i hne
      have hstart : t.node (w.start q) ≠ none := by
        rw [start_of_level hq hne, FileTree.isDir_iff.mp hstart]
        simp
      have hnode := FileTree.node_of_walk hlinks hstart hreach
      obtain rfl := FileTree.walk_eq_lexical hlinks hreach
      refine ⟨q, hq, hnode, fun h => ?_⟩
      have hplace : t.isDir (w.place q) = false := hdir
      rw [FileTree.isDir_iff.mpr h] at hplace
      cases hplace

/-! ## Made paths -/

/-- `cpr_mkdir_all` succeeds just if no level of the path is blocked, all of them are directories if it does, nothing is removed or
altered, and all that is new are directories at levels of the path. -/
theorem mkdirAll_makes_levels (w : World) (path : List UInt8) (s : FsState) (hworks : w.WorksFrom s.calls) (hlinks : NoLinks s.tree)
    (hstart : s.tree.isDir (w.start path) = true) (hpath : path ≠ []) (hlen : path.length < fsPathMax) :
    let r := mkdirAll w (some path) s
    (r.2 = true ↔ ¬ Blocked w s.tree path) ∧
      (r.2 = true → ∀ q ∈ levels path, w.resolve r.1.tree q = some (w.place q) ∧ r.1.tree.isDir (w.place q) = true) ∧
      (∀ m x, s.tree.node m = some x → r.1.tree.node m = some x) ∧
      ∀ m, s.tree.node m = none → r.1.tree.node m ≠ none →
        r.1.tree.node m = some .dir ∧ ∃ q ∈ levels path, w.resolve r.1.tree q = some m := by
  have hdone := mkdirAll_spec hworks hlinks hstart hpath hlen
  have hresolve : ∀ q, Leads w (mkdirAll w (some path) s).1.tree q →
      w.resolve (mkdirAll w (some path) s).1.tree q = some (w.place q) := by
    intro q hleads
    rw [World.resolve, hleads.1, Option.map_some]
  refine ⟨?_, fun hr q hq => ?_, hdone.le, fun m hnone hsome => ?_⟩
  · rw [hdone.result, Blocked]
    push Not
    exact forall₂_congr fun q _ => or_iff_not_imp_left
  · have hleads := hdone.leads hr q hq
    exact ⟨hresolve q hleads, hleads.2⟩
  · obtain ⟨hdir, q, hq, rfl, hleads⟩ := hdone.new m fun heq => hsome (heq.trans hnone)
    exact ⟨hdir, q, hq, hresolve q hleads⟩

/-- Making `d//x/y/` below `/`, where there is `/d` but no `/d/x`. -/
theorem mkdirAll_makes_deep :
    let w : World := ⟨40, [], fun _ => .lists nameA⟩
    let path : List UInt8 := [100, 47, 47, 120, 47, 121, 47]
    (mkdirAll w (some path) ⟨plainTree, 0, none⟩).2 = true ∧
      (mkdirAll w (some path) ⟨plainTree, 0, none⟩).1.tree.isDir (w.place path) = true := by
  intro w path
  have hlinks : NoLinks plainTree := by
    intro m route hm
    by_cases hnil : m = []
    · rw [hnil, plainTree.root] at hm
      cases hm
    · have hmem := FileTree.ofEntries_mem (by decide) hm hnil
      simp at hmem
  obtain ⟨hresult, hdirs, _⟩ := mkdirAll_makes_levels w path ⟨plainTree, 0, none⟩ (fun _ _ => rfl) hlinks (by decide) (by decide)
    (by decide)
  have hfree : ∀ q ∈ levels path, plainTree.node (w.place q) = none ∨ plainTree.node (w.place q) = some .dir := by decide
  have htrue := hresult.mpr fun ⟨q, hq, hnone, hdir⟩ => (hfree q hq).elim hnone hdir
  exact ⟨htrue, (hdirs htrue path (by decide)).2⟩

/-- The tree of a file `/o`. -/
def fileTree : Tree := .ofEntries [([nameO], .file [1])] (by decide)

/-- The path `d/../o` is not made in a tree with a file `/o` and nothing else, though no level leads to what is no directory: when
`d` is made, `d/../o` leads to the file. -/
theorem mkdirAll_dots :
    let w : World := ⟨40, [], fun _ => .lists nameA⟩
    let path : List UInt8 := [100, 47, 46, 46, 47, 111]
    (∀ q ∈ levels path, (w.resolve fileTree q).bind fileTree.node = none ∨ (w.resolve fileTree q).bind fileTree.node = some .dir) ∧
      (mkdirAll w (some path) ⟨fileTree, 0, none⟩).2 = false := by
  decide

end Copper.Fs
