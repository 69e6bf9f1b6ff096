import Mathlib.Data.List.Dedup
import Mathlib.Data.List.Induction

/-!
# A finite tree of files, directories and symbolic links

A place is the list of the names that lead to it from the root. `walk` resolves a route of steps from a place, following at most
so many links on the way; `entry` resolves a route up to its last name, and does not follow that one. `erase` drops a place with
everything below it. Names and the contents of files are of any type.
-/

universe u v

/-- A step of a route: to the place itself, to the one above it, or to a name in it. -/
inductive FileTree.Step (ν : Type u) where
  | here
  | up
  | down (name : ν)
  deriving DecidableEq

/-- A route from the root, or from wherever it is read. -/
structure FileTree.Route (ν : Type u) where
  absolute : Bool
  steps : List (FileTree.Step ν)
  deriving DecidableEq

/-- What is at a place. -/
inductive FileTree.Node (ν : Type u) (κ : Type v) where
  | file (content : κ)
  | dir
  | link (target : FileTree.Route ν)
  deriving DecidableEq

/-- Finitely many places, the root a directory, and every other one in a directory. -/
structure FileTree (ν : Type u) (κ : Type v) where
  node : List ν → Option (FileTree.Node ν κ)
  places : List (List ν)
  finite : ∀ l, node l ≠ none → l ∈ places
  root : node [] = some .dir
  parent : ∀ l n, node (l ++ [n]) ≠ none → node l = some .dir

namespace FileTree

variable {ν : Type u} {κ : Type v}

/-- Whether a place is a directory. -/
def isDir (t : FileTree ν κ) (l : List ν) : Bool :=
  match t.node l with
  | some .dir => true
  | _ => false

/-- A directory is a node. -/
theorem isDir_iff {t : FileTree ν κ} {l : List ν} : t.isDir l = true ↔ t.node l = some .dir := by
  unfold isDir
  split
  · rename_i h
    exact iff_of_true rfl h
  · rename_i h
    exact iff_of_false (by simp) h

/-- Nothing is at a place below one that is not there, or is not a directory. -/
theorem node_below {t : FileTree ν κ} {l m : List ν} (hl : t.node l ≠ some .dir) (hm : l <+: m) (hne : m ≠ l) :
    t.node m = none := by
  obtain ⟨s, rfl⟩ := hm
  induction s using List.reverseRecOn with
  | nil => exact absurd (List.append_nil l) hne
  | append_singleton s n ih =>
    by_contra h
    rw [← List.append_assoc] at h
    have hdir := t.parent _ _ h
    by_cases hs : l ++ s = l
    · exact hl (hs ▸ hdir)
    · rw [ih hs] at hdir
      cases hdir

/-- Trees with the same nodes, kept in the same list of places, are one. -/
theorem ext_node {t u : FileTree ν κ} (hnode : ∀ l, t.node l = u.node l) (hplaces : t.places = u.places) : t = u := by
  cases t
  cases u
  obtain rfl := funext hnode
  cases hplaces
  rfl

/-! ## Trees with fewer places -/

/-- What the first tree has, the second has too. -/
instance : LE (FileTree ν κ) := ⟨fun t u => ∀ l x, t.node l = some x → u.node l = some x⟩

/-- A tree is part of itself. -/
theorem le_refl (t : FileTree ν κ) : t ≤ t := fun _ _ h => h

/-- A part of a part is a part. -/
theorem le_trans {t u w : FileTree ν κ} (h : t ≤ u) (h' : u ≤ w) : t ≤ w := fun l x hx => h' l x (h l x hx)

/-! ## Routes -/

/-- Along a route, with `jump` for what a link leads to; `k` is what is left of the links allowed. -/
def walkBy (t : FileTree ν κ) (k : Nat) (jump : List ν → List (Step ν) → Option (Nat × List ν)) :
    List ν → List (Step ν) → Option (Nat × List ν)
  | l, [] => some (k, l)
  | l, .here :: steps => if t.isDir l then walkBy t k jump l steps else none
  | l, .up :: steps => if t.isDir l then walkBy t k jump l.dropLast steps else none
  | l, .down n :: steps =>
    match t.node (l ++ [n]) with
    | none => none
    | some (.link r) => jump (if r.absolute then [] else l) (r.steps ++ steps)
    | some _ => walkBy t k jump (l ++ [n]) steps

/-- The place that a route leads to from a place, all links followed, at most `k` of them; and how many of the `k` are left. -/
def walk (t : FileTree ν κ) : Nat → List ν → List (Step ν) → Option (Nat × List ν)
  | 0 => t.walkBy 0 fun _ _ => none
  | k + 1 => t.walkBy (k + 1) fun l steps => t.walk k l steps

/-- Through a link: one link less is allowed. -/
def jump (t : FileTree ν κ) (k : Nat) (l : List ν) (r : Route ν) (steps : List (Step ν)) : Option (Nat × List ν) :=
  match k with
  | 0 => none
  | k + 1 => t.walk k (if r.absolute then [] else l) (r.steps ++ steps)

/-- No steps lead nowhere else. -/
theorem walk_nil (t : FileTree ν κ) (k : Nat) (l : List ν) : t.walk k l [] = some (k, l) := by
  cases k <;> rfl

/-- `.` stays in a directory. -/
theorem walk_here (t : FileTree ν κ) (k : Nat) (l : List ν) (steps : List (Step ν)) :
    t.walk k l (.here :: steps) = if t.isDir l then t.walk k l steps else none := by
  cases k <;> rfl

/-- `..` leaves a directory for the one above it. -/
theorem walk_up (t : FileTree ν κ) (k : Nat) (l : List ν) (steps : List (Step ν)) :
    t.walk k l (.up :: steps) = if t.isDir l then t.walk k l.dropLast steps else none := by
  cases k <;> rfl

/-- A name leads to a node, and on along its route if that is a link. -/
theorem walk_down (t : FileTree ν κ) (k : Nat) (l : List ν) (n : ν) (steps : List (Step ν)) :
    t.walk k l (.down n :: steps) =
      match t.node (l ++ [n]) with
      | none => none
      | some (.link r) => t.jump k l r steps
      | some _ => t.walk k (l ++ [n]) steps := by
  cases k <;> rfl

/-- A route in two parts. -/
theorem walk_append (t : FileTree ν κ) (k : Nat) (l : List ν) (a b : List (Step ν)) :
    t.walk k l (a ++ b) = (t.walk k l a).bind fun r => t.walk r.1 r.2 b := by
  induction k using Nat.strongRecOn generalizing l a with
  | _ k ihk =>
    induction a generalizing l with
    | nil => rw [List.nil_append, walk_nil, Option.bind_some]
    | cons s a ih =>
      cases s with
      | here =>
        rw [List.cons_append, walk_here, walk_here, ih]
        cases t.isDir l <;> rfl
      | up =>
        rw [List.cons_append, walk_up, walk_up, ih]
        cases t.isDir l <;> rfl
      | down n =>
        rw [List.cons_append, walk_down, walk_down]
        cases hn : t.node (l ++ [n]) with
        | none => rfl
        | some x =>
          cases x with
          | file c => exact ih _
          | dir => exact ih _
          | link r =>
            cases k with
            | zero => rfl
            | succ k =>
              simp only [jump]
              rw [← List.append_assoc, ihk k (Nat.lt_succ_self k)]

/-- What holds where a route ends, and step by step before that, holds of a route that leads somewhere. -/
theorem walk_induct {t : FileTree ν κ} {r : Nat × List ν} {motive : Nat → List ν → List (Step ν) → Prop}
    (nil : motive r.1 r.2 [])
    (here : ∀ k l a, t.isDir l = true → motive k l a → motive k l (.here :: a))
    (up : ∀ k l a, t.isDir l = true → motive k l.dropLast a → motive k l (.up :: a))
    (down : ∀ k l n a x, t.node (l ++ [n]) = some x → (∀ route, x ≠ .link route) → motive k (l ++ [n]) a →
      motive k l (.down n :: a))
    (link : ∀ k l n a route, t.node (l ++ [n]) = some (.link route) →
      motive k (if route.absolute then [] else l) (route.steps ++ a) → motive (k + 1) l (.down n :: a))
    {k : Nat} {l : List ν} {a : List (Step ν)} (hw : t.walk k l a = some r) : motive k l a := by
  induction k using Nat.strongRecOn generalizing l a with
  | _ k ihk =>
    induction a generalizing l with
    | nil =>
      rw [walk_nil] at hw
      cases hw
      exact nil
    | cons s a ih =>
      cases s with
      | here =>
        rw [walk_here] at hw
        split at hw
        · rename_i hl
          exact here k l a hl (ih hw)
        · cases hw
      | up =>
        rw [walk_up] at hw
        split at hw
        · rename_i hl
          exact up k l a hl (ih hw)
        · cases hw
      | down n =>
        rw [walk_down] at hw
        cases hn : t.node (l ++ [n]) with
        | none =>
          rw [hn] at hw
          cases hw
        | some x =>
          rw [hn] at hw
          cases x with
          | file c => exact down k l n a _ hn (by simp) (ih hw)
          | dir => exact down k l n a _ hn (by simp) (ih hw)
          | link route =>
            cases k with
            | zero => cases hw
            | succ k => exact link k l n a route hn (ihk k (Nat.lt_succ_self k) hw)

/-- Through a name that is no link. -/
theorem walk_down_node {t : FileTree ν κ} {k : Nat} {l : List ν} {n : ν} {a : List (Step ν)} {x : Node ν κ}
    (hn : t.node (l ++ [n]) = some x) (hx : ∀ route, x ≠ .link route) :
    t.walk k l (.down n :: a) = t.walk k (l ++ [n]) a := by
  rw [walk_down, hn]
  cases x with
  | file c => rfl
  | dir => rfl
  | link route => exact absurd rfl (hx route)

/-- Through a name that is a link. -/
theorem walk_down_link {t : FileTree ν κ} {k : Nat} {l : List ν} {n : ν} {a : List (Step ν)} {route : Route ν}
    (hn : t.node (l ++ [n]) = some (.link route)) :
    t.walk (k + 1) l (.down n :: a) = t.walk k (if route.absolute then [] else l) (route.steps ++ a) := by
  rw [walk_down, hn]
  rfl

/-- There are names in directories only. -/
theorem walk_down_not_dir {t : FileTree ν κ} {l : List ν} (hl : t.isDir l ≠ true) (k : Nat) (n : ν) (a : List (Step ν)) :
    t.walk k l (.down n :: a) = none := by
  rw [walk_down, node_below (l := l) (fun h => hl (isDir_iff.mpr h)) (List.prefix_append l [n]) (by simp)]

/-- A route leads to the same place in any tree that has more. -/
theorem walk_mono {t u : FileTree ν κ} (h : t ≤ u) {k : Nat} {l : List ν} {a : List (Step ν)} {r : Nat × List ν}
    (hw : t.walk k l a = some r) : u.walk k l a = some r := by
  have hdir : ∀ m, t.isDir m = true → u.isDir m = true := fun m hm => isDir_iff.mpr (h m _ (isDir_iff.mp hm))
  refine walk_induct (motive := fun k l a => u.walk k l a = some r) (walk_nil u r.1 r.2) ?_ ?_ ?_ ?_ hw
  · intro k l a hl ih
    rw [walk_here, if_pos (hdir l hl), ih]
  · intro k l a hl ih
    rw [walk_up, if_pos (hdir l hl), ih]
  · intro k l n a x hn hx ih
    rw [walk_down_node (h _ _ hn) hx, ih]
  · intro k l n a route hn ih
    rw [walk_down_link (h _ _ hn), ih]

/-- A route leads to the same place if more links are allowed. -/
theorem walk_more {t : FileTree ν κ} {k : Nat} {l : List ν} {a : List (Step ν)} {r : Nat × List ν}
    (hw : t.walk k l a = some r) (j : Nat) : t.walk (k + j) l a = some (r.1 + j, r.2) := by
  refine walk_induct (motive := fun k l a => t.walk (k + j) l a = some (r.1 + j, r.2)) (walk_nil t _ _) ?_ ?_ ?_ ?_ hw
  · intro k l a hl ih
    rw [walk_here, if_pos hl, ih]
  · intro k l a hl ih
    rw [walk_up, if_pos hl, ih]
  · intro k l n a x hn hx ih
    rw [walk_down_node hn hx, ih]
  · intro k l n a route hn ih
    rw [Nat.add_right_comm, walk_down_link hn, ih]

/-- A route does not use more links than are allowed. -/
theorem walk_le {t : FileTree ν κ} {k : Nat} {l : List ν} {a : List (Step ν)} {r : Nat × List ν}
    (hw : t.walk k l a = some r) : r.1 ≤ k := by
  refine walk_induct (motive := fun k _ _ => r.1 ≤ k) (Nat.le_refl _) ?_ ?_ ?_ ?_ hw
  · exact fun _ _ _ _ ih => ih
  · exact fun _ _ _ _ ih => ih
  · exact fun _ _ _ _ _ _ _ ih => ih
  · exact fun _ _ _ _ _ _ ih => Nat.le_succ_of_le ih

/-- Where there are no links, a route that never goes up stays on the way to where it leads; what is elsewhere does not matter. -/
theorem walk_down_only {t u : FileTree ν κ} {k j : Nat} {l d : List ν} {a : List (Step ν)}
    (hlinks : ∀ m route, t.node m ≠ some (.link route)) (hup : .up ∉ a) (hu : ∀ m, m <+: d → u.node m = t.node m)
    (hw : t.walk k l a = some (j, d)) : l <+: d ∧ u.walk k l a = some (j, d) := by
  refine walk_induct (motive := fun k l a => .up ∉ a → l <+: d ∧ u.walk k l a = some (j, d)) ?_ ?_ ?_ ?_ ?_ hw hup
  · exact fun _ => ⟨List.prefix_refl d, walk_nil u j d⟩
  · intro k l a hl ih hup
    obtain ⟨hpre, hwalk⟩ := ih fun h => hup (List.mem_cons_of_mem _ h)
    have hdir : u.isDir l = true := by
      rw [isDir_iff, hu l hpre, ← isDir_iff]
      exact hl
    exact ⟨hpre, by rw [walk_here, if_pos hdir, hwalk]⟩
  · exact fun k l a _ _ hup => absurd List.mem_cons_self hup
  · intro k l n a x hn hx ih hup
    obtain ⟨hpre, hwalk⟩ := ih fun h => hup (List.mem_cons_of_mem _ h)
    exact ⟨(List.prefix_append l [n]).trans hpre, by rw [walk_down_node ((hu _ hpre).trans hn) hx, hwalk]⟩
  · exact fun k l n a route hn _ _ => absurd hn (hlinks _ route)

/-! ## Steps that can be left out -/

/-- A route starts at a directory. -/
theorem isDir_of_walk {t : FileTree ν κ} {k : Nat} {l : List ν} {s : Step ν} {a : List (Step ν)} {r : Nat × List ν}
    (hw : t.walk k l (s :: a) = some r) : t.isDir l = true := by
  by_contra hl
  cases s with
  | here =>
    rw [walk_here, if_neg hl] at hw
    cases hw
  | up =>
    rw [walk_up, if_neg hl] at hw
    cases hw
  | down n =>
    rw [walk_down_not_dir hl] at hw
    cases hw

/-- A walk that stays for a step may leave the step out. -/
theorem walk_of_here {t : FileTree ν κ} {k : Nat} {l : List ν} {a : List (Step ν)} {r : Nat × List ν}
    (hw : t.walk k l (.here :: a) = some r) : t.walk k l a = some r := by
  have hl := isDir_of_walk hw
  rwa [walk_here, if_pos hl] at hw

/-- A route that goes on starts at a directory by itself. -/
theorem walk_here_cons (t : FileTree ν κ) (k : Nat) (l : List ν) (s : Step ν) (a : List (Step ν)) :
    t.walk k l (.here :: s :: a) = t.walk k l (s :: a) := by
  rw [walk_here]
  split
  · rfl
  · rename_i hl
    cases hw : t.walk k l (s :: a) with
    | none => rfl
    | some r => exact absurd (isDir_of_walk hw) hl

/-- The root is above itself. -/
theorem walk_up_root (t : FileTree ν κ) (k : Nat) (a : List (Step ν)) : t.walk k [] (.up :: a) = t.walk k [] a := by
  rw [walk_up, if_pos (isDir_iff.mpr t.root)]
  rfl

/-- Into a directory and back, through a name that is no link. -/
theorem walk_of_back {t : FileTree ν κ} {k : Nat} {l : List ν} {n : ν} {a : List (Step ν)} {r : Nat × List ν}
    (hn : ∀ route, t.node (l ++ [n]) ≠ some (.link route)) (hw : t.walk k l (.down n :: .up :: a) = some r) :
    t.walk k l a = some r := by
  cases hx : t.node (l ++ [n]) with
  | none =>
    rw [walk_down, hx] at hw
    cases hw
  | some x =>
    rw [walk_down_node hx fun route h => hn route (h ▸ hx)] at hw
    have hl := isDir_of_walk hw
    rwa [walk_up, if_pos hl, List.dropLast_concat] at hw

/-! ## Where a route would lead -/

/-- The place that a route leads to if everything on the way is a directory. -/
def lexical (l : List ν) : List (Step ν) → List ν
  | [] => l
  | .here :: a => lexical l a
  | .up :: a => lexical l.dropLast a
  | .down n :: a => lexical (l ++ [n]) a

/-- One route after another. -/
theorem lexical_append (a b : List (Step ν)) : ∀ l, lexical l (a ++ b) = lexical (lexical l a) b := by
  induction a with
  | nil => exact fun _ => rfl
  | cons s a ih =>
    intro l
    cases s with
    | here => exact ih l
    | up => exact ih l.dropLast
    | down n => exact ih (l ++ [n])

/-- A route that never goes up leads on from where it starts. -/
theorem prefix_lexical {a : List (Step ν)} (hup : .up ∉ a) (l : List ν) : l <+: lexical l a := by
  induction a generalizing l with
  | nil => exact List.prefix_refl l
  | cons s a ih =>
    have hup' : .up ∉ a := fun h => hup (List.mem_cons_of_mem _ h)
    cases s with
    | here => exact ih hup' l
    | up => exact absurd List.mem_cons_self hup
    | down n => exact (List.prefix_append l [n]).trans (ih hup' (l ++ [n]))

/-- The names that a route goes down through. -/
def downs : List (Step ν) → List ν
  | [] => []
  | .down n :: a => n :: downs a
  | _ :: a => downs a

/-- The names that are gone down through are the names of the route. -/
theorem mem_downs {a : List (Step ν)} {n : ν} : n ∈ downs a ↔ .down n ∈ a := by
  induction a with
  | nil => simp [downs]
  | cons s a ih => cases s <;> simp [downs, ih]

/-- A route that never goes up adds its names to where it starts. -/
theorem lexical_eq_append_downs {a : List (Step ν)} (hup : .up ∉ a) (l : List ν) : lexical l a = l ++ downs a := by
  induction a generalizing l with
  | nil => exact (List.append_nil l).symm
  | cons s a ih =>
    have hup' : .up ∉ a := fun h => hup (List.mem_cons_of_mem _ h)
    cases s with
    | here => exact ih hup' l
    | up => exact absurd List.mem_cons_self hup
    | down n => rw [lexical, ih hup', downs, List.append_assoc, List.singleton_append]

/-- Where there are no links, a route that leads somewhere leads there. -/
theorem walk_eq_lexical {t : FileTree ν κ} (hlinks : ∀ m route, t.node m ≠ some (.link route)) {k : Nat} {l : List ν}
    {a : List (Step ν)} {r : Nat × List ν} (hw : t.walk k l a = some r) : r = (k, lexical l a) := by
  refine walk_induct (motive := fun k l a => r = (k, lexical l a)) rfl ?_ ?_ ?_ ?_ hw
  · exact fun _ _ _ _ ih => ih
  · exact fun _ _ _ _ ih => ih
  · exact fun _ _ _ _ _ _ _ ih => ih
  · exact fun _ l n _ route hn _ => absurd hn (hlinks _ route)

/-- Staying at a directory. -/
theorem walk_stay {t : FileTree ν κ} {k : Nat} {l : List ν} (hl : t.isDir l = true) {a : List (Step ν)} (ha : ∀ s ∈ a, s = .here) :
    t.walk k l a = some (k, l) ∧ lexical l a = l := by
  induction a with
  | nil => exact ⟨walk_nil t k l, rfl⟩
  | cons s a ih =>
    obtain ⟨hwalk, hlexical⟩ := ih fun s hs => ha s (List.mem_cons_of_mem _ hs)
    rw [ha s List.mem_cons_self, walk_here, if_pos hl]
    exact ⟨hwalk, hlexical⟩

/-- The place above a directory is one. -/
theorem isDir_dropLast {t : FileTree ν κ} {l : List ν} (hl : t.isDir l = true) : t.isDir l.dropLast = true := by
  induction l using List.reverseRecOn with
  | nil => exact hl
  | append_singleton l n _ =>
    rw [List.dropLast_concat, isDir_iff]
    refine t.parent l n ?_
    rw [isDir_iff.mp hl]
    simp

/-- Where there are no links, a route from a directory leads to something. -/
theorem node_of_walk {t : FileTree ν κ} (hlinks : ∀ m route, t.node m ≠ some (.link route)) {k j : Nat} {l d : List ν}
    {a : List (Step ν)} (hl : t.node l ≠ none) (hw : t.walk k l a = some (j, d)) : t.node d ≠ none := by
  refine walk_induct (motive := fun _ l _ => t.node l ≠ none → t.node d ≠ none) (fun h => h) ?_ ?_ ?_ ?_ hw hl
  · exact fun _ _ _ _ ih => ih
  · intro k l a hl ih _
    refine ih ?_
    rw [isDir_iff.mp (isDir_dropLast hl)]
    simp
  · intro k l n a x hn _ ih _
    exact ih (by simp [hn])
  · exact fun _ l n _ route hn _ => absurd hn (hlinks _ route)

/-! ## The entry that a route names -/

/-- The place of the last name of a route, which is not followed if it is a link. -/
def entry (t : FileTree ν κ) (k : Nat) (l : List ν) (steps : List (Step ν)) : Option (List ν) :=
  match steps.getLast? with
  | some (.down n) =>
    (t.walk k l steps.dropLast).bind fun r => if (t.node (r.2 ++ [n])).isSome then some (r.2 ++ [n]) else none
  | _ => none

/-- A route that names an entry is a route to a directory and a name in it. -/
theorem entry_eq_some {t : FileTree ν κ} {k : Nat} {l m : List ν} {steps : List (Step ν)} (h : t.entry k l steps = some m) :
    ∃ a n j d, steps = a ++ [.down n] ∧ t.walk k l a = some (j, d) ∧ m = d ++ [n] ∧ t.node m ≠ none := by
  unfold entry at h
  split at h
  · rename_i n hlast
    obtain ⟨⟨j, d⟩, hw, h⟩ := Option.bind_eq_some_iff.mp h
    split at h
    · rename_i hsome
      cases h
      refine ⟨steps.dropLast, n, j, d, ?_, hw, rfl, Option.isSome_iff_ne_none.mp hsome⟩
      exact (List.dropLast_append_getLast? _ hlast).symm
    · cases h
  · cases h

/-- A route that ends in a name has the entry of that name. -/
theorem entry_concat (t : FileTree ν κ) (k : Nat) (l : List ν) (a : List (Step ν)) (n : ν) :
    t.entry k l (a ++ [.down n]) =
      (t.walk k l a).bind fun r => if (t.node (r.2 ++ [n])).isSome then some (r.2 ++ [n]) else none := by
  rw [entry, List.getLast?_concat]
  simp only [List.dropLast_concat]

/-- In the directory that the rest of the route leads to. -/
theorem entry_concat_of_walk {t : FileTree ν κ} {k j : Nat} {l d : List ν} {a : List (Step ν)} {n : ν}
    (hw : t.walk k l a = some (j, d)) (hn : t.node (d ++ [n]) ≠ none) : t.entry k l (a ++ [.down n]) = some (d ++ [n]) := by
  rw [entry_concat, hw, Option.bind_some, if_pos (Option.isSome_iff_ne_none.mpr hn)]

/-- The entry that a name by itself names is in a directory. -/
theorem entry_here (t : FileTree ν κ) (k : Nat) (l : List ν) (s : Step ν) : t.entry k l [.here, s] = t.entry k l [s] := by
  cases s with
  | here => rfl
  | up => rfl
  | down n =>
    change t.entry k l ([.here] ++ [.down n]) = t.entry k l ([] ++ [.down n])
    rw [entry_concat, entry_concat, walk_here, walk_nil]
    split
    · rfl
    · rename_i hl
      rw [Option.bind_none, Option.bind_some, node_below (l := l) (fun h => hl (isDir_iff.mpr h)) (List.prefix_append l [n]) (by simp)]
      rfl

/-- A route names the same entry in any tree that has more. -/
theorem entry_mono {t u : FileTree ν κ} (h : t ≤ u) {k : Nat} {l m : List ν} {a : List (Step ν)}
    (he : t.entry k l a = some m) : u.entry k l a = some m := by
  obtain ⟨b, n, j, d, rfl, hw, rfl, hn⟩ := entry_eq_some he
  obtain ⟨x, hx⟩ := Option.ne_none_iff_exists'.mp hn
  exact entry_concat_of_walk (walk_mono h hw) (by simp [h _ _ hx])

/-- A route that names an entry leads to it, if it is no link. -/
theorem walk_of_entry {t : FileTree ν κ} {k : Nat} {l m : List ν} {a : List (Step ν)} {x : Node ν κ}
    (he : t.entry k l a = some m) (hx : t.node m = some x) (hlink : ∀ route, x ≠ .link route) :
    ∃ j, t.walk k l a = some (j, m) := by
  obtain ⟨b, n, j, d, rfl, hw, rfl, hn⟩ := entry_eq_some he
  refine ⟨j, ?_⟩
  rw [walk_append, hw, Option.bind_some, walk_down_node hx hlink, walk_nil]

section

variable [DecidableEq ν]

/-! ## Names in a directory -/

/-- The names at a place, each once. -/
def names (t : FileTree ν κ) (l : List ν) : List ν :=
  (t.places.filterMap List.getLast?).dedup.filter fun n => (t.node (l ++ [n])).isSome

/-- The names of a directory are those of its nodes. -/
theorem mem_names {t : FileTree ν κ} {l : List ν} {n : ν} : n ∈ t.names l ↔ t.node (l ++ [n]) ≠ none := by
  rw [names, List.mem_filter, List.mem_dedup, Option.isSome_iff_ne_none]
  constructor
  · exact fun h => h.2
  · intro h
    exact ⟨List.mem_filterMap.mpr ⟨l ++ [n], t.finite _ h, List.getLast?_concat⟩, h⟩

/-- No name occurs twice. -/
theorem names_nodup (t : FileTree ν κ) (l : List ν) : (t.names l).Nodup := (List.nodup_dedup _).filter _

/-! ## Dropping a place -/

/-- The tree without what is at a place and below it; the root stays. -/
def erase (t : FileTree ν κ) (l : List ν) : FileTree ν κ where
  node m := if l ≠ [] ∧ l <+: m then none else t.node m
  places := t.places
  finite m h := by
    split at h
    · exact absurd rfl h
    · exact t.finite m h
  root := by
    rw [if_neg]
    · exact t.root
    · rintro ⟨hne, hpre⟩
      exact hne (List.prefix_nil.mp hpre)
  parent m n h := by
    split at h
    · exact absurd rfl h
    · rename_i hout
      rw [if_neg fun hin => hout ⟨hin.1, hin.2.trans (List.prefix_append m [n])⟩]
      exact t.parent m n h

/-- Erasing takes away a place and what is below it. -/
theorem node_erase (t : FileTree ν κ) {l : List ν} (hl : l ≠ []) (m : List ν) :
    (t.erase l).node m = if l <+: m then none else t.node m := by
  simp only [erase, hl, ne_eq, not_false_eq_true, true_and]

/-- Dropping a place leaves alone what is not below it. -/
theorem node_erase_of_not_prefix (t : FileTree ν κ) {l m : List ν} (h : ¬ l <+: m) : (t.erase l).node m = t.node m :=
  if_neg fun hin => h hin.2

/-- And no more. -/
theorem erase_le (t : FileTree ν κ) (l : List ν) : t.erase l ≤ t := by
  intro m x h
  simp only [erase] at h
  split at h
  · cases h
  · exact h

/-- Dropping a place drops what is below it. -/
theorem erase_erase (t : FileTree ν κ) {l m : List ν} (hl : l ≠ []) (hm : l <+: m) : (t.erase m).erase l = t.erase l := by
  have hne : m ≠ [] := fun h => hl (List.prefix_nil.mp (h ▸ hm))
  refine ext_node (fun k => ?_) rfl
  rw [node_erase _ hl, node_erase _ hl, node_erase _ hne]
  by_cases hk : l <+: k
  · rw [if_pos hk, if_pos hk]
  · rw [if_neg hk, if_neg hk, if_neg fun h => hk (hm.trans h)]

/-- The tree without what is below a place; the place stays. -/
def clear (t : FileTree ν κ) (l : List ν) : FileTree ν κ where
  node m := if l <+: m ∧ m ≠ l then none else t.node m
  places := t.places
  finite m h := by
    split at h
    · exact absurd rfl h
    · exact t.finite m h
  root := by
    rw [if_neg]
    · exact t.root
    · rintro ⟨hpre, hne⟩
      exact hne (List.prefix_nil.mp hpre).symm
  parent m n h := by
    split at h
    · exact absurd rfl h
    · rename_i hout
      rw [if_neg]
      · exact t.parent m n h
      · rintro ⟨hpre, hne⟩
        refine hout ⟨hpre.trans (List.prefix_append m [n]), fun heq => ?_⟩
        have hlen := hpre.length_le
        rw [← heq, List.length_append, List.length_singleton] at hlen
        omega

/-- Clearing takes away what is below a place. -/
theorem node_clear (t : FileTree ν κ) (l m : List ν) : (t.clear l).node m = if l <+: m ∧ m ≠ l then none else t.node m := rfl

/-- And leaves the place. -/
theorem node_clear_self (t : FileTree ν κ) (l : List ν) : (t.clear l).node l = t.node l := if_neg fun h => h.2 rfl

/-- And takes away no more. -/
theorem clear_le (t : FileTree ν κ) (l : List ν) : t.clear l ≤ t := by
  intro m x h
  rw [node_clear] at h
  split at h
  · cases h
  · exact h

/-- Further down less is missing. -/
theorem clear_le_clear (t : FileTree ν κ) {l m : List ν} (hm : l <+: m) : t.clear l ≤ t.clear m := by
  intro k x h
  rw [node_clear] at h ⊢
  split at h
  · cases h
  · rename_i hout
    rw [if_neg, h]
    rintro ⟨hk, hne⟩
    refine hout ⟨hm.trans hk, fun heq => hne ?_⟩
    rw [heq] at hk ⊢
    exact hm.eq_of_length_le hk.length_le

/-- What was below the place does not matter. -/
theorem clear_erase (t : FileTree ν κ) {l m : List ν} (hm : l <+: m) (hne : m ≠ l) : (t.erase m).clear l = t.clear l := by
  have hnil : m ≠ [] := fun h => hne (by rw [h] at hm ⊢; exact (List.prefix_nil.mp hm).symm)
  refine ext_node (fun k => ?_) rfl
  rw [node_clear, node_clear, node_erase _ hnil]
  by_cases hk : l <+: k ∧ k ≠ l
  · rw [if_pos hk, if_pos hk]
  · rw [if_neg hk, if_neg hk, if_neg]
    intro hmk
    refine hk ⟨hm.trans hmk, fun heq => hne ?_⟩
    rw [heq] at hmk
    exact (hm.eq_of_length_le hmk.length_le).symm

/-! ## A new directory -/

/-- The tree with a directory under a new name, where there is a directory for it to be in. -/
def addDir (t : FileTree ν κ) (l : List ν) (n : ν) : FileTree ν κ where
  node m := if m = l ++ [n] ∧ t.isDir l = true ∧ (t.node m).isNone = true then some .dir else t.node m
  places := (l ++ [n]) :: t.places
  finite m h := by
    split at h
    · rename_i hm
      rw [hm.1]
      exact List.mem_cons_self
    · exact List.mem_cons_of_mem _ (t.finite m h)
  root := by
    rw [if_neg]
    · exact t.root
    · rintro ⟨h, _⟩
      simp at h
  parent m k h := by
    have hdir : t.node m = some .dir := by
      split at h
      · rename_i hm
        obtain ⟨rfl, _⟩ := List.append_inj' hm.1 rfl
        exact isDir_iff.mp hm.2.1
      · exact t.parent m k h
    split
    · rfl
    · exact hdir

/-- A directory that is added is there, and nothing else is new. -/
theorem node_addDir {t : FileTree ν κ} {l : List ν} {n : ν} (hl : t.isDir l = true) (hn : t.node (l ++ [n]) = none) (m : List ν) :
    (t.addDir l n).node m = if m = l ++ [n] then some .dir else t.node m := by
  simp only [addDir]
  by_cases hm : m = l ++ [n]
  · rw [if_pos hm, if_pos ⟨hm, hl, by rw [hm, hn]; rfl⟩]
  · rw [if_neg hm, if_neg fun h => hm h.1]

/-- Nothing is lost. -/
theorem le_addDir (t : FileTree ν κ) (l : List ν) (n : ν) : t ≤ t.addDir l n := by
  intro m x hx
  simp only [addDir]
  rw [if_neg, hx]
  rintro ⟨_, _, hnone⟩
  rw [hx] at hnone
  cases hnone

/-! ## Trees of some entries -/

/-- What a list of entries says is at a place; the root needs no entry. -/
def nodeIn (entries : List (List ν × Node ν κ)) (l : List ν) : Option (Node ν κ) :=
  if l = [] then some .dir else (entries.find? (·.1 = l)).map Prod.snd

/-- What is found in a list of entries is one of them. -/
theorem nodeIn_mem {entries : List (List ν × Node ν κ)} {l : List ν} {x : Node ν κ} (h : nodeIn entries l = some x) (hl : l ≠ []) :
    (l, x) ∈ entries := by
  rw [nodeIn, if_neg hl] at h
  obtain ⟨e, hfind, rfl⟩ := Option.map_eq_some_iff.mp h
  have hkey : decide (e.1 = l) = true := List.find?_some (p := fun e : List ν × Node ν κ => decide (e.1 = l)) hfind
  rw [← of_decide_eq_true hkey]
  exact List.mem_of_find?_eq_some hfind

/-- The tree of some entries, each in a directory. -/
def ofEntries (entries : List (List ν × Node ν κ)) (h : ∀ e ∈ entries, nodeIn entries e.1.dropLast = some .dir) :
    FileTree ν κ where
  node := nodeIn entries
  places := [] :: entries.map Prod.fst
  finite l hl := by
    by_cases hnil : l = []
    · exact hnil ▸ List.mem_cons_self
    · obtain ⟨x, hx⟩ := Option.ne_none_iff_exists'.mp hl
      exact List.mem_cons_of_mem [] (List.mem_map.mpr ⟨_, nodeIn_mem hx hnil, rfl⟩)
  root := if_pos rfl
  parent l n hn := by
    obtain ⟨x, hx⟩ := Option.ne_none_iff_exists'.mp hn
    have hdir := h _ (nodeIn_mem hx (by simp))
    rwa [List.dropLast_concat] at hdir

/-- The nodes of a tree of entries are those entries. -/
theorem ofEntries_mem {entries : List (List ν × Node ν κ)} (h : ∀ e ∈ entries, nodeIn entries e.1.dropLast = some .dir)
    {l : List ν} {x : Node ν κ} (hx : (ofEntries entries h).node l = some x) (hl : l ≠ []) : (l, x) ∈ entries :=
  nodeIn_mem hx hl

end

end FileTree
