import Copper.Fs.System

/-!
# Making directories

`cpr_path_is_dir`, `cpr_mkdir` and `cpr_mkdir_all` of `fs.c` on a POSIX platform. The loop of `cpr_mkdir_all` is a position in its
copy of the path: what is before it, and what is from it on.
-/

namespace Copper.Fs

/-! ## The calls -/

/-- The directory, and the name in it, that a path leads to; there need not be an entry of that name. -/
def World.slot (w : World) (t : Tree) (path : List UInt8) : Option (Place × FileName) :=
  match (stepsOf path).getLast? with
  | some (.down n) => (t.walk w.maxLinks (w.start path) (stepsOf path).dropLast).map fun r => (r.2, n)
  | _ => none

/-- `stat`. -/
def World.stat (w : World) (path : List UInt8) (s : FsState) : FsState × Option (FileTree.Node FileName (List UInt8)) :=
  if (w.decision s.calls).fails then (s.tick, none)
  else (s.tick, (w.resolve s.tree path).bind s.tree.node)

/-- A directory is made under a new name. -/
def FsState.addDir (s : FsState) (l : Place) (n : FileName) : FsState := { s with tree := s.tree.addDir l n }

/-- Making a directory adds it to the tree. -/
@[simp] theorem FsState.addDir_tree (s : FsState) (l : Place) (n : FileName) : (s.addDir l n).tree = s.tree.addDir l n := rfl

/-- Making a directory is not counted as a call of its own. -/
@[simp] theorem FsState.addDir_calls (s : FsState) (l : Place) (n : FileName) : (s.addDir l n).calls = s.calls := rfl

/-- `mkdir`; separators at the end of the path do not count. -/
def World.mkdir (w : World) (path : List UInt8) (s : FsState) : FsState × Bool :=
  if (w.decision s.calls).fails then (s.tick, false)
  else
    match w.slot s.tree (path.rdropWhile (· = 47)) with
    | none => (s.tick, false)
    | some (l, n) =>
      if s.tree.isDir l = true ∧ s.tree.node (l ++ [n]) = none then (s.tick.addDir l n, true) else (s.tick, false)

/-- `cpr_path_is_dir`. -/
def pathIsDir (w : World) (path : Option (List UInt8)) (s : FsState) : FsState × Bool :=
  match path with
  | none => (s, false)
  | some path =>
    match w.stat path s with
    | (s, some .dir) => (s, true)
    | (s, _) => (s, false)

/-- `cpr_mkdir`. -/
def mkdir (w : World) (path : Option (List UInt8)) (s : FsState) : FsState × Bool :=
  match path with
  | none => (s.setError .errInvalid "path is NULL", false)
  | some path =>
    match w.mkdir path s with
    | (s, true) => (s, true)
    | (s, false) => (s.setError .errIo "mkdir failed", false)

/-- What `cpr_mkdir_all` does with its copy of the path cut off at a position. -/
def mkdirLevel (w : World) (path : List UInt8) (s : FsState) : FsState × Bool :=
  match pathIsDir w (some path) s with
  | (s, true) => (s, true)
  | (s, false) => mkdir w (some path) s

/-- The loop of `cpr_mkdir_all`, and what comes after it. -/
def mkdirLevels (w : World) (done : List UInt8) : List UInt8 → FsState → FsState × Bool
  | [], s => mkdirLevel w done s
  | c :: rest, s =>
    if fsIsSep .posix c then
      match mkdirLevel w done s with
      | (s, true) => mkdirLevels w (done ++ [fsSep .posix]) rest s
      | (s, false) => (s, false)
    else
      mkdirLevels w (done ++ [c]) rest s

/-- `cpr_mkdir_all`. -/
def mkdirAll (w : World) (path : Option (List UInt8)) (s : FsState) : FsState × Bool :=
  match path with
  | none => (s.setError .errInvalid "path is NULL", false)
  | some path =>
    if path.length = 0 ∨ path.length ≥ fsPathMax then (s.setError .errInvalid "invalid path length", false)
    else mkdirLevels w (path.takeWhile (fsIsSep .posix)) (path.dropWhile (fsIsSep .posix)) s

/-! ## Levels -/

/-- Where the loop cuts what is from a position on, each time with what is before it; and the whole. -/
def levelsFrom (done : List UInt8) : List UInt8 → List (List UInt8)
  | [] => [done]
  | c :: rest => if c = 47 then done :: levelsFrom (done ++ [c]) rest else levelsFrom (done ++ [c]) rest

/-- What is before the separators of a path that do not lead it, and the path. -/
def levels (path : List UInt8) : List (List UInt8) := levelsFrom (path.takeWhile (· = 47)) (path.dropWhile (· = 47))

/-- The levels of a path are the whole of it and what stands before a separator in its rest. -/
theorem mem_levelsFrom {done rest q : List UInt8} :
    q ∈ levelsFrom done rest ↔ q = done ++ rest ∨ ∃ a b, rest = a ++ 47 :: b ∧ q = done ++ a := by
  induction rest generalizing done with
  | nil => simp [levelsFrom]
  | cons c rest ih =>
    have hsplit : (∃ a b, c :: rest = a ++ 47 :: b ∧ q = done ++ a) ↔
        (c = 47 ∧ q = done) ∨ ∃ a b, rest = a ++ 47 :: b ∧ q = done ++ [c] ++ a := by
      constructor
      · rintro ⟨a, b, hrest, hq⟩
        cases a with
        | nil =>
          rw [List.nil_append, List.cons.injEq] at hrest
          exact Or.inl ⟨hrest.1, by rw [hq, List.append_nil]⟩
        | cons d a =>
          rw [List.cons_append, List.cons.injEq] at hrest
          exact Or.inr ⟨a, b, hrest.2, by rw [hq, hrest.1, List.append_assoc, List.singleton_append]⟩
      · rintro (⟨rfl, rfl⟩ | ⟨a, b, rfl, rfl⟩)
        · exact ⟨[], rest, rfl, (List.append_nil _).symm⟩
        · exact ⟨c :: a, b, rfl, by rw [List.append_assoc, List.singleton_append]⟩
    have hwhole : q = done ++ c :: rest ↔ q = done ++ [c] ++ rest := by
      rw [List.append_assoc, List.singleton_append]
    rw [hsplit, hwhole, levelsFrom]
    split
    · rename_i hc
      rw [List.mem_cons, ih, eq_true hc, true_and, or_left_comm]
    · rename_i hc
      rw [ih, eq_false hc, false_and, false_or]

/-- The levels of a path are the path, and what is before a separator that some other character comes before. -/
theorem mem_levels {path q : List UInt8} :
    q ∈ levels path ↔ q = path ∨ ∃ rest, path = q ++ 47 :: rest ∧ ∃ c ∈ q, c ≠ 47 := by
  have hpath : path.takeWhile (· = 47) ++ path.dropWhile (· = 47) = path := List.takeWhile_append_dropWhile
  rw [levels, mem_levelsFrom, hpath]
  refine or_congr_right ⟨?_, ?_⟩
  · rintro ⟨a, b, hrest, rfl⟩
    refine ⟨b, by rw [List.append_assoc, ← hrest, hpath], ?_⟩
    cases a with
    | nil =>
      have hhead := List.head?_dropWhile_not (fun c : UInt8 => decide (c = 47)) path
      rw [hrest] at hhead
      simp at hhead
    | cons c a =>
      refine ⟨c, by simp, fun hc => ?_⟩
      have hhead := List.head?_dropWhile_not (fun c : UInt8 => decide (c = 47)) path
      rw [hrest, hc] at hhead
      simp at hhead
  · rintro ⟨rest, hsplit, c, hc, hne⟩
    have hdrop : (q.dropWhile fun c => decide (c = 47)).isEmpty = false := by
      by_contra hempty
      rw [Bool.not_eq_false, List.isEmpty_iff, List.dropWhile_eq_nil_iff] at hempty
      exact hne (of_decide_eq_true (hempty c hc))
    refine ⟨q.dropWhile (· = 47), rest, ?_, ?_⟩
    · rw [hsplit, List.dropWhile_append, hdrop]
      rfl
    · rw [hsplit, List.dropWhile_append, hdrop] at hpath
      simp only [Bool.false_eq_true, if_false] at hpath
      rw [← List.append_assoc, List.append_cancel_right_eq] at hpath
      rw [hsplit]
      exact hpath.symm

end Copper.Fs
