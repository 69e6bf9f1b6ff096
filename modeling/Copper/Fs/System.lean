import Copper.Foundation.FileTree
import Copper.Fs.Path
import Mathlib.Data.List.DropRight

/-!
# The file system calls

The system calls that `fs.c` makes on a POSIX platform, over a tree of files, directories and symbolic links. `opendir`,
`stat` and `fstatat` without flags follow a link; `unlink` and `rmdir` do not. What the system decides by itself is a
`Decision` for each of its steps: whether a call fails for a reason of its own, in which order a directory lists its entries,
whether an entry's type is known, and whether an entry that was removed after the directory was opened is still listed.
-/

namespace Copper.Fs

/-! ## Names and routes -/

/-- What may be the name of an entry. -/
def ValidName (n : List UInt8) : Prop := n ≠ [] ∧ n ≠ [46] ∧ n ≠ [46, 46] ∧ 47 ∉ n ∧ 0 ∉ n

instance (n : List UInt8) : Decidable (ValidName n) := inferInstanceAs (Decidable (_ ∧ _ ∧ _ ∧ _ ∧ _))

/-- The name of an entry. -/
abbrev FileName := { n : List UInt8 // ValidName n }

/-- The place of an entry. -/
abbrev Place := List FileName

/-- Files, directories and symbolic links. -/
abbrev Tree := FileTree FileName (List UInt8)

/-- The components of a path: what is between its separators. -/
def components : List UInt8 → List (List UInt8)
  | [] => [[]]
  | c :: path =>
    if c = 47 then [] :: components path
    else
      match components path with
      | [] => [[c]]
      | first :: rest => (c :: first) :: rest

/-- The step of a component. One that is neither `..` nor a name is empty, or `.`. -/
def stepOf (c : List UInt8) : FileTree.Step FileName :=
  if c = [46, 46] then .up
  else if h : ValidName c then .down ⟨c, h⟩
  else .here

/-- The steps of a path. -/
def stepsOf (path : List UInt8) : List (FileTree.Step FileName) := (components path).map stepOf

/-- A path has at least one component, which may be empty. -/
theorem components_ne_nil (p : List UInt8) : components p ≠ [] := by
  cases p with
  | nil => simp [components]
  | cons c p =>
    rw [components]
    split
    · simp
    · split <;> simp

/-- The components of two paths with a separator between them. -/
theorem components_append (p q : List UInt8) : components (p ++ 47 :: q) = components p ++ components q := by
  induction p with
  | nil => rfl
  | cons c p ih =>
    rw [List.cons_append, components, components, ih]
    by_cases hc : c = 47
    · rw [if_pos hc, if_pos hc, List.cons_append]
    · rw [if_neg hc, if_neg hc]
      cases hp : components p with
      | nil => exact absurd hp (components_ne_nil p)
      | cons first rest => rfl

/-- The steps of two paths with a separator between them. -/
theorem stepsOf_append (p q : List UInt8) : stepsOf (p ++ 47 :: q) = stepsOf p ++ stepsOf q := by
  rw [stepsOf, components_append, List.map_append]
  rfl

/-- A string without a separator is its only component. -/
theorem components_of_not_mem {p : List UInt8} (h : 47 ∉ p) : components p = [p] := by
  induction p with
  | nil => rfl
  | cons c p ih =>
    rw [List.mem_cons, not_or] at h
    rw [components, if_neg fun hc => h.1 hc.symm, ih h.2]

/-- The step of a name is down to it. -/
theorem stepOf_name (n : FileName) : stepOf n = .down n := by
  rw [stepOf, if_neg n.2.2.2.1, dif_pos n.2]

/-- A name is one step down. -/
theorem stepsOf_name (n : FileName) : stepsOf n = [.down n] := by
  rw [stepsOf, components_of_not_mem n.2.2.2.2.1, List.map_singleton, stepOf_name]

/-- The steps of a path followed by a separator and a name. -/
theorem stepsOf_concat (p : List UInt8) (n : FileName) : stepsOf (p ++ 47 :: n.val) = stepsOf p ++ [.down n] := by
  rw [← stepsOf_name n, stepsOf_append]

/-! ## What the system decides -/

/-- What an entry of a listing says of its type: `d_type`. -/
inductive DirentType where
  | dir
  | reg
  | lnk
  | unknown
  deriving DecidableEq, Repr

/-- An entry of a listing: `d_name` and `d_type`, and the place that it was listed for. -/
structure Dirent where
  name : List UInt8
  type : DirentType
  place : Place
  deriving DecidableEq

/-- What the system decides in one of its steps. -/
structure Decision where
  fails : Bool
  untyped : Bool
  skips : Bool
  order : List Dirent → List Dirent
  perm : ∀ l, (order l).Perm l

/-- How many links a path may lead through, the working directory, and the decisions, in the order in which they are called
for. -/
structure World where
  maxLinks : Nat
  cwd : Place
  decision : Nat → Decision

/-- The tree, how many decisions have been called for, and the thread-local error record. -/
structure FsState where
  tree : Tree
  calls : Nat
  error : Option CprError

/-- A decision is called for. -/
def FsState.tick (s : FsState) : FsState := { s with calls := s.calls + 1 }

/-- `cpr__set_error`. -/
def FsState.setError (s : FsState) (code : CprResult) (message : String) : FsState := { s with error := some ⟨code, message⟩ }

/-- What a call put into the error record, if it did. -/
def FsState.record (s : FsState) (e : Option CprError) : FsState := { s with error := e.or s.error }

/-- Something is dropped from the tree. -/
def FsState.erase (s : FsState) (l : Place) : FsState := { s with tree := s.tree.erase l }

/-- Counting a call changes no file. -/
@[simp] theorem FsState.tick_tree (s : FsState) : s.tick.tree = s.tree := rfl

/-- A call is counted. -/
@[simp] theorem FsState.tick_calls (s : FsState) : s.tick.calls = s.calls + 1 := rfl

/-- Recording an error changes no file. -/
@[simp] theorem FsState.setError_tree (s : FsState) (code : CprResult) (message : String) :
    (s.setError code message).tree = s.tree := rfl

/-- Recording an error is no call. -/
@[simp] theorem FsState.setError_calls (s : FsState) (code : CprResult) (message : String) :
    (s.setError code message).calls = s.calls := rfl

/-- Recording what a call has to say changes no file. -/
@[simp] theorem FsState.record_tree (s : FsState) (e : Option CprError) : (s.record e).tree = s.tree := rfl

/-- Recording what a call has to say is no call. -/
@[simp] theorem FsState.record_calls (s : FsState) (e : Option CprError) : (s.record e).calls = s.calls := rfl

/-- Erasing a node erases it from the tree. -/
@[simp] theorem FsState.erase_tree (s : FsState) (l : Place) : (s.erase l).tree = s.tree.erase l := rfl

/-- Erasing a node is not counted as a call of its own. -/
@[simp] theorem FsState.erase_calls (s : FsState) (l : Place) : (s.erase l).calls = s.calls := rfl

namespace World

variable (w : World)

/-- From some decision on, none is that a call fails. -/
def WorksFrom (calls : Nat) : Prop := ∀ i, calls ≤ i → (w.decision i).fails = false

variable {w} in

/-- A system that works from a call on works from every later one on. -/
theorem WorksFrom.mono {m n : Nat} (h : w.WorksFrom m) (hle : m ≤ n) : w.WorksFrom n := fun i hi => h i (Nat.le_trans hle hi)

/-- Where the route of a path starts. -/
def start (path : List UInt8) : Place := if path.head? = some 47 then [] else w.cwd

/-- The place that a path leads to, all links followed, and how many links are left; the empty path leads nowhere. -/
def reach (t : Tree) (path : List UInt8) : Option (Nat × Place) :=
  if path = [] then none
  else t.walk w.maxLinks (w.start path) (stepsOf path)

/-- The place that a path leads to. -/
def resolve (t : Tree) (path : List UInt8) : Option Place := (w.reach t path).map Prod.snd

/-- The place of the entry that a path names, its last link not followed. -/
def entry (t : Tree) (path : List UInt8) : Option Place :=
  if path = [] then none
  else t.entry w.maxLinks (w.start path) (stepsOf path)

/-! ## Calls -/

/-- `unlink`. -/
def unlink (path : List UInt8) (s : FsState) : FsState × Bool :=
  if (w.decision s.calls).fails then (s.tick, false)
  else
    match w.entry s.tree path with
    | none => (s.tick, false)
    | some l => if s.tree.isDir l then (s.tick, false) else (s.tick.erase l, true)

/-- `rmdir`; separators at the end of the path do not count. -/
def rmdir (path : List UInt8) (s : FsState) : FsState × Bool :=
  if (w.decision s.calls).fails then (s.tick, false)
  else
    match w.entry s.tree (path.rdropWhile (· = 47)) with
    | none => (s.tick, false)
    | some l => if s.tree.isDir l ∧ s.tree.names l = [] then (s.tick.erase l, true) else (s.tick, false)

/-- What the type of an entry of a listing is, from what is at its place. -/
def direntType (x : Option (FileTree.Node FileName (List UInt8))) : DirentType :=
  match x with
  | some (.file _) => .reg
  | some .dir => .dir
  | some (.link _) => .lnk
  | none => .unknown

/-- The entries of a directory, `.` and `..` among them. -/
def listing (t : Tree) (l : Place) : List Dirent :=
  ⟨[46], .dir, l⟩ :: ⟨[46, 46], .dir, l.dropLast⟩ ::
    (t.names l).map fun (n : FileName) => ⟨n.val, direntType (t.node (l ++ [n])), l ++ [n]⟩

/-- `opendir`: the directory, and what it will list. -/
def opendir (path : List UInt8) (s : FsState) : FsState × Option (Place × List Dirent) :=
  if (w.decision s.calls).fails then (s.tick, none)
  else
    match w.resolve s.tree path with
    | none => (s.tick, none)
    | some l =>
      if s.tree.isDir l then (s.tick, some (l, (w.decision s.calls).order (listing s.tree l)))
      else (s.tick, none)

/-- `readdir`: the next entry, and those after it. -/
def readdir : List Dirent → FsState → FsState × List Dirent × Option Dirent
  | [], s => (s.tick, [], none)
  | e :: rest, s =>
    if (w.decision s.calls).fails then (s.tick, rest, none)
    else if s.tree.node e.place = none ∧ (w.decision s.calls).skips then readdir rest s.tick
    else (s.tick, rest, some (if (w.decision s.calls).untyped then { e with type := .unknown } else e))

/-- `fstatat` with flags 0, for a name in a directory. -/
def fstatat (dir : Place) (name : List UInt8) (s : FsState) : FsState × Option (FileTree.Node FileName (List UInt8)) :=
  if (w.decision s.calls).fails then (s.tick, none)
  else (s.tick, (s.tree.walk w.maxLinks dir [stepOf name]).bind fun r => s.tree.node r.2)

end World

end Copper.Fs
