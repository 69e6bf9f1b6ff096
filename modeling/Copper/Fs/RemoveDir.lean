import Copper.Fs.System

/-!
# Removing a directory

`cpr_remove_file`, the directory iterator and `cpr_remove_dir` of `fs.c` on a POSIX platform. The recursion of
`cpr__rmdir_force` is bounded by `fuel`; each level adds a name to the path, so that `CPR_FS_PATH_MAX` levels are more than it
can have (`rmdirForce_total`).
-/

namespace Copper.Fs

/-- `CprFsType`. -/
inductive FsType where
  | file
  | dir
  | other
  deriving DecidableEq, Repr

/-- `CprDirEntry`. -/
structure DirEntry where
  name : List UInt8
  type : FsType
  deriving DecidableEq, Repr

/-- `CprDirIterator`: an open directory, and what it has still to list. -/
structure DirIterator where
  dir : Place
  rest : List Dirent

/-- `cpr_remove_file`. -/
def removeFile (w : World) (path : Option (List UInt8)) (s : FsState) : FsState × Bool :=
  match path with
  | none => (s.setError .errInvalid "path is NULL", false)
  | some path =>
    match w.unlink path s with
    | (s, true) => (s, true)
    | (s, false) => (s.setError .errIo "unlink failed", false)

/-- `cpr__rmdir`. -/
def rmdir (w : World) (path : List UInt8) (s : FsState) : FsState × CprResult :=
  match w.rmdir path s with
  | (s, true) => (s, .ok)
  | (s, false) => (s.setError .errIo "rmdir failed", .errIo)

/-- `cpr_open_dir`; the first decision is `malloc`'s. -/
def openDir (w : World) (path : Option (List UInt8)) (s : FsState) : FsState × Option DirIterator :=
  match path with
  | none => (s.setError .errInvalid "path is NULL", none)
  | some path =>
    if (w.decision s.calls).fails then (s.tick.setError .errOom "out of memory", none)
    else
      match w.opendir path s.tick with
      | (s, some (dir, rest)) => (s, some ⟨dir, rest⟩)
      | (s, none) => (s.setError .errIo "opendir failed", none)

/-- Whether `d_name` is `.` or `..`. -/
def isDots (name : List UInt8) : Bool := name = [46] ∨ name = [46, 46]

/-- What an entry's type is reported as: by `d_type` if that is a directory or a regular file, else by `fstatat`. -/
def entryType (w : World) (dir : Place) (e : Dirent) (s : FsState) : FsState × FsType :=
  match e.type with
  | .dir => (s, .dir)
  | .reg => (s, .file)
  | _ =>
    match w.fstatat dir e.name s with
    | (s, some .dir) => (s, .dir)
    | (s, some (.file _)) => (s, .file)
    | (s, _) => (s, .other)

/-- A read that gives an entry leaves fewer. -/
theorem readdir_length {w : World} {rest rest' : List Dirent} {s s' : FsState} {e : Dirent}
    (h : w.readdir rest s = (s', rest', some e)) : rest'.length < rest.length := by
  induction rest generalizing s with
  | nil => cases h
  | cons d rest ih =>
    rw [World.readdir] at h
    split at h
    · cases h
    · split at h
      · exact Nat.lt_succ_of_lt (ih h)
      · cases h
        exact Nat.lt_succ_self _

/-- `cpr_next_dir`. -/
def nextDir (w : World) (it : DirIterator) (s : FsState) : FsState × DirIterator × Option DirEntry :=
  match _h : w.readdir it.rest s with
  | (s, rest, none) => (s, ⟨it.dir, rest⟩, none)
  | (s, rest, some e) =>
    if isDots e.name then nextDir w ⟨it.dir, rest⟩ s
    else
      let (s, type) := entryType w it.dir e s
      (s, ⟨it.dir, rest⟩, some ⟨e.name.take (fsNameMax - 1), type⟩)
termination_by it.rest.length
decreasing_by exact readdir_length _h

/-- Where the read gives no entry, `cpr_next_dir` gives none. -/
theorem nextDir_null {w : World} {it : DirIterator} {s s1 : FsState} {rest : List Dirent}
    (h : w.readdir it.rest s = (s1, rest, none)) : nextDir w it s = (s1, ⟨it.dir, rest⟩, none) := by
  rw [nextDir]
  split
  · rename_i hr
    rw [h] at hr
    cases hr
    rfl
  · rename_i hr
    rw [h] at hr
    cases hr

/-- Where it gives one, `cpr_next_dir` passes over `.` and `..`, and gives every other with its type. -/
theorem nextDir_entry {w : World} {it : DirIterator} {s s1 : FsState} {rest : List Dirent} {e : Dirent}
    (h : w.readdir it.rest s = (s1, rest, some e)) :
    nextDir w it s =
      if isDots e.name then nextDir w ⟨it.dir, rest⟩ s1
      else
        ((entryType w it.dir e s1).1, ⟨it.dir, rest⟩,
          some ⟨e.name.take (fsNameMax - 1), (entryType w it.dir e s1).2⟩) := by
  rw [nextDir]
  split
  · rename_i hr
    rw [h] at hr
    cases hr
  · rename_i hr
    rw [h] at hr
    cases hr
    rfl

/-- `.` and `..` are passed over. -/
theorem nextDir_dots {w : World} {it : DirIterator} {s s1 : FsState} {rest : List Dirent} {e : Dirent}
    (h : w.readdir it.rest s = (s1, rest, some e)) (hdots : isDots e.name = true) :
    nextDir w it s = nextDir w ⟨it.dir, rest⟩ s1 := by
  rw [nextDir_entry h, if_pos hdots]

/-- What `readdir` returns is listed, and only the type may differ; the tree stays as it is. -/
theorem readdir_spec {w : World} {rest rest' : List Dirent} {s s' : FsState} {r : Option Dirent}
    (h : w.readdir rest s = (s', rest', r)) :
    s'.tree = s.tree ∧ rest' ⊆ rest ∧ ∀ e, r = some e → rest'.length < rest.length ∧ ∃ d ∈ rest, e.name = d.name := by
  induction rest generalizing s with
  | nil =>
    cases h
    exact ⟨rfl, List.Subset.refl _, by simp⟩
  | cons d rest ih =>
    rw [World.readdir] at h
    split at h
    · cases h
      exact ⟨rfl, List.subset_cons_self d _, by simp⟩
    · split at h
      · obtain ⟨htree, hsub, hentry⟩ := ih h
        refine ⟨htree, List.subset_cons_of_subset d hsub, fun e he => ?_⟩
        obtain ⟨hlen, d', hd', hname⟩ := hentry e he
        exact ⟨Nat.lt_succ_of_lt hlen, d', List.mem_cons_of_mem d hd', hname⟩
      · cases h
        refine ⟨rfl, List.subset_cons_self d _, fun e he => ⟨Nat.lt_succ_self _, d, List.mem_cons_self, ?_⟩⟩
        cases he
        split <;> rfl

/-- Asking for the type of an entry changes no file. -/
theorem entryType_tree (w : World) (dir : Place) (e : Dirent) (s : FsState) : (entryType w dir e s).1.tree = s.tree := by
  have hstat : (w.fstatat dir e.name s).1.tree = s.tree := by
    unfold World.fstatat
    split <;> rfl
  unfold entryType
  split
  · rfl
  · rfl
  · generalize w.fstatat dir e.name s = r at hstat
    obtain ⟨s1, x⟩ := r
    rcases x with _ | c | _ | route
    · exact hstat
    · exact hstat
    · exact hstat
    · exact hstat

/-- What `cpr_next_dir` returns is listed, and is neither `.` nor `..`; the tree stays as it is. -/
theorem nextDir_spec {w : World} {it it' : DirIterator} {s s' : FsState} {r : Option DirEntry}
    (h : nextDir w it s = (s', it', r)) :
    s'.tree = s.tree ∧ it'.dir = it.dir ∧ it'.rest ⊆ it.rest ∧
      ∀ entry, r = some entry → it'.rest.length < it.rest.length ∧
        ∃ d ∈ it.rest, isDots d.name = false ∧ entry.name = d.name.take (fsNameMax - 1) := by
  induction hn : it.rest.length using Nat.strongRecOn generalizing it s with
  | _ n ih =>
    obtain ⟨s1, rest, e, hread⟩ : ∃ s1 rest e, w.readdir it.rest s = (s1, rest, e) := ⟨_, _, _, rfl⟩
    obtain ⟨htree, hsub, hentry⟩ := readdir_spec hread
    cases e with
    | none =>
      rw [nextDir_null hread] at h
      cases h
      exact ⟨htree, rfl, hsub, by simp⟩
    | some e =>
      obtain ⟨hlen, d, hd, hname⟩ := hentry e rfl
      rw [nextDir_entry hread] at h
      split at h
      · obtain ⟨htree', hdir, hsub', hentry'⟩ := ih _ (hn ▸ hlen) h rfl
        refine ⟨htree'.trans htree, hdir, fun x hx => hsub (hsub' hx), fun entry he => ?_⟩
        obtain ⟨hlen', d', hd', hd''⟩ := hentry' entry he
        exact ⟨hn ▸ Nat.lt_trans hlen' hlen, d', hsub hd', hd''⟩
      · rename_i hdots
        cases h
        refine ⟨(entryType_tree w it.dir e s1).trans htree, rfl, hsub, fun entry he => ⟨hn ▸ hlen, d, hd, ?_, ?_⟩⟩
        · rw [← hname]
          exact Bool.eq_false_iff.mpr hdots
        · cases he
          rw [hname]

/-- The body of the loop of `cpr__rmdir_force`, once it has the path of an entry, with `force` for its call of itself. -/
def removeEntry (w : World) (force : List UInt8 → FsState → Option (FsState × CprResult)) (child : List UInt8) (type : FsType)
    (s : FsState) : Option (FsState × CprResult) :=
  if type = .dir then force child s
  else
    match removeFile w (some child) s with
    | (s, true) => some (s, .ok)
    | (s, false) => some (s, .errIo)

/-- The loop of `cpr__rmdir_force`, and `cpr__rmdir` after it. -/
def removeEntries (w : World) (force : List UInt8 → FsState → Option (FsState × CprResult)) (path : List UInt8)
    (it : DirIterator) (s : FsState) : Option (FsState × CprResult) :=
  match _h : nextDir w it s with
  | (s, _, none) => some (rmdir w path s)
  | (s, it', some entry) =>
    let joined := pathJoin .posix (.room fsPathMax) (some path) (some entry.name)
    match joined.state with
    | none => some (s.record joined.error, .errOverflow)
    | some child =>
      (removeEntry w force child entry.type s).bind fun (s, r) =>
        if r.err then some (s, r) else removeEntries w force path it' s
termination_by it.rest.length
decreasing_by exact ((nextDir_spec _h).2.2.2 entry rfl).1

/-- When the entries have come to an end the directory itself is removed. -/
theorem removeEntries_null {w : World} {force : List UInt8 → FsState → Option (FsState × CprResult)} {path : List UInt8}
    {it it' : DirIterator} {s s1 : FsState} (h : nextDir w it s = (s1, it', none)) :
    removeEntries w force path it s = some (rmdir w path s1) := by
  rw [removeEntries]
  split
  · rename_i hr
    rw [h] at hr
    cases hr
    rfl
  · rename_i hr
    rw [h] at hr
    cases hr

/-- An entry is removed, and then those that follow it. -/
theorem removeEntries_entry {w : World} {force : List UInt8 → FsState → Option (FsState × CprResult)} {path : List UInt8}
    {it it' : DirIterator} {s s1 : FsState} {entry : DirEntry} (h : nextDir w it s = (s1, it', some entry)) :
    removeEntries w force path it s =
      let joined := pathJoin .posix (.room fsPathMax) (some path) (some entry.name)
      match joined.state with
      | none => some (s1.record joined.error, .errOverflow)
      | some child =>
        (removeEntry w force child entry.type s1).bind fun (s, r) =>
          if r.err then some (s, r) else removeEntries w force path it' s := by
  rw [removeEntries]
  split
  · rename_i hr
    rw [h] at hr
    cases hr
  · rename_i hr
    rw [h] at hr
    cases hr
    rfl

/-- `cpr__rmdir_force`. -/
def rmdirForce (w : World) : Nat → List UInt8 → FsState → Option (FsState × CprResult)
  | 0, _, _ => none
  | fuel + 1, path, s =>
    match openDir w (some path) s with
    | (s, none) => some (s, .errIo)
    | (s, some it) => removeEntries w (rmdirForce w fuel) path it s

/-- `cpr_remove_dir`. -/
def removeDir (w : World) (path : Option (List UInt8)) (force : Bool) (s : FsState) : Option (FsState × Bool) :=
  match path with
  | none => some (s.setError .errInvalid "path is NULL", false)
  | some path =>
    if force then (rmdirForce w fsPathMax path s).map fun (s, r) => (s, !r.err)
    else
      let (s, r) := rmdir w path s
      some (s, !r.err)

end Copper.Fs
