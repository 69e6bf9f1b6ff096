import Copper.Foundation.Transition
import Copper.Fs.MakeAll
import Mathlib.Data.Fintype.Basic

/-!
# Calls of `cpr_mkdir_all` side by side

Each call is a thread that takes its `stat` and `mkdir` calls one at a time (`MkdirPc.next`); alone, a thread does what
`cpr_mkdir_all` does (`mkdirAll_runs`). Side by side, two threads may both find a directory missing, and then one of them fails. While
no thread looks at a directory that another has found missing and not made yet, all of them succeed (`mkdirs_succeed`).
-/

namespace Copper.Fs

open Transition

/-- Where a call is: before the `stat` of a level, between that and the `mkdir`, or back. -/
inductive MkdirPc where
  | looking (done rest : List UInt8)
  | making (done rest : List UInt8)
  | returned (ok : Bool)
  deriving DecidableEq

namespace MkdirPc

/-- The loop of `cpr_mkdir_all` up to the next level. -/
def seek (done : List UInt8) : List UInt8 → MkdirPc
  | [] => .looking done []
  | c :: rest => if fsIsSep .posix c then .looking done (c :: rest) else seek (done ++ [c]) rest

/-- On from a level that is a directory. -/
def pass (done : List UInt8) : List UInt8 → MkdirPc
  | [] => .returned true
  | _ :: rest => seek (done ++ [fsSep .posix]) rest

/-- A call with a path of a valid length. -/
def start (path : List UInt8) : MkdirPc := seek (path.takeWhile (fsIsSep .posix)) (path.dropWhile (fsIsSep .posix))

/-- The next call of the system. -/
def next (w : World) (pc : MkdirPc) (s : FsState) : Option (MkdirPc × FsState) :=
  match pc with
  | .looking done rest =>
    match pathIsDir w (some done) s with
    | (s, true) => some (pass done rest, s)
    | (s, false) => some (.making done rest, s)
  | .making done rest =>
    match mkdir w (some done) s with
    | (s, true) => some (pass done rest, s)
    | (s, false) => some (.returned false, s)
  | .returned _ => none

/-- The place that a call is about to look at. -/
def lookingAt (w : World) : MkdirPc → Option Place
  | .looking done _ => some (w.place done)
  | _ => none

/-- The place that a call has found missing, and not made yet. -/
def makingAt (w : World) : MkdirPc → Option Place
  | .making done _ => some (w.place done)
  | _ => none

/-- A call that runs to its end, alone. -/
inductive Runs (w : World) : MkdirPc → FsState → FsState × Bool → Prop where
  | returned (ok : Bool) (s : FsState) : Runs w (.returned ok) s (s, ok)
  | step {pc pc' : MkdirPc} {s s' : FsState} {r : FsState × Bool} (hnext : pc.next w s = some (pc', s')) (hruns : Runs w pc' s' r) :
    Runs w pc s r

variable {w : World}

/-- A level, and what comes after it. -/
theorem Runs.level {done rest : List UInt8} {s : FsState} {r : FsState × Bool}
    (htrue : ∀ s', mkdirLevel w done s = (s', true) → Runs w (pass done rest) s' r)
    (hfalse : ∀ s', mkdirLevel w done s = (s', false) → r = (s', false)) : Runs w (.looking done rest) s r := by
  obtain ⟨s1, dir, hdir⟩ : ∃ s1 dir, pathIsDir w (some done) s = (s1, dir) := ⟨_, _, rfl⟩
  cases dir with
  | true =>
    have hlevel : mkdirLevel w done s = (s1, true) := by rw [mkdirLevel, hdir]
    have hnext : (MkdirPc.looking done rest).next w s = some (pass done rest, s1) := by rw [next, hdir]
    exact .step hnext (htrue s1 hlevel)
  | false =>
    obtain ⟨s2, ok, hmkdir⟩ : ∃ s2 ok, mkdir w (some done) s1 = (s2, ok) := ⟨_, _, rfl⟩
    have hlevel : mkdirLevel w done s = (s2, ok) := by rw [mkdirLevel, hdir, ← hmkdir]
    have hnext : (MkdirPc.looking done rest).next w s = some (.making done rest, s1) := by rw [next, hdir]
    refine .step hnext ?_
    cases ok with
    | true =>
      have hnext' : (MkdirPc.making done rest).next w s1 = some (pass done rest, s2) := by rw [next, hmkdir]
      exact .step hnext' (htrue s2 hlevel)
    | false =>
      have hnext' : (MkdirPc.making done rest).next w s1 = some (.returned false, s2) := by rw [next, hmkdir]
      rw [hfalse s2 hlevel]
      exact .step hnext' (.returned false s2)

/-- Step by step a call makes the levels that are left as `cpr_mkdir_all` makes them. -/
theorem mkdirLevels_runs (done rest : List UInt8) (s : FsState) : Runs w (seek done rest) s (mkdirLevels w done rest s) := by
  induction rest generalizing done s with
  | nil =>
    rw [mkdirLevels]
    exact Runs.level (fun s' h => h ▸ .returned true s') fun s' h => h
  | cons c rest ih =>
    rw [seek, mkdirLevels]
    split
    · refine Runs.level (fun s' h => ?_) fun s' h => ?_
      · rw [h]
        exact ih _ s'
      · rw [h]
    · exact ih _ s

/-- Alone, a call does what `cpr_mkdir_all` does. -/
theorem mkdirAll_runs {path : List UInt8} (hpath : path ≠ []) (hlen : path.length < fsPathMax) (s : FsState) :
    Runs w (start path) s (mkdirAll w (some path) s) := by
  have hpos := List.length_pos_iff.mpr hpath
  rw [mkdirAll, if_neg (by omega)]
  exact mkdirLevels_runs _ _ s

/-! ## One thread -/

/-- How many calls of the system are left, at most. -/
def left : MkdirPc → Nat
  | .looking _ rest => 2 * rest.length + 2
  | .making _ rest => 2 * rest.length + 1
  | .returned _ => 0

/-- A level that is sought takes at most two calls for each byte that is left, and two more. -/
theorem left_seek_le (done rest : List UInt8) : (seek done rest).left ≤ 2 * rest.length + 2 := by
  induction rest generalizing done with
  | nil => exact Nat.le_refl _
  | cons c rest ih =>
    rw [seek]
    split
    · exact Nat.le_refl _
    · exact Nat.le_trans (ih _) (by rw [List.length_cons]; omega)

/-- After a level there are at most two calls for each byte that is left. -/
theorem left_pass_le (done rest : List UInt8) : (pass done rest).left ≤ 2 * rest.length := by
  cases rest with
  | nil => exact Nat.le_refl 0
  | cons c rest => exact Nat.le_trans (left_seek_le _ rest) (by rw [List.length_cons]; omega)

/-- A whole call takes at most two calls of the system for each byte of its path, and two more. -/
theorem left_start_le (path : List UInt8) : (start path).left ≤ 2 * path.length + 2 := by
  have hlen := (List.dropWhile_sublist (fsIsSep .posix) (l := path)).length_le
  exact Nat.le_trans (left_seek_le _ _) (by omega)

/-- Every call of the system brings the end nearer. -/
theorem left_next {pc pc' : MkdirPc} {s s' : FsState} (h : pc.next w s = some (pc', s')) : pc'.left < pc.left := by
  unfold next at h
  split at h
  · rename_i done rest
    split at h
    · cases h
      exact Nat.lt_of_le_of_lt (left_pass_le done rest) (by rw [left]; omega)
    · cases h
      exact Nat.lt_succ_self _
  · rename_i done rest
    split at h
    · cases h
      exact Nat.lt_of_le_of_lt (left_pass_le done rest) (by rw [left]; omega)
    · cases h
      exact Nat.succ_pos _
  · cases h

/-- A call that has not returned has a next step. -/
theorem next_ne_none {pc : MkdirPc} (h : ∀ ok, pc ≠ .returned ok) (s : FsState) : pc.next w s ≠ none := by
  unfold next
  split
  · split <;> simp
  · split <;> simp
  · rename_i ok
    exact absurd rfl (h ok)

/-- What a thread knows: everything before the level that it is at is a directory, that one is missing if it is about to make it, and
once it has returned it has returned true, and its path is a directory. -/
inductive Sound (w : World) (t : Tree) (path : List UInt8) : MkdirPc → Prop where
  | looking {done rest : List UInt8} (hprep : Prepared w t done) (hne : done ≠ []) (hpath : done ++ rest = path)
    (hlevels : ∀ q ∈ levelsFrom done rest, q ∈ levels path) (hrest : ∀ c more, rest = c :: more → c = 47) :
    Sound w t path (.looking done rest)
  | making {done rest : List UInt8} (hprep : Prepared w t done) (hne : done ≠ []) (hpath : done ++ rest = path)
    (hlevels : ∀ q ∈ levelsFrom done rest, q ∈ levels path) (hrest : ∀ c more, rest = c :: more → c = 47)
    (hmissing : t.node (w.place done) = none) : Sound w t path (.making done rest)
  | returned (hleads : Leads w t path) : Sound w t path (.returned true)

variable {t : Tree} {path : List UInt8}

/-- A call that seeks the next level below prepared ones stands soundly. -/
theorem sound_seek {done rest : List UInt8} (hprep : Prepared w t done)
    (hne : done ≠ [] ∨ ∃ c more, rest = c :: more ∧ c ≠ 47) (hpath : done ++ rest = path)
    (hlevels : ∀ q ∈ levelsFrom done rest, q ∈ levels path) : Sound w t path (seek done rest) := by
  induction rest generalizing done with
  | nil =>
    have hdone : done ≠ [] := begun_at_end hne
    exact .looking hprep hdone hpath hlevels fun c more h => by cases h
  | cons c rest ih =>
    rw [seek]
    by_cases hc : c = 47
    · have hdone : done ≠ [] := begun_at_sep hc hne
      rw [if_pos (by simpa [fsIsSep] using hc)]
      refine .looking hprep hdone hpath hlevels fun c' more h => ?_
      obtain ⟨rfl, _⟩ := List.cons.inj h
      exact hc
    · rw [if_neg (by simpa [fsIsSep] using hc)]
      refine ih (hprep.char hc) (Or.inl (by simp)) (by simpa using hpath) fun q hq => hlevels q ?_
      rw [levelsFrom, if_neg hc]
      exact hq

/-- So does one that has passed a level. -/
theorem sound_pass {done rest : List UInt8} (hleads : Leads w t done) (hpath : done ++ rest = path)
    (hlevels : ∀ q ∈ levelsFrom done rest, q ∈ levels path) (hrest : ∀ c more, rest = c :: more → c = 47) :
    Sound w t path (pass done rest) := by
  cases rest with
  | nil =>
    rw [List.append_nil] at hpath
    exact .returned (hpath ▸ hleads)
  | cons c rest =>
    obtain rfl := hrest c rest rfl
    refine sound_seek hleads.sep (Or.inl (by simp)) (by simpa [fsSep] using hpath) fun q hq => hlevels q ?_
    rw [levelsFrom, if_pos rfl]
    exact List.mem_cons_of_mem _ hq

/-- So does one that starts. -/
theorem sound_start (hstart : t.isDir (w.start path) = true) (hpath : path ≠ []) : Sound w t path (start path) := by
  rw [start, posix_isSep]
  refine sound_seek (prepared_leading hstart) (leading_ne hpath) List.takeWhile_append_dropWhile fun q hq => ?_
  exact hq

/-- What others make does not matter to a thread that is not about to make the same directory. -/
theorem Sound.mono {pc : MkdirPc} {u : Tree} (h : Sound w t path pc) (hle : t ≤ u)
    (hkept : ∀ m, pc.makingAt w = some m → u.node m = t.node m) : Sound w u path pc := by
  cases h with
  | looking hprep hne hpath hlevels hrest => exact .looking (hprep.mono hle) hne hpath hlevels hrest
  | making hprep hne hpath hlevels hrest hmissing =>
    exact .making (hprep.mono hle) hne hpath hlevels hrest ((hkept _ rfl).trans hmissing)
  | returned hleads => exact .returned (hleads.mono hle)

/-- What a step of a thread does: it stays sound, and nothing is new but a directory that it was about to make. -/
structure StepDone (w : World) (path : List UInt8) (pc pc' : MkdirPc) (s s' : FsState) : Prop where
  sound : Sound w s'.tree path pc'
  le : s.tree ≤ s'.tree
  new : ∀ m, s'.tree.node m ≠ s.tree.node m → pc.makingAt w = some m ∧ s'.tree.node m = some .dir
  making : ∀ m, pc'.makingAt w = some m → pc.lookingAt w = some m
  calls : s.calls ≤ s'.calls

/-- A call that seeks a level is not about to make one. -/
theorem makingAt_seek (done rest : List UInt8) : (seek done rest).makingAt w = none := by
  induction rest generalizing done with
  | nil => rfl
  | cons c rest ih =>
    rw [seek]
    split
    · rfl
    · exact ih _

/-- Nor is one that has passed a level. -/
theorem makingAt_pass (done rest : List UInt8) : (pass done rest).makingAt w = none := by
  cases rest with
  | nil => rfl
  | cons c rest => exact makingAt_seek _ rest

/-- What stands before a separator, or before the end, is a level. -/
theorem mem_levelsFrom_self {done rest : List UInt8} (hrest : ∀ c more, rest = c :: more → c = 47) : done ∈ levelsFrom done rest := by
  cases rest with
  | nil => exact List.mem_singleton.mpr rfl
  | cons c rest =>
    rw [levelsFrom, if_pos (hrest c rest rfl)]
    exact List.mem_cons_self

/-- What one step of a call does, in a tree in which its path is not blocked. -/
theorem next_spec {pc pc' : MkdirPc} {s s' : FsState} (hworks : w.WorksFrom s.calls) (hlinks : NoLinks s.tree)
    (hfree : ¬ Blocked w s.tree path) (hsound : Sound w s.tree path pc) (h : pc.next w s = some (pc', s')) :
    StepDone w path pc pc' s s' := by
  have hcalls : s.calls ≤ s.tick.calls := Nat.le_succ _
  cases hsound with
  | looking hprep hne hpath hlevels hrest =>
    rename_i done rest
    rw [next, pathIsDir_eq hworks] at h
    cases hprep.level hlinks hne with
    | there hleads =>
      have hresolve : w.resolve s.tree done = some (w.place done) := by rw [World.resolve, hleads.1, Option.map_some]
      rw [hresolve, Option.any_some, hleads.2] at h
      cases h
      refine ⟨sound_pass hleads hpath hlevels hrest, FileTree.le_refl _, fun m hm => absurd rfl hm, fun m hm => ?_, hcalls⟩
      rw [makingAt_pass] at hm
      cases hm
    | missing l n hplace hslot hstrip hl hn hresolve =>
      rw [hresolve, Option.any_none] at h
      cases h
      exact ⟨.making hprep hne hpath hlevels hrest (hplace ▸ hn), FileTree.le_refl _, fun m hm => absurd rfl hm, fun m hm => hm,
        hcalls⟩
    | other l n hplace hslot hstrip hn hdir hresolve =>
      refine absurd ⟨done, hlevels done (mem_levelsFrom_self hrest), ?_⟩ hfree
      rw [hplace]
      exact ⟨hn, fun h => by rw [FileTree.isDir_iff.mpr h] at hdir; cases hdir⟩
  | making hprep hne hpath hlevels hrest hmissing =>
    rename_i done rest
    cases hprep.level hlinks hne with
    | there hleads =>
      rw [FileTree.isDir_iff.mp hleads.2] at hmissing
      cases hmissing
    | missing l n hplace hslot hstrip hl hn hresolve =>
      rw [next, mkdir_missing hworks hslot hstrip hl hn] at h
      cases h
      obtain ⟨hleads, hnew⟩ := hprep.made hlinks hne hplace hl hn
      refine ⟨sound_pass hleads hpath hlevels hrest, s.tree.le_addDir l n, fun m hm => ?_, fun m hm => ?_, hcalls⟩
      · exact ⟨by rw [makingAt, (hnew m hm).1], (hnew m hm).2⟩
      · rw [makingAt_pass] at hm
        cases hm
    | other l n hplace hslot hstrip hn hdir hresolve => exact absurd (hplace ▸ hmissing) hn
  | returned hleads => cases h

end MkdirPc

/-! ## Threads -/

/-- A call with its own error record. -/
structure MkdirThread where
  pc : MkdirPc
  error : Option CprError

/-- Threads on one file system. -/
structure MkdirState (ι : Type) where
  tree : Tree
  calls : Nat
  threads : ι → MkdirThread

variable {ι : Type} [DecidableEq ι]

/-- What a thread sees. -/
def MkdirState.view (s : MkdirState ι) (i : ι) : FsState := ⟨s.tree, s.calls, (s.threads i).error⟩

/-- A thread makes its next call of the system. -/
def MkdirState.next (w : World) (s : MkdirState ι) (i : ι) : Option (MkdirState ι) :=
  ((s.threads i).pc.next w (s.view i)).map fun r =>
    { tree := r.2.tree
      calls := r.2.calls
      threads := Function.update s.threads i ⟨r.1, r.2.error⟩ }

/-- One call of `cpr_mkdir_all` in each thread, about to begin. -/
def mkdirSystem (w : World) (paths : ι → List UInt8) (before : FsState) : System (MkdirState ι) ι :=
  .ofNext (fun s => s = ⟨before.tree, before.calls, fun i => ⟨.start (paths i), before.error⟩⟩) (MkdirState.next w)

/-- A thread looks at no directory that another one has found missing and not made yet. -/
def Apart (w : World) (s : MkdirState ι) (i : ι) : Prop :=
  ∀ j, j ≠ i → (s.threads i).pc.lookingAt w ≠ none → (s.threads j).pc.makingAt w ≠ (s.threads i).pc.lookingAt w

instance [Fintype ι] (w : World) (s : MkdirState ι) (i : ι) : Decidable (Apart w s i) :=
  inferInstanceAs (Decidable (∀ j, j ≠ i → _ ≠ none → _ ≠ _))

omit [DecidableEq ι] in
/-- While a thread looks at a place, no other is about to make that place. -/
theorem Apart.ne {w : World} {s : MkdirState ι} {i j : ι} {m : Place} (h : Apart w s i) (hj : j ≠ i)
    (hm : (s.threads i).pc.lookingAt w = some m) : (s.threads j).pc.makingAt w ≠ some m := by
  have hne := h j hj (by rw [hm]; simp)
  rwa [hm] at hne

/-- What every step of threads that stay apart keeps. -/
structure MkdirState.Fine (w : World) (paths : ι → List UInt8) (s : MkdirState ι) : Prop where
  works : w.WorksFrom s.calls
  links : NoLinks s.tree
  free : ∀ i, ¬ Blocked w s.tree (paths i)
  sound : ∀ i, (s.threads i).pc.Sound w s.tree (paths i)
  apart : ∀ i j m, i ≠ j → (s.threads i).pc.makingAt w = some m → (s.threads j).pc.makingAt w ≠ some m

/-- A step of a thread that is apart from the others keeps all of them fine. -/
theorem MkdirState.Fine.next {w : World} {paths : ι → List UInt8} {s s' : MkdirState ι} {i : ι} (hs : s.Fine w paths)
    (hapart : Apart w s i) (h : s.next w i = some s') : s'.Fine w paths := by
  obtain ⟨⟨pc', v⟩, hnext, rfl⟩ := Option.map_eq_some_iff.mp h
  have hdone := MkdirPc.next_spec (s := s.view i) hs.works hs.links (hs.free i) (hs.sound i) hnext
  have hnew : ∀ m, v.tree.node m ≠ s.tree.node m → (s.threads i).pc.makingAt w = some m ∧ v.tree.node m = some .dir := hdone.new
  have hself : Function.update s.threads i ⟨pc', v.error⟩ i = ⟨pc', v.error⟩ := Function.update_self _ _ _
  have hother : ∀ j, j ≠ i → Function.update s.threads i ⟨pc', v.error⟩ j = s.threads j := fun j hj => Function.update_of_ne hj _ _
  refine ⟨hs.works.mono hdone.calls, hs.links.of_new fun m hm => (hnew m hm).2, fun j => ?_, fun j => ?_, fun j k m hjk => ?_⟩
  · rintro ⟨q, hq, hnone, hdir⟩
    have hsame : v.tree.node (w.place q) = s.tree.node (w.place q) := by_contra fun h => hdir (hnew _ h).2
    exact hs.free j ⟨q, hq, hsame ▸ hnone, hsame ▸ hdir⟩
  · by_cases hj : j = i
    · subst hj
      simp only [hself]
      exact hdone.sound
    · simp only [hother j hj]
      refine (hs.sound j).mono hdone.le fun m hm => ?_
      by_contra hchanged
      exact hs.apart i j m (fun h => hj h.symm) (hnew m hchanged).1 hm
  · by_cases hj : j = i
    · subst hj
      simp only [hself, hother k fun h => hjk h.symm]
      exact fun hm => hapart.ne (fun h => hjk h.symm) (hdone.making m hm)
    · by_cases hk : k = i
      · subst hk
        simp only [hself, hother j hj]
        exact fun hm hm' => hapart.ne hj (hdone.making m hm') hm
      · simp only [hother j hj, hother k hk]
        exact hs.apart j k m hjk

omit [DecidableEq ι] in
/-- Before any step all threads are fine. -/
theorem MkdirState.fine_start {w : World} {paths : ι → List UInt8} {before : FsState} (hworks : w.WorksFrom before.calls)
    (hlinks : NoLinks before.tree) (hstart : ∀ i, before.tree.isDir (w.start (paths i)) = true) (hpaths : ∀ i, paths i ≠ [])
    (hfree : ∀ i, ¬ Blocked w before.tree (paths i)) :
    MkdirState.Fine w paths ⟨before.tree, before.calls, fun i => ⟨.start (paths i), before.error⟩⟩ where
  works := hworks
  links := hlinks
  free := hfree
  sound i := MkdirPc.sound_start (hstart i) (hpaths i)
  apart i j m _ hm := by
    have hnone : (MkdirPc.start (paths i)).makingAt w = none := MkdirPc.makingAt_seek _ _
    rw [hnone] at hm
    cases hm

/-- A thread makes only so many calls of the system. -/
theorem count_le {w : World} {paths : ι → List UInt8} {before : FsState} {s u : MkdirState ι} {es : List ι}
    (hs : (mkdirSystem w paths before).init s) (hrun : (mkdirSystem w paths before).Run s es u) (i : ι) :
    (u.threads i).pc.left + es.count i ≤ 2 * (paths i).length + 2 := by
  induction hrun with
  | nil =>
    obtain rfl := hs
    exact MkdirPc.left_start_le _
  | snoc hr hst ih =>
    rename_i t u es e
    obtain ⟨⟨pc', v⟩, hnext, rfl⟩ := Option.map_eq_some_iff.mp (show t.next w e = some u from hst)
    have hless := MkdirPc.left_next hnext
    rw [List.count_append, List.count_singleton]
    by_cases he : e = i
    · subst he
      simp only [Function.update_self, beq_self_eq_true, if_true]
      omega
    · simp only [Function.update_of_ne (fun h : i = e => he h.symm), beq_iff_eq, he, if_false, Nat.add_zero]
      exact ih

/-- Calls of `cpr_mkdir_all` side by side, whose paths are not blocked, all return true, and leave directories at their paths, if no
call looks at a directory while another one has found it missing and not made it yet. Each call makes only so many calls of the
system, and as long as one has not returned some call can go on. -/
theorem mkdirs_succeed (w : World) (paths : ι → List UInt8) (before : FsState) (hworks : w.WorksFrom before.calls)
    (hlinks : NoLinks before.tree) (hstart : ∀ i, before.tree.isDir (w.start (paths i)) = true)
    (hpaths : ∀ i, paths i ≠ [] ∧ (paths i).length < fsPathMax) (hfree : ∀ i, ¬ Blocked w before.tree (paths i))
    {s u : MkdirState ι} {es : List ι} (hs : (mkdirSystem w paths before).init s)
    (hrun : ((mkdirSystem w paths before).restrict (Apart w)).Run s es u) :
    (∀ i ok, (u.threads i).pc = .returned ok →
        ok = true ∧ w.resolve u.tree (paths i) = some (w.place (paths i)) ∧ u.tree.isDir (w.place (paths i)) = true) ∧
      (∀ i, es.count i ≤ 2 * (paths i).length + 2) ∧
      ((∃ i, ∀ ok, (u.threads i).pc ≠ .returned ok) →
        ∃ i v, ((mkdirSystem w paths before).restrict (Apart w)).step u i v) := by
  obtain rfl := hs
  have hstep : ∀ s i t, s.Fine w paths → ((mkdirSystem w paths before).restrict (Apart w)).step s i t → t.Fine w paths :=
    fun s i t hs hst => hs.next hst.2 hst.1
  have hfine := hrun.keeps hstep (MkdirState.fine_start hworks hlinks hstart (fun i => (hpaths i).1) hfree)
  refine ⟨fun i ok hok => ?_, fun i => ?_, ?_⟩
  · have hsound := hfine.sound i
    rw [hok] at hsound
    cases hsound with
    | returned hleads => exact ⟨rfl, by rw [World.resolve, hleads.1, Option.map_some], hleads.2⟩
  · have hbase : ∀ s i t, ((mkdirSystem w paths before).restrict (Apart w)).step s i t → (mkdirSystem w paths before).step s i t :=
      fun _ _ _ h => h.1
    have hcount := count_le rfl (hrun.mono hbase) i
    omega
  · rintro ⟨i, hi⟩
    have hgo : ∀ j, (∀ ok, (u.threads j).pc ≠ .returned ok) → Apart w u j →
        ∃ i v, ((mkdirSystem w paths before).restrict (Apart w)).step u i v := by
      intro j hj hapart
      have hnext : u.next w j ≠ none := fun h => MkdirPc.next_ne_none hj (u.view j) (Option.map_eq_none_iff.mp h)
      obtain ⟨v, hv⟩ := Option.ne_none_iff_exists'.mp hnext
      exact ⟨j, v, hv, hapart⟩
    -- A thread that is about to make a directory can, and where there is none nobody is in the way.
    by_cases hmaking : ∃ j m, (u.threads j).pc.makingAt w = some m
    · obtain ⟨j, m, hm⟩ := hmaking
      refine hgo j (fun ok hok => ?_) fun k _ hlooking => ?_
      · rw [hok] at hm
        cases hm
      · cases hpc : (u.threads j).pc with
        | looking done rest =>
          rw [hpc] at hm
          cases hm
        | making done rest =>
          rw [hpc] at hlooking
          exact absurd rfl hlooking
        | returned ok =>
          rw [hpc] at hm
          cases hm
    · refine hgo i hi fun j _ hlooking hm => ?_
      obtain ⟨m, hlooking⟩ := Option.ne_none_iff_exists'.mp hlooking
      exact hmaking ⟨j, m, hm.trans hlooking⟩

/-- A file system with nothing in it. -/
def emptyTree : Tree := .ofEntries [] (by decide)

/-- Two calls make `a` and `a/b`, one after the other. -/
theorem mkdirs_succeed_apart :
    let w : World := ⟨40, [], fun _ => .lists nameA⟩
    let paths : Bool → List UInt8 := fun i => if i then [97, 47, 98] else [97]
    ∃ u : MkdirState Bool, (u.threads true).pc = .returned true ∧ u.tree.isDir (w.place [97, 47, 98]) = true ∧
      ((mkdirSystem w paths ⟨emptyTree, 0, none⟩).restrict (Apart w)).Run
        ⟨emptyTree, 0, fun i => ⟨.start (paths i), none⟩⟩ [false, false, true, true, true] u := by
  intro w paths
  have hlinks : NoLinks emptyTree := by
    intro m route hm
    by_cases hnil : m = []
    · rw [hnil, emptyTree.root] at hm
      cases hm
    · exact absurd (FileTree.ofEntries_mem (by decide) hm hnil) List.not_mem_nil
  have hfree : ∀ i, ¬ Blocked w emptyTree (paths i) := by
    unfold Blocked
    decide
  let next : MkdirState Bool → Bool → Option (MkdirState Bool) := fun s i => if Apart w s i then s.next w i else none
  obtain ⟨u, hu, hpc⟩ : ∃ u, System.replay next ⟨emptyTree, 0, fun i => ⟨.start (paths i), none⟩⟩ [false, false, true, true, true] =
      some u ∧ (u.threads true).pc = .returned true := ⟨_, rfl, rfl⟩
  have hrun : ((mkdirSystem w paths ⟨emptyTree, 0, none⟩).restrict (Apart w)).Run _ _ u := System.run_restrict_of_replay _ hu
  exact ⟨u, hpc, ((mkdirs_succeed w paths ⟨emptyTree, 0, none⟩ (fun _ _ => rfl) hlinks (by decide) (by decide) hfree rfl
    hrun).1 true true hpc).2.2, hrun⟩

/-- Two calls make `a`: both find it missing, one makes it, and the other fails. -/
theorem mkdirs_collide :
    let w : World := ⟨40, [], fun _ => .lists nameA⟩
    ∃ u : MkdirState Bool, (mkdirSystem w (fun _ => [97]) ⟨emptyTree, 0, none⟩).Run
        ⟨emptyTree, 0, fun _ => ⟨.start [97], none⟩⟩ [false, true, false, true] u ∧
      ¬ Blocked w emptyTree [97] ∧ (u.threads false).pc = .returned true ∧ (u.threads true).pc = .returned false := by
  refine ⟨_, System.run_of_replay _ rfl, ?_, by decide, by decide⟩
  unfold Blocked
  decide

end Copper.Fs
