import Copper.Defs
import Mathlib.Data.Nat.Digits.Lemmas
import Mathlib.Logic.Function.Basic

/-!
# Files by name

The calls of `fs.c` that the file sink makes, over a store of files by name. An open file is the name it was opened under, since
nothing renames or removes a file while it is open, and what stdio still buffers counts as written. Which calls of the operating
system fail is up to `FileOs`; a call that fails leaves the store alone.
-/

namespace Copper

/-- The bytes of a path, without the NUL. -/
abbrev Path := List UInt8

abbrev Content := List UInt8

/-- The files that exist, by name. -/
abbrev Files := Path → Option Content

/-- What the operating system refuses, and how many of the bytes of a write it takes. -/
structure FileOs where
  openFails : Path → Bool
  removeFails : Path → Bool
  renameFails : Path → Path → Bool
  sizeFails : Path → Bool
  wrote : Nat → Nat

/-- Every call succeeds. -/
def FileOs.works : FileOs where
  openFails := fun _ => false
  removeFails := fun _ => false
  renameFails := fun _ _ => false
  sizeFails := fun _ => false
  wrote := id

/-- The modes of `CprFileMode`. -/
inductive FileMode where
  | read
  | write
  | append
  | readWrite
  deriving DecidableEq, Repr

/-- `cpr_remove_file`. -/
def removeFile (os : FileOs) (files : Files) (path : Path) : Outcome Files Bool :=
  if os.removeFails path ∨ files path = none then
    .fail files false .errIo "unlink failed"
  else
    { result := true, state := Function.update files path none }

/-- `cpr_fs_rename`: the new name is replaced. -/
def fsRename (os : FileOs) (files : Files) (oldPath newPath : Path) : Outcome Files Bool :=
  match files oldPath with
  | none => .fail files false .errIo "rename failed"
  | some c =>
    if os.renameFails oldPath newPath then
      .fail files false .errIo "rename failed"
    else
      { result := true, state := Function.update (Function.update files oldPath none) newPath (some c) }

/-- `cpr_open_file`: the modes that need a file to be there fail without one, writing truncates, appending creates. -/
def openFile (os : FileOs) (files : Files) (path : Path) (mode : FileMode) : Outcome Files (Option Path) :=
  if os.openFails path then
    .fail files none .errIo "fopen failed"
  else
    match mode with
    | .read | .readWrite =>
      if files path = none then
        .fail files none .errIo "fopen failed"
      else
        { result := some path, state := files }
    | .write => { result := some path, state := Function.update files path (some []) }
    | .append => { result := some path, state := Function.update files path (some ((files path).getD [])) }

/-- `cpr_write_file`, at the end of the file. -/
def writeFile (os : FileOs) (files : Files) (file : Option Path) (buf : Content) : Outcome Files Nat :=
  match file with
  | none => .fail files 0 .errInvalid "NULL argument"
  | some path =>
    let n := min (os.wrote buf.length) buf.length
    { result := n
      state := Function.update files path (some ((files path).getD [] ++ buf.take n))
      error := if n < buf.length then some ⟨.errIo, "write failed"⟩ else none }

/-- `cpr_file_size`. -/
def fileSize (os : FileOs) (files : Files) (file : Option Path) : Int :=
  match file with
  | none => -1
  | some path => if os.sizeFails path then -1 else ((files path).getD []).length

/-! ## Archive names -/

/-- What `%d` prints. -/
def decimal (n : Nat) : List UInt8 := if n = 0 then [48] else (Nat.digits 10 n).reverse.map fun d => UInt8.ofNat (48 + d)

/-- The name `path.i`. -/
def archivePath (path : Path) (i : Nat) : Path := path ++ 46 :: decimal i

/-- What `snprintf` leaves of it in a buffer of 512 bytes. -/
def archiveName (path : Path) (i : Nat) : Path := (archivePath path i).take 511

/-- The live file is slot zero, its archives are the slots from one on. -/
def slotPath (path : Path) : Nat → Path
  | 0 => path
  | i + 1 => archivePath path (i + 1)

/-- What the live file and its archives hold. -/
def slots (files : Files) (path : Path) : Nat → Option Content := files ∘ slotPath path

/-- The digits can be read back. -/
theorem map_decimal {n : Nat} (hn : 0 < n) : (decimal n).map (fun c => c.toNat - 48) = (Nat.digits 10 n).reverse := by
  rw [decimal, if_neg (Nat.ne_of_gt hn), List.map_map]
  have hback : ∀ d < 10, (UInt8.ofNat (48 + d)).toNat - 48 = d := by decide
  refine (List.map_congr_left fun d hd => ?_).trans (List.map_id _)
  exact hback d (Nat.digits_lt_base (m := n) (by omega) (List.mem_reverse.mp hd))

/-- Different numbers print differently. -/
theorem decimal_injective {m n : Nat} (hm : 0 < m) (hn : 0 < n) (h : decimal m = decimal n) : m = n := by
  have hdigits := congrArg (List.map fun c : UInt8 => c.toNat - 48) h
  rw [map_decimal hm, map_decimal hn] at hdigits
  exact Nat.digits.injective 10 (List.reverse_injective hdigits)

/-- A number below `10 ^ k` prints in at most `k` characters. -/
theorem length_decimal_le {n k : Nat} (hk : 0 < k) (hn : n < 10 ^ k) : (decimal n).length ≤ k := by
  unfold decimal
  split
  · exact hk
  · rw [List.length_map, List.length_reverse]
    exact (Nat.digits_length_le_iff (by omega) n).mpr hn

/-- Different slots have different names. -/
theorem slotPath_injective (path : Path) : Function.Injective (slotPath path) := by
  intro i j h
  cases i with
  | zero =>
    cases j with
    | zero => rfl
    | succ j =>
      have hlen := congrArg List.length h
      simp [slotPath, archivePath] at hlen
  | succ i =>
    cases j with
    | zero =>
      have hlen := congrArg List.length h
      simp [slotPath, archivePath] at hlen
    | succ j =>
      simp only [slotPath, archivePath, List.append_cancel_left_eq, List.cons.injEq, true_and] at h
      exact decimal_injective (Nat.succ_pos i) (Nat.succ_pos j) h

/-- Names that fit the buffer are not cut. -/
theorem archiveName_eq {path : Path} {i : Nat} (h : (archivePath path (i + 1)).length < 512) :
    archiveName path (i + 1) = slotPath path (i + 1) := List.take_of_length_le (by omega)

end Copper
