import Copper.Defs
import Mathlib.Data.List.Basic

/-!
# Paths

The path functions of `fs.c`. A C string is the list of its bytes, without the NUL; a pointer to one may be NULL (`none`).
-/

namespace Copper.Fs

/-- `CPR_PLATFORM_WINDOWS`, or not. -/
inductive Platform where
  | posix
  | windows
  deriving DecidableEq, Repr

/-- `CPR_FS_PATH_MAX`. -/
def fsPathMax : Nat := 4096

/-- `CPR_FS_NAME_MAX`. -/
def fsNameMax : Nat := 256

/-- `CPR_FS_SEP`. -/
def fsSep : Platform → UInt8
  | .posix => 47
  | .windows => 92

/-- `cpr__fs_is_sep`. -/
def fsIsSep (platform : Platform) (c : UInt8) : Bool :=
  match platform with
  | .windows => c = 47 ∨ c = 92
  | .posix => c = 47

/-- On POSIX the separator is the slash. -/
theorem posix_isSep : fsIsSep .posix = fun c => decide (c = 47) := rfl

/-- `cpr_path_is_abs`; a byte past the end of the string reads as its NUL, which is no separator. -/
def pathIsAbs (platform : Platform) (path : Option (List UInt8)) : Bool :=
  match path with
  | none => false
  | some path =>
    let sepAt := fun i => (path[i]?).any (fsIsSep platform)
    match platform with
    | .windows => (sepAt 0 && sepAt 1) || (path[0]?.isSome && path[1]? = some 58 && sepAt 2)
    | .posix => path[0]? = some 47

/-- Where the loop of `cpr_path_basename` leaves `last`, for the rest of a path from position `i` on. -/
def lastName (platform : Platform) : List UInt8 → Nat → Nat → Nat
  | [], _, last => last
  | c :: p, i, last => lastName platform p (i + 1) (if fsIsSep platform c ∧ p ≠ [] then i + 1 else last)

/-- `cpr_path_basename`: the string that the pointer it returns points to. -/
def pathBasename (platform : Platform) (path : Option (List UInt8)) : Option (List UInt8) :=
  path.map fun path => path.drop (lastName platform path 0 0)

/-- `strrchr`, as an offset. -/
def strrchr (c : UInt8) : List UInt8 → Option Nat
  | [] => none
  | b :: s =>
    match strrchr c s with
    | some i => some (i + 1)
    | none => if b = c then some 0 else none

/-- `cpr_path_ext`: the string that the pointer it returns points to. -/
def pathExt (platform : Platform) (path : Option (List UInt8)) : Option (List UInt8) :=
  (pathBasename platform path).map fun base =>
    match strrchr 46 base with
    | some dot => if dot ≠ 0 then base.drop dot else []
    | none => []

/-- Where the loop of `cpr_path_dirname` leaves `last_sep`, for the rest of a path from position `i` on. -/
def lastSep (platform : Platform) : List UInt8 → Nat → Option Nat → Option Nat
  | [], _, last => last
  | c :: p, i, last => lastSep platform p (i + 1) (if fsIsSep platform c then some i else last)

/-- `cpr_path_dirname`; the state is the string that it leaves in the buffer, if it writes one. -/
def pathDirname (platform : Platform) (buf : OutArg) (path : Option (List UInt8)) : Outcome (Option (List UInt8)) Bool :=
  match buf, path with
  | .room bufSize, some path =>
    if bufSize = 0 then
      .fail none false .errInvalid "NULL argument"
    else
      match lastSep platform path 0 none with
      | none =>
        if bufSize < 2 then
          .fail none false .errOverflow "buffer too small"
        else
          { result := true, state := some [46] }
      | some i =>
        let len := if i = 0 then 1 else i
        if len + 1 > bufSize then
          .fail none false .errOverflow "buffer too small"
        else
          { result := true, state := some (path.take len) }
  | _, _ => .fail none false .errInvalid "NULL argument"

/-- Whether `cpr_path_join` puts a separator between `base` and `part`. -/
def needSep (platform : Platform) (base part : List UInt8) : Bool :=
  0 < base.length && !(base.getLast?.any (fsIsSep platform)) && 0 < part.length

/-- `base` and a relative `part`, joined. -/
def joined (platform : Platform) (base part : List UInt8) : List UInt8 :=
  base ++ (if needSep platform base part then [fsSep platform] else []) ++ part

/-- `cpr_path_join`; the state is the string that it leaves in the buffer, if it writes one. -/
def pathJoin (platform : Platform) (buf : OutArg) (base part : Option (List UInt8)) : Outcome (Option (List UInt8)) Bool :=
  match buf, base, part with
  | .room bufSize, some base, some part =>
    if bufSize = 0 then
      .fail none false .errInvalid "NULL argument"
    else if pathIsAbs platform (some part) then
      if part.length + 1 > bufSize then
        .fail none false .errOverflow "buffer too small"
      else
        { result := true, state := some part }
    else if base.length + (needSep platform base part).toNat + part.length + 1 > bufSize then
      .fail none false .errOverflow "buffer too small"
    else
      { result := true, state := some (joined platform base part) }
  | _, _, _ => .fail none false .errInvalid "NULL argument"

/-- The length of a joined path. -/
theorem length_joined (platform : Platform) (base part : List UInt8) :
    (joined platform base part).length = base.length + (needSep platform base part).toNat + part.length := by
  rw [joined, List.length_append, List.length_append]
  cases needSep platform base part <;> rfl

end Copper.Fs
