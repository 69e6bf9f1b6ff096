import Copper.Fs.Path
import Mathlib.Logic.Function.Basic

/-!
# Normalising a path

`cpr_normalize_path`, which writes its result to the buffer as it reads the path: a cursor into the buffer, and a stack of
positions to go back to. The indices it stores at and the positions its cursor takes are history that nothing reads.
-/

namespace Copper.Fs

/-- The capacity of `comp_ends`. -/
def compEndsMax : Nat := 256

/-- The memory from `buf` on, the cursor `out` as an offset into it, and `comp_ends` up to `ncomp`. The indices stored at in
the buffer, the positions of the cursor, and the indices used into `comp_ends`, are history. -/
structure NormState where
  buf : Nat → UInt8
  out : Nat := 0
  compEnds : List Nat := []
  stores : List Nat := []
  cursors : List Nat := []
  slots : List Nat := []

namespace NormState

/-- The bytes up to the cursor. -/
def text (s : NormState) : List UInt8 := (List.range s.out).map s.buf

/-- `*out++ = b`. -/
def emit (s : NormState) (b : UInt8) : NormState :=
  { s with
    buf := Function.update s.buf s.out b
    out := s.out + 1
    stores := s.stores ++ [s.out]
    cursors := s.cursors ++ [s.out + 1] }

/-- `memcpy` to the cursor, and the cursor past it: one byte after the other. -/
def copy (s : NormState) (bytes : List UInt8) : NormState := bytes.foldl emit s

/-- `out != buf && !cpr__fs_is_sep(*(out - 1))`. -/
def needsSep (s : NormState) (platform : Platform) : Bool := s.out ≠ 0 && !fsIsSep platform (s.buf (s.out - 1))

/-- A separator, where one is needed. -/
def separate (s : NormState) (platform : Platform) : NormState := if s.needsSep platform then s.emit (fsSep platform) else s

/-- `if (ncomp < 256) comp_ends[ncomp++] = position`. -/
def push (s : NormState) (position : Nat) : NormState :=
  if s.compEnds.length < compEndsMax then
    { s with compEnds := s.compEnds ++ [position], slots := s.slots ++ [s.compEnds.length] }
  else s

/-- `out = comp_ends[--ncomp]`, for a stack whose top is `position`. -/
def pop (s : NormState) (position : Nat) : NormState :=
  { s with
    out := position
    compEnds := s.compEnds.dropLast
    cursors := s.cursors ++ [position]
    slots := s.slots ++ [s.compEnds.length - 1] }

/-- What the loop does with the bytes between separators. -/
def component (s : NormState) (platform : Platform) (isAbs : Bool) (name : List UInt8) : NormState :=
  if name = [] ∨ name = [46] then s
  else if name = [46, 46] then
    match s.compEnds.getLast? with
    | some position => s.pop position
    | none =>
      if isAbs then s
      else
        let s := (s.separate platform).copy [46, 46]
        s.push s.out
  else ((s.separate platform).copy name).push s.out

/-- `*out = '\0'`, after the case of an empty result. -/
def terminate (s : NormState) (isAbs : Bool) : NormState :=
  let s := if (s.out = 0 ∨ s.out = 1 ∧ (s.buf 0 = 47 ∨ s.buf 0 = 92)) ∧ isAbs = false then s.emit 46 else s
  { s with buf := Function.update s.buf s.out 0, stores := s.stores ++ [s.out] }

end NormState

/-- The bytes up to a separator, and those from it on. -/
def spanName (platform : Platform) (p : List UInt8) : List UInt8 × List UInt8 :=
  (p.takeWhile fun c => !fsIsSep platform c, p.dropWhile fun c => !fsIsSep platform c)

def skipSeps (platform : Platform) (p : List UInt8) : List UInt8 := p.dropWhile (fsIsSep platform)

/-- What an absolute path starts with is copied; and what is left of the path. -/
def normalizePrefix (platform : Platform) (s : NormState) (p : List UInt8) : NormState × List UInt8 :=
  let sepAt := fun (p : List UInt8) i => (p[i]?).any (fsIsSep platform)
  match platform with
  | .windows =>
    if sepAt p 0 && sepAt p 1 then
      let (server, rest) := spanName platform (p.drop 2)
      let s := ((s.emit 92).emit 92).copy server
      let s := if rest = [] then s else s.emit 92
      let (share, rest) := spanName platform rest.tail
      (s.copy share, rest.tail)
    else if p[0]?.isSome && p[1]? = some 58 then
      let s := s.copy (p.take 2)
      let p := p.drop 2
      if sepAt p 0 then (s.emit 92, p.tail) else (s, p)
    else (s, p)
  | .posix => (s.emit 47, skipSeps platform p)

/-- The loop over the components of what is left of the path; `fuel` bounds their number. -/
def normalizeLoop (platform : Platform) (isAbs : Bool) : Nat → List UInt8 → NormState → NormState
  | 0, _, s => s
  | fuel + 1, p, s =>
    if p = [] then s
    else
      let (name, rest) := spanName platform p
      normalizeLoop platform isAbs fuel (skipSeps platform rest) (s.component platform isAbs name)

/-- `plen == 0 ? 2 : plen + 1`. -/
def minOut (path : List UInt8) : Nat := if path.length = 0 then 2 else path.length + 1

/-- What is written for a path that fits. -/
def normalized (platform : Platform) (mem : Nat → UInt8) (path : List UInt8) : NormState :=
  let isAbs := pathIsAbs platform (some path)
  let (s, p) := if isAbs then normalizePrefix platform { buf := mem } path else ({ buf := mem }, path)
  (normalizeLoop platform isAbs p.length p s).terminate isAbs

/-- `cpr_normalize_path`, on a buffer at which the memory is `mem`. -/
def normalizePath (platform : Platform) (mem : Nat → UInt8) (buf : OutArg) (path : Option (List UInt8)) : Outcome NormState Bool :=
  match buf, path with
  | .room bufSize, some path =>
    if bufSize = 0 then .fail { buf := mem } false .errInvalid "NULL argument"
    else if minOut path > bufSize then .fail { buf := mem } false .errOverflow "buffer too small"
    else
      { result := true, state := normalized platform mem path }
  | _, _ => .fail { buf := mem } false .errInvalid "NULL argument"

end Copper.Fs
