import Copper.Fs.WriteFile

/-!
# Copying a file

`cpr_fs_copy` and what it calls, over the calls of the C library. How often its loop runs is bounded by `fuel`.
-/

namespace Copper.Fs

/-- The calls that copying makes besides; `unlink` says whether it removed the name. -/
structure CopyIo (σ φ : Type) extends Stdio σ φ where
  fread : φ → Nat → σ → Content × σ
  feof : φ → σ → Bool
  ferror : φ → σ → Bool
  unlink : Path → σ → Bool × σ

namespace CopyIo

variable {σ φ : Type}

/-- `cpr_read_file`: what it puts into `buf`. -/
def readFile (io : CopyIo σ φ) (file : Option φ) (buf : OutArg) (s : σ) : Outcome σ Content :=
  match file, buf with
  | some fp, .room size =>
    let (data, s) := io.fread fp size s
    { result := data
      state := s
      error := if data.length < size ∧ io.ferror fp s = true then some ⟨.errIo, "read failed"⟩ else none }
  | _, _ => .fail s [] .errInvalid "NULL argument"

/-- `cpr_close_file`. -/
def closeFile (io : CopyIo σ φ) (file : Option φ) (s : σ) : σ :=
  match file with
  | none => s
  | some fp => io.fclose fp s

/-- `cpr_file_eof`. -/
def fileEof (io : CopyIo σ φ) (file : Option φ) (s : σ) : Bool :=
  match file with
  | none => false
  | some fp => io.feof fp s

/-- `cpr_remove_file`. -/
def removeFile (io : CopyIo σ φ) (path : Option Path) (s : σ) : Outcome σ Bool :=
  match path with
  | none => .fail s false .errInvalid "path is NULL"
  | some path =>
    match io.unlink path s with
    | (true, s) => { result := true, state := s }
    | (false, s) => .fail s false .errIo "unlink failed"

/-- `sizeof(buf)`. -/
def chunk : Nat := 8192

/-- The loop of `cpr_fs_copy`: `ok`, as it leaves it. -/
def copyLoop (io : CopyIo σ φ) (inp out : φ) : Nat → Option CprError → σ → Option (Outcome σ Bool)
  | 0, _, _ => none
  | fuel + 1, error, s =>
    let read := io.readFile (some inp) (.room chunk) s
    if 0 < read.result.length then
      let wrote := writeFile io.toStdio (some out) (.bytes read.result) read.state
      if wrote.result ≠ read.result.length then
        some { result := false, state := wrote.state, error := wrote.error.or (read.error.or error) }
      else
        copyLoop io inp out fuel (wrote.error.or (read.error.or error)) wrote.state
    else
      some { result := true, state := read.state, error := read.error.or error }

/-- What `cpr_fs_copy` does once its loop has left `ok`. -/
def finishCopy (io : CopyIo σ φ) (inp out : φ) (dstPath : Path) (copied : Outcome σ Bool) : Outcome σ Bool :=
  let ok := copied.result && io.fileEof (some inp) copied.state
  let s := io.closeFile (some out) (io.closeFile (some inp) copied.state)
  if ok then
    { result := true, state := s, error := copied.error }
  else
    let removed := io.removeFile (some dstPath) s
    { result := false, state := removed.state, error := removed.error.or copied.error }

/-- `cpr_fs_copy`. -/
def fsCopy (io : CopyIo σ φ) (fuel : Nat) (srcPath dstPath : Option Path) (s : σ) : Option (Outcome σ Bool) :=
  match srcPath, dstPath with
  | some src, some dst =>
    let opened := openFile io.toStdio (some src) .read s
    match opened.result with
    | none => some { result := false, state := opened.state, error := opened.error }
    | some inp =>
      let created := openFile io.toStdio (some dst) .write opened.state
      match created.result with
      | none => some { result := false, state := io.closeFile (some inp) created.state, error := created.error }
      | some out => (io.copyLoop inp out fuel none created.state).map (io.finishCopy inp out dst)
  | _, _ => some (.fail s false .errInvalid "NULL argument")

end CopyIo

end Copper.Fs
