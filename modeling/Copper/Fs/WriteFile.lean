import Copper.Log.Files

/-!
# Writing a whole file

`cpr_write_file_all` and what it calls, over the calls of the C library on a state of the system (`Stdio`). Opening a file
also needs memory for its handle, and a file that was opened, and so truncated, stays so without.
-/

namespace Copper.Fs

/-- The calls of the C library: what they return on a state of the system, and the state they leave. -/
structure Stdio (σ φ : Type) where
  fopen : Path → FileMode → σ → Option φ × σ
  malloc : σ → Bool × σ
  fwrite : φ → Content → σ → Nat × σ
  fclose : φ → σ → σ

variable {σ φ : Type}

/-- `cpr_open_file`, in a valid mode. -/
def openFile (io : Stdio σ φ) (path : Option Path) (mode : FileMode) (s : σ) : Outcome σ (Option φ) :=
  match path with
  | none => .fail s none .errInvalid "path is NULL"
  | some path =>
    match io.fopen path mode s with
    | (none, s) => .fail s none .errIo "fopen failed"
    | (some fp, s) =>
      match io.malloc s with
      | (false, s) => .fail (io.fclose fp s) none .errOom "out of memory"
      | (true, s) => { result := some fp, state := s }

/-- `cpr_write_file`. -/
def writeFile (io : Stdio σ φ) (file : Option φ) (buf : DataArg) (s : σ) : Outcome σ Nat :=
  match file, buf with
  | some fp, .bytes buf =>
    let (n, s) := io.fwrite fp buf s
    { result := n, state := s, error := if n < buf.length then some ⟨.errIo, "write failed"⟩ else none }
  | _, _ => .fail s 0 .errInvalid "NULL argument"

/-- `cpr_write_file_all`. -/
def writeFileAll (io : Stdio σ φ) (path : Option Path) (data : DataArg) (s : σ) : Outcome σ Bool :=
  match path with
  | none => .fail s false .errInvalid "NULL argument"
  | some path =>
    if data.missing then
      .fail s false .errInvalid "NULL argument"
    else
      let opened := openFile io (some path) .write s
      match opened.result with
      | none => { result := false, state := opened.state, error := opened.error }
      | some file =>
        let written := writeFile io (some file) data opened.state
        { result := data.size ≤ written.result
          state := io.fclose file written.state
          error := written.error.or opened.error }

end Copper.Fs
