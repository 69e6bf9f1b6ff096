import Copper.Fs.Copied

/-!
# Where a handle stands

`cpr_seek_file`, `cpr_tell_file`, `cpr_file_size`, `cpr_flush_file`, `cpr_read_file_all` and `cpr_fs_rename`, over the calls of the C
library that they add to those of a copy. The size of a file is found by going to its end and back; what waits in the stream goes to
the file first, so that it counts.
-/

namespace Copper.Fs

/-- `CprFileSeek`. -/
inductive FileSeek where
  | fromStart
  | fromCurrent
  | fromEnd
  deriving DecidableEq, Repr

/-- The calls that these need besides: whether `fseeko`, `fflush` and `rename` return 0, and what `ftello` returns. -/
structure FileIo (σ φ : Type) extends CopyIo σ φ where
  fseeko : φ → Int → FileSeek → σ → Bool × σ
  ftello : φ → σ → Int × σ
  fflush : φ → σ → Bool × σ
  rename : Path → Path → σ → Bool × σ

namespace FileIo

variable {σ φ : Type}

/-- `cpr_seek_file`. -/
def seekFile (io : FileIo σ φ) (file : Option φ) (offset : Int) (from_ : FileSeek) (s : σ) : Outcome σ Bool :=
  match file with
  | none => .fail s false .errInvalid "NULL file"
  | some fp =>
    match io.fseeko fp offset from_ s with
    | (true, s) => { result := true, state := s }
    | (false, s) => .fail s false .errIo "seek failed"

/-- `cpr_tell_file`. -/
def tellFile (io : FileIo σ φ) (file : Option φ) (s : σ) : Outcome σ Int :=
  match file with
  | none => .fail s (-1) .errInvalid "NULL file"
  | some fp =>
    let (pos, s) := io.ftello fp s
    { result := pos, state := s, error := if pos < 0 then some ⟨.errIo, "tell failed"⟩ else none }

/-- `cpr_file_size`; whether it gets back to where it was does not show in what it returns. -/
def fileSize (io : FileIo σ φ) (file : Option φ) (s : σ) : Outcome σ Int :=
  match file with
  | none => .fail s (-1) .errInvalid "NULL file"
  | some fp =>
    let cur := io.tellFile (some fp) s
    if cur.result < 0 then
      { result := -1, state := cur.state, error := cur.error }
    else
      let atEnd := io.seekFile (some fp) 0 .fromEnd cur.state
      if atEnd.result = false then
        { result := -1, state := atEnd.state, error := atEnd.error.or cur.error }
      else
        let size := io.tellFile (some fp) atEnd.state
        let back := io.seekFile (some fp) cur.result .fromStart size.state
        { result := size.result, state := back.state, error := back.error.or (size.error.or (atEnd.error.or cur.error)) }

/-- `cpr_flush_file`. -/
def flushFile (io : FileIo σ φ) (file : Option φ) (s : σ) : Outcome σ Bool :=
  match file with
  | none => .fail s false .errInvalid "NULL file"
  | some fp =>
    match io.fflush fp s with
    | (true, s) => { result := true, state := s }
    | (false, s) => .fail s false .errIo "flush failed"

/-- What `cpr_read_file_all` leaves: what it returns, what it puts into `buf`, and into `*out_size`. -/
structure ReadAll where
  ok : Bool
  data : Content
  outSize : Option Nat
  deriving DecidableEq, Repr

/-- `cpr_read_file_all`; `out_size` may be NULL. -/
def readFileAll (io : FileIo σ φ) (path : Option Path) (buf : OutArg) (outSize : Bool) (s : σ) : Outcome σ ReadAll :=
  match path, buf with
  | some path, .room bufSize =>
    let opened := openFile io.toStdio (some path) .read s
    match opened.result with
    | none => { result := ⟨false, [], none⟩, state := opened.state, error := opened.error }
    | some f =>
      let sz := io.fileSize (some f) opened.state
      if sz.result < 0 then
        { result := ⟨false, [], none⟩, state := io.closeFile (some f) sz.state, error := sz.error.or opened.error }
      else if (bufSize : Int) < sz.result then
        .fail (io.closeFile (some f) sz.state) ⟨false, [], none⟩ .errOverflow "file too large for buffer"
      else
        let read := io.readFile (some f) (.room sz.result.toNat) sz.state
        let s := io.closeFile (some f) read.state
        let n := read.result.length
        let size := if outSize then some n else none
        if n < sz.result.toNat then
          .fail s ⟨false, read.result, size⟩ .errIo "short read"
        else
          { result := ⟨true, read.result, size⟩, state := s, error := read.error.or (sz.error.or opened.error) }
  | _, _ => .fail s ⟨false, [], none⟩ .errInvalid "NULL argument"

/-- `cpr_fs_rename`. -/
def fsRename (io : FileIo σ φ) (oldPath newPath : Option Path) (s : σ) : Outcome σ Bool :=
  match oldPath, newPath with
  | some old, some new =>
    match io.rename old new s with
    | (true, s) => { result := true, state := s }
    | (false, s) => .fail s false .errIo "rename failed"
  | _, _ => .fail s false .errInvalid "NULL argument"

end FileIo

/-! ## The calls on a stream -/

/-- A file takes another name, and the one that had it loses it; two names of one file stay as they are. -/
def Disk.rename (d : Disk) (old new : Path) : Disk :=
  match h : d.names old with
  | none => d
  | some i =>
    if d.names new = some i then d
    else
      { names := Function.update (Function.update d.names old none) new (some i)
        contents := d.contents
        fresh := d.fresh
        named := by
          intro p j hp
          rw [Function.update_apply] at hp
          split at hp
          · cases hp
            exact d.named old i h
          · rw [Function.update_apply] at hp
            split at hp
            · cases hp
            · exact d.named p j hp }

/-- A stream was asked where it is once more. -/
def StdioState.told (s : StdioState) (h : Nat) : StdioState := s.setStream h { s.streams h with tells := (s.streams h).tells + 1 }

/-- What the system refuses besides: to say where a stream is, the first time it is asked or a later one, to move it, part of what a
flush finds waiting once so many bytes were written, and to rename. -/
structure HandleFates extends Fates where
  tellFails : Nat → Nat → Bool
  seekFails : Nat → Int → FileSeek → Bool
  flushes : Nat → Nat → Nat
  renameFails : Path → Path → Bool

namespace HandleFates

variable (f : HandleFates)

/-- `fflush`. -/
def fflush (h : Nat) (s : StdioState) : Bool × StdioState :=
  let b := (s.streams h).buffer
  let n := min (f.flushes h b.count) b.held.length
  (decide (n = b.held.length),
    s.deliver h (b.held.take n) ⟨b.held.drop n, b.count⟩ ((s.streams h).err || decide (n < b.held.length)))

/-- `ftello`. -/
def ftello (h : Nat) (s : StdioState) : Int × StdioState :=
  (if f.tellFails h (s.streams h).tells then -1 else (s.streams h).pos + (s.streams h).buffer.held.length, s.told h)

/-- Where an offset is counted from. -/
def base (h : Nat) (s : StdioState) : FileSeek → Nat
  | .fromStart => 0
  | .fromCurrent => (s.streams h).pos
  | .fromEnd => (s.disk.contents (s.streams h).file).length

/-- `fseeko`: what waits goes to the file first, and the end of the file is no longer seen. -/
def fseeko (h : Nat) (offset : Int) (from_ : FileSeek) (s : StdioState) : Bool × StdioState :=
  let flushed := f.fflush h s
  if flushed.1 = false ∨ f.seekFails h offset from_ ∨ base h flushed.2 from_ + offset < 0 then
    (false, flushed.2)
  else
    (true, flushed.2.setStream h { flushed.2.streams h with pos := (base h flushed.2 from_ + offset).toNat, eof := false })

/-- `rename`. -/
def rename (old new : Path) (s : StdioState) : Bool × StdioState :=
  if s.disk.names old = none ∨ f.renameFails old new = true then (false, s)
  else (true, { s with disk := s.disk.rename old new })

/-- The C library on such a system. -/
def io : FileIo StdioState Nat where
  toCopyIo := f.toFates.stdio
  fseeko := f.fseeko
  ftello := f.ftello
  fflush := f.fflush
  rename := f.rename

/-- Nothing is refused. -/
def works (overflows : Nat → Nat → Bool) : HandleFates where
  toFates := Fates.works overflows
  tellFails := fun _ _ => false
  seekFails := fun _ _ _ => false
  flushes := fun _ n => n
  renameFails := fun _ _ => false

end HandleFates

end Copper.Fs
