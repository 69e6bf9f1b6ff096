import Copper.Foundation.OutBuffer
import Copper.Fs.Copy

/-!
# Files behind their names

The calls of the C library that `fs.c` makes, over files that names lead to, several names perhaps to one file. What is written to
a stream waits in its buffer until that overflows, or the stream is closed; `fclose` says nothing that its caller listens to. What
the system refuses, and how much of its output a stream gets rid of, is up to `Fates`, by the number of the stream.
-/

namespace Copper.Fs

/-! ## Names and files -/

/-- The files that names lead to, and what each holds; `fresh` and those from there on have no name yet. -/
structure Disk where
  names : Path → Option Nat
  contents : Nat → Content
  fresh : Nat
  named : ∀ path i, names path = some i → i < fresh

namespace Disk

/-- What is in the file that a name leads to. -/
def content (d : Disk) (path : Path) : Option Content := (d.names path).map d.contents

/-- What a path holds is what its file holds. -/
theorem content_eq_some_iff {d : Disk} {path : Path} {i : Nat} (h : d.names path = some i) {c : Content} :
    d.content path = some c ↔ d.contents i = c := by
  rw [content, h, Option.map_some, Option.some.injEq]

/-- The two names lead to one file. -/
def SameFile (d : Disk) (path path' : Path) : Prop := ∃ i, d.names path = some i ∧ d.names path' = some i

/-- A file is given other contents. -/
def store (d : Disk) (i : Nat) (c : Content) : Disk := { d with contents := Function.update d.contents i c }

/-- What is written at a place in a file replaces what is there; a gap before it is filled with zeros. -/
def writeAt (d : Disk) (i pos : Nat) (data : Content) : Disk :=
  if data = [] then d
  else
    let c := d.contents i
    d.store i (c.take pos ++ List.replicate (pos - c.length) 0 ++ data ++ c.drop (pos + data.length))

/-- A new file, without contents, under a name. -/
def create (d : Disk) (path : Path) : Disk where
  names := Function.update d.names path (some d.fresh)
  contents := Function.update d.contents d.fresh []
  fresh := d.fresh + 1
  named p i h := by
    rw [Function.update_apply] at h
    split at h
    · cases h
      exact Nat.lt_succ_self _
    · exact Nat.lt_succ_of_lt (d.named p i h)

/-- A name is gone. -/
def unname (d : Disk) (path : Path) : Disk where
  names := Function.update d.names path none
  contents := d.contents
  fresh := d.fresh
  named p i h := by
    rw [Function.update_apply] at h
    split at h
    · cases h
    · exact d.named p i h

/-- The file that a name leads to, or that is made for it. -/
def target (d : Disk) (path : Path) : Nat := (d.names path).getD d.fresh

/-- The file is made if the name leads to none. -/
def touch (d : Disk) (path : Path) : Disk :=
  match d.names path with
  | some _ => d
  | none => d.create path

/-- The file is made, or loses its contents. -/
def emptied (d : Disk) (path : Path) : Disk := (d.touch path).store (d.target path) []

/-- A new file gets its own number. -/
@[simp] theorem create_names (d : Disk) (path : Path) :
    (d.create path).names = Function.update d.names path (some d.fresh) := rfl

/-- A new file is empty. -/
@[simp] theorem create_contents (d : Disk) (path : Path) :
    (d.create path).contents = Function.update d.contents d.fresh [] := rfl

/-- Storing contents changes no name. -/
@[simp] theorem store_names (d : Disk) (i : Nat) (c : Content) : (d.store i c).names = d.names := rfl

/-- Storing contents changes the contents of one file. -/
@[simp] theorem store_contents (d : Disk) (i : Nat) (c : Content) :
    (d.store i c).contents = Function.update d.contents i c := rfl

/-- Writing changes no name. -/
@[simp] theorem writeAt_names (d : Disk) (i pos : Nat) (data : Content) : (d.writeAt i pos data).names = d.names := by
  unfold writeAt
  split <;> rfl

/-- Writing at the end of a file. -/
theorem contents_writeAt_end (d : Disk) (i : Nat) (data : Content) :
    (d.writeAt i (d.contents i).length data).contents i = d.contents i ++ data := by
  unfold writeAt
  split
  · rename_i h
    rw [h, List.append_nil]
  · simp only [store_contents, Function.update_self, Nat.sub_self, List.replicate_zero, List.append_nil, List.take_length]
    rw [List.drop_eq_nil_of_le (Nat.le_add_right _ _), List.append_nil]

/-- Writing to a file changes no other. -/
theorem contents_writeAt_of_ne (d : Disk) {i j : Nat} (h : j ≠ i) (pos : Nat) (data : Content) :
    (d.writeAt i pos data).contents j = d.contents j := by
  unfold writeAt
  split
  · rfl
  · exact Function.update_of_ne h _ _

/-! What opening a file for writing leaves. -/

/-- The path opened for writing names the file that is emptied. -/
theorem names_emptied (d : Disk) (path : Path) : (d.emptied path).names path = some (d.target path) := by
  unfold emptied touch target
  split
  · rename_i h
    rw [store_names, h, Option.getD_some]
  · rename_i h
    rw [store_names, h, Option.getD_none, create_names, Function.update_self]

/-- Opening for writing takes no name from its file. -/
theorem names_emptied_of_some {d : Disk} {path : Path} {i : Nat} (h : d.names path = some i) (path' : Path) :
    (d.emptied path').names path = some i := by
  unfold emptied touch
  split
  · exact h
  · rename_i h'
    have hne : path ≠ path' := by
      rintro rfl
      rw [h] at h'
      cases h'
    rw [store_names, create_names, Function.update_of_ne hne, h]

/-- A file opened for writing is empty. -/
theorem contents_emptied (d : Disk) (path : Path) : (d.emptied path).contents (d.target path) = [] := Function.update_self _ _ _

/-- Opening for writing changes no other file. -/
theorem contents_emptied_of_ne {d : Disk} {path : Path} {i : Nat} (h : i ≠ d.target path) :
    (d.emptied path).contents i = d.contents i := by
  rw [emptied, store_contents, Function.update_of_ne h, touch]
  split
  · rfl
  · rename_i hnone
    rw [target, hnone, Option.getD_none] at h
    rw [create_contents, Function.update_of_ne h]

/-- Opening for writing makes no file longer. -/
theorem length_contents_emptied_le (d : Disk) (path : Path) (i : Nat) :
    ((d.emptied path).contents i).length ≤ (d.contents i).length := by
  by_cases h : i = d.target path
  · rw [h, d.contents_emptied]
    exact Nat.zero_le _
  · rw [contents_emptied_of_ne h]

/-- A name leads to the file that another is opened on just if they lead to one file already. -/
theorem target_eq_iff {d : Disk} {path path' : Path} {i : Nat} (h : d.names path = some i) :
    d.target path' = i ↔ d.SameFile path path' := by
  constructor
  · intro htarget
    cases h' : d.names path' with
    | none =>
      rw [target, h', Option.getD_none] at htarget
      exact absurd (d.named path i h) (by omega)
    | some j =>
      rw [target, h', Option.getD_some] at htarget
      exact ⟨i, h, by rw [h', htarget]⟩
  · rintro ⟨j, hj, hj'⟩
    rw [h] at hj
    cases hj
    rw [target, hj', Option.getD_some]

end Disk

/-! ## Streams -/

/-- A stream: its file, the place in it, the output that waits, the two indicators, and how often it was asked where it is. -/
structure Stream where
  file : Nat
  pos : Nat
  buffer : OutBuffer UInt8
  eof : Bool
  err : Bool
  tells : Nat

/-- The disk, and the streams by number; the next one to be opened has the number `opened`. -/
structure StdioState where
  disk : Disk
  streams : Nat → Stream
  opened : Nat

/-- What the system refuses: to open a stream, memory for its handle, the bytes of its file from some place on, the output of a
stream as its pattern says, and to remove a name. -/
structure Fates where
  openFails : Nat → Bool
  mallocFails : Nat → Bool
  unreadable : Nat → Option Nat
  output : Nat → Drain
  unlinkFails : Path → Bool

namespace StdioState

variable (s : StdioState)

/-- A stream becomes another. -/
def setStream (h : Nat) (st : Stream) : StdioState := { s with streams := Function.update s.streams h st }

/-- The stream that is set is the one that is found. -/
@[simp] theorem setStream_self (h : Nat) (st : Stream) : (s.setStream h st).streams h = st := Function.update_self _ _ _

/-- A stream is opened at a place of a file. -/
def start (disk : Disk) (file pos : Nat) : Option Nat × StdioState :=
  (some s.opened,
    { disk := disk
      streams := Function.update s.streams s.opened ⟨file, pos, OutBuffer.empty, false, false, 0⟩
      opened := s.opened + 1 })

/-- What leaves the buffer of a stream goes to its file. -/
def deliver (h : Nat) (data : Content) (buffer : OutBuffer UInt8) (err : Bool) : StdioState :=
  let st := s.streams h
  { s.setStream h { st with pos := st.pos + data.length, buffer := buffer, err := err } with
    disk := s.disk.writeAt st.file st.pos data }

end StdioState

namespace Fates

variable (f : Fates)

/-- `fopen`. -/
def fopen (path : Path) (mode : FileMode) (s : StdioState) : Option Nat × StdioState :=
  if f.openFails s.opened then (none, s)
  else
    match mode with
    | .read | .readWrite =>
      match s.disk.names path with
      | none => (none, s)
      | some i => s.start s.disk i 0
    | .write => s.start (s.disk.emptied path) (s.disk.target path) 0
    | .append =>
      let disk := s.disk.touch path
      s.start disk (s.disk.target path) (disk.contents (s.disk.target path)).length

/-- `malloc`, for the handle of the stream opened last. -/
def malloc (s : StdioState) : Bool × StdioState := (!f.mallocFails (s.opened - 1), s)

/-- `fwrite`. -/
def fwrite (h : Nat) (data : Content) (s : StdioState) : Nat × StdioState :=
  let r := OutBuffer.put (f.output h) data (s.streams h).buffer
  (r.accepted, s.deliver h r.out r.buffer ((s.streams h).err || r.accepted < data.length))

/-- `fclose`. -/
def fclose (h : Nat) (s : StdioState) : StdioState :=
  s.deliver h (OutBuffer.close (f.output h) (s.streams h).buffer) OutBuffer.empty (s.streams h).err

/-- Where a read of so many bytes fails, with so many left in the file: at a byte that cannot be read. -/
def spoilt (h pos size left : Nat) : Option Nat := (f.unreadable h).filter fun bad => bad < pos + size ∧ bad ≤ pos + left

/-- `fread`. -/
def fread (h : Nat) (size : Nat) (s : StdioState) : Content × StdioState :=
  let st := s.streams h
  let rest := (s.disk.contents st.file).drop st.pos
  match f.spoilt h st.pos size rest.length with
  | some bad =>
    let data := rest.take (bad - st.pos)
    (data, s.setStream h { st with pos := st.pos + data.length, err := true })
  | none =>
    let data := rest.take size
    (data, s.setStream h { st with pos := st.pos + data.length, eof := st.eof || rest.length < size })

/-- `unlink`. -/
def unlink (path : Path) (s : StdioState) : Bool × StdioState :=
  if f.unlinkFails path = true ∨ s.disk.names path = none then (false, s)
  else (true, { s with disk := s.disk.unname path })

/-- The C library on such a system. -/
def stdio : CopyIo StdioState Nat where
  fopen := f.fopen
  malloc := f.malloc
  fwrite := f.fwrite
  fclose := f.fclose
  fread := f.fread
  feof := fun h s => (s.streams h).eof
  ferror := fun h s => (s.streams h).err
  unlink := f.unlink

/-- Nothing is refused; streams still buffer. -/
def works (overflows : Nat → Nat → Bool) : Fates where
  openFails := fun _ => false
  mallocFails := fun _ => false
  unreadable := fun _ => none
  output := fun h => { overflows := overflows h, takes := id, closes := id }
  unlinkFails := fun _ => false

end Fates

end Copper.Fs
