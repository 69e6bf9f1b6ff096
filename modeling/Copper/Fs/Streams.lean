import Copper.Fs.Stdio

/-!
# What the calls do to a stream

A stream that a file is written through (`Writing`), one that a file is read through (`Reading`), and what opening, reading, writing
and closing make of them. Everything else stays as it was (`Confined`).
-/

namespace Copper.Fs

namespace Fates

/-- A stream can be opened, and has memory for its handle. -/
def Grants (f : Fates) (h : Nat) : Prop := f.openFails h = false ∧ f.mallocFails h = false

/-- The first so many bytes of a stream's file can be read, and that it ends there. -/
def Readable (f : Fates) (h n : Nat) : Prop := ∀ bad, f.unreadable h = some bad → n < bad

end Fates

variable {f : Fates} {s : StdioState} {h i : Nat}

/-- Nothing but one stream and one file changes. -/
structure Confined (h i : Nat) (s s' : StdioState) : Prop where
  names : s'.disk.names = s.disk.names
  contents : ∀ j, j ≠ i → s'.disk.contents j = s.disk.contents j
  streams : ∀ g, g ≠ h → s'.streams g = s.streams g

/-- A stream that a file is written through from its start: what was put into it is in the file, or waits. -/
structure Writing (f : Fates) (s : StdioState) (h i : Nat) (data : Content) : Prop where
  file : (s.streams h).file = i
  pos : (s.streams h).pos = (s.disk.contents i).length
  kept : s.disk.contents i ++ (s.streams h).buffer.held = data
  count : (s.streams h).buffer.count = data.length
  even : OutBuffer.Even (f.output h) (s.streams h).buffer

/-- A stream that a file is read through, up to a place in it. -/
structure Reading (f : Fates) (s : StdioState) (h i : Nat) (c : Content) (p : Nat) : Prop where
  file : (s.streams h).file = i
  contents : s.disk.contents i = c
  pos : (s.streams h).pos = p
  le : p ≤ c.length
  eof : (s.streams h).eof = true → f.Readable h c.length
  idle : (s.streams h).buffer.held = []

/-- Other streams do not matter to one that a file is written through. -/
theorem Writing.of_eq {data : Content} {s' : StdioState} (hw : Writing f s h i data) (hdisk : s'.disk = s.disk)
    (hstream : s'.streams h = s.streams h) : Writing f s' h i data where
  file := by rw [hstream, hw.file]
  pos := by rw [hstream, hdisk, hw.pos]
  kept := by rw [hstream, hdisk, hw.kept]
  count := by rw [hstream, hw.count]
  even := by
    rw [hstream]
    exact hw.even

/-- What happens to another stream and another file does not matter to one that is read. -/
theorem Reading.confined {c : Content} {p g j : Nat} {s' : StdioState} (hr : Reading f s h i c p) (hc : Confined g j s s') (hh : h ≠ g)
    (hi : i ≠ j) : Reading f s' h i c p where
  file := by rw [hc.streams h hh, hr.file]
  contents := by rw [hc.contents i hi, hr.contents]
  pos := by rw [hc.streams h hh, hr.pos]
  le := hr.le
  eof := by
    rw [hc.streams h hh]
    exact hr.eof
  idle := by rw [hc.streams h hh, hr.idle]

/-! ## Output -/

/-- A delivery touches the file of its stream and no other. -/
theorem deliver_confined (s : StdioState) (h : Nat) (data : Content) (buffer : OutBuffer UInt8) (err : Bool) :
    Confined h (s.streams h).file s (s.deliver h data buffer err) where
  names := Disk.writeAt_names _ _ _ _
  contents _ hj := Disk.contents_writeAt_of_ne _ hj _ _
  streams _ hg := Function.update_of_ne hg _ _

/-- What leaves a stream's buffer is added to its file. -/
theorem Writing.contents_deliver {data : Content} (hw : Writing f s h i data) (out : Content) (buffer : OutBuffer UInt8) (err : Bool) :
    (s.deliver h out buffer err).disk.contents i = s.disk.contents i ++ out := by
  rw [StdioState.deliver, hw.file, hw.pos]
  exact Disk.contents_writeAt_end _ _ _

/-- Writing: all of it if every drain on the way takes all there is, else less. -/
theorem fwrite_spec {data : Content} (hw : Writing f s h i data) (more : Content) :
    Confined h i s (f.fwrite h more s).2 ∧
      ((f.output h).Through data.length (data ++ more).length ∧ (f.fwrite h more s).1 = more.length ∧
          Writing f (f.fwrite h more s).2 h i (data ++ more) ∨
        ¬ (f.output h).Through data.length (data ++ more).length ∧ (f.fwrite h more s).1 < more.length) := by
  refine ⟨hw.file ▸ deliver_confined s h _ _ _, ?_⟩
  rw [List.length_append, ← hw.count]
  rcases OutBuffer.put_spec hw.even more with ⟨hthrough, hwhole⟩ | ⟨hthrough, hless⟩
  · refine Or.inl ⟨hthrough, hwhole.accepted, ?_⟩
    have hstream : (f.fwrite h more s).2.streams h = { s.streams h with
        pos := (s.streams h).pos + (OutBuffer.put (f.output h) more (s.streams h).buffer).out.length
        buffer := (OutBuffer.put (f.output h) more (s.streams h).buffer).buffer
        err := (s.streams h).err || (f.fwrite h more s).1 < more.length } := Function.update_self _ _ _
    have hcontents : (f.fwrite h more s).2.disk.contents i = s.disk.contents i ++
      (OutBuffer.put (f.output h) more (s.streams h).buffer).out := hw.contents_deliver _ _ _
    exact {
      file := by rw [hstream, hw.file]
      pos := by rw [hstream, hcontents, List.length_append, hw.pos]
      kept := by rw [hstream, hcontents, List.append_assoc, hwhole.kept, ← List.append_assoc, hw.kept]
      count := by rw [hstream, hwhole.count, hw.count, List.length_append]
      even := by
        rw [hstream]
        exact hwhole.even }
  · exact Or.inr ⟨hthrough, hless⟩

/-- Closing: the file holds everything just if the last drain takes all that is left. -/
theorem fclose_spec {data : Content} (hw : Writing f s h i data) :
    Confined h i s (f.fclose h s) ∧ ((f.fclose h s).disk.contents i = data ↔ (f.output h).ClosesAll data.length) := by
  refine ⟨hw.file ▸ deliver_confined s h _ _ _, ?_⟩
  rw [Fates.fclose, hw.contents_deliver, ← hw.count]
  exact OutBuffer.out_append_close_eq_iff hw.even hw.kept

/-- Closing a stream that nothing was put into changes no file. -/
theorem fclose_idle (hidle : (s.streams h).buffer.held = []) : (f.fclose h s).disk = s.disk ∧ ∀ g, g ≠ h →
    (f.fclose h s).streams g = s.streams g := by
  have hclose : OutBuffer.close (f.output h) (s.streams h).buffer = [] := by
    rw [OutBuffer.close, hidle, List.take_nil]
  refine ⟨?_, (deliver_confined s h _ _ _).streams⟩
  rw [Fates.fclose, hclose, StdioState.deliver, Disk.writeAt, if_pos rfl]

/-! ## Input -/

/-- A spoilt byte is one of those that are read. -/
theorem spoilt_eq_some {pos size left bad : Nat} (hs : f.spoilt h pos size left = some bad) :
    f.unreadable h = some bad ∧ bad < pos + size ∧ bad ≤ pos + left := by
  obtain ⟨hbad, hin⟩ := Option.filter_eq_some_iff.mp hs
  exact ⟨hbad, by simpa using hin⟩

/-- Where none is spoilt, the unreadable byte is not among them. -/
theorem spoilt_eq_none {pos size left bad : Nat} (hs : f.spoilt h pos size left = none) (hbad : f.unreadable h = some bad)
    (hin : bad < pos + size) : pos + left < bad := by
  rw [Fates.spoilt, hbad, Option.filter_some] at hs
  by_contra hle
  rw [if_pos (by simpa using ⟨hin, Nat.le_of_not_lt hle⟩)] at hs
  cases hs

/-- What a read does: it moves on by what it gives, and gives nothing only at the end of the file or where that cannot be read. -/
structure Chunk (f : Fates) (s : StdioState) (h i : Nat) (c : Content) (p : Nat) (r : Content × StdioState) : Prop where
  disk : r.2.disk = s.disk
  streams : ∀ g, g ≠ h → r.2.streams g = s.streams g
  next : c.take p ++ r.1 = c.take (p + r.1.length)
  reading : Reading f r.2 h i c (p + r.1.length)
  ended : r.1 = [] → ((r.2.streams h).eof = true ↔ f.Readable h c.length) ∧ (f.Readable h c.length → p = c.length)

/-- What was read, and what is read next. -/
theorem take_append_take_drop {α : Type} (c : List α) (p n : Nat) :
    c.take p ++ (c.drop p).take n = c.take (p + ((c.drop p).take n).length) := by
  rw [List.take_add, List.length_take, List.length_drop]
  congr 1
  rw [List.take_eq_take_iff, List.length_drop]
  omega

/-- A read moves on in the file. -/
theorem Reading.advance {c : Content} {p : Nat} (hr : Reading f s h i c p) (n : Nat) {st : Stream} (hfile : st.file = i)
    (hpos : st.pos = p + ((c.drop p).take n).length) (heof : st.eof = true → f.Readable h c.length)
    (hidle : st.buffer.held = []) :
    Reading f (s.setStream h st) h i c (p + ((c.drop p).take n).length) := by
  have hle := hr.le
  exact {
    file := by rw [StdioState.setStream_self, hfile]
    contents := hr.contents
    pos := by rw [StdioState.setStream_self, hpos]
    le := by
      rw [List.length_take, List.length_drop]
      omega
    eof := by
      rw [StdioState.setStream_self]
      exact heof
    idle := by rw [StdioState.setStream_self, hidle] }

/-- A read gives the next bytes of the file, unless one of them is unreadable. -/
theorem fread_spec {c : Content} {p : Nat} (hr : Reading f s h i c p) {size : Nat} (hsize : 0 < size) :
    Chunk f s h i c p (f.fread h size s) := by
  have hle := hr.le
  unfold Fates.fread
  simp only [hr.file, hr.contents, hr.pos]
  split
  · rename_i bad hspoilt
    obtain ⟨hbad, hlt, hend⟩ := spoilt_eq_some hspoilt
    rw [List.length_drop] at hend
    have hunreadable : ¬ f.Readable h c.length := fun hreadable => absurd (hreadable bad hbad) (by omega)
    refine ⟨rfl, fun g hg => Function.update_of_ne hg _ _, take_append_take_drop c p _, ?_, fun _ => ?_⟩
    · exact hr.advance (bad - p) rfl rfl hr.eof hr.idle
    · refine ⟨?_, fun hreadable => absurd hreadable hunreadable⟩
      simp only [StdioState.setStream_self]
      exact ⟨hr.eof, fun hreadable => absurd hreadable hunreadable⟩
  · rename_i hspoilt
    have hreadable : (c.drop p).length < size → f.Readable h c.length := by
      intro hshort bad hbad
      by_contra hle'
      rw [List.length_drop] at hshort
      have := spoilt_eq_none hspoilt hbad (by omega)
      rw [List.length_drop] at this
      omega
    refine ⟨rfl, fun g hg => Function.update_of_ne hg _ _, take_append_take_drop c p _, ?_, fun hnil => ?_⟩
    · refine hr.advance size rfl rfl (fun heof => ?_) hr.idle
      rcases Bool.or_eq_true_iff.mp heof with heof | hshort
      · exact hr.eof heof
      · exact hreadable (of_decide_eq_true hshort)
    · have hrest : c.drop p = [] := by
        rcases List.take_eq_nil_iff.mp hnil with h0 | hrest
        · exact absurd h0 (Nat.ne_of_gt hsize)
        · exact hrest
      have hshort : (c.drop p).length < size := by rwa [hrest]
      refine ⟨?_, fun _ => Nat.le_antisymm hle (List.drop_eq_nil_iff.mp hrest)⟩
      simp only [StdioState.setStream_self]
      refine iff_of_true ?_ (hreadable hshort)
      exact Bool.or_eq_true_iff.mpr (Or.inr (decide_eq_true hshort))

end Copper.Fs
