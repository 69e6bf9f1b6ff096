import Copper.Fs.Handle

/-!
# Files that have one name each

Where no two names lead to one file, the calls of the C library do to what is under each name (`Disk.content`) what the plain calls
on files by name do: nothing else changes, and what waits in a stream is all that the plain files have more (`AtEnd`).
-/

namespace Copper.Fs

/-- The buffer of a stream. -/
abbrev StreamBuffer := OutBuffer UInt8

namespace Disk

variable {d : Disk} {path : Path} {i : Nat}

/-- No two names lead to one file. -/
def Apart (d : Disk) : Prop := ∀ p q i, d.names p = some i → d.names q = some i → p = q

/-- Names that stay as they are stay apart. -/
theorem Apart.of_names {d' : Disk} (h : d.Apart) (hnames : d'.names = d.names) : d'.Apart := by
  intro p q i
  rw [hnames]
  exact h p q i

/-- A name that leads to a file holds what the file holds. -/
theorem content_of_names (h : d.names path = some i) : d.content path = some (d.contents i) := (content_eq_some_iff h).mpr rfl

/-- A name that leads to no file holds nothing. -/
theorem content_of_none (h : d.names path = none) : d.content path = none := by
  rw [content, h]
  rfl

/-- A path holds nothing just if it names no file. -/
theorem content_eq_none_iff : d.content path = none ↔ d.names path = none := Option.map_eq_none_iff

/-- A file given other contents has them under its name. -/
theorem Apart.content_store (hapart : d.Apart) (hi : d.names path = some i) (c : Content) :
    (d.store i c).content = Function.update d.content path (some c) := by
  funext p
  rw [Function.update_apply]
  split
  · rename_i hp
    rw [hp, content_of_names (d := d.store i c) hi, store_contents, Function.update_self]
  · rename_i hp
    cases hj : d.names p with
    | none => rw [content_of_none hj, content_of_none (d := d.store i c) hj]
    | some j =>
      have hne : j ≠ i := by
        rintro rfl
        exact hp (hapart p path j hj hi)
      rw [content_of_names hj, content_of_names (d := d.store i c) hj, store_contents, Function.update_of_ne hne]

/-- What is written at the end of a file is added to it. -/
theorem Apart.content_writeAt (hapart : d.Apart) (hi : d.names path = some i) (data : Content) :
    (d.writeAt i (d.contents i).length data).content = Function.update d.content path (some (d.contents i ++ data)) := by
  by_cases hdata : data = []
  · rw [hdata, writeAt, if_pos rfl, List.append_nil, ← content_of_names hi, Function.update_eq_self]
  · have hstored := d.contents_writeAt_end i data
    rw [writeAt, if_neg hdata] at hstored ⊢
    rw [← hstored, hapart.content_store hi, store_contents, Function.update_self]

/-! ## Names that come and go -/

/-- Unlinking a name takes away what it held, and no more. -/
theorem content_unname (d : Disk) (path : Path) : (d.unname path).content = Function.update d.content path none := by
  funext p
  by_cases hp : p = path
  · rw [hp, Function.update_self, content_of_none]
    exact Function.update_self _ _ _
  · rw [Function.update_of_ne hp, content, content]
    congr 1
    exact Function.update_of_ne hp _ _

/-- Unlinking a name keeps the names apart. -/
theorem Apart.unname (h : d.Apart) (path : Path) : (d.unname path).Apart := by
  intro p q i hp hq
  have hsome : ∀ {r : Path}, (d.unname path).names r = some i → d.names r = some i := by
    intro r hr
    change Function.update d.names path none r = some i at hr
    rw [Function.update_apply] at hr
    split at hr
    · cases hr
    · exact hr
  exact h p q i (hsome hp) (hsome hq)

/-- Creating a file gives its path nothing, which is empty contents, and changes no other. -/
theorem create_content (d : Disk) (path : Path) : (d.create path).content = Function.update d.content path (some []) := by
  funext p
  by_cases hp : p = path
  · rw [hp, Function.update_self]
    have hname : (d.create path).names path = some d.fresh := Function.update_self _ _ _
    rw [content_of_names hname, create_contents, Function.update_self]
  · rw [Function.update_of_ne hp]
    have hname : (d.create path).names p = d.names p := Function.update_of_ne hp _ _
    cases hj : d.names p with
    | none => rw [content_of_none hj, content_of_none (hname.trans hj)]
    | some j =>
      rw [content_of_names hj, content_of_names (hname.trans hj), create_contents,
        Function.update_of_ne (Nat.ne_of_lt (d.named p j hj))]

/-- A new file has one name. -/
theorem Apart.create (h : d.Apart) (path : Path) : (d.create path).Apart := by
  intro p q i hp hq
  rw [create_names, Function.update_apply] at hp hq
  split at hp
  · rename_i hpath
    split at hq
    · rename_i hpath'
      rw [hpath, hpath']
    · cases hp
      exact absurd (d.named q d.fresh hq) (Nat.lt_irrefl _)
  · split at hq
    · cases hq
      exact absurd (d.named p d.fresh hp) (Nat.lt_irrefl _)
    · exact h p q i hp hq

/-- Opening to append makes the file if need be. -/
theorem content_touch (d : Disk) (path : Path) :
    (d.touch path).content = Function.update d.content path (some ((d.content path).getD [])) := by
  unfold touch
  cases hi : d.names path with
  | none => rw [content_of_none hi, create_content, Option.getD_none]
  | some i => rw [content_of_names hi, Option.getD_some, ← content_of_names hi, Function.update_eq_self]

/-- Opening a path for writing or appending keeps the names apart. -/
theorem Apart.touch (h : d.Apart) (path : Path) : (d.touch path).Apart := by
  unfold Disk.touch
  split
  · exact h
  · exact h.create path

/-- The path that is opened names its file. -/
theorem names_touch (d : Disk) (path : Path) : (d.touch path).names path = some (d.target path) := by
  rw [← names_emptied]
  rfl

/-- Opening to write makes or empties the file. -/
theorem Apart.content_emptied (h : d.Apart) (path : Path) :
    (d.emptied path).content = Function.update d.content path (some []) := by
  rw [emptied, (h.touch path).content_store (names_touch d path), content_touch, Function.update_idem]

/-- So does opening it for writing. -/
theorem Apart.emptied (h : d.Apart) (path : Path) : (d.emptied path).Apart := (h.touch path).of_names rfl

/-! ## Names that change -/

/-- Renaming moves the name of a file and leaves all contents. -/
theorem rename_of_some {old new : Path} (hi : d.names old = some i) (hnew : d.names new ≠ some i) :
    (d.rename old new).names = Function.update (Function.update d.names old none) new (some i) ∧
      (d.rename old new).contents = d.contents := by
  unfold rename
  split
  · rename_i hnone
    cases hnone.symm.trans hi
  · rename_i j hj
    cases hj.symm.trans hi
    rw [if_neg hnew]
    exact ⟨rfl, rfl⟩

/-- Renaming between two names of one file does nothing. -/
theorem rename_of_same {old new : Path} (hi : d.names old = some i) (hnew : d.names new = some i) : d.rename old new = d := by
  unfold rename
  split
  · rfl
  · rename_i j hj
    cases hj.symm.trans hi
    rw [if_pos hnew]

/-- A file that is renamed is under its new name alone. -/
theorem Apart.content_rename (h : d.Apart) {old new : Path} (hi : d.names old = some i) :
    (d.rename old new).content =
      Function.update (Function.update d.content old none) new (some (d.contents i)) := by
  by_cases hnew : d.names new = some i
  · have hsame := h old new i hi hnew
    rw [rename_of_same hi hnew, ← hsame, Function.update_idem, ← content_of_names hi, Function.update_eq_self]
  · obtain ⟨hnames, hcontents⟩ := rename_of_some hi hnew
    funext p
    rw [content, hnames, hcontents, Function.update_apply, Function.update_apply, Function.update_apply, Function.update_apply]
    split
    · rfl
    · split
      · rfl
      · rfl

/-- Renaming keeps the names apart. -/
theorem Apart.rename (h : d.Apart) (old new : Path) : (d.rename old new).Apart := by
  cases hi : d.names old with
  | none =>
    have hsame : d.rename old new = d := by
      unfold Disk.rename
      split
      · rfl
      · rename_i j hj
        cases hj.symm.trans hi
    rwa [hsame]
  | some i =>
    by_cases hnew : d.names new = some i
    · rwa [rename_of_same hi hnew]
    · intro p q j hp hq
      rw [(rename_of_some hi hnew).1, Function.update_apply, Function.update_apply] at hp hq
      -- a name that still leads to the file is the old one, and that is gone
      split at hp
      · rename_i hpath
        split at hq
        · rename_i hpath'
          rw [hpath, hpath']
        · split at hq
          · cases hq
          · rename_i hold
            cases hp
            exact absurd (h q old i hq hi) hold
      · split at hp
        · cases hp
        · rename_i hold
          split at hq
          · cases hq
            exact absurd (h p old i hp hi) hold
          · split at hq
            · cases hq
            · exact h p q j hp hq

end Disk

/-! ## Streams at the end of a file -/

/-- A stream that a file is written through, from its end on; what waits in it was put into it. -/
structure AtEnd (s : StdioState) (h i : Nat) : Prop where
  file : (s.streams h).file = i
  pos : (s.streams h).pos = (s.disk.contents i).length
  count : (s.streams h).buffer.held.length ≤ (s.streams h).buffer.count

/-- What leaves the buffer of such a stream is added to its file. -/
theorem AtEnd.deliver {s : StdioState} {h i : Nat} {path : Path} (hend : AtEnd s h i) (hapart : s.disk.Apart)
    (hi : s.disk.names path = some i) (data : Content) {buffer : StreamBuffer} (hcount : buffer.held.length ≤ buffer.count)
    (err : Bool) :
    (s.deliver h data buffer err).disk.content = Function.update s.disk.content path (some (s.disk.contents i ++ data)) ∧
      AtEnd (s.deliver h data buffer err) h i ∧ (s.deliver h data buffer err).disk.names = s.disk.names ∧
      ((s.deliver h data buffer err).streams h).buffer = buffer := by
  have hstream : (s.deliver h data buffer err).streams h =
      { s.streams h with pos := (s.streams h).pos + data.length, buffer := buffer, err := err } := Function.update_self _ _ _
  have hdisk : (s.deliver h data buffer err).disk = s.disk.writeAt i (s.disk.contents i).length data := by
    rw [← hend.pos, ← hend.file]
    rfl
  have hcontents : (s.deliver h data buffer err).disk.contents i = s.disk.contents i ++ data := by
    rw [hdisk, Disk.contents_writeAt_end]
  refine ⟨by rw [hdisk, hapart.content_writeAt hi], ⟨by rw [hstream, hend.file], ?_, by rwa [hstream]⟩, ?_, by rw [hstream]⟩
  · rw [hstream, hcontents, List.length_append, hend.pos]
  · rw [hdisk, Disk.writeAt_names]

end Copper.Fs
