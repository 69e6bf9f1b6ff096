import Copper.Log.Rotate
import Mathlib.Data.Finset.Card
import Mathlib.Order.Interval.Finset.Nat

/-!
# Rotations whose calls fail

`cpr__file_rotate` goes on whatever its calls return. A file whose rename fails stays where it is, and the rename of the file
below it replaces it; a live file that could not be renamed is truncated. `SparesContents` is the condition on the files and
the failing calls under which no content is lost that way (`rotation_keeps_contents`). It takes names that fit the 512-byte
buffers: with names that are cut, files replace one another even when every call succeeds.
-/

namespace Copper

variable {w : Nat}

/-- Whatever the live file and the archives below the limit held, some file still holds. -/
def KeepsContents (os : FileOs) (fs : FileSink w) (files : Files) : Prop :=
  ∀ j < fs.maxFiles.toNat, ∀ c, slots files fs.path j = some c → ∃ i, slots (fileRotate os fs files).2 fs.path i = some c

/-- A rotation with a limit on the archives neither removes the file in a slot, nor replaces it, nor truncates it. -/
def KeepsFile (os : FileOs) (path : Path) (files : Files) (limit : Nat) : Nat → Prop
  | 0 => os.stuck path 0 = false ∨ os.openFails path = true
  | k + 1 =>
    -- it is past the limit, or its own rename works, or nothing is renamed over it
    limit < k + 1 ∨ k + 1 < limit ∧ os.stuck path (k + 1) = false ∨
      (k + 1 = limit → os.removeFails (slotPath path limit) = true) ∧ (os.stuck path k = true ∨ slots files path k = none)

/-- Every content is empty, and the live file is left empty; or it is in a file that the rotation keeps. -/
def SparesContents (os : FileOs) (fs : FileSink w) (files : Files) : Prop :=
  ∀ j < fs.maxFiles.toNat, ∀ c, slots files fs.path j = some c →
    (c = [] ∧ os.openFails fs.path = false) ∨
      ∃ k, slots files fs.path k = some c ∧ KeepsFile os fs.path files fs.maxFiles.toNat k

/-! ## Names that fit -/

section Fitting

variable {os : FileOs} {fs : FileSink w} {files : Files} {c : Content}

/-- Where the number of files is limited, the loop starts one below it. -/
theorem maxFiles_eq (hmax : 0 < fs.maxFiles) : fs.maxFiles.toNat = rotateTop fs.maxFiles + 1 := by
  rw [rotateTop, if_pos hmax]
  omega

/-- The archive at the limit is there for the renames if its removal failed. -/
theorem remainingSlots_eq_some (hmax : 0 < fs.maxFiles) {k : Nat} :
    remainingSlots os fs files k = some c ↔
      slots files fs.path k = some c ∧
        (k = fs.maxFiles.toNat → os.removeFails (slotPath fs.path fs.maxFiles.toNat) = true) := by
  rw [maxFiles_eq hmax, remainingSlots]
  cases hremove : os.removeFails (slotPath fs.path (rotateTop fs.maxFiles + 1)) with
  | true => simp
  | false =>
    rw [if_pos ⟨hmax, rfl⟩]
    by_cases hk : k = rotateTop fs.maxFiles + 1
    · rw [hk, Function.update_self]
      simp
    · rw [Function.update_of_ne hk]
      simp [hk]

/-- A slot above the bottom one is spared by the renames, once the archive at the limit has had its turn, when its file is
kept. -/
theorem spared_succ_iff (hmax : 0 < fs.maxFiles) {k : Nat}
    (hlimit : k + 1 = fs.maxFiles.toNat → os.removeFails (slotPath fs.path fs.maxFiles.toNat) = true) :
    Slots.Spared (os.stuck fs.path) (remainingSlots os fs files) (rotateTop fs.maxFiles) (k + 1) ↔
      KeepsFile os fs.path files fs.maxFiles.toNat (k + 1) := by
  have htop := maxFiles_eq hmax
  have hbelow : k < fs.maxFiles.toNat → (remainingSlots os fs files k = none ↔ slots files fs.path k = none) := by
    intro hk
    rw [Option.eq_none_iff_forall_ne_some, Option.eq_none_iff_forall_ne_some]
    refine forall_congr' fun c => not_congr ?_
    rw [remainingSlots_eq_some hmax]
    exact and_iff_left fun h => absurd h (Nat.ne_of_lt hk)
  unfold Slots.Spared KeepsFile
  constructor
  · rintro (h | ⟨hrow, hfree⟩ | hstays)
    · exact Or.inl (by omega)
    · exact Or.inr (Or.inl ⟨by omega, hfree⟩)
    · rcases Nat.lt_or_ge k fs.maxFiles.toNat with hk | hk
      · rw [hbelow hk] at hstays
        exact Or.inr (Or.inr ⟨hlimit, hstays⟩)
      · exact Or.inl (Nat.lt_succ_of_le hk)
  · rintro (h | ⟨hrow, hfree⟩ | ⟨-, hstays⟩)
    · exact Or.inl (by omega)
    · exact Or.inr (Or.inl ⟨by omega, hfree⟩)
    · rcases Nat.lt_or_ge k fs.maxFiles.toNat with hk | hk
      · rw [← hbelow hk] at hstays
        exact Or.inr (Or.inr hstays)
      · exact Or.inl (by omega)

/-- What the files hold after a rotation: what was in the files that it keeps, and an empty live file if it opened one. -/
theorem content_after_iff (hmax : 0 < fs.maxFiles) (hfit : NamesFit fs.path (rotateTop fs.maxFiles)) :
    (∃ i, slots (fileRotate os fs files).2 fs.path i = some c) ↔
      (c = [] ∧ os.openFails fs.path = false) ∨
        ∃ k, slots files fs.path k = some c ∧ KeepsFile os fs.path files fs.maxFiles.toNat k := by
  have habove := (Slots.exists_shiftExcept_succ (remainingSlots os fs files) (rotateTop fs.maxFiles) c).trans
    (Nat.or_exists_add_one (p := fun k => remainingSlots os fs files k = some c ∧
      Slots.Spared (os.stuck fs.path) (remainingSlots os fs files) (rotateTop fs.maxFiles) k)).symm
  have hspared : (∃ k, remainingSlots os fs files (k + 1) = some c ∧
      Slots.Spared (os.stuck fs.path) (remainingSlots os fs files) (rotateTop fs.maxFiles) (k + 1)) ↔
      ∃ k, slots files fs.path (k + 1) = some c ∧ KeepsFile os fs.path files fs.maxFiles.toNat (k + 1) := by
    refine exists_congr fun k => ?_
    rw [remainingSlots_eq_some hmax]
    constructor
    · rintro ⟨⟨hc, hlimit⟩, hk⟩
      exact ⟨hc, (spared_succ_iff hmax hlimit).mp hk⟩
    · rintro ⟨hc, hk⟩
      have hlimit : k + 1 = fs.maxFiles.toNat → os.removeFails (slotPath fs.path fs.maxFiles.toNat) = true := by
        intro h
        rcases hk with hlt | ⟨hlt, -⟩ | ⟨hremove, -⟩
        · omega
        · omega
        · exact hremove h
      exact ⟨⟨hc, hlimit⟩, (spared_succ_iff hmax hlimit).mpr hk⟩
  have hbottom : remainingSlots os fs files 0 = some c ↔ slots files fs.path 0 = some c := by
    rw [remainingSlots_eq_some hmax]
    exact and_iff_left fun h => by omega
  rw [hspared, hbottom] at habove
  rw [← Nat.or_exists_add_one (p := fun i => slots (fileRotate os fs files).2 fs.path i = some c),
    ← Nat.or_exists_add_one (p := fun k => slots files fs.path k = some c ∧ KeepsFile os fs.path files fs.maxFiles.toNat k),
    slots_fileRotate_os os hfit]
  have hspared0 : Slots.Spared (os.stuck fs.path) (remainingSlots os fs files) (rotateTop fs.maxFiles) 0 ↔
      os.stuck fs.path 0 = false := Iff.rfl
  have hkeeps0 : KeepsFile os fs.path files fs.maxFiles.toNat 0 ↔
      os.stuck fs.path 0 = false ∨ os.openFails fs.path = true := Iff.rfl
  rw [hspared0] at habove
  rw [hkeeps0]
  generalize (∃ k, slots files fs.path (k + 1) = some c ∧ KeepsFile os fs.path files fs.maxFiles.toNat (k + 1)) = above at *
  cases hopen : os.openFails fs.path with
  | true =>
    -- the live file is left as it is, and its content with it
    have hlive : (if os.stuck fs.path 0 then remainingSlots os fs files 0 else none) = some c ↔
        slots files fs.path 0 = some c ∧ os.stuck fs.path 0 = true := by
      rw [← hbottom]
      cases os.stuck fs.path 0 with
      | true => simp
      | false => simp
    rw [if_pos rfl, habove, Slots.shiftExcept_zero, hlive]
    cases os.stuck fs.path 0 with
    | true => simp
    | false => simp
  | false =>
    have hnew : ∀ (f : Nat → Option Content) i, Function.update f 0 (some []) (i + 1) = f (i + 1) := fun f i =>
      Function.update_of_ne (Nat.succ_ne_zero i) _ _
    rw [if_neg (by simp)]
    simp only [hnew, habove, Function.update_self, Option.some.injEq, eq_comm (a := ([] : Content)), and_true,
      Bool.false_eq_true, or_false]

/-- With names that fit, a rotation keeps the contents exactly when it spares them. -/
theorem keepsContents_iff (hmax : 0 < fs.maxFiles) (hfit : NamesFit fs.path (rotateTop fs.maxFiles)) :
    KeepsContents os fs files ↔ SparesContents os fs files :=
  forall_congr' fun _ => forall_congr' fun _ => forall_congr' fun _ => imp_congr_right fun _ => content_after_iff hmax hfit

end Fitting

/-! ## Names that are cut -/

/-- Every file that exists is one of these. -/
def Within (names : Set Path) (files : Files) : Prop := ∀ name, files name ≠ none → name ∈ names

namespace Within

variable {names : Set Path} {files : Files}

/-- A file within the names may change. -/
theorem update (h : Within names files) {name : Path} (hname : name ∈ names) (c : Option Content) :
    Within names (Function.update files name c) := by
  intro other hother
  by_cases heq : other = name
  · rw [heq]
    exact hname
  · rw [Function.update_of_ne heq] at hother
    exact h other hother

/-- A file may go. -/
theorem update_none (h : Within names files) (name : Path) : Within names (Function.update files name none) := by
  intro other hother
  by_cases heq : other = name
  · rw [heq, Function.update_self] at hother
    exact absurd rfl hother
  · rw [Function.update_of_ne heq] at hother
    exact h other hother

/-- Removing a file stays within the names. -/
theorem removeFile (h : Within names files) (os : FileOs) (name : Path) : Within names (removeFile os files name).state := by
  unfold Copper.removeFile
  split
  · exact h
  · exact h.update_none name

/-- So does renaming one to a name within them. -/
theorem fsRename (h : Within names files) (os : FileOs) (old : Path) {new : Path} (hnew : new ∈ names) :
    Within names (fsRename os files old new).state := by
  unfold Copper.fsRename
  split
  · exact h
  · split
    · exact h
    · exact (h.update_none old).update hnew _

/-- So do all renames of a rotation. -/
theorem rotateLoop {path : Path} (hnames : ∀ i, archiveName path i ∈ names) (os : FileOs) (top : Nat) :
    ∀ {files : Files}, Within names files → Within names (rotateLoop os path files top) := by
  induction top with
  | zero => exact fun h => h
  | succ top ih => exact fun h => ih (h.fsRename os _ (hnames (top + 2)))

/-- So does opening one of them for writing. -/
theorem openFile (h : Within names files) (os : FileOs) {name : Path} (hname : name ∈ names) :
    Within names (openFile os files name .write).state := by
  unfold Copper.openFile
  split
  · exact h
  · exact h.update hname _

/-- A rotation makes files of no other names than those it builds. -/
theorem fileRotate {fs : FileSink w} (h : Within names files) (hpath : fs.path ∈ names)
    (hnames : ∀ i, archiveName fs.path i ∈ names) (os : FileOs) : Within names (fileRotate os fs files).2 := by
  have hremoved : Within names (if 0 < fs.maxFiles then
      (Copper.removeFile os files (archiveName fs.path fs.maxFiles.toNat)).state else files) := by
    split
    · exact h.removeFile os _
    · exact h
  have hrenamed := (rotateLoop hnames os (rotateTop fs.maxFiles) hremoved).fsRename os fs.path (hnames 1)
  exact hrenamed.openFile os hpath

end Within

/-- The name of a higher archive is no shorter. -/
theorem length_archivePath_le (path : Path) {i j : Nat} (hi : 0 < i) (hij : i ≤ j) :
    (archivePath path i).length ≤ (archivePath path j).length := by
  have hdigits := Nat.le_length_digits_le 10 i j hij
  simp only [archivePath, decimal, if_neg (Nat.ne_of_gt hi), if_neg (Nat.ne_of_gt (Nat.lt_of_lt_of_le hi hij)),
    List.length_append, List.length_cons, List.length_map, List.length_reverse]
  omega

/-- Files in the slots up to `m`, each of a content of its own, none of them empty. -/
def rowOfFiles (path : Path) : Nat → Files
  | 0 => Function.update (fun _ => none) (slotPath path 0) (some [0])
  | m + 1 => Function.update (rowOfFiles path m) (slotPath path (m + 1)) (some (List.replicate (m + 2) 0))

/-- In the row, archive `j` holds `j + 1` zeros. -/
theorem slots_rowOfFiles (path : Path) {m j : Nat} (hj : j ≤ m) :
    slots (rowOfFiles path m) path j = some (List.replicate (j + 1) 0) := by
  induction m with
  | zero =>
    rw [Nat.le_zero.mp hj, rowOfFiles, slots_update, Function.update_self]
    rfl
  | succ m ih =>
    rw [rowOfFiles, slots_update]
    rcases Nat.eq_or_lt_of_le hj with rfl | hlt
    · rw [Function.update_self]
    · rw [Function.update_of_ne (Nat.ne_of_lt hlt), ih (Nat.le_of_lt_succ hlt)]

/-- The row is within its names. -/
theorem rowOfFiles_within (path : Path) {m : Nat} {names : Set Path} (h : ∀ j ≤ m, slotPath path j ∈ names) :
    Within names (rowOfFiles path m) := by
  induction m with
  | zero =>
    have hempty : Within names fun _ => none := fun name hname => absurd rfl hname
    exact hempty.update (h 0 (Nat.le_refl 0)) _
  | succ m ih => exact (ih fun j hj => h j (Nat.le_succ_of_le hj)).update (h (m + 1) (Nat.le_refl _)) _

/-- When some name is cut, there are files of which a rotation loses one, although every call succeeds: the files up to the
first name that is cut have to share the names below it, and the live file is new. -/
theorem lost_of_not_fit {fs : FileSink w} (hmax : 0 < fs.maxFiles) (hcut : ¬ NamesFit fs.path (rotateTop fs.maxFiles)) :
    ∃ files, ¬ KeepsContents .works fs files := by
  obtain ⟨m, hm, hlong⟩ : ∃ m ≤ rotateTop fs.maxFiles, 512 ≤ (archivePath fs.path (m + 1)).length := by
    unfold NamesFit at hcut
    push Not at hcut
    exact hcut
  refine ⟨rowOfFiles fs.path m, fun hkeeps => ?_⟩
  let names : Set Path := { name | (∃ j ≤ m, slotPath fs.path j = name) ∨ ∃ i, archiveName fs.path i = name }
  have hwithin : Within names (rowOfFiles fs.path m) := rowOfFiles_within fs.path fun j hj => Or.inl ⟨j, hj, rfl⟩
  have hafter : Within names (fileRotate .works fs (rowOfFiles fs.path m)).2 :=
    hwithin.fileRotate (Or.inl ⟨0, Nat.zero_le m, rfl⟩) (fun i => Or.inr ⟨i, rfl⟩) .works
  -- a slot that holds a file is not past the first name that is cut
  have hslot : ∀ i, slots (fileRotate .works fs (rowOfFiles fs.path m)).2 fs.path i ≠ none → i ≤ m := by
    intro i hi
    rcases hafter _ hi with ⟨j, hj, heq⟩ | ⟨k, heq⟩
    · exact slotPath_injective fs.path heq ▸ hj
    · cases i with
      | zero => exact Nat.zero_le m
      | succ i =>
        by_contra hpast
        have hlen := congrArg List.length heq
        have hle := length_archivePath_le fs.path (i := m + 1) (by omega) (show m + 1 ≤ i + 1 by omega)
        have hname : slotPath fs.path (i + 1) = archivePath fs.path (i + 1) := rfl
        rw [archiveName, List.length_take, hname] at hlen
        omega
  have hlive : slots (fileRotate .works fs (rowOfFiles fs.path m)).2 fs.path 0 = some [] := Function.update_self ..
  have htop := maxFiles_eq hmax
  have hheld : ∀ j, ∃ i, j ≤ m → slots (fileRotate .works fs (rowOfFiles fs.path m)).2 fs.path i
      = some (List.replicate (j + 1) 0) := by
    intro j
    by_cases hj : j ≤ m
    · obtain ⟨i, hi⟩ := hkeeps j (by omega) _ (slots_rowOfFiles fs.path hj)
      exact ⟨i, fun _ => hi⟩
    · exact ⟨0, fun h => absurd h hj⟩
  choose place hplace using hheld
  have hmaps : Set.MapsTo place (Finset.range (m + 1)) (Finset.Icc 1 m) := by
    intro j hj
    have hheld := hplace j (Nat.le_of_lt_succ (Finset.mem_range.mp hj))
    refine Finset.mem_Icc.mpr ⟨Nat.pos_of_ne_zero fun h0 => ?_, hslot _ (by rw [hheld]; simp)⟩
    rw [h0, hlive] at hheld
    simp at hheld
  have hinj : Set.InjOn place (Finset.range (m + 1)) := by
    intro j hj j' hj' heq
    have hheld := hplace j (Nat.le_of_lt_succ (Finset.mem_range.mp hj))
    have hheld' := hplace j' (Nat.le_of_lt_succ (Finset.mem_range.mp hj'))
    rw [heq, hheld', Option.some.injEq] at hheld
    have hlen := congrArg List.length hheld
    simp only [List.length_replicate] at hlen
    omega
  have hcard := Finset.card_le_card_of_injOn place hmaps hinj
  rw [Finset.card_range, Nat.card_Icc] at hcard
  omega

/-! ## The two together -/

/-- With names that fit, a rotation keeps the contents of the live file and of the archives below the limit exactly when the
files and the failing calls spare them. With names that are cut, there are files of which it loses one, although no call
fails. -/
theorem rotation_keeps_contents (os : FileOs) {fs : FileSink w} (hmax : 0 < fs.maxFiles) (files : Files) :
    (NamesFit fs.path (rotateTop fs.maxFiles) → (KeepsContents os fs files ↔ SparesContents os fs files)) ∧
      (¬ NamesFit fs.path (rotateTop fs.maxFiles) → ∃ files, ¬ KeepsContents .works fs files) :=
  ⟨keepsContents_iff hmax, lost_of_not_fit hmax⟩

/-- A sink with one archive. -/
def oneArchive : FileSink 64 where
  path := [97]
  rollMode := .size
  maxBytes := 1
  maxFiles := 1
  file := some [97]
  currentSize := 1
  currentDay := 0
  currentHour := 0

/-- A live file of one byte, and no archive. -/
def liveOnly : Files := Function.update (fun _ => none) [97] (some [1])

/-- Every call succeeds but the renames. -/
def FileOs.renamesFail : FileOs := { FileOs.works with renameFails := fun _ _ => true }

/-- When no call fails, the rotation of a sink with one archive keeps the content of the live file. -/
theorem rotation_keeps_contents_live : KeepsContents .works oneArchive liveOnly := by
  have hfit : NamesFit oneArchive.path (rotateTop oneArchive.maxFiles) := NamesFit.of_length (k := 1) (by decide) (by decide)
    (by decide)
  have hmax : 0 < oneArchive.maxFiles := by decide
  refine ((rotation_keeps_contents .works hmax liveOnly).1 hfit).mpr fun j hj c hc => ?_
  obtain rfl : j = 0 := Nat.lt_one_iff.mp hj
  exact Or.inr ⟨0, hc, Or.inl rfl⟩

/-- The rename of the live file fails, and opening it anew truncates it: its byte is in no file any more. -/
theorem rotation_loses_live : 0 < oneArchive.maxFiles ∧ NamesFit oneArchive.path (rotateTop oneArchive.maxFiles) ∧
    ¬ KeepsContents .renamesFail oneArchive liveOnly := by
  have hfit : NamesFit oneArchive.path (rotateTop oneArchive.maxFiles) := NamesFit.of_length (k := 1) (by decide) (by decide)
    (by decide)
  refine ⟨by decide, hfit, fun hkeeps => ?_⟩
  rcases (keepsContents_iff (by decide) hfit).mp hkeeps 0 (by decide) [1] rfl with ⟨hempty, -⟩ | ⟨k, hk, hkept⟩
  · cases hempty
  · cases k with
    | zero =>
      rcases hkept with h | h
      · cases h
      · cases h
    | succ k =>
      have hnone : slots liveOnly [97] (k + 1) = none := slots_update_live (fun _ => none) [97] [1] k
      cases hnone.symm.trans hk

end Copper
