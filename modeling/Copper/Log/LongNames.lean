import Copper.Log.Failures

/-!
# Archive names that are cut

`cpr_log_file_sink` takes a path of any length; `cpr__file_rotate` builds the names of the archives in buffers of 512 bytes.
A number that does not fit is cut to its first digits, which are a number themselves (`exists_decimal_take`): the names stay
apart only while the longest one fits, or when there is just one (`namesApart_iff`).
-/

namespace Copper

variable {w : Nat}

/-- The names that a rotation works with: that of the live file, and what its buffers hold for the archives. -/
def builtName (path : Path) : Nat → Path
  | 0 => path
  | i + 1 => archiveName path (i + 1)

/-- The names built for the archives up to `n` differ from each other, and from the live path. -/
structure NamesApart (path : Path) (n : Nat) : Prop where
  distinct : ∀ i j, 1 ≤ i → i < j → j ≤ n → archiveName path i ≠ archiveName path j
  notLive : ∀ i, 1 ≤ i → i ≤ n → archiveName path i ≠ path

/-- The longest name fits a buffer; or there is one name, and it is not cut to the path. -/
def RoomForNames (path : Path) (n : Nat) : Prop :=
  path.length + 1 + (decimal n).length ≤ 511 ∨ n = 1 ∧ path.length ≠ 511

/-- No rotation loses the live file or an archive but the oldest: each is found under its own name or under the next one. -/
def SparesAllButOldest (os : FileOs) (fs : FileSink w) : Prop :=
  ∀ (files : Files) (i : Nat) (c : Content), i ≤ rotateTop fs.maxFiles → files (builtName fs.path i) = some c →
    (fileRotate os fs files).2 (builtName fs.path (i + 1)) = some c ∨ (fileRotate os fs files).2 (builtName fs.path i) = some c

/-- The system refuses to rename the file of index `i`. -/
def FileOs.refuses (os : FileOs) (path : Path) (i : Nat) : Bool :=
  os.renameFails (builtName path i) (builtName path (i + 1))

/-- A file that the system refuses to rename is left alone: the rename onto it is refused as well, or the opening of it. -/
def FileOs.LeavesRefused (os : FileOs) (path : Path) (top : Nat) : Prop :=
  ∀ i ≤ top, os.refuses path i = true →
    match i with
    | 0 => os.openFails path = true
    | k + 1 => os.refuses path k = true

/-! ## Digits -/

/-- The digits of a number, but for its last. -/
theorem decimal_of_ge {n : Nat} (hn : 10 ≤ n) : decimal n = decimal (n / 10) ++ [UInt8.ofNat (48 + n % 10)] := by
  have hdigits := Nat.digits_eq_cons_digits_div (b := 10) (by omega) (show n ≠ 0 by omega)
  rw [decimal, decimal, if_neg (by omega), if_neg (by omega), hdigits, List.reverse_cons, List.map_append]
  rfl

/-- A number below ten has one digit. -/
theorem length_decimal_of_lt {n : Nat} (hn : n < 10) : (decimal n).length ≤ 1 := length_decimal_le (by omega) hn

/-- A greater number has no fewer digits. -/
theorem length_decimal_mono {i j : Nat} (hi : 0 < i) (hij : i ≤ j) : (decimal i).length ≤ (decimal j).length := by
  have hlen := length_archivePath_le [] hi hij
  simp only [archivePath, List.nil_append, List.length_cons] at hlen
  omega

/-- A number cut to its first digits is a smaller number. -/
theorem exists_decimal_take {k : Nat} (hk : 0 < k) {n : Nat} (hcut : k < (decimal n).length) :
    ∃ m, 0 < m ∧ m < n ∧ decimal m = (decimal n).take k := by
  induction n using Nat.strongRecOn with
  | ind n ih =>
    rcases Nat.lt_or_ge n 10 with hlt | hge
    · have := length_decimal_of_lt hlt
      omega
    · rw [decimal_of_ge hge, List.length_append, List.length_singleton] at hcut
      rw [decimal_of_ge hge, List.take_append_of_le_length (by omega)]
      rcases Nat.eq_or_lt_of_le (Nat.le_of_lt_succ hcut) with heq | hlt
      · exact ⟨n / 10, by omega, by omega, by rw [heq, List.take_length]⟩
      · obtain ⟨m, hpos, hm, hdigits⟩ := ih (n / 10) (by omega) hlt
        exact ⟨m, hpos, by omega, hdigits⟩

/-! ## Names -/

/-- The names fit just if the longest of them does. -/
theorem namesFit_iff {path : Path} {top : Nat} :
    NamesFit path top ↔ path.length + 1 + (decimal (top + 1)).length ≤ 511 := by
  have hlen : ∀ i, (archivePath path i).length = path.length + 1 + (decimal i).length := by
    intro i
    rw [archivePath, List.length_append, List.length_cons]
    omega
  constructor
  · intro h
    have htop := h top (Nat.le_refl top)
    rw [hlen] at htop
    omega
  · intro h i hi
    have hmono := length_decimal_mono (i := i + 1) (j := top + 1) (by omega) (by omega)
    rw [hlen]
    omega

/-- A name that fits is built whole. -/
theorem builtName_eq {path : Path} {top : Nat} (hfit : NamesFit path top) {i : Nat} (hi : i ≤ top + 1) :
    builtName path i = slotPath path i := by
  cases i with
  | zero => rfl
  | succ i => exact archiveName_eq (hfit i (by omega))

/-- Without room for a digit, all archives have one name. -/
theorem archiveName_of_no_digit {path : Path} (h : 510 ≤ path.length) (i : Nat) :
    archiveName path i = (path ++ [46]).take 511 := by
  rw [archiveName, archivePath, show path ++ 46 :: decimal i = (path ++ [46]) ++ decimal i by simp]
  refine List.take_append_of_le_length ?_
  rw [List.length_append, List.length_singleton]
  omega

/-- A name whose number is cut is the name of a lower number. -/
theorem exists_archiveName_eq {path : Path} (h : path.length < 510) {n : Nat}
    (hcut : 511 < path.length + 1 + (decimal n).length) : ∃ m, 0 < m ∧ m < n ∧ archiveName path m = archiveName path n := by
  obtain ⟨m, hpos, hm, hdigits⟩ := exists_decimal_take (k := 510 - path.length) (by omega) (n := n) (by omega)
  refine ⟨m, hpos, hm, ?_⟩
  have hroom : 511 - path.length = (510 - path.length) + 1 := by omega
  rw [archiveName, archiveName, archivePath, archivePath, List.take_append, List.take_append, hroom, List.take_succ_cons,
    List.take_succ_cons, hdigits, List.take_take, Nat.min_self]

/-- Names that fit are different. -/
theorem namesApart_of_fit {path : Path} {top : Nat} (hfit : NamesFit path top) : NamesApart path (top + 1) := by
  have hname : ∀ i, 1 ≤ i → i ≤ top + 1 → archiveName path i = slotPath path i := by
    intro i hi htop
    obtain ⟨k, rfl⟩ := Nat.exists_eq_succ_of_ne_zero (Nat.ne_of_gt hi)
    exact archiveName_eq (hfit k (by omega))
  refine ⟨fun i j hi hij hj heq => ?_, fun i hi htop heq => ?_⟩
  · rw [hname i hi (by omega), hname j (by omega) hj] at heq
    exact Nat.ne_of_lt hij (slotPath_injective path heq)
  · rw [hname i hi htop] at heq
    exact Nat.ne_of_gt hi (slotPath_injective path (heq.trans (rfl : path = slotPath path 0)))

/-- Names stay apart exactly if there is room for them. -/
theorem namesApart_iff (path : Path) (top : Nat) : NamesApart path (top + 1) ↔ RoomForNames path (top + 1) := by
  constructor
  · intro h
    by_contra hroom
    rw [RoomForNames, not_or, not_and_or] at hroom
    obtain ⟨hlong, hmany⟩ := hroom
    rcases Nat.lt_or_ge path.length 510 with hlt | hge
    · obtain ⟨m, hpos, hm, heq⟩ := exists_archiveName_eq hlt (show 511 < path.length + 1 + (decimal (top + 1)).length by omega)
      exact h.distinct m (top + 1) hpos hm (Nat.le_refl _) heq
    · rcases hmany with hmany | hcut
      · exact h.distinct 1 (top + 1) (Nat.le_refl 1) (by omega) (Nat.le_refl _)
          ((archiveName_of_no_digit hge 1).trans (archiveName_of_no_digit hge _).symm)
      · refine h.notLive 1 (Nat.le_refl 1) (by omega) ?_
        rw [archiveName_of_no_digit hge, List.take_append_of_le_length (by omega), List.take_of_length_le (by omega)]
  · rintro (hfit | ⟨hone, hlen⟩)
    · exact namesApart_of_fit (namesFit_iff.mpr hfit)
    · refine ⟨fun i j hi hij hj => by omega, fun i hi htop heq => ?_⟩
      have hcut := congrArg List.length heq
      rw [archiveName, archivePath, List.length_take, List.length_append, List.length_cons] at hcut
      omega

/-! ## Rotations -/

section Rotation

variable {os : FileOs} {fs : FileSink w}

/-- Where the names fit, a rename is refused just when that of the archive itself is. -/
theorem refuses_eq_stuck {path : Path} {top : Nat} (hfit : NamesFit path top) {i : Nat} (hi : i ≤ top) :
    os.refuses path i = os.stuck path i := by
  rw [FileOs.refuses, FileOs.stuck, builtName_eq hfit (by omega), builtName_eq hfit (by omega)]

/-- Below the limit, the removal changes nothing. -/
theorem remainingSlots_row (files : Files) {i : Nat} (hi : i ≤ rotateTop fs.maxFiles) :
    remainingSlots os fs files i = slots files fs.path i := by
  unfold remainingSlots
  split
  · exact Function.update_of_ne (by omega) _ _
  · rfl

/-- What a rotation leaves in a slot above the live file. -/
theorem slots_rotated_succ (hfit : NamesFit fs.path (rotateTop fs.maxFiles)) (files : Files) (i : Nat) :
    slots (fileRotate os fs files).2 fs.path (i + 1) =
      Slots.shiftExcept (os.stuck fs.path) (remainingSlots os fs files) (rotateTop fs.maxFiles) (i + 1) := by
  rw [slots_fileRotate_os os hfit]
  split
  · rfl
  · exact Function.update_of_ne (Nat.succ_ne_zero i) _ _

/-- What a rotation leaves in the live file. -/
theorem slots_rotated_zero (hfit : NamesFit fs.path (rotateTop fs.maxFiles)) (files : Files) :
    slots (fileRotate os fs files).2 fs.path 0 =
      if os.openFails fs.path then (if os.stuck fs.path 0 then slots files fs.path 0 else none) else some [] := by
  rw [slots_fileRotate_os os hfit]
  split
  · rw [Slots.shiftExcept_zero, remainingSlots_row files (Nat.zero_le _)]
  · exact Function.update_self 0 _ _

/-- The property, said of the slots. -/
theorem spares_iff_slots (hfit : NamesFit fs.path (rotateTop fs.maxFiles)) :
    SparesAllButOldest os fs ↔ ∀ (files : Files) (i : Nat) (c : Content), i ≤ rotateTop fs.maxFiles →
      slots files fs.path i = some c →
        slots (fileRotate os fs files).2 fs.path (i + 1) = some c ∨ slots (fileRotate os fs files).2 fs.path i = some c := by
  refine forall₃_congr fun files i c => imp_congr_right fun hi => ?_
  rw [builtName_eq hfit (show i ≤ rotateTop fs.maxFiles + 1 by omega), builtName_eq hfit (Nat.succ_le_succ hi)]
  rfl

/-- Above its end the row has nothing. -/
theorem slots_rowOfFiles_above (path : Path) {m j : Nat} (hj : m < j) : slots (rowOfFiles path m) path j = none := by
  induction m with
  | zero =>
    rw [rowOfFiles, slots_update, Function.update_of_ne (Nat.ne_of_gt hj)]
    rfl
  | succ m ih => rw [rowOfFiles, slots_update, Function.update_of_ne (Nat.ne_of_gt hj), ih (by omega)]

/-- A file that the system refuses to rename is in its slot or lost: of the files up to it, each with a content of its own, it is
found nowhere else. -/
theorem slot_of_refused (hfit : NamesFit fs.path (rotateTop fs.maxFiles)) (h : SparesAllButOldest os fs) {i : Nat}
    (hi : i ≤ rotateTop fs.maxFiles) (hrefused : os.refuses fs.path i = true) :
    slots (fileRotate os fs (rowOfFiles fs.path i)).2 fs.path i = some (List.replicate (i + 1) 0) := by
  have hkept := (spares_iff_slots hfit).mp h (rowOfFiles fs.path i) i _ hi (slots_rowOfFiles fs.path (Nat.le_refl i))
  refine hkept.resolve_left fun hmoved => ?_
  have hstuck : os.stuck fs.path i = true := (refuses_eq_stuck hfit hi).symm.trans hrefused
  have habove : remainingSlots os fs (rowOfFiles fs.path i) (i + 1) = none := by
    unfold remainingSlots
    split
    · rcases Nat.eq_or_lt_of_le hi with rfl | hlt
      · exact Function.update_self _ _ _
      · rw [Function.update_of_ne (by omega), slots_rowOfFiles_above fs.path (Nat.lt_succ_self i)]
    · exact slots_rowOfFiles_above fs.path (Nat.lt_succ_self i)
  rw [slots_rotated_succ hfit, Slots.shiftExcept_succ _ hi, if_pos hstuck, Slots.left, habove, ite_self] at hmoved
  cases hmoved

/-- Where all but the oldest are spared, a file that the system refuses to rename is left alone. -/
theorem leavesRefused_of_spares (hfit : NamesFit fs.path (rotateTop fs.maxFiles)) (h : SparesAllButOldest os fs) :
    os.LeavesRefused fs.path (rotateTop fs.maxFiles) := by
  intro i hi hrefused
  have hslot := slot_of_refused hfit h hi hrefused
  cases i with
  | zero =>
    by_contra hopen
    rw [slots_rotated_zero hfit, if_neg hopen] at hslot
    simp at hslot
  | succ k =>
    by_contra hmoves
    have hfree : os.stuck fs.path k ≠ true := fun hk => hmoves ((refuses_eq_stuck hfit (by omega)).trans hk)
    rw [slots_rotated_succ hfit, Slots.shiftExcept_succ _ (by omega), if_neg hfree, remainingSlots_row _ (by omega),
      slots_rowOfFiles fs.path (by omega), Option.some_or, Option.some.injEq] at hslot
    simpa using congrArg List.length hslot

/-- And the other way round. -/
theorem spares_of_leavesRefused (hfit : NamesFit fs.path (rotateTop fs.maxFiles))
    (h : os.LeavesRefused fs.path (rotateTop fs.maxFiles)) : SparesAllButOldest os fs := by
  rw [spares_iff_slots hfit]
  intro files i c hi hc
  have hitem : remainingSlots os fs files i = some c := (remainingSlots_row files hi).trans hc
  cases hstuck : os.stuck fs.path i with
  | false =>
    refine Or.inl ?_
    rw [slots_rotated_succ hfit, Slots.shiftExcept_succ _ hi, hstuck, if_neg (by simp), hitem, Option.some_or]
  | true =>
    refine Or.inr ?_
    have hleft := h i hi ((refuses_eq_stuck hfit hi).trans hstuck)
    cases i with
    | zero => rw [slots_rotated_zero hfit, if_pos hleft, if_pos hstuck, hc]
    | succ k =>
      have hbelow : os.stuck fs.path k = true := (refuses_eq_stuck hfit (by omega)).symm.trans hleft
      rw [slots_rotated_succ hfit, Slots.shiftExcept_succ _ (by omega), if_pos hbelow, Slots.left,
        if_neg (by simp [hstuck]), hitem]

variable (os) in
/-- A rotation with a single archive: a removal that leaves the live file alone, the rename of the live file, and its opening. -/
theorem fileRotate_one (htop : rotateTop fs.maxFiles = 0) (hname : archiveName fs.path 1 ≠ fs.path) (files : Files) :
    ∃ removed : Files, removed fs.path = files fs.path ∧
      (files (archiveName fs.path 1) = none → removed (archiveName fs.path 1) = none) ∧
      (fileRotate os fs files).2 =
        (openFile os (fsRename os removed fs.path (archiveName fs.path 1)).state fs.path .write).state := by
  have hone : fs.maxFiles = 1 := by
    unfold rotateTop at htop
    split at htop
    · omega
    · omega
  refine ⟨(removeFile os files (archiveName fs.path 1)).state, ?_, fun hnone => ?_, ?_⟩
  · unfold removeFile
    split
    · rfl
    · exact Function.update_of_ne (Ne.symm hname) _ _
  · rw [removeFile, if_pos (Or.inr hnone)]
    exact hnone
  · rw [fileRotate, htop, hone]
    rfl

/-- A single archive, whose name is not the live path, cut or not. -/
theorem spares_iff_of_one (htop : rotateTop fs.maxFiles = 0) (hname : archiveName fs.path 1 ≠ fs.path) :
    SparesAllButOldest os fs ↔ os.LeavesRefused fs.path (rotateTop fs.maxFiles) := by
  have hrefuses : os.refuses fs.path 0 = os.renameFails fs.path (archiveName fs.path 1) := rfl
  constructor
  · intro h i hi hrefused
    obtain rfl : i = 0 := by omega
    by_contra hopen
    obtain ⟨removed, hlive, hnone, hrotated⟩ :=
      fileRotate_one os htop hname (Function.update (fun _ => none) fs.path (some [0]))
    rw [Function.update_self] at hlive
    have hempty := hnone (Function.update_of_ne hname _ _)
    have hkept := h (Function.update (fun _ => none) fs.path (some [0])) 0 [0] (Nat.zero_le _) (Function.update_self _ _ _)
    simp only [builtName, hrotated, fsRename, hlive, ← hrefuses, hrefused, if_true, Outcome.fail, openFile, if_neg hopen,
      Function.update_of_ne hname, hempty, Function.update_self] at hkept
    simp at hkept
  · intro h files i c hi hc
    obtain rfl : i = 0 := by omega
    obtain ⟨removed, hlive, -, hrotated⟩ := fileRotate_one os htop hname files
    have hitem : removed fs.path = some c := hlive.trans hc
    cases hrefused : os.refuses fs.path 0 with
    | true =>
      refine Or.inr ?_
      have hopen : os.openFails fs.path = true := h 0 (Nat.zero_le _) hrefused
      simp only [builtName, hrotated, fsRename, hitem, ← hrefuses, hrefused, if_true, Outcome.fail, openFile, hopen]
    | false =>
      refine Or.inl ?_
      have hmoved : (fsRename os removed fs.path (archiveName fs.path 1)).state
          = Function.update (Function.update removed fs.path none) (archiveName fs.path 1) (some c) := by
        simp only [fsRename, hitem, ← hrefuses, hrefused, Bool.false_eq_true, if_false]
      rw [builtName, hrotated, hmoved]
      unfold openFile
      split
      · exact Function.update_self _ _ _
      · exact (Function.update_of_ne hname _ _).trans (Function.update_self _ _ _)

/-- With names that are apart, a rotation loses at most the oldest archive exactly if what it cannot rename is left alone. -/
theorem spares_iff (happart : NamesApart fs.path (rotateTop fs.maxFiles + 1)) :
    SparesAllButOldest os fs ↔ os.LeavesRefused fs.path (rotateTop fs.maxFiles) := by
  rcases (namesApart_iff fs.path _).mp happart with hfit | ⟨hone, -⟩
  · have hnames := namesFit_iff.mpr hfit
    exact ⟨leavesRefused_of_spares hnames, spares_of_leavesRefused hnames⟩
  · exact spares_iff_of_one (by omega) (happart.notLive 1 (Nat.le_refl 1) (by omega))

end Rotation

/-! ## The life of a sink -/

/-- A write as the sink meets it: what the system refuses, the files at that time, and the record. -/
structure SinkWrite where
  os : FileOs
  files : Files
  record : LogRecord

/-- The sink after some writes. -/
def FileSink.after (localtime : TimeConversion) (fs : FileSink w) (writes : List SinkWrite) : FileSink w :=
  writes.foldl (fun fs write => (fileWrite write.os localtime fs write.files write.record).2.1) fs

section Life

variable {localtime : TimeConversion}

variable (localtime) in
/-- A write keeps what the names are built from. -/
theorem fileWrite_keeps (os : FileOs) (fs : FileSink w) (files : Files) (r : LogRecord) :
    (fileWrite os localtime fs files r).2.1.path = fs.path ∧ (fileWrite os localtime fs files r).2.1.maxFiles = fs.maxFiles := by
  have hrotated : (fileMaybeRotate os localtime fs files r.timeMs).2.1.path = fs.path ∧
      (fileMaybeRotate os localtime fs files r.timeMs).2.1.maxFiles = fs.maxFiles := by
    by_cases hdue : fs.Due localtime r.timeMs
    · rw [fileMaybeRotate_of_due hdue]
      obtain ⟨hpath, -, -, hmax, -⟩ := FileSink.stamped_fields localtime (fileRotate os fs files).1 r.timeMs
      exact ⟨hpath, hmax⟩
    · rw [fileMaybeRotate_of_not_due hdue]
      exact ⟨rfl, rfl⟩
  unfold fileWrite
  generalize fileMaybeRotate os localtime fs files r.timeMs = rotated at hrotated
  obtain ⟨_, sink, _⟩ := rotated
  cases hfile : sink.file with
  | none =>
    simp only [hfile]
    exact hrotated
  | some _ =>
    simp only [hfile]
    exact hrotated

variable (localtime) in

/-- Writes keep the path and the limit. -/
theorem after_keeps (writes : List SinkWrite) (fs : FileSink w) :
    (fs.after localtime writes).path = fs.path ∧ (fs.after localtime writes).maxFiles = fs.maxFiles := by
  induction writes generalizing fs with
  | nil => exact ⟨rfl, rfl⟩
  | cons write writes ih =>
    obtain ⟨hpath, hmax⟩ := ih (fileWrite write.os localtime fs write.files write.record).2.1
    obtain ⟨hpath', hmax'⟩ := fileWrite_keeps localtime write.os fs write.files write.record
    exact ⟨hpath.trans hpath', hmax.trans hmax'⟩

/-- A sink that could be opened has the path and the limit it was given. -/
theorem logFileSink_keeps {os : FileOs} {now : UInt64} {config : FileSinkConfig w} {path : Path} (hpath : config.path = some path)
    {files : Files} {fs : FileSink w} (hopen : (logFileSink os localtime now (some config) files).result = some fs) :
    fs.path = path ∧ fs.maxFiles = config.maxFiles := by
  simp only [logFileSink, hpath] at hopen
  split at hopen
  · cases hopen
  · cases hopen
    exact ⟨rfl, rfl⟩

/-- At every rotation in the life of a sink, the names it builds are apart and nothing is lost but the oldest archive, exactly if
there is room for the names and the files that the system refuses to rename are left alone. -/
theorem archive_names_apart_iff {os : FileOs} {now : UInt64} {config : FileSinkConfig w} {path : Path}
    (hpath : config.path = some path) {files : Files} {fs : FileSink w}
    (hopen : (logFileSink os localtime now (some config) files).result = some fs) (writes : List SinkWrite) (later : FileOs) :
    (NamesApart (fs.after localtime writes).path (rotateTop (fs.after localtime writes).maxFiles + 1) ∧
        SparesAllButOldest later (fs.after localtime writes)) ↔
      RoomForNames path (rotateTop config.maxFiles + 1) ∧ later.LeavesRefused path (rotateTop config.maxFiles) := by
  obtain ⟨hopened, hlimit⟩ := logFileSink_keeps hpath hopen
  obtain ⟨hname, hmax⟩ := after_keeps localtime writes fs
  rw [← hopened, ← hlimit, ← hname, ← hmax, ← namesApart_iff]
  exact and_congr_right spares_iff

end Life

/-- A sink that keeps ten archives. -/
def tenArchives (path : Path) : FileSinkConfig 64 where
  path := some path
  openMode := .append
  rollMode := .size
  maxBytes := 1
  maxFiles := 10

/-- With a short path, and no refusals, a rotation keeps all that it should. -/
theorem archive_names_apart_short :
    ∃ fs, (logFileSink .works noTime 0 (some (tenArchives [97])) fun _ => none).result = some fs ∧
      NamesApart [97] 10 ∧ SparesAllButOldest .works fs := by
  refine ⟨_, congrArg Outcome.result (logFileSink_works 0 rfl fun _ => none), ?_⟩
  have hroom : RoomForNames [97] (rotateTop (tenArchives [97]).maxFiles + 1) := Or.inl (by decide)
  exact (archive_names_apart_iff rfl (congrArg Outcome.result (logFileSink_works 0 rfl fun _ => none)) [] .works).mpr
    ⟨hroom, fun _ _ h => nomatch h⟩

/-- A file that is removed is gone. -/
theorem removeFile_works (files : Files) (path : Path) : (removeFile .works files path).state path = none := by
  unfold removeFile
  split
  · rename_i hnone
    exact hnone.resolve_left (by simp [FileOs.works])
  · exact Function.update_self _ _ _

/-- A path of 509 bytes, "a/a/…/a". -/
def deepPath : Path := (List.replicate 254 [97, 47]).flatten ++ [97]

/-- With a long path, the tenth archive has the name of the first, and a rotation removes the first. -/
theorem archive_names_collide :
    (∃ fs, (logFileSink .works noTime 0 (some (tenArchives deepPath)) fun _ => none).result = some fs) ∧
      archiveName deepPath 10 = archiveName deepPath 1 ∧
      ∀ files : Files, (removeFile .works files (archiveName deepPath 10)).state (archiveName deepPath 1) = none := by
  have hlen : deepPath.length = 509 := by
    simp only [deepPath, List.length_append, List.length_flatten, List.map_replicate, List.sum_replicate_nat, List.length_cons,
      List.length_nil]
  have hcut : ∀ i, archiveName deepPath i = deepPath ++ 46 :: (decimal i).take 1 := by
    intro i
    rw [archiveName, archivePath, List.take_append, hlen, List.take_of_length_le (by omega)]
    rfl
  have hsame : archiveName deepPath 10 = archiveName deepPath 1 := by
    rw [hcut, hcut]
    rfl
  refine ⟨⟨_, congrArg Outcome.result (logFileSink_works 0 rfl fun _ => none)⟩, hsame, fun files => ?_⟩
  rw [hsame]
  exact removeFile_works files _

end Copper
