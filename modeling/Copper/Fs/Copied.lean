import Copper.Fs.Streams

/-!
# What a copy leaves

When writing or copying a file succeeds, and what the file then holds: everything, except what the drain at the close does not get
rid of, whose failure nobody notices. Opening the destination empties it before anything is read, so that a file that is copied to
itself is lost.
-/

namespace Copper.Fs

variable {f : Fates} {s : StdioState}

/-! ## Opening -/

/-- A stream on a file, at its start. -/
def StdioState.opening (s : StdioState) (disk : Disk) (i : Nat) : StdioState := (s.start disk i 0).2

/-- The disk when a stream is opened. -/
@[simp] theorem StdioState.opening_disk (s : StdioState) (disk : Disk) (i : Nat) : (s.opening disk i).disk = disk := rfl

/-- The stream that is opened is counted. -/
@[simp] theorem StdioState.opening_opened (s : StdioState) (disk : Disk) (i : Nat) : (s.opening disk i).opened = s.opened + 1 := rfl

/-- It starts at the beginning of its file, and empty. -/
@[simp] theorem StdioState.opening_self (s : StdioState) (disk : Disk) (i : Nat) :
    (s.opening disk i).streams s.opened = ⟨i, 0, OutBuffer.empty, false, false, 0⟩ := Function.update_self _ _ _

/-- The other streams stay as they are. -/
theorem StdioState.opening_of_ne (s : StdioState) (disk : Disk) (i : Nat) {h : Nat} (hh : h ≠ s.opened) :
    (s.opening disk i).streams h = s.streams h := Function.update_of_ne hh _ _

/-- `fopen` gives no stream and changes nothing, or it gives the next one. -/
theorem fopen_cases (f : Fates) (path : Path) (mode : FileMode) (s : StdioState) :
    f.fopen path mode s = (none, s) ∨
      f.openFails s.opened = false ∧ ∃ s', s'.opened = s.opened + 1 ∧ f.fopen path mode s = (some s.opened, s') := by
  unfold Fates.fopen
  cases f.openFails s.opened with
  | true => exact Or.inl rfl
  | false =>
    cases mode with
    | read | readWrite =>
      cases s.disk.names path with
      | none => exact Or.inl rfl
      | some i => exact Or.inr ⟨rfl, _, rfl, rfl⟩
    | write | append => exact Or.inr ⟨rfl, _, rfl, rfl⟩

/-- Once the stream is there, it is memory that decides. -/
theorem openFile_started {path : Path} {mode : FileMode} {s' : StdioState} (hopen : f.fopen path mode s = (some s.opened, s'))
    (hopened : s'.opened = s.opened + 1) :
    openFile f.stdio.toStdio (some path) mode s =
      if f.mallocFails s.opened then .fail (f.fclose s.opened s') none .errOom "out of memory"
      else { result := some s.opened, state := s' } := by
  have hmalloc : f.malloc s' = (!f.mallocFails s.opened, s') := by rw [Fates.malloc, hopened, Nat.add_sub_cancel]
  simp only [openFile, Fates.stdio, hopen, hmalloc]
  cases f.mallocFails s.opened <;> rfl

/-- Without a stream there is no file. -/
theorem openFile_not_started {path : Path} {mode : FileMode} (hopen : f.fopen path mode s = (none, s)) :
    (openFile f.stdio.toStdio (some path) mode s).result = none := by
  simp only [openFile, Fates.stdio, hopen]
  rfl

/-- A stream that is not granted gives no file. -/
theorem openFile_refused (path : Path) (mode : FileMode) (h : ¬ f.Grants s.opened) :
    (openFile f.stdio.toStdio (some path) mode s).result = none := by
  rcases fopen_cases f path mode s with hopen | ⟨hgranted, s', hopened, hopen⟩
  · exact openFile_not_started hopen
  · have hmalloc : f.mallocFails s.opened = true := by
      by_contra hmalloc
      exact h ⟨hgranted, Bool.eq_false_iff.mpr hmalloc⟩
    rw [openFile_started hopen hopened, hmalloc]
    rfl

/-- A file that is opened for writing is emptied. -/
theorem openFile_write (path : Path) (h : f.Grants s.opened) : openFile f.stdio.toStdio (some path) .write s =
    { result := some s.opened, state := s.opening (s.disk.emptied path) (s.disk.target path) } := by
  have hopen : f.fopen path .write s = (some s.opened, s.opening (s.disk.emptied path) (s.disk.target path)) := by
    simp only [Fates.fopen, h.1]
    rfl
  rw [openFile_started hopen rfl, h.2]
  rfl

/-- A file that is opened for reading stays as it is. -/
theorem openFile_read {path : Path} {i : Nat} (hi : s.disk.names path = some i) (h : f.Grants s.opened) :
    openFile f.stdio.toStdio (some path) .read s = { result := some s.opened, state := s.opening s.disk i } := by
  have hopen : f.fopen path .read s = (some s.opened, s.opening s.disk i) := by
    simp only [Fates.fopen, h.1, hi]
    rfl
  rw [openFile_started hopen rfl, h.2]
  rfl

/-- A file that is not there cannot be read. -/
theorem openFile_missing {path : Path} (hi : s.disk.names path = none) :
    (openFile f.stdio.toStdio (some path) .read s).result = none := by
  apply openFile_not_started
  simp only [Fates.fopen, hi]
  split <;> rfl

/-- A stream on an empty file. -/
theorem writing_opening {disk : Disk} {i : Nat} (hempty : disk.contents i = []) : Writing f (s.opening disk i) s.opened i [] where
  file := by rw [StdioState.opening_self]
  pos := by rw [StdioState.opening_self, StdioState.opening_disk, hempty, List.length_nil]
  kept := by rw [StdioState.opening_self, StdioState.opening_disk, hempty, OutBuffer.empty, List.append_nil]
  count := by rw [StdioState.opening_self, OutBuffer.empty, List.length_nil]
  even := by
    rw [StdioState.opening_self]
    exact OutBuffer.even_empty _

/-! ## Writing a whole file -/

/-- What is put to a new stream is written or waits, and where nothing was lost on the way it is the data. -/
theorem writeFile_spec {h i : Nat} {data : DataArg} (hdata : data.missing = false) (hw : Writing f s h i []) :
    let wrote := writeFile f.stdio.toStdio (some h) data s
    Confined h i s wrote.state ∧
      ((f.output h).Through 0 data.size ∧ wrote.result = data.size ∧ Writing f wrote.state h i data.toList ∨
        ¬ (f.output h).Through 0 data.size ∧ wrote.result < data.size) := by
  cases data with
  | null n =>
    have hn : n = 0 := by simpa [DataArg.missing] using hdata
    subst hn
    exact ⟨⟨rfl, fun _ _ => rfl, fun _ _ => rfl⟩, Or.inl ⟨Drain.Through.refl _ 0, rfl, hw⟩⟩
  | bytes data =>
    have hspec := fwrite_spec hw data
    rw [List.nil_append, List.length_nil] at hspec
    exact hspec

/-- When a whole file is written, if it says so: unless the last drain leaves something behind, or something fails before. -/
theorem writeFileAll_stores_iff (f : Fates) (s : StdioState) (path : Path) (data : DataArg) :
    ((writeFileAll f.stdio.toStdio (some path) data s).result = true →
        (writeFileAll f.stdio.toStdio (some path) data s).state.disk.content path = some data.toList) ↔
      (data.missing = false → f.Grants s.opened → (f.output s.opened).Through 0 data.size →
        (f.output s.opened).ClosesAll data.size) := by
  cases hdata : data.missing with
  | true => simp [writeFileAll, hdata, Outcome.fail]
  | false =>
    by_cases hgrants : f.Grants s.opened
    · have hspec := writeFile_spec hdata (writing_opening (f := f) (s := s) (s.disk.contents_emptied path))
      simp only [writeFileAll, hdata, Bool.false_eq_true, if_false, openFile_write path hgrants]
      generalize writeFile f.stdio.toStdio (some s.opened) data _ = wrote at hspec ⊢
      obtain ⟨hconf, ⟨hthrough, hall, hw⟩ | ⟨hthrough, hless⟩⟩ := hspec
      · obtain ⟨hconf', hstored⟩ := fclose_spec hw
        have hname : (f.fclose s.opened wrote.state).disk.names path = some (s.disk.target path) := by
          rw [hconf'.names, hconf.names, StdioState.opening_disk, s.disk.names_emptied]
        rw [DataArg.length_toList hdata, ← Disk.content_eq_some_iff hname] at hstored
        simp only [hall, Nat.le_refl, decide_true, true_imp_iff, hgrants, hthrough]
        exact hstored
      · simp only [hthrough, false_imp_iff, implies_true, iff_true]
        intro hle
        exact absurd (of_decide_eq_true hle) (Nat.not_le.mpr hless)
    · simp [writeFileAll, hdata, openFile_refused path .write hgrants, hgrants]

/-! ## Copying -/

/-- Between two rounds of the loop: what was read was written. -/
structure Copying (f : Fates) (s : StdioState) (inp out j i : Nat) (c : Content) (p : Nat) : Prop where
  reading : Reading f s inp j c p
  writing : Writing f s out i (c.take p)
  through : (f.output out).Through 0 p

/-- The loop has come to the end of the source, or to what cannot be read of it. -/
structure LoopEnded (f : Fates) (s s' : StdioState) (inp out i : Nat) (c : Content) : Prop where
  idle : (s'.streams inp).buffer.held = []
  eof : (s'.streams inp).eof = true ↔ f.Readable inp c.length
  copied : f.Readable inp c.length → (f.output out).Through 0 c.length ∧ Writing f s' out i c
  names : s'.disk.names = s.disk.names
  contents : ∀ k, k ≠ i → s'.disk.contents k = s.disk.contents k

/-- The length of a beginning. -/
theorem length_take_of_le {α : Type} {c : List α} {p : Nat} (h : p ≤ c.length) : (c.take p).length = p := by
  rw [List.length_take, Nat.min_eq_left h]

/-- The loop of the copy comes to an end: it has copied all, or bytes were lost on the way. -/
theorem copyLoop_spec {inp out j i : Nat} {c : Content} (hne : inp ≠ out) (hapart : c ≠ [] → j ≠ i) {fuel p : Nat}
    (hc : Copying f s inp out j i c p) (hfuel : c.length - p < fuel) (error : Option CprError) :
    ∃ r, f.stdio.copyLoop inp out fuel error s = some r ∧
      (r.result = true ∧ LoopEnded f s r.state inp out i c ∨ r.result = false ∧ ¬ (f.output out).Through 0 c.length) := by
  induction fuel generalizing s p error with
  | zero => exact absurd hfuel (Nat.not_lt_zero _)
  | succ fuel ih =>
    have hchunk : Chunk f s inp j c p (f.fread inp CopyIo.chunk s) := fread_spec hc.reading (by decide)
    have hread : (f.stdio.readFile (some inp) (.room CopyIo.chunk) s).result = (f.fread inp CopyIo.chunk s).1 := rfl
    have hstate : (f.stdio.readFile (some inp) (.room CopyIo.chunk) s).state = (f.fread inp CopyIo.chunk s).2 := rfl
    rw [CopyIo.copyLoop]
    simp only [hread, hstate]
    generalize f.fread inp CopyIo.chunk s = got at hchunk ⊢
    obtain ⟨data, s₁⟩ := got
    have hw₁ : Writing f s₁ out i (c.take p) := hc.writing.of_eq hchunk.disk (hchunk.streams out hne.symm)
    by_cases hdata : data = []
    · rw [if_neg (by simp [hdata])]
      refine ⟨_, rfl, Or.inl ⟨rfl, ?_⟩⟩
      obtain ⟨heof, hend⟩ := hchunk.ended hdata
      refine ⟨hchunk.reading.idle, heof, fun hreadable => ?_, by rw [hchunk.disk], fun k _ => by rw [hchunk.disk]⟩
      rw [hend hreadable, List.take_length] at hw₁
      exact ⟨hend hreadable ▸ hc.through, hw₁⟩
    · rw [if_pos (List.length_pos_iff.mpr hdata)]
      have hle : p + data.length ≤ c.length := hchunk.reading.le
      have hlen : (c.take p ++ data).length = p + data.length := by
        rw [List.length_append, length_take_of_le hc.reading.le]
      have hpos := List.length_pos_iff.mpr hdata
      have hcne : c ≠ [] := by
        rintro rfl
        rw [List.length_nil] at hle
        omega
      have hwrote : (writeFile f.stdio.toStdio (some out) (.bytes data) s₁).result = (f.fwrite out data s₁).1 := rfl
      have hwstate : (writeFile f.stdio.toStdio (some out) (.bytes data) s₁).state = (f.fwrite out data s₁).2 := rfl
      have hspec := fwrite_spec hw₁ data
      rw [hlen, length_take_of_le hc.reading.le] at hspec
      simp only [hwrote, hwstate]
      obtain ⟨hconf, ⟨hthrough, hall, hw₂⟩ | ⟨hthrough, hless⟩⟩ := hspec
      · rw [if_neg (fun h => h hall)]
        rw [hchunk.next] at hw₂
        have hnext : Copying f (f.fwrite out data s₁).2 inp out j i c (p + data.length) :=
          ⟨hchunk.reading.confined hconf hne (hapart hcne), hw₂,
            (Drain.through_iff_split (Nat.zero_le _) (Nat.le_add_right _ _)).mpr ⟨hc.through, hthrough⟩⟩
        obtain ⟨r, hr, hend⟩ := ih hnext (by omega) _
        refine ⟨r, hr, hend.imp_left fun h => ⟨h.1, h.2.idle, h.2.eof, h.2.copied, ?_, fun k hk => ?_⟩⟩
        · rw [h.2.names, hconf.names, hchunk.disk]
        · rw [h.2.contents k hk, hconf.contents k hk, hchunk.disk]
      · rw [if_pos (Nat.ne_of_lt hless)]
        exact ⟨_, rfl, Or.inr ⟨rfl, fun h => hthrough (h.mono (Nat.zero_le p) hle)⟩⟩

/-- What a copy that says it succeeded leaves. -/
structure CopyDone (f : Fates) (s : StdioState) (dst : Path) (out : Nat) (c : Content) (s' : StdioState) : Prop where
  names : s'.disk.names = (s.disk.emptied dst).names
  stored : s'.disk.contents (s.disk.target dst) = c ↔ (f.output out).ClosesAll c.length
  contents : ∀ k, k ≠ s.disk.target dst → s'.disk.contents k = s.disk.contents k

/-- The end of a copy. -/
theorem finishCopy_spec {s₀ : StdioState} {inp out i : Nat} {c : Content} (hne : inp ≠ out) (dst : Path) {copied : Outcome StdioState Bool}
    (h : copied.result = true ∧ LoopEnded f s₀ copied.state inp out i c ∨
      copied.result = false ∧ ¬ (f.output out).Through 0 c.length) :
    let r := f.stdio.finishCopy inp out dst copied
    (r.result = true ↔ f.Readable inp c.length ∧ (f.output out).Through 0 c.length) ∧
      (r.result = true → r.state.disk.names = s₀.disk.names ∧ (r.state.disk.contents i = c ↔ (f.output out).ClosesAll c.length) ∧
        ∀ k, k ≠ i → r.state.disk.contents k = s₀.disk.contents k) := by
  have heof : f.stdio.fileEof (some inp) copied.state = (copied.state.streams inp).eof := rfl
  have hclose : f.stdio.closeFile (some out) (f.stdio.closeFile (some inp) copied.state) =
    f.fclose out (f.fclose inp copied.state) := rfl
  simp only [CopyIo.finishCopy, heof, hclose]
  rcases h with ⟨hresult, hend⟩ | ⟨hresult, hthrough⟩
  · by_cases hreadable : f.Readable inp c.length
    · obtain ⟨hthrough, hw⟩ := hend.copied hreadable
      rw [hresult, hend.eof.mpr hreadable, Bool.and_self, if_pos rfl]
      obtain ⟨hdisk, hstreams⟩ := fclose_idle (f := f) hend.idle
      obtain ⟨hconf, hstored⟩ := fclose_spec (hw.of_eq hdisk (hstreams out hne.symm))
      refine ⟨iff_of_true rfl ⟨hreadable, hthrough⟩, fun _ => ⟨?_, hstored, fun k hk => ?_⟩⟩
      · rw [hconf.names, hdisk, hend.names]
      · rw [hconf.contents k hk, hdisk, hend.contents k hk]
    · have hnot : (copied.state.streams inp).eof = false := Bool.eq_false_iff.mpr fun h => hreadable (hend.eof.mp h)
      rw [hnot, Bool.and_false, if_neg (by simp)]
      exact ⟨iff_of_false (by simp) fun h => hreadable h.1, fun h => by cases h⟩
  · rw [hresult, Bool.false_and, if_neg (by simp)]
    exact ⟨iff_of_false (by simp) fun h => hthrough h.2, fun h => by cases h⟩

/-- What stands between the name of a source and success: opening both files, reading the one, and writing the other. -/
theorem fsCopy_spec {src : Path} (dst : Path) {j : Nat} (hj : s.disk.names src = some j) {c : Content}
    (hc : (s.disk.emptied dst).contents j = c) {fuel : Nat} (hfuel : c.length < fuel) :
    ∃ r, f.stdio.fsCopy fuel (some src) (some dst) s = some r ∧
      (r.result = true ↔ f.Grants s.opened ∧ f.Grants (s.opened + 1) ∧ f.Readable s.opened c.length ∧
        (f.output (s.opened + 1)).Through 0 c.length) ∧
      (r.result = true → CopyDone f s dst (s.opened + 1) c r.state) := by
  rw [CopyIo.fsCopy]
  by_cases hin : f.Grants s.opened
  · simp only [openFile_read hj hin]
    by_cases hout : f.Grants (s.opened + 1)
    · have hcreate := openFile_write (f := f) (s := s.opening s.disk j) dst hout
      rw [StdioState.opening_disk, StdioState.opening_opened] at hcreate
      simp only [hcreate]
      have hstart : Copying f ((s.opening s.disk j).opening (s.disk.emptied dst) (s.disk.target dst)) s.opened (s.opened + 1) j
          (s.disk.target dst) c 0 := by
        have hstream : ((s.opening s.disk j).opening (s.disk.emptied dst) (s.disk.target dst)).streams s.opened =
            ⟨j, 0, OutBuffer.empty, false, false, 0⟩ := by
          rw [StdioState.opening_of_ne _ _ _ (by simp), StdioState.opening_self]
        refine ⟨?_, ?_, Drain.Through.refl _ 0⟩
        · exact {
            file := by rw [hstream]
            contents := hc
            pos := by rw [hstream]
            le := Nat.zero_le _
            eof := by rw [hstream]; exact fun h => by cases h
            idle := by rw [hstream]; rfl }
        · exact writing_opening (s := s.opening s.disk j) (s.disk.contents_emptied dst)
      have hapart : c ≠ [] → j ≠ s.disk.target dst := by
        rintro hne rfl
        exact hne (hc.symm.trans (s.disk.contents_emptied dst))
      obtain ⟨r, hr, hend⟩ := copyLoop_spec (by omega) hapart hstart (by omega) none
      obtain ⟨hiff, hdone⟩ := finishCopy_spec (by omega) dst hend
      refine ⟨_, by rw [hr]; rfl, ?_, fun hresult => ?_⟩
      · rw [hiff]
        exact ⟨fun h => ⟨hin, hout, h⟩, fun h => h.2.2⟩
      · obtain ⟨hnames, hstored, hcontents⟩ := hdone hresult
        exact ⟨hnames, hstored, fun k hk => (hcontents k hk).trans (Disk.contents_emptied_of_ne hk)⟩
    · have hrefused := openFile_refused (f := f) (s := s.opening s.disk j) dst .write hout
      simp only [hrefused]
      exact ⟨_, rfl, iff_of_false (by simp) fun h => hout h.2.1, fun h => by cases h⟩
  · simp only [openFile_refused src .read hin]
    exact ⟨_, rfl, iff_of_false (by simp) fun h => hin h.1, fun h => by cases h⟩

/-- A file that is not there is not copied. -/
theorem fsCopy_missing {src : Path} (hsrc : s.disk.names src = none) (dst : Path) (fuel : Nat) :
    ∃ r, f.stdio.fsCopy fuel (some src) (some dst) s = some r ∧ r.result = false := by
  rw [CopyIo.fsCopy]
  simp only [openFile_missing hsrc]
  exact ⟨_, rfl, rfl⟩

/-- A system that works grants every stream. -/
theorem grants_works (overflows : Nat → Nat → Bool) (h : Nat) : (Fates.works overflows).Grants h := ⟨rfl, rfl⟩

/-- It reads every byte. -/
theorem readable_works (overflows : Nat → Nat → Bool) (h n : Nat) : (Fates.works overflows).Readable h n := fun _ hbad => by cases hbad

/-- It lets every byte through. -/
theorem through_works (overflows : Nat → Nat → Bool) (h m n : Nat) : ((Fates.works overflows).output h).Through m n :=
  fun k _ _ _ => Nat.succ_le_succ (Drain.waiting_le _ k)

/-- It takes all at the close. -/
theorem closesAll_works (overflows : Nat → Nat → Bool) (h n : Nat) : ((Fates.works overflows).output h).ClosesAll n :=
  Nat.le_refl _

/-- Where nothing fails, a copy keeps what it copies, at both names, unless they lead to one file that is not empty. -/
theorem fsCopy_preserves_iff (overflows : Nat → Nat → Bool) (s : StdioState) (src dst : Path) (more : Nat) :
    ∃ r, (Fates.works overflows).stdio.fsCopy (((s.disk.content src).getD []).length + 1 + more) (some src) (some dst) s = some r ∧
      ((r.result = true →
          r.state.disk.content dst = s.disk.content src ∧ r.state.disk.content src = s.disk.content src) ↔
        (s.disk.SameFile src dst → s.disk.content src = some [])) := by
  cases hj : s.disk.names src with
  | none =>
    obtain ⟨r, hr, hfalse⟩ := fsCopy_missing (f := Fates.works overflows) hj dst (((s.disk.content src).getD []).length + 1 + more)
    refine ⟨r, hr, iff_of_true (fun h => ?_) ?_⟩
    · rw [hfalse] at h
      cases h
    · rintro ⟨i, hi, _⟩
      rw [hj] at hi
      cases hi
  | some j =>
    have hsrc : s.disk.content src = some (s.disk.contents j) := (Disk.content_eq_some_iff hj).mpr rfl
    rw [hsrc, Option.getD_some, Option.some.injEq]
    have hle := Disk.length_contents_emptied_le s.disk dst j
    have hfuel : ((s.disk.emptied dst).contents j).length < (s.disk.contents j).length + 1 + more := by omega
    obtain ⟨r, hr, hiff, hdone⟩ := fsCopy_spec (f := Fates.works overflows) dst hj rfl hfuel
    have htrue : r.result = true := hiff.mpr ⟨grants_works _ _, grants_works _ _, readable_works _ _ _, through_works _ _ _ _⟩
    have hcopied := hdone htrue
    have hstored := hcopied.stored.mpr (closesAll_works _ _ _)
    have hdst : r.state.disk.content dst = some ((s.disk.emptied dst).contents j) := by
      rw [Disk.content_eq_some_iff (hcopied.names ▸ s.disk.names_emptied dst), hstored]
    have hname : r.state.disk.names src = some j := hcopied.names ▸ Disk.names_emptied_of_some hj dst
    refine ⟨r, hr, ?_⟩
    rw [hdst, Disk.content_eq_some_iff hname, Option.some.injEq, ← Disk.target_eq_iff hj]
    by_cases hsame : s.disk.target dst = j
    · rw [← hsame, hstored, hsame, ← hsame, s.disk.contents_emptied]
      exact ⟨fun h _ => (h htrue).1.symm, fun h _ => ⟨(h rfl).symm, (h rfl).symm⟩⟩
    · rw [Disk.contents_emptied_of_ne (Ne.symm hsame), hcopied.contents j (Ne.symm hsame)]
      exact iff_of_true (fun _ => ⟨rfl, rfl⟩) fun h => absurd h hsame

/-- A disk with one file, under one name. -/
def oneFile : StdioState where
  disk :=
    { names := fun path => if path = [97] then some 0 else none
      contents := fun _ => [1, 2, 3]
      fresh := 1
      named := by
        intro path i h
        split at h
        · cases h
          exact Nat.one_pos
        · cases h }
  streams := fun _ => ⟨0, 0, OutBuffer.empty, false, false, 0⟩
  opened := 0

/-- A file copied to itself is empty, and the copy says it succeeded. -/
theorem fsCopy_itself : ∃ r, (Fates.works fun _ _ => false).stdio.fsCopy 4 (some [97]) (some [97]) oneFile = some r ∧
    r.result = true ∧ oneFile.disk.content [97] = some [1, 2, 3] ∧ r.state.disk.content [97] = some [] :=
  ⟨_, rfl, rfl, rfl, rfl⟩

/-- What is written or copied is there if the calls say so, unless the last drain leaves something behind, or something fails
before. -/
theorem stored_iff_closesAll (f : Fates) (s : StdioState) :
    (∀ path data, ((writeFileAll f.stdio.toStdio (some path) data s).result = true →
          (writeFileAll f.stdio.toStdio (some path) data s).state.disk.content path = some data.toList) ↔
        (data.missing = false → f.Grants s.opened → (f.output s.opened).Through 0 data.size →
          (f.output s.opened).ClosesAll data.size)) ∧
      ∀ src dst more, ∃ r,
        f.stdio.fsCopy (((s.disk.content src).getD []).length + 1 + more) (some src) (some dst) s = some r ∧
          ((¬ s.disk.SameFile src dst → r.result = true → r.state.disk.content dst = s.disk.content src) ↔
            (¬ s.disk.SameFile src dst → ∀ c, s.disk.content src = some c → f.Grants s.opened → f.Grants (s.opened + 1) →
              f.Readable s.opened c.length → (f.output (s.opened + 1)).Through 0 c.length →
              (f.output (s.opened + 1)).ClosesAll c.length)) := by
  refine ⟨writeFileAll_stores_iff f s, fun src dst more => ?_⟩
  cases hj : s.disk.names src with
  | none =>
    obtain ⟨r, hr, hfalse⟩ := fsCopy_missing (f := f) hj dst (((s.disk.content src).getD []).length + 1 + more)
    refine ⟨r, hr, iff_of_true (fun _ h => ?_) fun _ c hc => ?_⟩
    · rw [hfalse] at h
      cases h
    · rw [Disk.content, hj] at hc
      cases hc
  | some j =>
    have hsrc : s.disk.content src = some (s.disk.contents j) := (Disk.content_eq_some_iff hj).mpr rfl
    rw [hsrc, Option.getD_some]
    have hle := Disk.length_contents_emptied_le s.disk dst j
    have hfuel : ((s.disk.emptied dst).contents j).length < (s.disk.contents j).length + 1 + more := by omega
    obtain ⟨r, hr, hiff, hdone⟩ := fsCopy_spec (f := f) dst hj rfl hfuel
    refine ⟨r, hr, forall_congr' fun hapart => ?_⟩
    have hne : j ≠ s.disk.target dst := fun h => hapart ((Disk.target_eq_iff hj).mp h.symm)
    rw [Disk.contents_emptied_of_ne hne] at hiff hdone
    constructor
    · intro h c hc hin hout hreadable hthrough
      cases hc
      have htrue := hiff.mpr ⟨hin, hout, hreadable, hthrough⟩
      have hcopied := hdone htrue
      exact hcopied.stored.mp ((Disk.content_eq_some_iff (hcopied.names ▸ s.disk.names_emptied dst)).mp (h htrue))
    · intro h htrue
      have hcopied := hdone htrue
      obtain ⟨hin, hout, hreadable, hthrough⟩ := hiff.mp htrue
      rw [Disk.content_eq_some_iff (hcopied.names ▸ s.disk.names_emptied dst)]
      exact hcopied.stored.mpr (h _ rfl hin hout hreadable hthrough)

/-- A disk with no room: nothing that is drained arrives, and nothing is drained before the close. -/
def fullDisk : Fates where
  openFails := fun _ => false
  mallocFails := fun _ => false
  unreadable := fun _ => none
  output := fun _ => { overflows := fun _ => false, takes := fun _ => 0, closes := fun _ => 0 }
  unlinkFails := fun _ => false

/-- Three bytes are written to a full disk, or copied to it: both calls say they succeeded, and there are none. -/
theorem stored_on_fullDisk :
    ((writeFileAll fullDisk.stdio.toStdio (some [98]) (.bytes [1, 2, 3]) oneFile).result = true ∧
        (writeFileAll fullDisk.stdio.toStdio (some [98]) (.bytes [1, 2, 3]) oneFile).state.disk.content [98] = some []) ∧
      ∃ r, fullDisk.stdio.fsCopy 4 (some [97]) (some [98]) oneFile = some r ∧ r.result = true ∧
        oneFile.disk.content [97] = some [1, 2, 3] ∧ r.state.disk.content [98] = some [] :=
  ⟨⟨rfl, rfl⟩, _, rfl, rfl, rfl, rfl⟩

end Copper.Fs
