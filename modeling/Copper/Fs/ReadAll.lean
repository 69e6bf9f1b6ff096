import Copper.Fs.Handle

/-!
# Reading a whole file

When `cpr_read_file_all` succeeds, and that it then gives exactly what the file holds; and which error it records if it does not, and
what it has stored by then (`readFileAll_spec`). What `cpr_write_file_all` has stored comes back through any name of the file, or of a
copy of it (`file_round_trip`).
-/

namespace Copper.Fs

variable {f : HandleFates} {s : StdioState} {h i : Nat} {c : Content} {p : Nat}

/-! ## On a stream that is read -/

/-- A stream set to what it is. -/
theorem setStream_eq_self (s : StdioState) (h : Nat) : s.setStream h (s.streams h) = s := by
  rw [StdioState.setStream, Function.update_eq_self]

/-- With nothing to flush. -/
theorem fflush_idle (hidle : (s.streams h).buffer.held = []) : f.fflush h s = (true, s) := by
  have hstate : s.deliver h [] ⟨[], (s.streams h).buffer.count⟩ (s.streams h).err = s := by
    have hbuffer : (⟨[], (s.streams h).buffer.count⟩ : OutBuffer UInt8) = (s.streams h).buffer := by rw [← hidle]
    rw [StdioState.deliver, hbuffer, Disk.writeAt, if_pos rfl]
    exact setStream_eq_self s h
  rw [HandleFates.fflush, hidle]
  simpa using hstate

/-- A stream that is read, moved to a place in its file. -/
def StdioState.moved (s : StdioState) (h q : Nat) : StdioState := s.setStream h { s.streams h with pos := q, eof := false }

/-- A stream that is read is read from where it is moved to. -/
theorem Reading.moved {f : Fates} (hr : Reading f s h i c p) {q : Nat} (hq : q ≤ c.length) : Reading f (s.moved h q) h i c q where
  file := by rw [StdioState.moved, StdioState.setStream_self, hr.file]
  contents := hr.contents
  pos := by rw [StdioState.moved, StdioState.setStream_self]
  le := hq
  eof := by
    rw [StdioState.moved, StdioState.setStream_self]
    exact fun heof => absurd heof Bool.false_ne_true
  idle := by rw [StdioState.moved, StdioState.setStream_self, hr.idle]

/-- And from where it was when it is asked for its place. -/
theorem Reading.told {f : Fates} (hr : Reading f s h i c p) : Reading f (s.told h) h i c p where
  file := by rw [StdioState.told, StdioState.setStream_self, hr.file]
  contents := hr.contents
  pos := by rw [StdioState.told, StdioState.setStream_self, hr.pos]
  le := hr.le
  eof := by
    rw [StdioState.told, StdioState.setStream_self]
    exact hr.eof
  idle := by rw [StdioState.told, StdioState.setStream_self, hr.idle]

/-- An `ftello` is counted. -/
theorem tells_told (s : StdioState) (h : Nat) : ((s.told h).streams h).tells = (s.streams h).tells + 1 := by
  rw [StdioState.told, StdioState.setStream_self]

/-- A move is none. -/
theorem tells_moved (s : StdioState) (h q : Nat) : ((s.moved h q).streams h).tells = (s.streams h).tells := by
  rw [StdioState.moved, StdioState.setStream_self]

/-- Where a stream that is read stands, if the system says so. -/
theorem tellFile_reading (hr : Reading f.toFates s h i c p) :
    f.io.tellFile (some h) s =
      if f.tellFails h (s.streams h).tells then .fail (s.told h) (-1) .errIo "tell failed"
      else { result := p, state := s.told h } := by
  have htell : f.ftello h s = (if f.tellFails h (s.streams h).tells then -1 else (p : Int), s.told h) := by
    rw [HandleFates.ftello, hr.pos, hr.idle]
    simp
  unfold FileIo.tellFile HandleFates.io
  simp only [htell]
  cases f.tellFails h (s.streams h).tells with
  | true => rfl
  | false =>
    have hp : ¬ (p : Int) < 0 := by omega
    simp only [Bool.false_eq_true, if_false, hp]

/-- A seek fails, or it moves the stream. -/
theorem seekFile_reading (hr : Reading f.toFates s h i c p) (offset : Int) (from_ : FileSeek) {q : Nat}
    (hq : HandleFates.base h s from_ + offset = q) :
    f.io.seekFile (some h) offset from_ s =
      if f.seekFails h offset from_ then .fail s false .errIo "seek failed" else { result := true, state := s.moved h q } := by
  have hplace : ¬ (q : Int) < 0 := by omega
  have hseek : f.fseeko h offset from_ s = if f.seekFails h offset from_ then (false, s) else (true, s.moved h q) := by
    rw [HandleFates.fseeko, fflush_idle hr.idle]
    simp only [hq, hplace, or_false, Bool.true_eq_false, false_or, Int.toNat_natCast]
    rfl
  unfold FileIo.seekFile HandleFates.io
  simp only [hseek]
  cases f.seekFails h offset from_ <;> rfl

/-- The size of a file that is read, and where that leaves the stream: it is asked where it is, moved to the end, asked again, and
moved back. -/
theorem fileSize_reading (hr : Reading f.toFates s h i c p) :
    f.io.fileSize (some h) s =
      if f.tellFails h (s.streams h).tells then .fail (s.told h) (-1) .errIo "tell failed"
      else if f.seekFails h 0 .fromEnd then .fail (s.told h) (-1) .errIo "seek failed"
      else
        let size : Int := if f.tellFails h ((s.streams h).tells + 1) then -1 else c.length
        let atEnd := ((s.told h).moved h c.length).told h
        if f.seekFails h p .fromStart then .fail atEnd size .errIo "seek failed"
        else { result := size, state := atEnd.moved h p, error := if size < 0 then some ⟨.errIo, "tell failed"⟩ else none } := by
  have hasked := hr.told
  have hend := seekFile_reading hasked 0 .fromEnd (q := c.length) (by simp [HandleFates.base, hasked.file, hasked.contents])
  have hatEnd := hasked.moved (Nat.le_refl c.length)
  have hsize := tellFile_reading hatEnd
  have hback := seekFile_reading hatEnd.told p .fromStart (q := p) (by simp [HandleFates.base])
  rw [tells_moved, tells_told] at hsize
  have hp : ¬ (p : Int) < 0 := by omega
  unfold FileIo.fileSize
  simp only [tellFile_reading hr]
  cases f.tellFails h (s.streams h).tells with
  | true => rfl
  | false =>
    simp only [Bool.false_eq_true, if_false, hp, hend]
    cases f.seekFails h 0 .fromEnd with
    | true => rfl
    | false =>
      simp only [Bool.false_eq_true, Bool.true_eq_false, if_false, hsize]
      cases f.tellFails h ((s.streams h).tells + 1) with
      | true =>
        simp only [if_true, Outcome.fail, hback]
        cases f.seekFails h p .fromStart <;> rfl
      | false =>
        have hlength : ¬ (c.length : Int) < 0 := by omega
        simp only [Bool.false_eq_true, if_false, hback, hlength]
        cases f.seekFails h p .fromStart <;> rfl

/-- What can be read of a file from its start on. -/
def Fates.upTo (f : Fates) (h : Nat) (c : Content) : Content :=
  match f.unreadable h with
  | none => c
  | some bad => c.take bad

/-- What can be read is the beginning of what there is. -/
theorem prefix_upTo (f : Fates) (h : Nat) (c : Content) : f.upTo h c <+: c := by
  unfold Fates.upTo
  split
  · exact List.prefix_refl c
  · exact List.take_prefix _ c

/-- Of nothing there is nothing to be read. -/
theorem upTo_nil (f : Fates) (h : Nat) : f.upTo h [] = [] := List.prefix_nil.mp (prefix_upTo f h [])

/-- Reading, from its start or its end, as much as a file holds: from its start what can be read, from its end nothing. -/
theorem fread_sized {f : Fates} (hr : Reading f s h i c p) (hp : p = 0 ∨ p = c.length) :
    (f.fread h c.length s).2.disk = s.disk ∧ ((f.fread h c.length s).2.streams h).buffer.held = [] ∧
      (f.fread h c.length s).1 = if p = 0 then f.upTo h c else [] := by
  unfold Fates.fread
  simp only [hr.file, hr.contents, hr.pos]
  split
  · rename_i bad hspoilt
    obtain ⟨hbad, hlt, hend⟩ := spoilt_eq_some hspoilt
    refine ⟨rfl, by rw [StdioState.setStream_self, hr.idle], ?_⟩
    rcases hp with rfl | rfl
    · rw [if_pos rfl, Fates.upTo, hbad, List.drop_zero, Nat.sub_zero]
    · rw [List.drop_length, List.take_nil]
      split
      · rename_i hnone
        rw [List.eq_nil_of_length_eq_zero hnone, upTo_nil]
      · rfl
  · rename_i hspoilt
    refine ⟨rfl, by rw [StdioState.setStream_self, hr.idle], ?_⟩
    rcases hp with rfl | rfl
    · rw [if_pos rfl, List.drop_zero, List.take_length, Fates.upTo]
      cases hbad : f.unreadable h with
      | none => rfl
      | some bad =>
        change c = c.take bad
        refine (List.take_of_length_le (Nat.le_of_not_lt fun hlt => ?_)).symm
        have hbefore := spoilt_eq_none hspoilt hbad (by omega)
        rw [List.length_drop] at hbefore
        omega
    · rw [List.drop_length, List.take_nil]
      split
      · rename_i hnone
        rw [List.eq_nil_of_length_eq_zero hnone, upTo_nil]
      · rfl

/-! ## The whole file -/

/-- The system says how long the file of a stream just opened is. -/
def Sizable (f : HandleFates) (h : Nat) : Prop :=
  f.tellFails h 0 = false ∧ f.seekFails h 0 .fromEnd = false ∧ f.tellFails h 1 = false

/-- The system goes back to the start of a file of so many bytes, and reads them. -/
def Rereadable (f : HandleFates) (h n : Nat) : Prop :=
  n = 0 ∨ f.seekFails h 0 .fromStart = false ∧ ∀ bad, f.unreadable h = some bad → n ≤ bad

/-- A call gets as far as to read a file of so many bytes: the stream is granted, its size is known, and there is room for it. -/
def Reaches (f : HandleFates) (h n bufSize : Nat) : Prop := f.Grants h ∧ Sizable f h ∧ n ≤ bufSize

/-- What is then read: nothing if the system does not go back to the start, else as much as it can read. -/
def given (f : HandleFates) (h : Nat) (c : Content) : Content := if f.seekFails h 0 .fromStart then [] else f.upTo h c

/-- The error of a call that fails on a file of so many bytes. -/
def readAllError (f : HandleFates) (h n bufSize : Nat) : CprError :=
  if f.openFails h then ⟨.errIo, "fopen failed"⟩
  else if f.mallocFails h then ⟨.errOom, "out of memory"⟩
  else if f.tellFails h 0 then ⟨.errIo, "tell failed"⟩
  else if f.seekFails h 0 .fromEnd then ⟨.errIo, "seek failed"⟩
  else if f.tellFails h 1 then ⟨.errIo, if f.seekFails h 0 .fromStart then "seek failed" else "tell failed"⟩
  else if bufSize < n then ⟨.errOverflow, "file too large for buffer"⟩
  else ⟨.errIo, "short read"⟩

/-- What a call of `cpr_read_file_all` with a buffer of some size leaves, for a file that holds `c`. -/
structure ReadsAll (f : HandleFates) (s : StdioState) (c : Content) (bufSize : Nat) (outSize : Bool)
    (r : Outcome StdioState FileIo.ReadAll) : Prop where
  succeeds : r.result.ok = true ↔ f.Grants s.opened ∧ Sizable f s.opened ∧ c.length ≤ bufSize ∧ Rereadable f s.opened c.length
  data : r.result.ok = true → r.result.data = c ∧ r.result.outSize = if outSize then some c.length else none
  reached : Reaches f s.opened c.length bufSize →
    r.result.data = given f s.opened c ∧ r.result.outSize = if outSize then some (given f s.opened c).length else none
  unreached : ¬ Reaches f s.opened c.length bufSize → r.result.data = [] ∧ r.result.outSize = none
  part : r.result.data <+: c
  within : r.result.data.length ≤ bufSize
  error : r.result.ok = false → r.error = some (readAllError f s.opened c.length bufSize)
  disk : r.state.disk = s.disk

/-- What is given back is the beginning of what there is. -/
theorem prefix_given (f : HandleFates) (h : Nat) (c : Content) : given f h c <+: c := by
  unfold given
  split
  · exact List.nil_prefix
  · exact prefix_upTo f.toFates h c

/-- All of a file is read just if the system goes back to its start and can read it. -/
theorem length_given_lt_iff (f : HandleFates) (h : Nat) (c : Content) :
    (given f h c).length < c.length ↔ ¬ Rereadable f h c.length := by
  unfold given Rereadable
  cases f.seekFails h 0 .fromStart with
  | true =>
    simp only [if_true, List.length_nil, Bool.true_eq_false, false_and, or_false]
    exact Nat.pos_iff_ne_zero
  | false =>
    unfold Fates.upTo
    simp only [Bool.false_eq_true, if_false, true_and]
    cases f.unreadable h with
    | none => simp
    | some bad =>
      simp only [List.length_take, Option.some.injEq, forall_eq']
      omega

/-- A call that does not reach the file. -/
theorem ReadsAll.of_unreached {r : Outcome StdioState FileIo.ReadAll} {bufSize : Nat} {outSize : Bool}
    (hnot : ¬ Reaches f s.opened c.length bufSize) (hresult : r.result = ⟨false, [], none⟩)
    (herror : r.error = some (readAllError f s.opened c.length bufSize)) (hdisk : r.state.disk = s.disk) :
    ReadsAll f s c bufSize outSize r where
  succeeds := by
    rw [hresult]
    exact iff_of_false Bool.false_ne_true fun h => hnot ⟨h.1, h.2.1, h.2.2.1⟩
  data h := by
    rw [hresult] at h
    exact absurd h Bool.false_ne_true
  reached h := absurd h hnot
  unreached _ := by rw [hresult]; exact ⟨rfl, rfl⟩
  part := by rw [hresult]; exact List.nil_prefix
  within := by rw [hresult]; exact Nat.zero_le _
  error _ := herror
  disk := hdisk

/-- A call that reads what is given. -/
theorem ReadsAll.of_reached {r : Outcome StdioState FileIo.ReadAll} {bufSize : Nat} {outSize : Bool}
    (hreaches : Reaches f s.opened c.length bufSize)
    (hresult : r.result = ⟨decide ¬ (given f s.opened c).length < c.length, given f s.opened c,
      if outSize then some (given f s.opened c).length else none⟩)
    (herror : (given f s.opened c).length < c.length → r.error = some (readAllError f s.opened c.length bufSize))
    (hdisk : r.state.disk = s.disk) : ReadsAll f s c bufSize outSize r := by
  have hpart := prefix_given f s.opened c
  have hok : r.result.ok = true ↔ ¬ (given f s.opened c).length < c.length := by rw [hresult, decide_eq_true_eq]
  refine ⟨?_, fun h => ?_, fun _ => ?_, fun hnot => absurd hreaches hnot, ?_, ?_, fun h => herror ?_, hdisk⟩
  · rw [hok, length_given_lt_iff, not_not]
    exact ⟨fun hreads => ⟨hreaches.1, hreaches.2.1, hreaches.2.2, hreads⟩, fun h => h.2.2.2⟩
  · have hwhole : given f s.opened c = c := hpart.eq_of_length (Nat.le_antisymm hpart.length_le (Nat.le_of_not_lt (hok.mp h)))
    rw [hresult, hwhole]
    exact ⟨rfl, rfl⟩
  · rw [hresult]
    exact ⟨rfl, rfl⟩
  · rw [hresult]
    exact hpart
  · rw [hresult]
    exact Nat.le_trans hpart.length_le hreaches.2.2
  · exact not_not.mp fun hnot => by rw [hok.mpr hnot] at h; cases h

/-- A stream that is opened for reading is read from the beginning. -/
theorem reading_opening (f : Fates) (s : StdioState) (i : Nat) :
    Reading f (s.opening s.disk i) s.opened i (s.disk.contents i) 0 where
  file := by rw [StdioState.opening_self]
  contents := rfl
  pos := by rw [StdioState.opening_self]
  le := Nat.zero_le _
  eof := by
    rw [StdioState.opening_self]
    exact fun heof => absurd heof Bool.false_ne_true
  idle := by
    rw [StdioState.opening_self]
    rfl

/-- The error, once the stream is there and its size is known. -/
theorem readAllError_sized {n : Nat} (hgrants : f.Grants h) (hsize : Sizable f h) (bufSize : Nat) :
    readAllError f h n bufSize =
      if bufSize < n then ⟨.errOverflow, "file too large for buffer"⟩ else ⟨.errIo, "short read"⟩ := by
  obtain ⟨hopens, hmalloc⟩ := hgrants
  obtain ⟨hasked, hend, hsized⟩ := hsize
  simp only [readAllError, hopens, hmalloc, hasked, hend, hsized, Bool.false_eq_true, if_false]

/-- What is read, from where the seek back to the start has left the stream, is what is given. -/
theorem fread_given (hr : Reading f.toFates s h i c p) (hp : p = 0 ∨ p = c.length)
    (hback : p = 0 ↔ c.length = 0 ∨ f.seekFails h 0 .fromStart = false) : (f.fread h c.length s).1 = given f h c := by
  rw [(fread_sized hr hp).2.2, given]
  cases hseek : f.seekFails h 0 .fromStart with
  | false => rw [if_pos (hback.mpr (Or.inr hseek)), if_neg Bool.false_ne_true]
  | true =>
    rw [if_pos rfl]
    split
    · rename_i hstart
      have hnone : c.length = 0 := (hback.mp hstart).resolve_right (by simp [hseek])
      rw [List.eq_nil_of_length_eq_zero hnone]
      exact upTo_nil f.toFates h
    · rfl

/-- Once its size is known, wherever in the file that has left the stream, what it holds is read if it fits and can be read. -/
theorem readFileAll_sized {path : Path} (hi : s.disk.names path = some i) (hgrants : f.Grants s.opened) (hsize : Sizable f s.opened)
    {sz : Outcome StdioState Int} (hsz : f.io.fileSize (some s.opened) (s.opening s.disk i) = sz) (hresult : sz.result = c.length)
    (hdisk : sz.state.disk = s.disk) (hr : Reading f.toFates sz.state s.opened i c p) (hp : p = 0 ∨ p = c.length)
    (hback : p = 0 ↔ c.length = 0 ∨ f.seekFails s.opened 0 .fromStart = false) (bufSize : Nat) (outSize : Bool) :
    ReadsAll f s c bufSize outSize (f.io.readFileAll (some path) (.room bufSize) outSize s) := by
  have hopen : openFile f.io.toStdio (some path) .read s = { result := some s.opened, state := s.opening s.disk i } :=
    openFile_read hi hgrants
  have hnonneg : ¬ (c.length : Int) < 0 := by omega
  unfold FileIo.readFileAll
  simp only [hopen, hsz, hresult, hnonneg, if_false, Int.ofNat_lt, Int.toNat_natCast]
  by_cases hfits : bufSize < c.length
  · rw [if_pos hfits]
    refine .of_unreached (fun h => absurd h.2.2 (Nat.not_le.mpr hfits)) rfl ?_ ((fclose_idle hr.idle).1.trans hdisk)
    rw [readAllError_sized hgrants hsize, if_pos hfits]
    rfl
  · rw [if_neg hfits]
    obtain ⟨hread, hidle, -⟩ := fread_sized hr hp
    have hgiven := fread_given hr hp hback
    have hdata : (f.io.readFile (some s.opened) (.room c.length) sz.state).result = (f.fread s.opened c.length sz.state).1 := rfl
    have hstate : (f.io.readFile (some s.opened) (.room c.length) sz.state).state = (f.fread s.opened c.length sz.state).2 := rfl
    have hclosed : (f.io.closeFile (some s.opened) (f.fread s.opened c.length sz.state).2).disk = s.disk :=
      (fclose_idle hidle).1.trans (hread.trans hdisk)
    have hreaches : Reaches f s.opened c.length bufSize := ⟨hgrants, hsize, Nat.le_of_not_lt hfits⟩
    simp only [hdata, hstate, hgiven]
    by_cases hless : (given f s.opened c).length < c.length
    · rw [if_pos hless]
      refine .of_reached hreaches (by simp [hless, Outcome.fail]) (fun _ => ?_) hclosed
      rw [readAllError_sized hgrants hsize, if_neg hfits]
      rfl
    · rw [if_neg hless]
      exact .of_reached hreaches (by simp [hless]) (fun h => absurd h hless) hclosed

/-- A size that is not found out. -/
theorem readFileAll_unsized {path : Path} (hi : s.disk.names path = some i) (hgrants : f.Grants s.opened)
    (hsize : ¬ Sizable f s.opened) (bufSize : Nat) (outSize : Bool) :
    ReadsAll f s (s.disk.contents i) bufSize outSize (f.io.readFileAll (some path) (.room bufSize) outSize s) := by
  have hr := reading_opening f.toFates s i
  have hopen : openFile f.io.toStdio (some path) .read s = { result := some s.opened, state := s.opening s.disk i } :=
    openFile_read hi hgrants
  have htells : ((s.opening s.disk i).streams s.opened).tells = 0 := by rw [StdioState.opening_self]
  have hsz : ∃ s', s'.disk = s.disk ∧ (s'.streams s.opened).buffer.held = [] ∧
      f.io.fileSize (some s.opened) (s.opening s.disk i) =
        ⟨-1, s', some (readAllError f s.opened (s.disk.contents i).length bufSize)⟩ := by
    rw [fileSize_reading hr, htells, readAllError, hgrants.1, hgrants.2, Nat.cast_zero]
    cases hasked : f.tellFails s.opened 0 with
    | true => exact ⟨(s.opening s.disk i).told s.opened, rfl, hr.told.idle, rfl⟩
    | false =>
      cases hend : f.seekFails s.opened 0 .fromEnd with
      | true => exact ⟨(s.opening s.disk i).told s.opened, rfl, hr.told.idle, rfl⟩
      | false =>
        have hsized : f.tellFails s.opened 1 = true := by
          by_contra hsized
          exact hsize ⟨hasked, hend, Bool.eq_false_iff.mpr hsized⟩
        rw [hsized]
        have hatEnd := (hr.told.moved (Nat.le_refl _)).told
        have hback := hatEnd.moved (Nat.zero_le _)
        cases f.seekFails s.opened 0 .fromStart with
        | true => exact ⟨(((s.opening s.disk i).told s.opened).moved s.opened _).told s.opened, rfl, hatEnd.idle, rfl⟩
        | false => exact ⟨((((s.opening s.disk i).told s.opened).moved s.opened _).told s.opened).moved s.opened 0, rfl, hback.idle, rfl⟩
  obtain ⟨s', hdisk, hidle, hsz⟩ := hsz
  unfold FileIo.readFileAll
  simp only [hopen, hsz, show ((-1 : Int) < 0) from by decide, if_true]
  exact .of_unreached (fun h => hsize h.2.1) rfl rfl ((fclose_idle hidle).1.trans hdisk)

/-- A stream that is not granted. -/
theorem openFile_read_refused {path : Path} (hi : s.disk.names path = some i) (hgrants : ¬ f.Grants s.opened) (n bufSize : Nat) :
    ∃ s' : StdioState, s'.disk = s.disk ∧
      openFile f.io.toStdio (some path) .read s = ⟨none, s', some (readAllError f s.opened n bufSize)⟩ := by
  unfold readAllError
  cases hopens : f.openFails s.opened with
  | true =>
    have hopen : f.fopen path .read s = (none, s) := by
      simp only [Fates.fopen, hopens]
      rfl
    refine ⟨s, rfl, ?_⟩
    simp only [openFile, HandleFates.io, Fates.stdio, hopen]
    rfl
  | false =>
    have hmalloc : f.mallocFails s.opened = true := by
      by_contra hmalloc
      exact hgrants ⟨hopens, Bool.eq_false_iff.mpr hmalloc⟩
    have hopen : f.fopen path .read s = (some s.opened, s.opening s.disk i) := by
      simp only [Fates.fopen, hopens, hi]
      rfl
    refine ⟨f.fclose s.opened (s.opening s.disk i), (fclose_idle (reading_opening f.toFates s i).idle).1, ?_⟩
    have hstarted := openFile_started (f := f.toFates) hopen rfl
    rw [hmalloc] at hstarted ⊢
    exact hstarted

/-- When a whole file is read, and what is then in the buffer and in the error; no file changes, whatever fails. -/
theorem readFileAll_spec {path : Path} (hi : s.disk.names path = some i) (bufSize : Nat) (outSize : Bool) :
    ReadsAll f s (s.disk.contents i) bufSize outSize (f.io.readFileAll (some path) (.room bufSize) outSize s) := by
  by_cases hgrants : f.Grants s.opened
  · by_cases hsize : Sizable f s.opened
    · have hr := reading_opening f.toFates s i
      have htells : ((s.opening s.disk i).streams s.opened).tells = 0 := by rw [StdioState.opening_self]
      have hsz := fileSize_reading hr
      have hatEnd := (hr.told.moved (Nat.le_refl _)).told
      rw [htells, hsize.1, hsize.2.1, Nat.zero_add, hsize.2.2, Nat.cast_zero] at hsz
      cases hback : f.seekFails s.opened 0 .fromStart with
      | true =>
        rw [hback] at hsz
        exact readFileAll_sized hi hgrants hsize hsz rfl rfl hatEnd (Or.inr rfl) (by simp [hback]) bufSize outSize
      | false =>
        rw [hback] at hsz
        exact readFileAll_sized hi hgrants hsize hsz rfl rfl (hatEnd.moved (Nat.zero_le _)) (Or.inl rfl) (by simp [hback]) bufSize
          outSize
    · exact readFileAll_unsized hi hgrants hsize bufSize outSize
  · obtain ⟨s', hdisk, hopen⟩ := openFile_read_refused hi hgrants (s.disk.contents i).length bufSize
    unfold FileIo.readFileAll
    simp only [hopen]
    exact .of_unreached (fun h => hgrants h.1) rfl rfl hdisk

/-! ## There and back -/

/-- A write that has succeeded had its source. -/
theorem not_missing_of_writeFileAll {path : Path} {data : DataArg}
    (hwrote : (writeFileAll f.io.toStdio (some path) data s).result = true) : data.missing = false := by
  cases hdata : data.missing with
  | false => rfl
  | true => simp [writeFileAll, hdata, Outcome.fail] at hwrote

/-- A file that was written, as the call says, and closed without loss, is there. -/
theorem content_of_writeFileAll {path : Path} {data : DataArg}
    (hwrote : (writeFileAll f.io.toStdio (some path) data s).result = true) (hcloses : (f.output s.opened).ClosesAll data.size) :
    (writeFileAll f.io.toStdio (some path) data s).state.disk.content path = some data.toList :=
  (writeFileAll_stores_iff f.toFates s path data).mpr (fun _ _ _ => hcloses) hwrote

/-- A file is read through each of its names. -/
theorem readsAll_of_sameFile {path path' : Path} (hcontent : s.disk.content path = some c) (hsame : s.disk.SameFile path path')
    (bufSize : Nat) (outSize : Bool) :
    ReadsAll f s c bufSize outSize (f.io.readFileAll (some path') (.room bufSize) outSize s) := by
  obtain ⟨i, hi, hi'⟩ := hsame
  rw [Disk.content_eq_some_iff hi] at hcontent
  rw [← hcontent]
  exact readFileAll_spec hi' bufSize outSize

/-- What was written comes back through every name of the file, and through every name of a copy of it. -/
theorem file_round_trip (f : HandleFates) (s : StdioState) (path : Path) (data : DataArg)
    (hwrote : (writeFileAll f.io.toStdio (some path) data s).result = true)
    (hcloses : (f.output s.opened).ClosesAll data.size) :
    let wrote := (writeFileAll f.io.toStdio (some path) data s).state
    (∀ path' bufSize outSize, wrote.disk.SameFile path path' →
        ReadsAll f wrote data.toList bufSize outSize (f.io.readFileAll (some path') (.room bufSize) outSize wrote)) ∧
      ∀ dst more, ¬ wrote.disk.SameFile path dst → (f.output (wrote.opened + 1)).ClosesAll data.size →
        ∃ r, f.io.fsCopy (data.size + 1 + more) (some path) (some dst) wrote = some r ∧
          (r.result = true → ∀ path' bufSize outSize, r.state.disk.SameFile path path' ∨ r.state.disk.SameFile dst path' →
            ReadsAll f r.state data.toList bufSize outSize (f.io.readFileAll (some path') (.room bufSize) outSize r.state)) := by
  intro wrote
  have hcontent : wrote.disk.content path = some data.toList := content_of_writeFileAll hwrote hcloses
  refine ⟨fun path' bufSize outSize hsame => readsAll_of_sameFile hcontent hsame bufSize outSize, ?_⟩
  intro dst more hapart hdrained
  obtain ⟨i, hi, hstored⟩ := Option.map_eq_some_iff.mp hcontent
  have hlength : data.toList.length = data.size := DataArg.length_toList (not_missing_of_writeFileAll hwrote)
  have hne : i ≠ wrote.disk.target dst := fun h => hapart ((Disk.target_eq_iff hi).mp h.symm)
  have hkept : (wrote.disk.emptied dst).contents i = data.toList := (Disk.contents_emptied_of_ne hne).trans hstored
  have hfuel : data.toList.length < data.size + 1 + more := by omega
  obtain ⟨r, hr, -, hdone⟩ := fsCopy_spec (f := f.toFates) dst hi hkept hfuel
  refine ⟨r, hr, fun hresult path' bufSize outSize hname => ?_⟩
  have hcopied := hdone hresult
  have hsrc : r.state.disk.content path = some data.toList := by
    rw [Disk.content_eq_some_iff (hcopied.names ▸ Disk.names_emptied_of_some hi dst), hcopied.contents i hne, hstored]
  have hdst : r.state.disk.content dst = some data.toList := by
    rw [Disk.content_eq_some_iff (hcopied.names ▸ wrote.disk.names_emptied dst), hcopied.stored, hlength]
    exact hdrained
  exact hname.elim (fun h => readsAll_of_sameFile hsrc h bufSize outSize) fun h => readsAll_of_sameFile hdst h bufSize outSize

/-- On a system that refuses nothing, into a buffer with room for one byte more. -/
theorem file_round_trip_works :
    let f := HandleFates.works fun _ _ => false
    (f.io.readFileAll (some [98]) (.room 4) true
        (writeFileAll f.io.toStdio (some [98]) (.bytes [1, 2, 3]) oneFile).state).result.data = [1, 2, 3] :=
  have hread := (file_round_trip (HandleFates.works fun _ _ => false) oneFile [98] (.bytes [1, 2, 3]) rfl
    (closesAll_works _ _ _)).1 [98] 4 true ⟨1, rfl, rfl⟩
  (hread.data rfl).1

end Copper.Fs
