import Copper.Arena.Basic
import Copper.Base64.Basic
import Copper.Fs.Normalize
import Copper.Fs.WriteFile
import Copper.RingBuf.Locking

/-!
# The error contract of functions that return a `bool`

A call that returns false is to record an error, and a call that returns true is to leave the thread-local error alone. Most
functions do on every path (`Outcome.Clean`). The exceptions are `cpr_ringbuf_write_all` and `cpr_ringbuf_read_all`, which
record nothing when they are asked for too much, and go on when an atomic's mutex cannot be locked, which is recorded; and
`cpr_write_file_all`, which writes no bytes through a NULL pointer by a call that takes that for an error
(`error_contract_iff`).
-/

namespace Copper

/-! ## The contract -/

/-- What a caller sees of a call: what it returns, and the error its last `cpr__set_error` recorded, if it made one. -/
structure CallReport where
  result : Bool
  recorded : Option CprError
  deriving DecidableEq, Repr

/-- Whether the thread-local error is still `before` after what is recorded. -/
def Unchanged (before : CprError) (recorded : Option CprError) : Prop := recorded.getD before = before

instance (before : CprError) (recorded : Option CprError) : Decidable (Unchanged before recorded) :=
  inferInstanceAs (Decidable (_ = _))

/-- A call that returns false has recorded an error, and one that returns true has not changed the error. -/
structure CallReport.Honours (r : CallReport) (before : CprError) : Prop where
  failed : r.result = false → ∃ e, r.recorded = some e ∧ e.code ≠ .ok
  succeeded : r.result = true → Unchanged before r.recorded

def Outcome.report {σ : Type} (o : Outcome σ Bool) : CallReport := ⟨o.result, o.error⟩

section

variable {σ : Type}

/-- Such a call honours the contract whatever the error was before. -/
structure Outcome.Clean (o : Outcome σ Bool) : Prop where
  failed : o.result = false → ∃ e, o.error = some e ∧ e.code ≠ .ok
  succeeded : o.result = true → o.error = none

/-- A call that leaves through an error exit keeps the contract. -/
theorem Outcome.Clean.fail {s : σ} {code : CprResult} {message : String} (hcode : code ≠ .ok) :
    (Outcome.fail s false code message).Clean := by
  constructor
  · intro _
    exact ⟨_, rfl, hcode⟩
  · intro h
    cases h

/-- A call that succeeds and records nothing keeps it. -/
theorem Outcome.Clean.success {s : σ} : ({ result := true, state := s } : Outcome σ Bool).Clean := by
  constructor
  · intro h
    cases h
  · intro _
    rfl

/-- A check that leaves through an error exit, before what follows it. -/
theorem Outcome.Clean.guard {c : Prop} [Decidable c] {s : σ} {code : CprResult} {message : String} {o : Outcome σ Bool}
    (hcode : code ≠ .ok) (h : ¬ c → o.Clean) : (if c then Outcome.fail s false code message else o).Clean := by
  split
  · exact .fail hcode
  · exact h ‹_›

/-- A clean call honours the contract, whatever the error was before. -/
theorem Outcome.Clean.honours {o : Outcome σ Bool} (h : o.Clean) (before : CprError) : o.report.Honours before := by
  constructor
  · exact h.failed
  · intro hresult
    rw [Outcome.report, h.succeeded hresult]
    rfl

end

/-! ## The calls -/

/-- A call of one of the functions, on a platform whose system answers it as it may: whether a caller's own allocator records
an error, whether calls on mutexes fail, and what the calls of the C library do. -/
inductive BoolCall (w : Nat) (σ φ : Type) where
  | arenaInit (arenaNull : Bool) (allocator : ArenaAllocator w) (capacity : BitVec w) (allocError : Option CprError)
  | arenaInitBuf (arenaNull : Bool) (buf size : BitVec w)
  | ringbufInit (b : AtomicBackend) (rbNull : Bool) (buf : Option (Nat → UInt8)) (bufSize : BitVec 32)
    (headFails tailFails : Bool)
  | ringbufWriteAll (b : AtomicBackend) (rb : Option RingBuffer) (data : DataArg) (tail head : MutexFailures)
  | ringbufReadAll (b : AtomicBackend) (rb : Option RingBuffer) (out : OutArg) (head tail : MutexFailures)
  | base64Encode (p : PtrWidth) (data : DataArg) (buf : Option (List UInt8)) (variant : Base64Variant) (pad : Bool)
  | base64Decode (text : DataArg) (buf : Option (List UInt8)) (variant : Base64Variant)
  | pathDirname (platform : Fs.Platform) (buf : OutArg) (path : Option (List UInt8))
  | pathJoin (platform : Fs.Platform) (buf : OutArg) (base part : Option (List UInt8))
  | normalizePath (platform : Fs.Platform) (mem : Nat → UInt8) (buf : OutArg) (path : Option (List UInt8))
  | writeFileAll (io : Fs.Stdio σ φ) (path : Option Path) (data : DataArg) (s : σ)

variable {w : Nat} {σ φ : Type}

/-- What the call's caller sees, if the call does nothing that the language leaves undefined. -/
def BoolCall.report : BoolCall w σ φ → Option CallReport
  | .arenaInit arenaNull allocator capacity allocError =>
    let o := Copper.arenaInit arenaNull allocator capacity
    some ⟨o.result, o.error.or allocError⟩
  | .arenaInitBuf arenaNull buf size => some (Copper.arenaInitBuf arenaNull buf size).report
  | .ringbufInit b rbNull buf bufSize headFails tailFails => some (ringbufInitOn b rbNull buf bufSize headFails tailFails).report
  | .ringbufWriteAll b rb data tail head => some (ringbufWriteAllOn b rb data tail head).report
  | .ringbufReadAll b rb out head tail =>
    let o := ringbufReadAllOn b rb out head tail
    some ⟨o.result.1, o.error⟩
  | .base64Encode p data buf variant pad => (Copper.base64Encode p data buf variant pad).map Outcome.report
  | .base64Decode text buf variant => (Copper.base64Decode text buf variant).map Outcome.report
  | .pathDirname platform buf path => some (Fs.pathDirname platform buf path).report
  | .pathJoin platform buf base part => some (Fs.pathJoin platform buf base part).report
  | .normalizePath platform mem buf path => some (Fs.normalizePath platform mem buf path).report
  | .writeFileAll io path data s => some (Fs.writeFileAll io path data s).report

/-- The calls that honour the contract on an error that was `before`. -/
def BoolCall.Sound : BoolCall w σ φ → CprError → Prop
  | .arenaInit arenaNull allocator capacity allocError, before =>
    -- The caller's allocator hands out memory: what it records stays.
    arenaNull = false → capacity ≠ 0 → (∃ alloc, allocator.alloc = some alloc ∧ alloc capacity ≠ 0) → Unchanged before allocError
  | .ringbufWriteAll b (some rb) data tail head, before =>
    data.missing = false →
      if rb.freeSpace rb.tail < data.size then accessError b tail ≠ none
      else Unchanged before ((accessError b head).or (accessError b tail))
  | .ringbufReadAll b (some rb) out head tail, before =>
    out.missing = false →
      if rb.available rb.head < out.size then accessError b head ≠ none
      else Unchanged before ((accessError b tail).or (accessError b head))
  | .writeFileAll io (some path) data s, before =>
    data = .null 0 → (Fs.openFile io (some path) .write s).result = none ∨ before = ⟨.errInvalid, "NULL argument"⟩
  | _, _ => True

/-! ## Functions that honour it on every path -/

/-- `cpr_arena_init` records an error on each of its failures, and on no success. -/
theorem arenaInit_clean (arenaNull : Bool) (allocator : ArenaAllocator w) (capacity : BitVec w) :
    (arenaInit arenaNull allocator capacity).Clean := by
  unfold arenaInit
  split
  · exact .fail (by decide)
  · exact .guard (by decide) fun _ => .guard (by decide) fun _ => .success

/-- So does `cpr_arena_init_buf`. -/
theorem arenaInitBuf_clean (arenaNull : Bool) (buf size : BitVec w) : (arenaInitBuf arenaNull buf size).Clean :=
  .guard (by decide) fun _ => .success

/-- `cpr_ringbuf_init` does on every branch of the atomics. -/
theorem ringbufInitOn_clean (b : AtomicBackend) (rbNull : Bool) (buf : Option (Nat → UInt8)) (bufSize : BitVec 32)
    (headFails tailFails : Bool) : (ringbufInitOn b rbNull buf bufSize headFails tailFails).Clean := by
  have hinit : ∀ fails, (initError b fails).isSome = true → ∃ e, initError b fails = some e ∧ e.code ≠ .ok := by
    intro fails hsome
    obtain ⟨e, he⟩ := Option.isSome_iff_exists.mp hsome
    exact ⟨e, he, by rw [initError_code he]; decide⟩
  unfold ringbufInitOn ringbufInit
  split
  · exact .fail (by decide)
  · refine .guard (by decide) fun _ => .guard (by decide) fun _ => ?_
    split
    · exact ⟨fun _ => hinit headFails ‹_›, fun h => absurd h Bool.false_ne_true⟩
    · split
      · exact ⟨fun _ => hinit tailFails ‹_›, fun h => absurd h Bool.false_ne_true⟩
      · exact .success

/-- `cpr_base64_encode` does where it returns. -/
theorem base64Encode_clean {p : PtrWidth} {data : DataArg} {buf : Option (List UInt8)} {variant : Base64Variant} {pad : Bool}
    {o : Outcome (Option (List UInt8)) Bool} (h : base64Encode p data buf variant pad = some o) : o.Clean := by
  unfold base64Encode at h
  split at h
  · cases h
    exact .fail (by decide)
  · split at h
    · cases h
      exact .fail (by decide)
    · dsimp only at h
      split at h
      · cases h
        exact .fail (by decide)
      · simp only [Option.bind_eq_bind, Option.bind_eq_some_iff, Option.some.injEq] at h
        obtain ⟨-, -, -, -, -, -, rfl⟩ := h
        exact .success

/-- `cpr_base64_decode` does where it returns. -/
theorem base64Decode_clean {text : DataArg} {buf : Option (List UInt8)} {variant : Base64Variant} {o : Outcome Decoded Bool}
    (h : base64Decode text buf variant = some o) : o.Clean := by
  unfold base64Decode at h
  split at h
  · cases h
    exact .fail (by decide)
  · split at h
    · cases h
      exact .fail (by decide)
    · split at h
      · cases h
        exact .success
      · split at h
        · cases h
          exact .fail (by decide)
        · dsimp only at h
          split at h
          · cases h
            exact .fail (by decide)
          · rw [Option.bind_eq_bind, Option.bind_eq_some_iff] at h
            obtain ⟨groups, -, h⟩ := h
            split at h
            · cases h
              exact .fail (by decide)
            · rw [Option.bind_eq_bind, Option.bind_eq_some_iff] at h
              obtain ⟨last, -, h⟩ := h
              split at h
              · cases h
                exact .fail (by decide)
              · cases h
                exact .success

/-- `cpr_path_dirname` does on both platforms. -/
theorem pathDirname_clean (platform : Fs.Platform) (buf : OutArg) (path : Option (List UInt8)) :
    (Fs.pathDirname platform buf path).Clean := by
  unfold Fs.pathDirname
  split
  · refine .guard (by decide) fun _ => ?_
    split
    · exact .guard (by decide) fun _ => .success
    · exact .guard (by decide) fun _ => .success
  · exact .fail (by decide)

/-- `cpr_path_join` does on both platforms. -/
theorem pathJoin_clean (platform : Fs.Platform) (buf : OutArg) (base part : Option (List UInt8)) :
    (Fs.pathJoin platform buf base part).Clean := by
  unfold Fs.pathJoin
  split
  · refine .guard (by decide) fun _ => ?_
    split
    · exact .guard (by decide) fun _ => .success
    · exact .guard (by decide) fun _ => .success
  · exact .fail (by decide)

/-- `cpr_normalize_path` does on both platforms. -/
theorem normalizePath_clean (platform : Fs.Platform) (mem : Nat → UInt8) (buf : OutArg) (path : Option (List UInt8)) :
    (Fs.normalizePath platform mem buf path).Clean := by
  unfold Fs.normalizePath
  split
  · exact .guard (by decide) fun _ => .guard (by decide) fun _ => .success
  · exact .fail (by decide)

/-! ## Functions that do not -/

/-- The calls of `cpr_arena_init` that succeed. -/
theorem arenaInit_result_iff (arenaNull : Bool) (allocator : ArenaAllocator w) (capacity : BitVec w) :
    (arenaInit arenaNull allocator capacity).result = true ↔
      arenaNull = false ∧ capacity ≠ 0 ∧ ∃ alloc, allocator.alloc = some alloc ∧ alloc capacity ≠ 0 := by
  unfold arenaInit
  cases allocator.alloc with
  | none =>
    refine iff_of_false (fun h => absurd h Bool.false_ne_true) ?_
    rintro ⟨-, -, alloc, halloc, -⟩
    cases halloc
  | some alloc =>
    dsimp only
    by_cases hargs : arenaNull = true ∨ capacity = 0
    · rw [if_pos hargs]
      refine iff_of_false (fun h => absurd h Bool.false_ne_true) ?_
      rintro ⟨hnull, hcapacity, -⟩
      rcases hargs with h | h
      · exact Bool.false_ne_true (hnull.symm.trans h)
      · exact hcapacity h
    · rw [if_neg hargs]
      obtain ⟨hnull, hcapacity⟩ := not_or.mp hargs
      by_cases hbuf : alloc capacity = 0
      · rw [if_pos hbuf]
        refine iff_of_false (fun h => absurd h Bool.false_ne_true) ?_
        rintro ⟨-, -, alloc', halloc, hne⟩
        cases halloc
        exact hne hbuf
      · rw [if_neg hbuf]
        exact iff_of_true rfl ⟨eq_false_of_ne_true hnull, hcapacity, alloc, rfl, hbuf⟩

/-- What an allocator records that hands out memory stays. -/
theorem arenaInit_honours_iff (arenaNull : Bool) (allocator : ArenaAllocator w) (capacity : BitVec w)
    (allocError : Option CprError) (before : CprError) :
    (CallReport.mk (arenaInit arenaNull allocator capacity).result
        ((arenaInit arenaNull allocator capacity).error.or allocError)).Honours before ↔
      (arenaNull = false → capacity ≠ 0 → (∃ alloc, allocator.alloc = some alloc ∧ alloc capacity ≠ 0) →
        Unchanged before allocError) := by
  have hclean := arenaInit_clean arenaNull allocator capacity
  have hresult := arenaInit_result_iff arenaNull allocator capacity
  cases ho : (arenaInit arenaNull allocator capacity).result with
  | false =>
    obtain ⟨e, he, hcode⟩ := hclean.failed ho
    simp only [he, Option.some_or]
    refine iff_of_true ⟨fun _ => ⟨e, rfl, hcode⟩, fun h => by cases h⟩ ?_
    intro hnull hcapacity halloc
    rw [hresult.mpr ⟨hnull, hcapacity, halloc⟩] at ho
    cases ho
  | true =>
    obtain ⟨hnull, hcapacity, halloc⟩ := hresult.mp ho
    simp only [hclean.succeeded ho, Option.none_or]
    constructor
    · intro h _ _ _
      exact h.succeeded rfl
    · intro h
      constructor
      · intro hfalse
        cases hfalse
      · intro _
        exact h hnull hcapacity halloc

/-- Whether a write, or a read, of all its bytes honours the contract: with `short` the buffer cannot take or give that many. -/
theorem honours_all_iff {short : Prop} [Decidable short] {stored loaded : Option CprError} {before : CprError}
    (hcode : ∀ e, loaded = some e → e.code ≠ .ok) :
    (CallReport.mk (decide (¬ short)) ((if short then none else stored).or loaded)).Honours before ↔
      if short then loaded ≠ none else Unchanged before (stored.or loaded) := by
  by_cases hshort : short
  · simp only [hshort, if_true, not_true_eq_false, decide_false, Option.none_or]
    constructor
    · intro h hnone
      obtain ⟨e, he, -⟩ := h.failed rfl
      simp [hnone] at he
    · intro hloaded
      obtain ⟨e, he⟩ := Option.ne_none_iff_exists'.mp hloaded
      constructor
      · intro _
        exact ⟨e, he, hcode e he⟩
      · intro h
        cases h
  · simp only [hshort, if_false, not_false_eq_true, decide_true]
    constructor
    · intro h
      exact h.succeeded rfl
    · intro h
      constructor
      · intro hfalse
        cases hfalse
      · intro _
        exact h

/-- A write of everything that finds no room honours the contract just if a mutex failed in it; one that finds room, just if what the
mutexes recorded is the error that was there before. -/
theorem ringbufWriteAllOn_honours_iff (b : AtomicBackend) (rb : RingBuffer) {data : DataArg} (tail head : MutexFailures)
    (hdata : data.missing = false) (before : CprError) :
    (ringbufWriteAllOn b (some rb) data tail head).report.Honours before ↔
      if rb.freeSpace rb.tail < data.size then accessError b tail ≠ none
      else Unchanged before ((accessError b head).or (accessError b tail)) := by
  rw [← DataArg.length_toList hdata, ← honours_all_iff fun e he => by rw [accessError_code he]; decide]
  refine iff_of_eq (congrArg (CallReport.Honours · before) ?_)
  unfold ringbufWriteAllOn ringbufWriteAll ringbufPut Mode.count Outcome.report
  dsimp only
  rw [hdata]
  by_cases hshort : rb.freeSpace rb.tail < data.toList.length
  · simp [hshort]
  · simp [hshort]

/-- A missing source is an error. -/
theorem ringbufWriteAllOn_missing (b : AtomicBackend) (rb : RingBuffer) {data : DataArg} (tail head : MutexFailures)
    (hdata : data.missing = true) :
    ringbufWriteAllOn b (some rb) data tail head = .fail (some rb) false .errInvalid "NULL argument" := by
  unfold ringbufWriteAllOn ringbufWriteAll
  dsimp only
  rw [if_pos hdata]
  rfl

/-- A read of everything likewise. -/
theorem ringbufReadAllOn_honours_iff (b : AtomicBackend) (rb : RingBuffer) {out : OutArg} (head tail : MutexFailures)
    (hout : out.missing = false) (before : CprError) :
    (CallReport.mk (ringbufReadAllOn b (some rb) out head tail).result.1
        (ringbufReadAllOn b (some rb) out head tail).error).Honours before ↔
      if rb.available rb.head < out.size then accessError b head ≠ none
      else Unchanged before ((accessError b tail).or (accessError b head)) := by
  rw [← honours_all_iff fun e he => by rw [accessError_code he]; decide]
  refine iff_of_eq (congrArg (CallReport.Honours · before) ?_)
  unfold ringbufReadAllOn ringbufReadAll ringbufGet Mode.count
  dsimp only
  rw [hout]
  by_cases hshort : rb.available rb.head < out.size
  · simp [hshort]
  · simp [hshort]

/-- A missing destination is an error. -/
theorem ringbufReadAllOn_missing (b : AtomicBackend) (rb : RingBuffer) {out : OutArg} (head tail : MutexFailures)
    (hout : out.missing = true) :
    ringbufReadAllOn b (some rb) out head tail = .fail (some rb) (false, []) .errInvalid "NULL argument" := by
  unfold ringbufReadAllOn ringbufReadAll
  dsimp only
  rw [if_pos hout]
  rfl

/-- Opening a file gives a handle, or records an error. -/
theorem openFile_cases (io : Fs.Stdio σ φ) (path : Option Path) (mode : FileMode) (s : σ) :
    ((Fs.openFile io path mode s).result = none ∧ ∃ e, (Fs.openFile io path mode s).error = some e ∧ e.code ≠ .ok) ∨
      ((∃ file, (Fs.openFile io path mode s).result = some file) ∧ (Fs.openFile io path mode s).error = none) := by
  unfold Fs.openFile
  split
  · exact Or.inl ⟨rfl, _, rfl, by decide⟩
  · split
    · exact Or.inl ⟨rfl, _, rfl, by decide⟩
    · split
      · exact Or.inl ⟨rfl, _, rfl, by decide⟩
      · exact Or.inr ⟨⟨_, rfl⟩, rfl⟩

/-- Writing a whole file honours the contract but where the file is opened, to write no bytes through a NULL pointer. -/
theorem writeFileAll_honours_iff (io : Fs.Stdio σ φ) (path : Path) (data : DataArg) (s : σ) (before : CprError) :
    (Fs.writeFileAll io (some path) data s).report.Honours before ↔
      (data = .null 0 → (Fs.openFile io (some path) .write s).result = none ∨ before = ⟨.errInvalid, "NULL argument"⟩) := by
  unfold Fs.writeFileAll
  dsimp only
  split
  · rename_i hmissing
    refine iff_of_true (Outcome.Clean.honours (.fail (by decide)) before) fun hdata => ?_
    rw [hdata] at hmissing
    cases hmissing
  · rename_i hmissing
    rcases openFile_cases io (some path) .write s with ⟨hopened, e, he, hcode⟩ | ⟨⟨file, hopened⟩, he⟩
    · rw [hopened]
      refine iff_of_true ⟨fun _ => ⟨e, he, hcode⟩, fun h => absurd h Bool.false_ne_true⟩ fun _ => Or.inl rfl
    · rw [hopened]
      dsimp only
      rw [he, Option.or_none]
      cases data with
      | null size =>
        have hsize : size = 0 := by
          rw [DataArg.missing] at hmissing
          simpa using hmissing
        rw [hsize]
        constructor
        · intro h _
          exact Or.inr (h.succeeded rfl).symm
        · intro h
          constructor
          · intro hfalse
            cases hfalse
          · intro _
            exact ((h rfl).resolve_left (Option.some_ne_none file)).symm
      | bytes buf =>
        refine iff_of_true ?_ fun hdata => by cases hdata
        constructor
        · intro hfalse
          exact ⟨⟨.errIo, "write failed"⟩, if_pos (Nat.not_le.mp (of_decide_eq_false hfalse)), by decide⟩
        · intro htrue
          exact congrArg (Option.getD · before) (if_neg (Nat.not_lt.mpr (of_decide_eq_true htrue)))

/-! ## Every call -/

/-- A call, on an error that was `before`, honours the contract exactly when it is sound. -/
theorem error_contract_iff {call : BoolCall w σ φ} {before : CprError} {r : CallReport} (h : call.report = some r) :
    r.Honours before ↔ call.Sound before := by
  cases call with
  | arenaInit arenaNull allocator capacity allocError =>
    cases h
    exact arenaInit_honours_iff arenaNull allocator capacity allocError before
  | arenaInitBuf arenaNull buf size =>
    cases h
    exact iff_of_true ((arenaInitBuf_clean arenaNull buf size).honours before) trivial
  | ringbufInit b rbNull buf bufSize headFails tailFails =>
    cases h
    exact iff_of_true ((ringbufInitOn_clean b rbNull buf bufSize headFails tailFails).honours before) trivial
  | ringbufWriteAll b rb data tail head =>
    cases h
    rcases rb with _ | rb
    · exact iff_of_true (Outcome.Clean.honours (.fail (by decide)) before) trivial
    · cases hdata : data.missing with
      | true =>
        rw [ringbufWriteAllOn_missing b rb tail head hdata]
        refine iff_of_true (Outcome.Clean.honours (.fail (by decide)) before) fun hfalse => ?_
        rw [hdata] at hfalse
        cases hfalse
      | false =>
        rw [ringbufWriteAllOn_honours_iff b rb tail head hdata]
        exact ⟨fun h _ => h, fun h => h hdata⟩
  | ringbufReadAll b rb out head tail =>
    cases h
    rcases rb with _ | rb
    · exact iff_of_true ⟨fun _ => ⟨_, rfl, by decide⟩, fun h => absurd h Bool.false_ne_true⟩ trivial
    · cases hout : out.missing with
      | true =>
        refine iff_of_true ?_ fun hfalse => ?_
        · rw [ringbufReadAllOn_missing b rb head tail hout]
          exact ⟨fun _ => ⟨_, rfl, by decide⟩, fun h => absurd h Bool.false_ne_true⟩
        · rw [hout] at hfalse
          cases hfalse
      | false =>
        rw [ringbufReadAllOn_honours_iff b rb head tail hout]
        exact ⟨fun h _ => h, fun h => h hout⟩
  | base64Encode p data buf variant pad =>
    obtain ⟨o, ho, rfl⟩ := Option.map_eq_some_iff.mp h
    exact iff_of_true ((base64Encode_clean ho).honours before) trivial
  | base64Decode text buf variant =>
    obtain ⟨o, ho, rfl⟩ := Option.map_eq_some_iff.mp h
    exact iff_of_true ((base64Decode_clean ho).honours before) trivial
  | pathDirname platform buf path =>
    cases h
    exact iff_of_true ((pathDirname_clean platform buf path).honours before) trivial
  | pathJoin platform buf base part =>
    cases h
    exact iff_of_true ((pathJoin_clean platform buf base part).honours before) trivial
  | normalizePath platform mem buf path =>
    cases h
    exact iff_of_true ((normalizePath_clean platform mem buf path).honours before) trivial
  | writeFileAll io path data s =>
    cases h
    rcases path with _ | path
    · exact iff_of_true (Outcome.Clean.honours (.fail (by decide)) before) trivial
    · exact writeFileAll_honours_iff io path data s before

/-- Writing three bytes to an empty ring buffer with room for four. -/
theorem error_contract_write :
    (CallReport.mk true none).Honours ⟨.errIo, "read failed"⟩ :=
  (@error_contract_iff 64 Unit Unit
    (.ringbufWriteAll .gcc (some ⟨fun _ => 0, 4, 3, 0, 0, 0, 0⟩) (.bytes [1, 2, 3]) {} {}) ⟨.errIo, "read failed"⟩ _ rfl).mpr
    fun _ => rfl

/-- A C library whose calls succeed. -/
def plainStdio : Fs.Stdio Unit Unit where
  fopen := fun _ _ s => (some (), s)
  malloc := fun s => (true, s)
  fwrite := fun _ buf s => (buf.length, s)
  fclose := fun _ s => s

/-- Five bytes do not fit a ring buffer with room for four, nor can one byte be read from it while it is empty; and no bytes
are written to a file. The first two calls return false and record nothing, the third one returns true and records an error.
-/
theorem error_contract_broken :
    (@BoolCall.report 64 Unit Unit
        (.ringbufWriteAll .gcc (some ⟨fun _ => 0, 4, 3, 0, 0, 0, 0⟩) (.bytes [1, 2, 3, 4, 5]) {} {})) = some ⟨false, none⟩ ∧
      (@BoolCall.report 64 Unit Unit
        (.ringbufReadAll .gcc (some ⟨fun _ => 0, 4, 3, 0, 0, 0, 0⟩) (.room 1) {} {})) = some ⟨false, none⟩ ∧
      (@BoolCall.report 64 Unit Unit (.writeFileAll plainStdio (some [102]) (.null 0) ()))
        = some ⟨true, some ⟨.errInvalid, "NULL argument"⟩⟩ ∧
      ¬ (CallReport.mk false none).Honours ⟨.ok, ""⟩ ∧
      ¬ (CallReport.mk true (some ⟨.errInvalid, "NULL argument"⟩)).Honours ⟨.ok, ""⟩ := by
  refine ⟨rfl, rfl, rfl, fun h => ?_, fun h => ?_⟩
  · obtain ⟨e, he, -⟩ := h.failed rfl
    cases he
  · exact absurd (h.succeeded rfl) (by decide)

end Copper
