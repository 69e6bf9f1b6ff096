import Copper.Defs
import Copper.Foundation.Retry

/-!
# Random bytes

`cpr_rand_bytes`, and what it calls. What the calls of the operating system return is a list, in the order of the calls; a
function that would make a call past its end has not returned. A system call writes as many bytes as its count says and no more
than it is asked for. Kept beside the bytes of the caller's buffer is which of them such a call has written.

`cpr_rand_bytes` fills its buffer or fails, but for two defects: on Windows the size is cut to the 32 bits of a `ULONG`, and on
Linux and Android a call that reads nothing is made again, without end if it never reads anything (`randBytes_iff`).
-/

namespace Copper

/-! ## The operating system -/

/-- The values of `errno` that `rand.c` tells apart. -/
inductive Errno where
  | eintr
  | enosys
  | other
  deriving DecidableEq, Repr

/-- What a call of the operating system does: it succeeds, with a count and the bytes it writes, or it fails. -/
inductive OsResult where
  | ok (count : Nat) (data : Nat → UInt8)
  | error (errno : Errno)

/-- The branches of `cpr_rand_bytes`. -/
inductive RandPlatform where
  | windows
  | linux
  | arc4random
  deriving DecidableEq, Repr

/-- The caller's memory from the buffer on, and which bytes of it the operating system has written. -/
structure OutBuffer where
  mem : Nat → UInt8
  filled : Nat → Bool

/-- The operating system writes `n` bytes at `pos`. -/
def OutBuffer.fill (buf : OutBuffer) (pos n : Nat) (data : Nat → UInt8) : OutBuffer where
  mem i := if pos ≤ i ∧ i < pos + n then data (i - pos) else buf.mem i
  filled i := if pos ≤ i ∧ i < pos + n then true else buf.filled i

/-! ## The functions -/

/-- The count of a call, if the loops go on after it: a call that was interrupted is made again. -/
def OsResult.progress : OsResult → Option Nat
  | .ok count _ => some count
  | .error .eintr => some 0
  | .error _ => none

/-- What a call writes of the bytes that it is asked for. -/
def OsResult.put (r : OsResult) (pos n : Nat) (buf : OutBuffer) : OutBuffer :=
  match r with
  | .ok _ data => buf.fill pos n data
  | .error _ => buf

def filledAll (buf : OutBuffer) : Outcome OutBuffer Bool := { result := true, state := buf }

/-- The loop of `cpr__rand_urandom`. -/
def urandomLoop : List OsResult → Nat → Nat → OutBuffer → Option (Outcome OutBuffer Bool) :=
  Retry.loop OsResult.progress OsResult.put
    (fun _ _ _ _ buf => some (.fail buf false .errIo "/dev/urandom read failed")) filledAll

/-- `cpr__rand_urandom`. -/
def randUrandom (results : List OsResult) (pos size : Nat) (buf : OutBuffer) : Option (Outcome OutBuffer Bool) :=
  match results with
  | [] => none
  | .error _ :: _ => some (.fail buf false .errIo "failed to open /dev/urandom")
  | .ok _ _ :: results => urandomLoop results pos size buf

/-- The loop of `cpr_rand_bytes` on Linux and Android. -/
def getrandomLoop : List OsResult → Nat → Nat → OutBuffer → Option (Outcome OutBuffer Bool) :=
  Retry.loop OsResult.progress OsResult.put
    (fun r results pos size buf =>
      match r with
      | .error .enosys => randUrandom results pos size buf
      | _ => some (.fail buf false .errIo "getrandom() failed"))
    filledAll

/-- `cpr_rand_bytes`. -/
def randBytes (platform : RandPlatform) (results : List OsResult) (out : OutArg) (buf : OutBuffer) :
    Option (Outcome OutBuffer Bool) :=
  if out.missing then some (.fail buf false .errInvalid "out is NULL")
  else if out.size = 0 then some { result := true, state := buf }
  else
    match platform with
    | .windows =>
      -- `(ULONG)size`
      match results with
      | [] => none
      | .ok _ data :: _ => some { result := true, state := buf.fill 0 (out.size % 2 ^ 32) data }
      | .error _ :: _ => some (.fail buf false .errIo "BCryptGenRandom failed")
    | .linux => getrandomLoop results 0 out.size buf
    | .arc4random =>
      match results with
      | .ok _ data :: _ => some { result := true, state := buf.fill 0 out.size data }
      | _ => none

/-! ## What is filled -/

/-- The bytes before `pos` have been written, and no others. -/
def OutBuffer.FilledTo (buf : OutBuffer) (pos : Nat) : Prop := ∀ i, buf.filled i = true ↔ i < pos

/-- Filling on from where the buffer is filled to. -/
theorem OutBuffer.FilledTo.fill {buf : OutBuffer} {pos : Nat} (h : buf.FilledTo pos) (n : Nat) (data : Nat → UInt8) :
    (buf.fill pos n data).FilledTo (pos + n) := by
  intro i
  have hi := h i
  rw [OutBuffer.fill]
  dsimp only
  split
  · exact iff_of_true rfl (by omega)
  · rw [hi]
    omega

/-- The bytes that have been written and those that are left make up the buffer. -/
def Filling (size pos left : Nat) (buf : OutBuffer) : Prop := pos + left = size ∧ buf.FilledTo pos

/-- A call that returns true has filled the buffer. -/
def Fills (size : Nat) (o : Outcome OutBuffer Bool) : Prop := o.result = true → o.state.FilledTo size

/-- What the system gives fills the buffer on, and leaves less to be filled. -/
theorem Filling.put {size pos left n : Nat} {buf : OutBuffer} (h : Filling size pos left buf) {r : OsResult}
    (hr : r.progress = some n) : Filling size (pos + min n left) (left - min n left) (r.put pos (min n left) buf) := by
  obtain ⟨hsize, hfilled⟩ := h
  refine ⟨by omega, ?_⟩
  cases r with
  | ok count data => exact hfilled.fill _ data
  | error errno =>
    cases errno with
    | eintr =>
      obtain rfl := Option.some.inj hr
      rw [Nat.zero_min]
      exact hfilled
    | enosys => cases hr
    | other => cases hr

/-- Where nothing is left the buffer is filled. -/
theorem Filling.done {size pos : Nat} {buf : OutBuffer} (h : Filling size pos 0 buf) : Fills size (filledAll buf) := by
  obtain ⟨rfl, hfilled⟩ := h
  exact fun _ => hfilled

/-- A call that fails promises nothing about the buffer. -/
theorem fills_fail {size : Nat} {buf : OutBuffer} {code : CprResult} {message : String} :
    Fills size (.fail buf false code message) := fun h => Bool.noConfusion h

/-- The loop over `/dev/urandom` goes on filling the buffer. -/
theorem urandomLoop_fills {size pos left : Nat} {results : List OsResult} {buf : OutBuffer} {o : Outcome OutBuffer Bool}
    (hbuf : Filling size pos left buf) (h : urandomLoop results pos left buf = some o) : Fills size o := by
  refine Retry.loop_keeps (Filling size) ?_ ?_ ?_ hbuf h
  · intro r n pos left buf hr hbuf
    exact hbuf.put hr
  · intro pos buf hbuf
    exact hbuf.done
  · intro r rs pos left buf o _ _ ho
    cases ho
    exact fills_fail

/-- So does the call that opens the device first. -/
theorem randUrandom_fills {size pos left : Nat} {results : List OsResult} {buf : OutBuffer} {o : Outcome OutBuffer Bool}
    (hbuf : Filling size pos left buf) (h : randUrandom results pos left buf = some o) : Fills size o := by
  unfold randUrandom at h
  split at h
  · cases h
  · cases h
    exact fills_fail
  · exact urandomLoop_fills hbuf h

/-- So does the loop over `getrandom`, which may fall back to the device. -/
theorem getrandomLoop_fills {size pos left : Nat} {results : List OsResult} {buf : OutBuffer} {o : Outcome OutBuffer Bool}
    (hbuf : Filling size pos left buf) (h : getrandomLoop results pos left buf = some o) : Fills size o := by
  refine Retry.loop_keeps (Filling size) ?_ ?_ ?_ hbuf h
  · intro r n pos left buf hr hbuf
    exact hbuf.put hr
  · intro pos buf hbuf
    exact hbuf.done
  · intro r rs pos left buf o hbuf _ ho
    split at ho
    · exact randUrandom_fills hbuf ho
    · cases ho
      exact fills_fail

/-! ## When a call returns -/

/-- The results after `ENOSYS`: the device is still to be opened, or has been, and the reads from it are short. -/
def UrandomPending (r : OsResult) (results : List OsResult) (left : Nat) : Prop :=
  r = .error .enosys ∧
    (results = [] ∨ ∃ count data reads, results = .ok count data :: reads ∧ Retry.Short OsResult.progress reads left)

/-- Results on which `cpr_rand_bytes` goes on, on Linux and Android: none of them is a failure but for one `ENOSYS` of `getrandom`,
after which the device is opened, and the counts of the calls do not add up to the size. -/
def Unfinished (results : List OsResult) (size : Nat) : Prop :=
  Retry.Unfinished OsResult.progress UrandomPending results size

/-- The loop over the device is still going just while the results are too short. -/
theorem urandomLoop_eq_none_iff {results : List OsResult} {pos left : Nat} {buf : OutBuffer} :
    urandomLoop results pos left buf = none ↔ Retry.Short OsResult.progress results left := by
  have hiff : urandomLoop results pos left buf = none ↔ Retry.Unfinished OsResult.progress (fun _ _ _ => False) results left :=
    Retry.loop_eq_none_iff fun r rs pos left buf _ _ => iff_of_false (by simp) id
  rw [hiff]
  constructor
  · rintro (hshort | ⟨a, r, b, -, -, -, hfalse⟩)
    · exact hshort
    · exact absurd hfalse id
  · exact .inl

/-- The loop over `getrandom` is still going just while it is unfinished. -/
theorem getrandomLoop_eq_none_iff {results : List OsResult} {pos left : Nat} {buf : OutBuffer} :
    getrandomLoop results pos left buf = none ↔ Unfinished results left := by
  refine Retry.loop_eq_none_iff fun r rs pos left buf hr hleft => ?_
  split
  · -- `ENOSYS`
    unfold randUrandom UrandomPending
    split
    · simp
    · simp
    · rw [urandomLoop_eq_none_iff]
      simp
  · rename_i hother
    refine iff_of_false (by simp) fun h => hother h.1

/-- Every later result is a count of zero, and before them the call had not returned. -/
def Stalls (results : Nat → OsResult) (size : Nat) : Prop :=
  ∃ n, Unfinished (Retry.first results n) size ∧ ∀ i ≥ n, ∃ data, results i = .ok 0 data

/-- Only finitely many calls are interrupted. -/
def FewInterrupted (results : Nat → OsResult) : Prop := ∃ n, ∀ i ≥ n, results i ≠ .error .eintr

/-- A result that brings nothing and is no interruption is a read of no bytes. -/
theorem progress_zero {r : OsResult} (h : r.progress = some 0) (hr : r ≠ .error .eintr) : ∃ data, r = .ok 0 data := by
  cases r with
  | ok count data =>
    obtain rfl := Option.some.inj h
    exact ⟨data, rfl⟩
  | error errno =>
    cases errno with
    | eintr => exact absurd rfl hr
    | enosys => cases h
    | other => cases h

/-- What is pending after some results was pending after the first of them. -/
theorem UrandomPending.of_append {r : OsResult} {a b : List OsResult} {left : Nat} (h : UrandomPending r (a ++ b) left) :
    UrandomPending r a left := by
  obtain ⟨hr, hopen⟩ := h
  refine ⟨hr, ?_⟩
  cases a with
  | nil => exact .inl rfl
  | cons opened reads =>
    rcases hopen with hnil | ⟨count, data, reads', heq, hshort⟩
    · cases hnil
    · obtain ⟨rfl, rfl⟩ := List.cons.inj heq
      exact .inr ⟨count, data, reads, rfl, hshort.of_append⟩

/-- What is pending stays so through reads of no bytes. -/
theorem UrandomPending.append_idle {r : OsResult} {a zs : List OsResult} {left : Nat} (h : UrandomPending r a left)
    (hleft : left ≠ 0) (hzs : ∀ z ∈ zs, ∃ data, z = .ok 0 data) : UrandomPending r (a ++ zs) left := by
  have hidle : ∀ z ∈ zs, z.progress = some 0 := by
    intro z hz
    obtain ⟨data, rfl⟩ := hzs z hz
    rfl
  obtain ⟨hr, rfl | ⟨count, data, reads, rfl, hshort⟩⟩ := h
  · refine ⟨hr, ?_⟩
    cases zs with
    | nil => exact .inl rfl
    | cons z zs =>
      obtain ⟨data, rfl⟩ := hzs z List.mem_cons_self
      exact .inr ⟨0, data, zs, rfl, Retry.short_idle (fun x hx => hidle x (List.mem_cons_of_mem _ hx)) hleft⟩
  · exact ⟨hr, .inr ⟨count, data, reads ++ zs, rfl, hshort.append_idle hidle⟩⟩

/-- With few interruptions, a call goes on for ever exactly when it stalls. -/
theorem unfinished_all_iff {results : Nat → OsResult} {size : Nat} :
    (FewInterrupted results ∧ ∀ n, Unfinished (Retry.first results n) size) ↔ Stalls results size := by
  constructor
  · rintro ⟨⟨m, hm⟩, hall⟩
    obtain ⟨n, hn⟩ : ∃ n, ∀ i ≥ n, (results i).progress = some 0 := by
      rcases Retry.unfinished_cases hall with hshort | ⟨k, -, hpending⟩
      · exact Retry.exists_idle hshort
      · -- The reads from the device are short, however many there are.
        have hreads : ∀ n, Retry.Short OsResult.progress (Retry.first (fun i => results (k + 1 + 1 + i)) n)
            (size - Retry.total OsResult.progress (Retry.first results k)) := by
          intro n
          obtain ⟨-, hnil | ⟨count, data, reads, heq, hshort⟩⟩ := hpending (1 + n)
          · rw [Retry.first_add] at hnil
            cases hnil
          · rw [Retry.first_add] at heq
            obtain ⟨-, rfl⟩ := List.cons.inj heq
            simp only [← Nat.add_assoc] at hshort
            exact hshort
        obtain ⟨n, hn⟩ := Retry.exists_idle hreads
        refine ⟨k + 1 + 1 + n, fun i hi => ?_⟩
        have hi' := hn (i - (k + 1 + 1)) (by omega)
        rwa [Nat.add_sub_cancel' (by omega)] at hi'
    refine ⟨max m n, hall _, fun i hi => ?_⟩
    exact progress_zero (hn i ((Nat.le_max_right m n).trans hi)) (hm i ((Nat.le_max_left m n).trans hi))
  · rintro ⟨n, hn, hzero⟩
    refine ⟨⟨n, fun i hi => ?_⟩, fun k => ?_⟩
    · obtain ⟨data, hdata⟩ := hzero i hi
      rw [hdata]
      exact OsResult.noConfusion
    · rcases Nat.le_total k n with hle | hle
      · rw [← Nat.add_sub_cancel' hle, Retry.first_add] at hn
        exact Retry.Unfinished.of_append (fun _ _ _ _ _ h => h.of_append) hn
      · rw [← Nat.add_sub_cancel' hle, Retry.first_add]
        have hzs : ∀ z ∈ Retry.first (fun i => results (n + i)) (k - n), ∃ data, z = .ok 0 data := by
          intro z hz
          obtain ⟨i, -, rfl⟩ := Retry.mem_first.mp hz
          exact hzero (n + i) (Nat.le_add_right n i)
        refine Retry.Unfinished.append_idle (fun z hz => ?_) (fun r a left hleft _ h => h.append_idle hleft hzs) hn
        obtain ⟨data, rfl⟩ := hzs z hz
        rfl

/-! ## Filling or failing -/

/-- Whatever the operating system returns, one result after the other: a call that returns true has filled the buffer and nothing
else, and a call that is interrupted only so often returns. -/
structure FillsOrFails (platform : RandPlatform) (results : Nat → OsResult) (size : Nat) : Prop where
  fills : ∀ buf n o, buf.FilledTo 0 → randBytes platform (Retry.first results n) (.room size) buf = some o → Fills size o
  returns : FewInterrupted results → ∀ buf, ∃ n, randBytes platform (Retry.first results n) (.room size) buf ≠ none

/-- No bytes are given at once. -/
theorem randBytes_room (platform : RandPlatform) (results : List OsResult) (buf : OutBuffer) :
    randBytes platform results (.room 0) buf = some { result := true, state := buf } := rfl

/-- On Linux the bytes come from the loop over `getrandom`. -/
theorem randBytes_linux {size : Nat} (hsize : size ≠ 0) (results : List OsResult) (buf : OutBuffer) :
    randBytes .linux results (.room size) buf = getrandomLoop results 0 size buf := by
  simp [randBytes, OutArg.missing, OutArg.size, hsize]

/-- On Windows the bytes come from one call, to which the size is cut to 32 bits. -/
theorem randBytes_windows {size : Nat} (hsize : size ≠ 0) (r : OsResult) (results : List OsResult) (buf : OutBuffer) :
    randBytes .windows (r :: results) (.room size) buf =
      match r with
      | .ok _ data => some { result := true, state := buf.fill 0 (size % 2 ^ 32) data }
      | .error _ => some (.fail buf false .errIo "BCryptGenRandom failed") := by
  simp [randBytes, OutArg.missing, OutArg.size, hsize]
  cases r with
  | ok count data => rfl
  | error errno => rfl

/-- An empty buffer. -/
theorem fillsOrFails_empty (platform : RandPlatform) (results : Nat → OsResult) : FillsOrFails platform results 0 := by
  constructor
  · intro buf n o hbuf h
    rw [randBytes_room] at h
    cases h
    exact fun _ => hbuf
  · intro _ buf
    exact ⟨0, by rw [randBytes_room]; simp⟩

/-- On Linux the buffer is filled or the call fails exactly if the system does not stall it. -/
theorem fillsOrFails_linux_iff (results : Nat → OsResult) (size : Nat) :
    FillsOrFails .linux results size ↔ ¬ Stalls results size := by
  by_cases hsize : size = 0
  · subst hsize
    refine iff_of_true (fillsOrFails_empty .linux results) ?_
    rintro ⟨n, hn, -⟩
    exact hn.ne_zero rfl
  · rw [← unfinished_all_iff]
    constructor
    · rintro h ⟨hfew, hall⟩
      obtain ⟨n, hn⟩ := h.returns hfew ⟨fun _ => 0, fun _ => false⟩
      rw [randBytes_linux hsize] at hn
      exact hn (getrandomLoop_eq_none_iff.mpr (hall n))
    · intro h
      constructor
      · intro buf n o hbuf ho
        rw [randBytes_linux hsize] at ho
        exact getrandomLoop_fills ⟨Nat.zero_add size, hbuf⟩ ho
      · intro hfew buf
        by_contra hnever
        push Not at hnever
        refine h ⟨hfew, fun n => ?_⟩
        have hn := hnever n
        rw [randBytes_linux hsize] at hn
        exact getrandomLoop_eq_none_iff.mp hn

/-- On Windows there is one call, on the size cut to 32 bits. -/
theorem randBytes_windows_first {size : Nat} (hsize : size ≠ 0) (results : Nat → OsResult) (n : Nat) (buf : OutBuffer) :
    randBytes .windows (Retry.first results (n + 1)) (.room size) buf =
      match results 0 with
      | .ok _ data => some { result := true, state := buf.fill 0 (size % 2 ^ 32) data }
      | .error _ => some (.fail buf false .errIo "BCryptGenRandom failed") := by
  rw [Nat.add_comm, Retry.first_add]
  exact randBytes_windows hsize (results 0) _ buf

/-- A call that fills the first `size % 2 ^ 32` bytes fills the buffer if the size is below `2 ^ 32`. -/
theorem fills_cut_iff {size : Nat} {buf : OutBuffer} (hbuf : buf.FilledTo 0) (data : Nat → UInt8) :
    Fills size { result := true, state := buf.fill 0 (size % 2 ^ 32) data } ↔ size < 2 ^ 32 := by
  have hpart := hbuf.fill (size % 2 ^ 32) data
  rw [Nat.zero_add] at hpart
  constructor
  · intro h
    have hiff := (hpart (size % 2 ^ 32)).symm.trans (h rfl (size % 2 ^ 32))
    have hmod := Nat.mod_lt size (show 0 < 2 ^ 32 by decide)
    omega
  · intro hlt _ i
    have hi := hpart i
    rw [Nat.mod_eq_of_lt hlt] at hi
    show (buf.fill 0 (size % 2 ^ 32) data).filled i = true ↔ i < size
    rw [Nat.mod_eq_of_lt hlt]
    exact hi

/-- On Windows it is so exactly if the size fits 32 bits or the call fails. -/
theorem fillsOrFails_windows_iff (results : Nat → OsResult) (size : Nat) :
    FillsOrFails .windows results size ↔ size < 2 ^ 32 ∨ ∃ errno, results 0 = .error errno := by
  by_cases hsize : size = 0
  · subst hsize
    exact iff_of_true (fillsOrFails_empty .windows results) (.inl (by decide))
  have hrun := randBytes_windows_first hsize results
  have hnone : ∀ buf, randBytes .windows (Retry.first results 0) (.room size) buf = none := by
    intro buf
    simp [randBytes, OutArg.missing, OutArg.size, hsize, Retry.first]
  cases hr : results 0 with
  | error errno =>
    simp only [hr] at hrun
    refine iff_of_true ?_ (.inr ⟨errno, rfl⟩)
    constructor
    · intro buf n o _ ho
      cases n with
      | zero =>
        rw [hnone] at ho
        cases ho
      | succ n =>
        rw [hrun] at ho
        cases ho
        exact fills_fail
    · intro _ buf
      exact ⟨1, by rw [hrun]; simp⟩
  | ok count data =>
    simp only [hr] at hrun
    constructor
    · intro h
      have hempty : OutBuffer.FilledTo ⟨fun _ => 0, fun _ => false⟩ 0 := fun i => by simp
      exact .inl ((fills_cut_iff hempty data).mp (h.fills _ 1 _ hempty (hrun 0 _)))
    · rintro (hlt | ⟨errno, herror⟩)
      · constructor
        · intro buf n o hbuf ho
          cases n with
          | zero =>
            rw [hnone] at ho
            cases ho
          | succ n =>
            rw [hrun] at ho
            cases ho
            exact (fills_cut_iff hbuf data).mpr hlt
        · intro _ buf
          exact ⟨1, by rw [hrun]; simp⟩
      · cases herror

/-- `cpr_rand_bytes` fills its buffer or fails, and returns: on Windows unless the size is cut and the call succeeds, on Linux and
Android unless it stalls on counts of zero. -/
theorem randBytes_iff (results : Nat → OsResult) (size : Nat) :
    (FillsOrFails .windows results size ↔ size < 2 ^ 32 ∨ ∃ errno, results 0 = .error errno) ∧
    (FillsOrFails .linux results size ↔ ¬ Stalls results size) :=
  ⟨fillsOrFails_windows_iff results size, fillsOrFails_linux_iff results size⟩

/-- On Windows a buffer of `2 ^ 32` bytes is reported as filled, and no byte of it is; on Linux an empty file in the place of the
device is read for ever. -/
theorem randBytes_cut :
    (∃ o, randBytes .windows [.ok 0 fun _ => 0] (.room (2 ^ 32)) ⟨fun _ => 0, fun _ => false⟩ = some o ∧ o.result = true ∧
      ∀ i, o.state.filled i = false) ∧
    ¬ FillsOrFails .windows (fun _ => .ok 0 fun _ => 0) (2 ^ 32) ∧
    ¬ FillsOrFails .linux (fun i => if i = 0 then .error .enosys else .ok 0 fun _ => 0) 1 := by
  refine ⟨⟨_, randBytes_windows (by decide) _ _ _, rfl, fun i => by simp [OutBuffer.fill]⟩, ?_, ?_⟩
  · rw [fillsOrFails_windows_iff]
    rintro (hlt | ⟨errno, herror⟩)
    · exact absurd hlt (by decide)
    · cases herror
  · rw [fillsOrFails_linux_iff, not_not]
    refine ⟨1, ?_, fun i hi => ⟨fun _ => 0, if_neg (by omega)⟩⟩
    exact (Retry.unfinished_cons_none rfl).mpr ⟨by decide, rfl, .inl rfl⟩

end Copper
