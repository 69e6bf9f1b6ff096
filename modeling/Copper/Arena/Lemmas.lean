import Copper.Arena.Basic
import Copper.Foundation.Align

/-!
# Where an allocation lands

The words of `arena.c` read as numbers: an allocation lands on the least multiple of the alignment at or past the bump pointer
(`Arena.target`), and the check against the capacity is exact as long as that multiple is not past the end of the region; past
it the difference wraps, and the check is off by `2 ^ w` (`Arena.bound`).
-/

namespace Copper

open Align (roundUp)

variable {w : Nat}

/-- The test finds the powers of two. -/
theorem isPow2_iff (v : BitVec w) : isPow2 v = true ↔ v.toNat.isPowerOfTwo := by
  rw [← WrapCounter.isPowerOfTwo_iff]
  simp [isPow2]

namespace Arena

/-- The end of the region. -/
def limit (a : Arena w) : Nat := a.buf.toNat + a.cap.toNat

/-- The address the bump pointer stands at. -/
def top (a : Arena w) : Nat := a.buf.toNat + a.offset.toNat

/-- The least multiple of the alignment at or past the bump pointer. -/
def target (a : Arena w) (alignment : BitVec w) : Nat := roundUp a.top alignment.toNat

/-- The address that the check against the capacity takes for the end of the region. -/
def bound (a : Arena w) (alignment : BitVec w) : Nat := a.limit + if a.limit < a.target alignment then 2 ^ w else 0

/-- An aligned address is not below the top. -/
theorem top_le_target (a : Arena w) {alignment : BitVec w} (hpow : alignment.toNat.isPowerOfTwo) :
    a.top ≤ a.target alignment :=
  Align.le_roundUp (Nat.pos_of_isPowerOfTwo hpow)

section

variable {a : Arena w} (hrange : a.limit < 2 ^ w) (hoffset : a.offset.toNat ≤ a.cap.toNat)

include hrange hoffset

/-- The top of an arena is an address. -/
theorem toNat_top : (a.buf + a.offset).toNat = a.top := by
  have htop : a.top ≤ a.limit := Nat.add_le_add_left hoffset _
  rw [BitVec.toNat_add]
  exact Nat.mod_eq_of_lt (show a.top < 2 ^ w by omega)

/-- What the code aligns is the target, cut to the width of an address. -/
theorem toNat_alignUp {alignment : BitVec w} (hpow : alignment.toNat.isPowerOfTwo) :
    (alignUp (a.buf + a.offset) alignment).toNat = a.target alignment % 2 ^ w := by
  rw [alignUp, Align.toNat_alignUp hpow, toNat_top hrange hoffset]
  rfl

end

/-- What the initializers establish and no call changes, and the order of the offset and the capacity. -/
structure Valid (a : Arena w) : Prop where
  base : 0 < a.buf.toNat
  range : a.limit < 2 ^ w
  offset : a.offset.toNat ≤ a.cap.toNat

namespace Valid

variable {a : Arena w} (h : a.Valid) {alignment size : BitVec w}

include h

/-- The top is not above the limit. -/
theorem top_le : a.top ≤ a.limit := Nat.add_le_add_left h.offset _

/-- The target is an address, or just past the last. -/
theorem target_le (hpow : alignment.toNat.isPowerOfTwo) : a.target alignment ≤ 2 ^ w := by
  have hrange := h.range
  have htop := h.top_le
  exact Align.roundUp_le_range hpow (by omega)

/-- The offset of the aligned address is exact, whatever wrapped on the way. -/
theorem toNat_alignedOffset (hpow : alignment.toNat.isPowerOfTwo) :
    (alignUp (a.buf + a.offset) alignment - a.buf).toNat = a.target alignment - a.buf.toNat := by
  have hbase := h.base
  have hrange := h.range
  have htop : a.buf.toNat ≤ a.top := Nat.le_add_right _ _
  have hle := a.top_le_target hpow
  rw [BitVec.toNat_sub, toNat_alignUp hrange h.offset hpow]
  have hbuf := a.buf.isLt
  rcases Nat.eq_or_lt_of_le (h.target_le hpow) with heq | hlt
  · rw [heq, Nat.mod_self, Nat.add_zero, Nat.mod_eq_of_lt (by omega)]
  · rw [Nat.mod_eq_of_lt hlt, show 2 ^ w - a.buf.toNat + a.target alignment = a.target alignment - a.buf.toNat + 2 ^ w by omega,
      Nat.add_mod_right, Nat.mod_eq_of_lt (by omega)]

variable (size) in
/-- The check against the capacity, in numbers. -/
theorem exhausted_iff (hpow : alignment.toNat.isPowerOfTwo) :
    a.cap - (alignUp (a.buf + a.offset) alignment - a.buf) < size ↔ a.bound alignment < a.target alignment + size.toNat := by
  have hoff := h.toNat_alignedOffset hpow
  have htop : a.buf.toNat ≤ a.top := Nat.le_add_right _ _
  have hle := a.top_le_target hpow
  have hmax := h.target_le hpow
  have hbase := h.base
  have hcap := a.cap.isLt
  have hlimit : a.limit = a.buf.toNat + a.cap.toNat := rfl
  rw [BitVec.lt_def, BitVec.toNat_sub, hoff, bound]
  split
  · rename_i hpast
    rw [Nat.mod_eq_of_lt (by omega)]
    omega
  · rename_i hin
    rw [show 2 ^ w - (a.target alignment - a.buf.toNat) + a.cap.toNat = (a.limit - a.target alignment) + 2 ^ w by omega,
      Nat.add_mod_right, Nat.mod_eq_of_lt (by omega)]
    omega

variable (size) in
/-- What an allocation does, in numbers. -/
theorem allocAligned_eq (hpow : alignment.toNat.isPowerOfTwo) :
    a.allocAligned size alignment =
      if a.bound alignment < a.target alignment + size.toNat then .fail a 0 .errExhausted "arena exhausted"
      else
        { result := BitVec.ofNat w (a.target alignment)
          state := {
            a with prevOffset := a.offset, offset := BitVec.ofNat w (a.target alignment - a.buf.toNat + size.toNat) } } := by
  have hoff := h.toNat_alignedOffset hpow
  have htop : a.buf.toNat ≤ a.top := Nat.le_add_right _ _
  have hle := a.top_le_target hpow
  have hword : alignUp (a.buf + a.offset) alignment - a.buf = BitVec.ofNat w (a.target alignment - a.buf.toNat) := by
    rw [← hoff, BitVec.ofNat_toNat, BitVec.setWidth_eq]
  have hptr : a.buf + BitVec.ofNat w (a.target alignment - a.buf.toNat) = BitVec.ofNat w (a.target alignment) := by
    refine BitVec.eq_of_toNat_eq ?_
    rw [BitVec.toNat_add, BitVec.toNat_ofNat, BitVec.toNat_ofNat, Nat.add_mod_mod, Nat.add_sub_cancel' (by omega)]
  have hsize : size = BitVec.ofNat w size.toNat := by rw [BitVec.ofNat_toNat, BitVec.setWidth_eq]
  have hcheck := h.exhausted_iff size hpow
  rw [hword] at hcheck
  simp only [allocAligned, (isPow2_iff alignment).mpr hpow, Bool.not_true, Bool.false_eq_true, if_false, hword, hcheck, hptr]
  rw [BitVec.ofNat_add, ← hsize]

end Valid

/-- An alignment that is not a power of two is refused. -/
theorem allocAligned_of_not_pow2 (a : Arena w) (size : BitVec w) {alignment : BitVec w}
    (hpow : ¬ alignment.toNat.isPowerOfTwo) :
    a.allocAligned size alignment = .fail a 0 .errAlign "alignment must be a non-zero power of two" := by
  have hfalse : isPow2 alignment = false := by
    rw [← Bool.not_eq_true, isPow2_iff]
    exact hpow
  simp only [allocAligned, hfalse, Bool.not_false, if_true]

/-- `a'` is `a` after an allocation that left the bump pointer `n` bytes into the region. -/
structure Moved (a a' : Arena w) (n : Nat) : Prop where
  buf : a'.buf = a.buf
  cap : a'.cap = a.cap
  prevOffset : a'.prevOffset = a.offset
  offset : a'.offset.toNat = n

/-- Everything a call can do: fail and change nothing, or land on the target and move the bump pointer past it. -/
theorem Valid.allocAligned_cases {a : Arena w} (h : a.Valid) (size alignment : BitVec w) :
    (∃ code message, a.allocAligned size alignment = .fail a 0 code message ∧
        (alignment.toNat.isPowerOfTwo → a.bound alignment < a.target alignment + size.toNat)) ∨
      (alignment.toNat.isPowerOfTwo ∧ a.target alignment + size.toNat ≤ a.bound alignment ∧
        ∃ a', a.allocAligned size alignment = { result := BitVec.ofNat w (a.target alignment), state := a' } ∧
          a.Moved a' ((a.target alignment - a.buf.toNat + size.toNat) % 2 ^ w)) := by
  by_cases hpow : alignment.toNat.isPowerOfTwo
  · have heq := h.allocAligned_eq size hpow
    by_cases hfull : a.bound alignment < a.target alignment + size.toNat
    · rw [if_pos hfull] at heq
      exact Or.inl ⟨_, _, heq, fun _ => hfull⟩
    · rw [if_neg hfull] at heq
      exact Or.inr ⟨hpow, Nat.le_of_not_lt hfull, _, heq, ⟨rfl, rfl, rfl, BitVec.toNat_ofNat _ _⟩⟩
  · exact Or.inl ⟨_, _, a.allocAligned_of_not_pow2 size hpow, fun h => absurd h hpow⟩

end Arena

/-! ## The initializers -/

/-- An arena that `arenaInit` accepts is empty, over the buffer the allocator returned. -/
theorem arenaInit_some {arenaNull : Bool} {allocator : ArenaAllocator w} {capacity : BitVec w} {a : Arena w}
    (h : (arenaInit arenaNull allocator capacity).state = some a) : a.buf ≠ 0 ∧ a.offset = 0 ∧ a.prevOffset = 0 := by
  unfold arenaInit at h
  split at h
  · cases h
  split at h
  · cases h
  dsimp only at h
  split at h
  · cases h
  rename_i hbuf
  cases h
  exact ⟨hbuf, rfl, rfl⟩

/-- An arena that `arenaInitBuf` accepts is empty, over the caller's buffer. -/
theorem arenaInitBuf_some {arenaNull : Bool} {buf size : BitVec w} {a : Arena w}
    (h : (arenaInitBuf arenaNull buf size).state = some a) : a.buf ≠ 0 ∧ a.offset = 0 ∧ a.prevOffset = 0 := by
  unfold arenaInitBuf at h
  split at h
  · cases h
  rename_i hargs
  cases h
  exact ⟨fun hbuf => hargs (Or.inr (Or.inl hbuf)), rfl, rfl⟩

/-- An arena starts out valid. -/
theorem ArenaRun.Initial.valid {s : ArenaRun w} (h : s.Initial) : s.arena.Valid ∧ s.arena.prevOffset = 0 := by
  obtain ⟨hinit, hrange, -, -⟩ := h
  have hfields : s.arena.buf ≠ 0 ∧ s.arena.offset = 0 ∧ s.arena.prevOffset = 0 := by
    rcases hinit with ⟨allocator, capacity, h⟩ | ⟨buf, size, h⟩
    · exact arenaInit_some h
    · exact arenaInitBuf_some h
  obtain ⟨hbuf, hoff, hprev⟩ := hfields
  refine ⟨⟨?_, hrange, ?_⟩, hprev⟩
  · refine Nat.pos_of_ne_zero fun h0 => hbuf ?_
    exact BitVec.eq_of_toNat_eq (by simpa using h0)
  · rw [hoff]
    simp

end Copper
