import Copper.Arena.Lemmas
import Mathlib.Order.Bounds.Basic

/-!
# When an allocation succeeds

The other direction of what an allocation does: if the least aligned address at or past the bump pointer leaves room for the
size, the allocation lands there. Nothing wraps on the way, whatever the base of the region.
-/

namespace Copper

variable {w : Nat}

namespace Arena

variable {a : Arena w} {size alignment : BitVec w}

section

variable (hrange : a.limit < 2 ^ w) (hoffset : a.offset.toNat ≤ a.cap.toNat) (hpow : alignment.toNat.isPowerOfTwo)

include hrange hoffset hpow

/-- The offset of an aligned address inside the region is exact. -/
theorem toNat_alignedOffset_of_le (hin : a.target alignment ≤ a.limit) :
    (alignUp (a.buf + a.offset) alignment - a.buf).toNat = a.target alignment - a.buf.toNat := by
  have htop : a.buf.toNat ≤ a.top := Nat.le_add_right _ _
  have hle := a.top_le_target hpow
  have hup : (alignUp (a.buf + a.offset) alignment).toNat = a.target alignment := by
    rw [toNat_alignUp hrange hoffset hpow, Nat.mod_eq_of_lt (by omega)]
  rw [BitVec.toNat_sub_of_le, hup]
  rw [BitVec.le_def, hup]
  omega

/-- An allocation that fits is made. -/
theorem allocAligned_of_fits (hfits : a.target alignment + size.toNat ≤ a.limit) :
    ∃ p offset : BitVec w,
      a.allocAligned size alignment = { result := p, state := { a with prevOffset := a.offset, offset := offset } } ∧
      p.toNat = a.target alignment ∧ offset.toNat = a.target alignment + size.toNat - a.buf.toNat := by
  have hoff := toNat_alignedOffset_of_le hrange hoffset hpow (by omega)
  have htop : a.buf.toNat ≤ a.top := Nat.le_add_right _ _
  have hle := a.top_le_target hpow
  have hlimit : a.limit = a.buf.toNat + a.cap.toNat := rfl
  have hcap := a.cap.isLt
  have hcheck : ¬ a.cap - (alignUp (a.buf + a.offset) alignment - a.buf) < size := by
    rw [BitVec.lt_def, BitVec.toNat_sub_of_le (by rw [BitVec.le_def, hoff]; omega), hoff]
    omega
  refine ⟨a.buf + (alignUp (a.buf + a.offset) alignment - a.buf), alignUp (a.buf + a.offset) alignment - a.buf + size, ?_, ?_, ?_⟩
  · simp only [allocAligned, (isPow2_iff alignment).mpr hpow, Bool.not_true, Bool.false_eq_true, if_false, if_neg hcheck]
  · rw [BitVec.toNat_add, hoff, Nat.mod_eq_of_lt (by omega)]
    omega
  · rw [BitVec.toNat_add, hoff, Nat.mod_eq_of_lt (by omega)]
    omega

end

/-- A call that records an error returns NULL and changes nothing. -/
theorem allocAligned_atomic (a : Arena w) (size alignment : BitVec w) (h : (a.allocAligned size alignment).error ≠ none) :
    (a.allocAligned size alignment).result = 0 ∧ (a.allocAligned size alignment).state = a := by
  unfold allocAligned at *
  split
  · exact ⟨rfl, rfl⟩
  · rename_i hpow
    rw [if_neg hpow] at h
    dsimp only at *
    split
    · exact ⟨rfl, rfl⟩
    · rename_i hfull
      rw [if_neg hfull] at h
      exact absurd rfl h

end Arena

/-- An allocation is made whenever the least aligned address at or past the bump pointer leaves room for it, and lands there;
one that fails changes nothing, whatever the arena and the arguments. -/
theorem arenaAllocAligned_complete (a : Arena w) (size alignment : BitVec w) :
    (a.buf.toNat + a.cap.toNat < 2 ^ w → a.offset.toNat ≤ a.cap.toNat → alignment.toNat.isPowerOfTwo →
      ∀ addr, IsLeast {m | alignment.toNat ∣ m ∧ a.buf.toNat + a.offset.toNat ≤ m} addr →
        addr + size.toNat ≤ a.buf.toNat + a.cap.toNat →
        ∃ p offset : BitVec w,
          arenaAllocAligned (some a) size alignment
            = { result := p, state := some { a with prevOffset := a.offset, offset := offset } } ∧
          p.toNat = addr ∧ offset.toNat = addr + size.toNat - a.buf.toNat) ∧
    ((arenaAllocAligned (some a) size alignment).error ≠ none →
      (arenaAllocAligned (some a) size alignment).result = 0 ∧ (arenaAllocAligned (some a) size alignment).state = some a) := by
  constructor
  · intro hrange hoffset hpow addr haddr hfits
    obtain rfl : a.target alignment = addr :=
      (Align.isLeast_roundUp (Nat.pos_of_isPowerOfTwo hpow)).unique haddr
    obtain ⟨p, offset, hcall, hp, hoff⟩ := Arena.allocAligned_of_fits hrange hoffset hpow hfits
    refine ⟨p, offset, ?_, hp, hoff⟩
    simp only [arenaAllocAligned, hcall]
  · intro herror
    obtain ⟨hresult, hstate⟩ := a.allocAligned_atomic size alignment herror
    exact ⟨hresult, congrArg some hstate⟩

/-- 2 bytes at a multiple of 4 in the region from 249 to 255, of which one byte is taken; and 4 of them. -/
theorem arenaAllocAligned_complete_simple :
    (∃ p offset : BitVec 8,
      arenaAllocAligned (some { buf := 249, cap := 6, offset := 1, prevOffset := 0, allocator := ⟨none, false⟩ }) 2 4
        = { result := p
            state := some { buf := 249, cap := 6, offset := offset, prevOffset := 1, allocator := ⟨none, false⟩ } } ∧
      p.toNat = 252 ∧ offset.toNat = 252 + 2 - 249) ∧
    (arenaAllocAligned (some { buf := 249, cap := 6, offset := 1, prevOffset := 0, allocator := ⟨none, false⟩ })
      (4 : BitVec 8) 4).result = 0 := by
  refine ⟨?_, ?_⟩
  · refine (arenaAllocAligned_complete { buf := 249, cap := 6, offset := 1, prevOffset := 0, allocator := ⟨none, false⟩ } 2 4).1
      (by decide) (by decide) ⟨2, rfl⟩ 252 ?_ (by decide)
    exact Align.isLeast_roundUp (x := 250) (a := 4) (by decide)
  · refine ((arenaAllocAligned_complete _ 4 4).2 ?_).1
    simp [arenaAllocAligned, Arena.allocAligned, isPow2, alignUp, Outcome.fail]

end Copper
