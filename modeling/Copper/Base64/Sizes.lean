import Copper.Base64.Decoder
import Copper.Base64.Encoder

/-!
# Base64: sizes

The two sizing functions and the size that the decoder computes, all three in `size_t`: up to half of its range nothing wraps, the
first is the length of the encoding and its NUL, and the second is room enough for whatever the decoder finds.
-/

namespace Copper

/-- `SIZE_MAX`. -/
def PtrWidth.sizeMax (p : PtrWidth) : Nat := 2 ^ p.bits - 1

/-- `needed` in `cpr_base64_decode`, in `size_t`. -/
def decodeNeeded {w : Nat} (textSize pad : BitVec w) : BitVec w :=
  let dataLen := textSize - pad
  let fullGroups := dataLen / 4
  let finalChars := dataLen % 4
  fullGroups * 3 + (if finalChars = 3 then 2 else if finalChars = 2 then 1 else 0)

variable {p : PtrWidth} {n m t : Nat}

/-! ## The length of an encoding -/

/-- The characters of the encoding of `n` bytes: one for every six bits begun, filled up to groups of four if there is padding. -/
def encodedChars (pad : Bool) (n : Nat) : Nat := if pad then ((8 * n + 5) / 6 + 3) / 4 * 4 else (8 * n + 5) / 6

theorem length_rfcEncode (variant : Base64Variant) (pad : Bool) (d : List UInt8) :
    (rfcEncode variant pad d).length = encodedChars pad d.length := by
  rw [rfcEncode_eq, List.length_append, List.length_map, List.length_replicate, length_rfcDigits, encodedChars]
  cases pad with
  | true =>
    simp only [if_true]
    omega
  | false => rfl

theorem encodedChars_mono (pad : Bool) (h : n ≤ m) : encodedChars pad n ≤ encodedChars pad m := by
  unfold encodedChars
  split <;> omega

/-- Encoding makes nothing shorter, and at most four characters of every three bytes begun. -/
theorem encodedChars_bounds (pad : Bool) (n : Nat) : n ≤ encodedChars pad n ∧ encodedChars pad n ≤ 4 * ((n + 2) / 3) := by
  unfold encodedChars
  split <;> omega

/-- `cpr_base64e_len` up to half of the range. -/
theorem toNat_base64eLen_half (pad : Bool) (hn : n ≤ p.sizeMax / 2) :
    (base64eLen (BitVec.ofNat p.bits n) pad).toNat = encodedChars pad n + 1 := by
  have hrange := p.range_le
  rw [PtrWidth.sizeMax] at hn
  rw [toNat_base64eLen p pad (by omega), encodedChars]
  by_cases hmod : n % 3 = 0
  · rw [if_pos hmod]
    split <;> omega
  · rw [if_neg hmod]
    split <;> omega

theorem base64eLen_mono (pad : Bool) (h : n ≤ m) (hm : m ≤ p.sizeMax / 2) :
    base64eLen (BitVec.ofNat p.bits n) pad ≤ base64eLen (BitVec.ofNat p.bits m) pad := by
  rw [BitVec.le_def, toNat_base64eLen_half pad (Nat.le_trans h hm), toNat_base64eLen_half pad hm]
  exact Nat.succ_le_succ (encodedChars_mono pad h)

/-! ## The room for a decoding -/

/-- `cpr_base64d_len`, where nothing wraps. -/
theorem toNat_base64dLen (ht : t + 3 < 2 ^ p.bits) : (base64dLen (BitVec.ofNat p.bits t)).toNat = (t + 3) / 4 * 4 := by
  have htext := toNat_ofSize p (n := t) (by omega)
  have hsum : (BitVec.ofNat p.bits t + 3).toNat = t + 3 :=
    (toNat_add_small (k := 3) _ (by decide) (by rwa [htext])).trans (by rw [htext])
  have hgroups : ((BitVec.ofNat p.bits t + 3) / 4).toNat = (t + 3) / 4 := (toNat_div_small (k := 4) _ (by decide)).trans (by rw [hsum])
  exact (toNat_mul_small (k := 4) _ (by decide) (by rw [hgroups]; omega)).trans (by rw [hgroups])

/-- `needed` is the size of what is decoded, and does not wrap. -/
theorem toNat_decodeNeeded {pad : Nat} (hpad : pad ≤ t) (ht : t < 2 ^ p.bits) :
    (decodeNeeded (BitVec.ofNat p.bits t) (BitVec.ofNat p.bits pad)).toNat = decodedSize (t - pad) := by
  have hlen : (BitVec.ofNat p.bits t - BitVec.ofNat p.bits pad).toNat = t - pad := by
    rw [BitVec.toNat_sub_of_le (by rw [BitVec.le_def, toNat_ofSize p (by omega), toNat_ofSize p ht]; exact hpad),
      toNat_ofSize p ht, toNat_ofSize p (by omega)]
  rw [decodeNeeded, decodedSize]
  generalize BitVec.ofNat p.bits t - BitVec.ofNat p.bits pad = dataLen at hlen
  have hgroups : (dataLen / 4).toNat = (t - pad) / 4 := (toNat_div_small (k := 4) _ (by decide)).trans (by rw [hlen])
  have hmod : (dataLen % 4).toNat = (t - pad) % 4 := (toNat_mod_small (k := 4) _ (by decide)).trans (by rw [hlen])
  have hwhole : (dataLen / 4 * 3).toNat = (t - pad) / 4 * 3 :=
    (toNat_mul_small (k := 3) _ (by decide) (by rw [hgroups]; omega)).trans (by rw [hgroups])
  have hthree : dataLen % 4 = 3 ↔ (t - pad) % 4 = 3 := by rw [← hmod]; exact eq_small_iff (k := 3) _ (by decide)
  have htwo : dataLen % 4 = 2 ↔ (t - pad) % 4 = 2 := by rw [← hmod]; exact eq_small_iff (k := 2) _ (by decide)
  have hsum (k : Nat) (hk : k < (t - pad) % 4 ∨ k = 0) : (dataLen / 4 * 3 + BitVec.ofNat p.bits k).toNat = (t - pad) / 4 * 3 + k :=
    (toNat_add_small _ (by omega) (by rw [hwhole]; omega)).trans (by rw [hwhole])
  simp only [hthree, htwo]
  split
  · exact hsum 2 (by omega)
  · split
    · exact hsum 1 (by omega)
    · exact hsum 0 (Or.inr rfl)

/-- What a text decodes to fits the room that `cpr_base64d_len` asks for. -/
theorem decodeNeeded_le {pad : Nat} (hpad : pad ≤ t) (ht : t ≤ p.sizeMax / 2) :
    decodeNeeded (BitVec.ofNat p.bits t) (BitVec.ofNat p.bits pad) ≤ base64dLen (BitVec.ofNat p.bits t) := by
  have hrange := p.range_le
  rw [PtrWidth.sizeMax] at ht
  rw [BitVec.le_def, toNat_decodeNeeded hpad (by omega), toNat_base64dLen (by omega), decodedSize_eq]
  omega

/-- A call of the decoder is rejected for the size of its buffer only if the buffer is smaller than `needed`. -/
theorem base64Decode_tooSmall {text buf : List UInt8} {variant : Base64Variant} {o : Outcome Decoded Bool} {e : CprError}
    (h : base64Decode (.bytes text) (some buf) variant = some o) (he : o.error = some e) (hcode : e.code = .errOverflow) :
    buf.length < decodedSize (text.length - textPad text) := by
  have hinvalid (state : Decoded) (message : String) : o ≠ .fail state false .errInvalid message := by
    rintro rfl
    cases he
    cases hcode
  have hdone (result : Bool) (state : Decoded) : o ≠ { result := result, state := state } := by
    rintro rfl
    cases he
  by_contra hroom
  unfold base64Decode at h
  dsimp only at h
  split at h
  · exact hinvalid _ _ (Option.some.inj h).symm
  split at h
  · exact hdone _ _ (Option.some.inj h).symm
  split at h
  · exact hinvalid _ _ (Option.some.inj h).symm
  split at h
  · rename_i hsmall
    exact hroom hsmall
  -- past the checks an error is one of the text
  obtain ⟨groups, -, h⟩ := Option.bind_eq_some_iff.mp h
  cases groups with
  | error out => exact hinvalid _ _ (Option.some.inj h).symm
  | ok pair =>
    obtain ⟨tail, -, h⟩ := Option.bind_eq_some_iff.mp h
    cases tail with
    | error out => exact hinvalid _ _ (Option.some.inj h).symm
    | ok out => exact hdone _ _ (Option.some.inj h).symm

/-- Up to half of the range of `size_t`, nothing wraps in the sizes: what the encoder needs is the length of the encoding and its
NUL, and grows with the bytes; what the decoder needs is within the room that `cpr_base64d_len` asks for, so that no call with that
room is rejected for its size; and the room for what was encoded is room for the bytes. -/
theorem base64_sizes_consistent (p : PtrWidth) (variant : Base64Variant) (pad : Bool) {d text buf : List UInt8} {m : Nat}
    (hle : d.length ≤ m) (hm : m ≤ p.sizeMax / 2) (ht : text.length ≤ p.sizeMax / 2)
    (hbuf : (base64dLen (BitVec.ofNat p.bits text.length)).toNat ≤ buf.length) :
    (base64eLen (BitVec.ofNat p.bits d.length) pad).toNat = 1 + (rfcEncode variant pad d).length ∧
      base64eLen (BitVec.ofNat p.bits d.length) pad ≤ base64eLen (BitVec.ofNat p.bits m) pad ∧
      (decodeNeeded (BitVec.ofNat p.bits text.length) (BitVec.ofNat p.bits (textPad text))).toNat =
        decodedSize (text.length - textPad text) ∧
      decodeNeeded (BitVec.ofNat p.bits text.length) (BitVec.ofNat p.bits (textPad text)) ≤
        base64dLen (BitVec.ofNat p.bits text.length) ∧
      (∀ o e, base64Decode (.bytes text) (some buf) variant = some o → o.error = some e → e.code ≠ .errOverflow) ∧
      d.length ≤ (base64dLen (base64eLen (BitVec.ofNat p.bits d.length) pad - 1)).toNat := by
  have hrange := p.range_le
  have hd : d.length ≤ p.sizeMax / 2 := Nat.le_trans hle hm
  have hneeded := toNat_decodeNeeded (p := p) (textPad_le text) (by rw [PtrWidth.sizeMax] at ht; omega)
  have hfits := decodeNeeded_le (p := p) (textPad_le text) ht
  refine ⟨?_, base64eLen_mono pad hle hm, hneeded, hfits, fun o e h he hcode => ?_, ?_⟩
  · rw [toNat_base64eLen_half pad hd, length_rfcEncode, Nat.add_comm]
  · have hsmall := base64Decode_tooSmall h he hcode
    rw [BitVec.le_def, hneeded] at hfits
    omega
  · obtain ⟨hlonger, hshorter⟩ := encodedChars_bounds pad d.length
    have hmax : p.sizeMax = 2 ^ p.bits - 1 := rfl
    have hlen := toNat_base64eLen_half (p := p) pad hd
    have hchars : base64eLen (BitVec.ofNat p.bits d.length) pad - 1 = BitVec.ofNat p.bits (encodedChars pad d.length) := by
      have h1 : (1 : BitVec p.bits).toNat = 1 := toNat_small p (by decide)
      have hone : (1 : BitVec p.bits) ≤ base64eLen (BitVec.ofNat p.bits d.length) pad := by
        rw [BitVec.le_def, h1, hlen]
        exact Nat.succ_le_succ (Nat.zero_le _)
      rw [← BitVec.toNat_inj, BitVec.toNat_sub_of_le hone, hlen, h1, toNat_ofSize p (by omega)]
      rfl
    rw [hchars, toNat_base64dLen (by omega)]
    omega

/-- `foo` on a machine of 64 bits: four characters and a NUL, and four bytes as room for the three. -/
theorem base64_sizes_consistent_foo :
    (base64eLen (3 : BitVec 64) true).toNat = 1 + (rfcEncode .std true [102, 111, 111]).length ∧
      3 ≤ (base64dLen (base64eLen (3 : BitVec 64) true - 1)).toNat :=
  have h := @base64_sizes_consistent .w64 .std true [102, 111, 111] [90, 109, 57, 118] [0, 0, 0, 0] 3 (Nat.le_refl 3) (by decide)
    (by decide) (by decide)
  ⟨h.1, h.2.2.2.2.2⟩

end Copper
