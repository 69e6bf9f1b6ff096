import Copper.Base64.Rfc

/-!
# Base64: what the encoder makes of its bytes

The loop of the encoder writes the groups of six bits of its whole groups, which is all there is to write when the bytes are
whole groups. A remainder is what goes wrong: `data_size - 1` stands where `data_size % 3` is meant.
-/

namespace Copper

open Radix (bits bits_add bits_carry bits_congr regroup)

/-- A call with a buffer that is large enough leaves the encoding and a NUL in the first `cpr_base64e_len` bytes, and the others
as they were. -/
def EncodesRfc (p : PtrWidth) (variant : Base64Variant) (pad : Bool) (d : List UInt8) : Prop :=
  ∀ buf, (base64eLen (BitVec.ofNat p.bits d.length) pad).toNat ≤ buf.length →
    ∃ out, base64Encode p (.bytes d) (some buf) variant pad = some { result := true, state := some out } ∧
      out.take (base64eLen (BitVec.ofNat p.bits d.length) pad).toNat = rfcEncode variant pad d ++ [0] ∧
      out.drop (base64eLen (BitVec.ofNat p.bits d.length) pad).toNat
        = buf.drop (base64eLen (BitVec.ofNat p.bits d.length) pad).toNat

/-! ## Whole groups -/

/-- Three bytes are four groups of six bits. -/
theorem bits_group (b0 : Nat) {b1 b2 : Nat} (h1 : b1 < 256) (h2 : b2 < 256) :
    bits 8 b0 ++ (bits 8 b1 ++ bits 8 b2)
      = bits 6 (b0 / 4) ++ (bits 6 (b0 % 4 * 16 + b1 / 16) ++ (bits 6 (b1 % 16 * 4 + b2 / 64) ++ bits 6 (b2 % 64))) := by
  have hfirst : bits 8 b0 = bits 6 (b0 / 4) ++ bits 2 b0 := bits_add 6 2 b0
  have hsecond : bits 2 b0 ++ bits 8 b1 = bits 6 (b0 % 4 * 16 + b1 / 16) ++ bits 4 b1 := bits_carry (k := 4) 2 4 b0 h1
  have hthird : bits 4 b1 ++ bits 8 b2 = bits 6 (b1 % 16 * 4 + b2 / 64) ++ bits 6 b2 := bits_carry (k := 6) 4 2 b1 h2
  have hlast : bits 6 (b2 % 64) = bits 6 b2 := bits_congr (k := 6) (Nat.mod_mod b2 64)
  rw [hlast, ← hthird, ← List.append_assoc (bits 6 _) (bits 4 _), ← hsecond, hfirst]
  simp only [List.append_assoc]

/-- The bits of whole groups of bytes. -/
theorem bits_sextets (d : List UInt8) (hd : d.length % 3 = 0) :
    (d.flatMap fun b => bits 8 b.toNat) = (sextets d).flatMap (bits 6) := by
  induction d using sextets.induct with
  | case1 b0 b1 b2 rest ih =>
    simp only [List.length_cons] at hd
    have hgroup := bits_group b0.toNat b1.toNat_lt b2.toNat_lt
    simp only [sextets, List.flatMap_cons, ← ih (by omega)]
    rw [← List.append_assoc (bits 8 b1.toNat), ← List.append_assoc (bits 8 b0.toNat), hgroup]
    simp only [List.append_assoc]
  | case2 d hno =>
    have hlt := length_lt_three hno
    obtain rfl : d = [] := List.length_eq_zero_iff.mp (by omega)
    rfl

theorem rfcDigits_whole {d : List UInt8} (hd : d.length % 3 = 0) : rfcDigits d = sextets d := by
  have hlen := length_sextets d
  have hcount : (8 * d.length + 5) / 6 = (sextets d).length + 0 := by omega
  have hread := Radix.regroup_flatMap (k := 6) (sextets_lt d) 0 []
  rw [List.append_nil, regroup, List.append_nil] at hread
  rw [rfcDigits, bits_sextets d hd, hcount, hread]

theorem rfcDigits_lt (d : List UInt8) : ∀ v ∈ rfcDigits d, v < 64 := Radix.regroup_lt 6 _ _

theorem length_rfcDigits (d : List UInt8) : (rfcDigits d).length = (8 * d.length + 5) / 6 := Radix.length_regroup 6 _ _

/-- The encoding is the text of the digits, then padding. -/
theorem rfcEncode_eq (variant : Base64Variant) (pad : Bool) (d : List UInt8) :
    rfcEncode variant pad d = (rfcDigits d).map (digit variant) ++
      List.replicate (if pad then ((rfcDigits d).length + 3) / 4 * 4 - (rfcDigits d).length else 0) 61 := by
  have hchars : ((rfcDigits d).map fun v => (rfcAlphabet variant).getD v 0) = (rfcDigits d).map (digit variant) :=
    List.map_congr_left fun v hv => rfcAlphabet_eq variant (rfcDigits_lt d v hv)
  simp only [rfcEncode, hchars]
  cases pad with
  | true => simp only [if_true, List.rightpad, List.length_map]
  | false => simp only [Bool.false_eq_true, if_false, List.replicate_zero, List.append_nil]

theorem rfcEncode_whole (variant : Base64Variant) (pad : Bool) {d : List UInt8} (hd : d.length % 3 = 0) :
    rfcEncode variant pad d = (sextets d).map (digit variant) := by
  have hlen := length_sextets d
  have hnone : (if pad then ((sextets d).length + 3) / 4 * 4 - (sextets d).length else 0) = 0 := by
    split
    · omega
    · rfl
  rw [rfcEncode_eq, rfcDigits_whole hd, hnone, List.replicate_zero, List.append_nil]

/-- A character of the encoding that is no padding. -/
theorem getElem?_rfcEncode (variant : Base64Variant) (pad : Bool) {d : List UInt8} {k : Nat} (hk : k < (8 * d.length + 5) / 6) :
    ∃ v, v < 64 ∧ (rfcEncode variant pad d ++ [0])[k]? = some (digit variant v) := by
  have hlen : k < (rfcDigits d).length := by
    rw [length_rfcDigits]
    exact hk
  refine ⟨(rfcDigits d)[k], rfcDigits_lt d _ (List.getElem_mem hlen), ?_⟩
  rw [rfcEncode_eq, List.append_assoc, List.getElem?_append_left (by rw [List.length_map]; exact hlen), List.getElem?_map,
    List.getElem?_eq_getElem hlen, Option.map_some]

/-! ## The encoder -/

/-- What is written, in a buffer of zeros. -/
theorem getElem?_putAll {cs : List UInt8} {n k : Nat} {out : Cursor UInt8} {c : UInt8} (hc : cs[k]? = some c)
    (h : (Cursor.start (List.replicate n 0)).putAll cs = some out) : out.cells[k]? = some c := by
  obtain ⟨_, rfl⟩ := Cursor.putAll_some h
  have hk : k < cs.length := (List.getElem?_eq_some_iff.mp hc).1
  rw [Cursor.cells, Cursor.start, List.nil_append, List.getElem?_append_left hk, hc]

section

variable {p : PtrWidth} {variant : Base64Variant} {pad : Bool} {d : List UInt8}

/-- Where a character of what is written is the NUL or padding and one of the encoding is not, the bytes are not encoded. -/
theorem not_encodesRfc {cs : List UInt8} {k : Nat} {c : UInt8} (hk : k < (8 * d.length + 5) / 6)
    (hwrites : ∀ buf, (base64eLen (BitVec.ofNat p.bits d.length) pad).toNat ≤ buf.length →
      base64Encode p (.bytes d) (some buf) variant pad =
        ((Cursor.start buf).putAll cs).map fun out => { result := true, state := some out.cells })
    (hc : cs[k]? = some c) (hne : c = 0 ∨ c = 61) : ¬ EncodesRfc p variant pad d := by
  intro h
  obtain ⟨out, henc, htake, -⟩ := h (List.replicate _ 0) (Nat.le_of_eq (List.length_replicate ..).symm)
  rw [hwrites _ (Nat.le_of_eq (List.length_replicate ..).symm)] at henc
  obtain ⟨cursor, hput, heq⟩ := Option.map_eq_some_iff.mp henc
  obtain rfl : cursor.cells = out := Option.some.inj (congrArg Outcome.state heq)
  obtain ⟨v, hv, hdigit⟩ := getElem?_rfcEncode variant pad hk
  rw [← htake, List.getElem?_take] at hdigit
  split at hdigit
  · rw [getElem?_putAll hc hput] at hdigit
    have hother := digit_ne variant hv
    rw [← Option.some.inj hdigit] at hother
    rcases hne with hzero | hpad
    · exact hother.1 hzero
    · exact hother.2 hpad
  · cases hdigit

/-- Whole groups are encoded, unless there is one. -/
theorem encodesRfc_whole (hd : 2 * d.length < 2 ^ p.bits) (hmod : d.length % 3 = 0) (h3 : d.length ≠ 3) :
    EncodesRfc p variant pad d := by
  intro buf hbuf
  have hrange := p.range_le
  have hlen := length_sextets d
  have hsize := toNat_base64eLen p pad (n := d.length) (by omega)
  have hneeded : (base64eLen (BitVec.ofNat p.bits d.length) pad).toNat = ((sextets d).map (digit variant) ++ [0]).length := by
    rw [hsize, if_pos hmod, List.length_append, List.length_map, List.length_singleton, hlen]
  have hfits : ((sextets d).map (digit variant) ++ [0]).length ≤ (Cursor.start buf).rest.length := by
    rw [← hneeded]
    exact hbuf
  have henc := base64Encode_whole p variant pad (by omega) (by omega) h3 hbuf
  rw [Cursor.putAll_eq_some hfits, Option.map_some] at henc
  refine ⟨_, henc, ?_, ?_⟩
  · rw [hneeded, rfcEncode_whole variant pad hmod, Cursor.cells, Cursor.start, List.nil_append, List.take_left]
  · rw [hneeded, Cursor.cells, Cursor.start, List.nil_append, List.drop_left]

end

/-- For every variant and padding, the bytes of a length up to half of the range of `size_t` are encoded as RFC 4648 has it
exactly when they are whole groups of three, though not a single one. -/
theorem encodesRfc_iff (p : PtrWidth) (variant : Base64Variant) (pad : Bool) {d : List UInt8} (hd : 2 * d.length < 2 ^ p.bits) :
    EncodesRfc p variant pad d ↔ d.length % 3 = 0 ∧ d.length ≠ 3 := by
  have hrange := p.range_le
  constructor
  · intro h
    by_cases h3 : d.length = 3
    · obtain ⟨out, henc, -⟩ := h (List.replicate _ 0) (Nat.le_of_eq (List.length_replicate ..).symm)
      rw [base64Encode_three p variant pad h3 (Nat.le_of_eq (List.length_replicate ..).symm)] at henc
      cases henc
    by_cases h2 : d.length = 2
    · -- The tail of one byte, where the third character of two is missing.
      obtain ⟨b0, b1, rfl⟩ := List.length_eq_two.mp h2
      refine absurd h (not_encodesRfc (k := 2) (c := if pad then 61 else 0) (by rw [h2]; decide)
        (fun buf hbuf => base64Encode_two p variant pad b0 b1 hbuf) ?_ ?_)
      · cases pad <;> rfl
      · cases pad
        · exact .inl rfl
        · exact .inr rfl
    by_cases hmod : d.length % 3 = 0
    · exact ⟨hmod, h3⟩
    · -- No tail, where the first character of one is missing.
      have hlen := length_sextets d
      refine absurd h (not_encodesRfc (k := 4 * (d.length / 3)) (c := 0) (by omega)
        (fun buf hbuf => base64Encode_whole p variant pad (by omega) h2 h3 hbuf) ?_ (.inl rfl))
      rw [List.getElem?_append_right (by rw [List.length_map, hlen]), List.length_map, hlen, Nat.sub_self]
      rfl
  · rintro ⟨hmod, h3⟩
    exact encodesRfc_whole hd hmod h3

/-- `foobar`. -/
theorem encodesRfc_simple :
    (EncodesRfc .w32 .url true [102, 111, 111, 98, 97, 114] ↔ 6 % 3 = 0 ∧ 6 ≠ 3) ∧
      rfcEncode .url true [102, 111, 111, 98, 97, 114] = [90, 109, 57, 118, 89, 109, 70, 121] :=
  ⟨encodesRfc_iff .w32 .url true (by decide), by decide⟩

/-- Of `f` nothing is left, and of `fo` the last four bits are missing. -/
theorem not_encodesRfc_tails :
    base64Encode .w64 (.bytes [102]) (some [1, 1, 1, 1, 1]) .std true = some { result := true, state := some [0, 1, 1, 1, 1] } ∧
      rfcEncode .std true [102] = [90, 103, 61, 61] ∧
      base64Encode .w64 (.bytes [102, 111]) (some [1, 1, 1, 1, 1]) .std true =
        some { result := true, state := some [90, 103, 61, 61, 0] } ∧
      rfcEncode .std true [102, 111] = [90, 109, 56, 61] ∧ ¬ EncodesRfc .w64 .std true [102] := by
  refine ⟨rfl, by decide, rfl, by decide, fun h => ?_⟩
  obtain ⟨out, henc, htake, -⟩ := h [1, 1, 1, 1, 1] (by decide)
  obtain rfl : [0, 1, 1, 1, 1] = out := Option.some.inj (congrArg Outcome.state (Option.some.inj henc))
  exact absurd htake (by decide)

end Copper
