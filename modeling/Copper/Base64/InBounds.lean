import Copper.Base64.Decoder

/-!
# Base64: where the calls stay in bounds

The sizes that are checked are those of what the loops write, as far as `cpr_base64e_len` does not wrap. What leaves the bounds
is the encoder's remainder of three bytes, which are all consumed by then, and the decoder's look-up of two final characters in
the encoder's table.
-/

namespace Copper

/-- Every read of a call is inside its input, every write inside its buffer, and every look-up of `cpr__base64_char` inside the
table: the call has a result. -/
def InBounds {σ α : Type} (call : Option (Outcome σ α)) : Prop := call ≠ none

/-- The checks of `cpr_base64_encode`. -/
def EncodeChecks (p : PtrWidth) (pad : Bool) (data : DataArg) (buf : List UInt8) : Prop :=
  data.missing = false ∧ (base64eLen (BitVec.ofNat p.bits data.size) pad).toNat ≤ buf.length

/-- The checks of `cpr_base64_decode`, but for that of the length. -/
def DecodeChecks (text : DataArg) (buf : List UInt8) : Prop :=
  text.missing = false ∧ decodedSize (text.size - textPad text.toList) ≤ buf.length

/-- Two characters are left after groups of the alphabet, and one of them is past the encoder's table. -/
def PastTable (variant : Base64Variant) (t : List UInt8) : Prop :=
  (textFinal t).length = 2 ∧ (∀ c ∈ textGroups t, c ∈ rfcAlphabet variant) ∧ ∃ c ∈ textFinal t, 64 ≤ c.toNat

/-- A pair that is not rejected is its bytes. -/
theorem DataArg.eq_bytes {d : DataArg} (h : d.missing = false) : d = .null 0 ∨ d = .bytes d.toList := by
  cases d with
  | null n =>
    have hn : n = 0 := by simpa [missing] using h
    exact .inl (by rw [hn])
  | bytes data => exact .inr rfl

/-! ## The encoder -/

/-- Items are all stored exactly where they fit. -/
theorem inBounds_putAll_iff {σ α : Type} {c : Cursor UInt8} {bs : List UInt8} {f : Cursor UInt8 → Outcome σ α} :
    InBounds ((c.putAll bs).map f) ↔ bs.length ≤ c.rest.length := by
  rw [InBounds, ne_eq, Option.map_eq_none_iff]
  constructor
  · intro h
    by_contra hlt
    exact h (Cursor.putAll_eq_none (Nat.lt_of_not_le hlt))
  · intro hle hnone
    rw [Cursor.putAll_eq_some hle] at hnone
    cases hnone

/-- The checked size is the room for what is written, unless it wraps. -/
theorem groups_fit (p : PtrWidth) (pad : Bool) {n k : Nat} (hn : 4 * ((n + 2) / 3) + 1 < 2 ^ p.bits)
    (hk : (base64eLen (BitVec.ofNat p.bits n) pad).toNat ≤ k) : 4 * (n / 3) + 1 ≤ k := by
  rw [toNat_base64eLen p pad hn] at hk
  omega

theorem base64Encode_inBounds_iff (p : PtrWidth) (variant : Base64Variant) (pad : Bool) {data : DataArg} {buf : List UInt8}
    (hsize : data.size < 2 ^ p.bits) (hchecks : EncodeChecks p pad data buf) :
    InBounds (base64Encode p data (some buf) variant pad) ↔ data.size ≠ 3 ∧ 4 * (data.size / 3) + 1 ≤ buf.length := by
  have hrange := p.range_le
  obtain ⟨hmissing, hbuf⟩ := hchecks
  have hbytes : base64Encode p data (some buf) variant pad = base64Encode p (.bytes data.toList) (some buf) variant pad := by
    rcases DataArg.eq_bytes hmissing with h | h
    · rw [h]
      rfl
    · rw [← h]
  have hlength := DataArg.length_toList hmissing
  generalize data.toList = d at hbytes hlength
  rw [hbytes]
  rw [← hlength] at hsize hbuf ⊢
  by_cases h3 : d.length = 3
  · rw [base64Encode_three p variant pad h3 hbuf]
    constructor
    · intro h
      exact absurd rfl h
    · rintro ⟨hne, -⟩
      exact absurd h3 hne
  by_cases h2 : d.length = 2
  · have hfits := groups_fit p pad (by omega) hbuf
    have hneeded := toNat_base64eLen p pad (n := d.length) (by omega)
    obtain ⟨b0, b1, rfl⟩ := List.length_eq_two.mp h2
    rw [base64Encode_two p variant pad b0 b1 hbuf, inBounds_putAll_iff]
    refine iff_of_true ?_ ⟨h3, hfits⟩
    refine Nat.le_trans ?_ hbuf
    rw [hneeded]
    cases pad <;> simp
  · rw [base64Encode_whole p variant pad hsize h2 h3 hbuf, inBounds_putAll_iff, List.length_append, List.length_map, length_sextets]
    exact ⟨fun h => ⟨h3, h⟩, fun h => h.2⟩

/-! ## The decoder -/

theorem base64Decode_inBounds_iff (variant : Base64Variant) {text : DataArg} {buf : List UInt8} (hchecks : DecodeChecks text buf) :
    InBounds (base64Decode text (some buf) variant) ↔ ¬ PastTable variant text.toList := by
  obtain ⟨hmissing, hbuf⟩ := hchecks
  have hbytes : base64Decode text (some buf) variant = base64Decode (.bytes text.toList) (some buf) variant := by
    rcases DataArg.eq_bytes hmissing with h | h
    · rw [h]
      rfl
    · rw [← h]
  rw [← DataArg.length_toList hmissing] at hbuf
  generalize text.toList = t at hbytes hbuf
  rw [← length_rfcBody, decodedSize_eq] at hbuf
  rw [hbytes]
  have hsome : ∀ {o}, base64Decode (.bytes t) (some buf) variant = some o →
      InBounds (base64Decode (.bytes t) (some buf) variant) := by
    intro o ho hnone
    rw [ho] at hnone
    cases hnone
  by_cases hearly : (textFinal t).length = 1 ∨ ∃ c ∈ textGroups t, c ∉ rfcAlphabet variant
  · obtain ⟨o, ho, -⟩ := decodesRfc_of_groups hearly buf hbuf
    refine iff_of_true (hsome ho) ?_
    rintro ⟨h2, hmem, -⟩
    rcases hearly with hone | ⟨c, hc, hout⟩
    · omega
    · exact hout (hmem c hc)
  simp only [not_or, not_exists, not_and, not_not] at hearly
  obtain ⟨hone, hmem⟩ := hearly
  obtain ⟨vs, hvs, hgroups⟩ := exists_digits variant hmem
  have hlen : (textFinal t).length < 4 := by
    rw [length_textFinal]
    omega
  by_cases h2 : (textFinal t).length = 2
  · by_cases hpast : ∃ c ∈ textFinal t, 64 ≤ c.toNat
    · refine iff_of_false ?_ (not_not.mpr ⟨h2, hmem, hpast⟩)
      exact not_not.mpr (base64Decode_two_none hbuf hvs hgroups h2 hpast)
    · refine iff_of_true ?_ fun h => hpast h.2.2
      obtain ⟨c0, c1, hfinal⟩ := List.length_eq_two.mp h2
      simp only [hfinal, List.mem_cons, List.not_mem_nil, or_false, exists_eq_or_imp, exists_eq_left, not_or, Nat.not_le] at hpast
      exact hsome (base64Decode_two hbuf hvs hgroups hfinal hpast.1 hpast.2)
  · refine iff_of_true ?_ fun h => h2 h.1
    by_cases hbad : ∃ c ∈ textFinal t, c ∉ rfcAlphabet variant
    · have hpos : (textFinal t).length ≠ 0 := by
        obtain ⟨c, hc, -⟩ := hbad
        exact Nat.pos_iff_ne_zero.mp (List.length_pos_of_mem hc)
      obtain ⟨o, ho, -⟩ := decodesRfc_of_three hvs hgroups (by omega) hbad buf hbuf
      exact hsome ho
    · simp only [not_exists, not_and, not_not] at hbad
      obtain ⟨ws, hws, hfinal⟩ := exists_digits variant hbad
      have hwlen : ws.length = (textFinal t).length := by
        rw [hfinal, List.length_map]
      exact hsome (base64Decode_valid hvs hws hgroups hfinal (by omega) hbuf)

/-! ## Both -/

/-- For inputs that pass the checks: the encoder stays in bounds exactly when it is not given three bytes and the buffer has
room for the characters of the whole groups and the NUL, which the check sees to unless the checked size wraps; the decoder
exactly when no character past the table is one of two that are left. -/
theorem base64_inBounds_iff (p : PtrWidth) (variant : Base64Variant) :
    (∀ (pad : Bool) (data : DataArg) (buf : List UInt8), data.size < 2 ^ p.bits → EncodeChecks p pad data buf →
      (InBounds (base64Encode p data (some buf) variant pad) ↔ data.size ≠ 3 ∧ 4 * (data.size / 3) + 1 ≤ buf.length)) ∧
    ∀ (text : DataArg) (buf : List UInt8), DecodeChecks text buf →
      (InBounds (base64Decode text (some buf) variant) ↔ ¬ PastTable variant text.toList) :=
  ⟨fun pad _ _ hsize hchecks => base64Encode_inBounds_iff p variant pad hsize hchecks,
    fun _ _ hchecks => base64Decode_inBounds_iff variant hchecks⟩

/-- Two bytes, and the text `TWFu`. -/
theorem base64_inBounds_simple :
    InBounds (base64Encode .w64 (.bytes [102, 111]) (some [1, 1, 1, 1, 1]) .std true) ∧
      InBounds (base64Decode (.bytes [84, 87, 70, 117]) (some [0, 0, 0]) .std) := by
  constructor
  · exact ((base64_inBounds_iff .w64 .std).1 true (.bytes [102, 111]) [1, 1, 1, 1, 1] (by decide) ⟨rfl, by decide⟩).mpr
      ⟨by decide, by decide⟩
  · refine ((base64_inBounds_iff .w64 .std).2 (.bytes [84, 87, 70, 117]) [0, 0, 0] ⟨rfl, by decide⟩).mpr ?_
    rintro ⟨h2, -⟩
    cases h2

/-- Three bytes, and `TQ==`, the text of one. -/
theorem base64_not_inBounds :
    EncodeChecks .w64 true (.bytes [77, 97, 110]) [0, 0, 0, 0, 0] ∧
      ¬ InBounds (base64Encode .w64 (.bytes [77, 97, 110]) (some [0, 0, 0, 0, 0]) .std true) ∧
      DecodeChecks (.bytes [84, 81, 61, 61]) [0] ∧ ¬ InBounds (base64Decode (.bytes [84, 81, 61, 61]) (some [0]) .std) := by
  refine ⟨⟨rfl, by decide⟩, fun h => h rfl, ⟨rfl, by decide⟩, fun h => h rfl⟩

end Copper
