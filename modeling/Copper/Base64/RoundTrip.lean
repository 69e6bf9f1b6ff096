import Copper.Base64.Calls

/-!
# Base64: the round trips

The encoder takes its remainder to be `data_size - 1`, so a tail is written only for two bytes (as if for one) and, reading past
its input, for three. The decoder's loop drops the last two digits of every group, and the branch for two final characters looks
them up with the encoder's table. What is left of the two round trips is said exactly.
-/

namespace Copper

/-! ## The two round trips -/

/-- Encoding some bytes into a buffer of `cpr_base64e_len` bytes, and decoding the text into any buffer of at least as many
bytes as they are, gives them back. -/
def RoundTrips (p : PtrWidth) (variant : Base64Variant) (pad : Bool) (d : List UInt8) : Prop :=
  ∀ buf, buf.length = (base64eLen (BitVec.ofNat p.bits d.length) pad).toNat →
    ∃ buf', base64Encode p (.bytes d) (some buf) variant pad = some { result := true, state := some buf' } ∧
      ∀ out, d.length ≤ out.length →
        ∃ out', base64Decode (.bytes (cString buf')) (some out) variant =
            some { result := true, state := ⟨some out', some d.length⟩ } ∧
          out'.take d.length = d

/-- Encoding some bytes, with padding if the text `t` ends in the padding character, gives `t`. -/
def Reencodes (p : PtrWidth) (variant : Base64Variant) (t d : List UInt8) : Prop :=
  ∀ buf, buf.length = (base64eLen (BitVec.ofNat p.bits d.length) (t.getLast? = some 61)).toNat →
    ∃ buf', base64Encode p (.bytes d) (some buf) variant (t.getLast? = some 61) =
        some { result := true, state := some buf' } ∧
      cString buf' = t

/-! ## The round trip from bytes -/

/-- The text of two bytes is not read back: its second character is one of `A`, `Q`, `g` and `w`, which the decoder looks up in
the encoder's table. -/
theorem decode_two_none (variant : Base64Variant) (b0 : UInt8) (pad : Bool) {out : List UInt8} (hout : 2 ≤ out.length) :
    base64Decode
      (.bytes ([digit variant (b0.toNat / 4), digit variant (b0.toNat % 4 * 16)] ++ if pad then [61, 61] else [])) (some out)
      variant = none := by
  have h : ∀ v : Fin 4, base64Char (digit variant (v * 16)) variant = none := by
    cases variant <;> decide
  have hnone := h ⟨b0.toNat % 4, Nat.mod_lt _ (by decide)⟩
  generalize digit variant (b0.toNat / 4) = c0
  generalize digit variant (b0.toNat % 4 * 16) = c1 at hnone
  have htail : ∀ rest, decodeTail variant 2 (c0 :: c1 :: rest) (.start out) = none := by
    intro rest
    simp only [decodeTail, if_true, List.getElem?_cons_zero, List.getElem?_cons_succ, Option.bind_eq_bind, Option.bind_some, hnone,
      Option.bind_none]
    exact Option.bind_fun_none (base64Char c0 variant)
  have hbuf : ¬ out.length < 1 := by omega
  cases pad with
  | true =>
    have hpad : textPad [c0, c1, 61, 61] = 2 := by simp [textPad]
    simp [base64Decode, DataArg.missing, DataArg.size, DataArg.toList, hpad, decodedSize, hbuf, decodeGroups, htail]
  | false =>
    have hpad : textPad [c0, c1] = 0 := by simp [textPad]
    simp [base64Decode, DataArg.missing, DataArg.size, DataArg.toList, hpad, decodedSize, hbuf, decodeGroups, htail]

/-- Three bytes are not encoded: the call reads past them. -/
theorem not_roundTrips_of_three (p : PtrWidth) (variant : Base64Variant) (pad : Bool) {d : List UInt8} (h3 : d.length = 3) :
    ¬ RoundTrips p variant pad d := by
  intro h
  obtain ⟨buf', henc, _⟩ := h (List.replicate _ 0) (List.length_replicate ..)
  rw [base64Encode_three p variant pad h3 (by rw [List.length_replicate])] at henc
  cases henc

/-- Two bytes give the text of one, which is not decoded: the call reads past the table. -/
theorem not_roundTrips_of_two (p : PtrWidth) (variant : Base64Variant) (pad : Bool) {d : List UInt8} (h2 : d.length = 2) :
    ¬ RoundTrips p variant pad d := by
  intro h
  obtain ⟨b0, b1, rfl⟩ := List.length_eq_two.mp h2
  obtain ⟨buf', henc, hdec⟩ := h (List.replicate _ 0) (List.length_replicate ..)
  rw [base64Encode_two p variant pad b0 b1 (by rw [List.length_replicate])] at henc
  obtain ⟨out, hput, heq⟩ := Option.map_eq_some_iff.mp henc
  cases heq
  obtain ⟨out', hdec, _⟩ := hdec [b0, b1] (Nat.le_refl _)
  rw [cString_putAll (tail_one_ne_zero variant b0 pad) hput,
    decode_two_none variant b0 pad (show 2 ≤ [b0, b1].length from Nat.le_refl 2)] at hdec
  cases hdec

/-- The bytes that come back. -/
theorem roundTrips_iff (p : PtrWidth) (variant : Base64Variant) (pad : Bool) {d : List UInt8} (hd : 2 * d.length < 2 ^ p.bits) :
    RoundTrips p variant pad d ↔ d.length % 3 = 0 ∧ d.length ≠ 3 ∧ LowZero d := by
  have hrange := p.range_le
  have hroom : ∀ buf : List UInt8, buf.length = (base64eLen (BitVec.ofNat p.bits d.length) pad).toNat →
      4 * (d.length / 3) + 1 ≤ buf.length := by
    intro buf hbuf
    rw [hbuf, toNat_base64eLen p pad (by omega)]
    omega
  by_cases h3 : d.length = 3
  · exact iff_of_false (not_roundTrips_of_three p variant pad h3) fun h => h.2.1 h3
  by_cases h2 : d.length = 2
  · exact iff_of_false (not_roundTrips_of_two p variant pad h2) fun h => absurd h.1 (by rw [h2]; decide)
  have hlen := length_sextets d
  have hvs := sextets_lt d
  have hkept := length_kept (sextets d)
  have htext := digits_ne_zero variant hvs
  constructor
  · intro h
    obtain ⟨buf', henc, hdec⟩ := h (List.replicate _ 0) (List.length_replicate ..)
    rw [base64Encode_whole p variant pad (by omega) h2 h3 (by rw [List.length_replicate])] at henc
    obtain ⟨out, hput, heq⟩ := Option.map_eq_some_iff.mp henc
    cases heq
    obtain ⟨out', hdec, htake⟩ := hdec d (Nat.le_refl _)
    rw [cString_putAll htext hput, base64Decode_whole variant hvs (by omega) (by omega)] at hdec
    simp only [Option.some.injEq, Outcome.mk.injEq, Decoded.mk.injEq, true_and, and_true] at hdec
    obtain ⟨rfl, hsize⟩ := hdec
    have hmod : d.length % 3 = 0 := by omega
    rw [← hsize, List.take_left] at htake
    exact ⟨hmod, h3, (kept_sextets_iff d).mp (htake.trans (List.take_of_length_le (by omega)).symm)⟩
  · rintro ⟨hmod, _, hlow⟩ buf hbuf
    have hwhole : kept (sextets d) = d := by
      rw [(kept_sextets_iff d).mpr hlow]
      exact List.take_of_length_le (by omega)
    have hfits : ((sextets d).map (digit variant) ++ [0]).length ≤ (Cursor.start buf).rest.length := by
      have hle := hroom buf hbuf
      simp only [List.length_append, List.length_map, List.length_singleton, Cursor.start]
      omega
    have henc := base64Encode_whole p variant pad (by omega) h2 h3 (Nat.le_of_eq hbuf.symm)
    rw [Cursor.putAll_eq_some hfits, Option.map_some] at henc
    refine ⟨_, henc, ?_⟩
    · intro out hout
      rw [cString_putAll htext (Cursor.putAll_eq_some hfits), base64Decode_whole variant hvs (by omega) (by omega), hwhole]
      exact ⟨_, rfl, List.take_left⟩

/-! ## The round trip from a text -/

/-- A text whose groups end in `AA` ends in `A`. -/
theorem EndsInAA.getLast? {t : List UInt8} (h : EndsInAA t) (hlen : t.length % 4 = 0) : t.getLast? ≠ some 61 := by
  induction t using EndsInAA.induct with
  | case1 c0 c1 c2 c3 rest ih =>
    simp only [List.length_cons] at hlen
    rw [EndsInAA] at h
    cases rest with
    | nil => simp [h.1.2]
    | cons c rest =>
      rw [List.getLast?_cons_cons, List.getLast?_cons_cons, List.getLast?_cons_cons, List.getLast?_cons_cons]
      exact ih h.2 (by omega)
  | case2 t hno =>
    have hlt := length_lt_four hno
    obtain rfl : t = [] := List.length_eq_zero_iff.mp (by omega)
    simp

/-- The text that the encoder makes of bytes that no tail is written for. -/
theorem reencodes_whole {p : PtrWidth} {variant : Base64Variant} {t d : List UInt8} (hd : d.length < 2 ^ p.bits)
    (h2 : d.length ≠ 2) (h3 : d.length ≠ 3) (h : Reencodes p variant t d) : t = (sextets d).map (digit variant) := by
  obtain ⟨buf', henc, hcstr⟩ := h (List.replicate _ 0) (List.length_replicate ..)
  rw [base64Encode_whole p variant _ hd h2 h3 (by rw [List.length_replicate])] at henc
  obtain ⟨out, hput, heq⟩ := Option.map_eq_some_iff.mp henc
  cases heq
  rw [← hcstr, cString_putAll (digits_ne_zero variant (sextets_lt d)) hput]

/-- The text that the encoder makes of two bytes. -/
theorem reencodes_two {p : PtrWidth} {variant : Base64Variant} {t d : List UInt8} (h2 : d.length = 2)
    (h : Reencodes p variant t d) : t.length = 2 ∨ t.length = 4 ∧ t[2]? = some 61 := by
  obtain ⟨b0, b1, rfl⟩ := List.length_eq_two.mp h2
  obtain ⟨buf', henc, hcstr⟩ := h (List.replicate _ 0) (List.length_replicate ..)
  rw [base64Encode_two p variant _ b0 b1 (by rw [List.length_replicate])] at henc
  obtain ⟨out, hput, heq⟩ := Option.map_eq_some_iff.mp henc
  cases heq
  rw [cString_putAll (tail_one_ne_zero variant b0 _) hput] at hcstr
  rw [← hcstr]
  cases decide (t.getLast? = some 61) with
  | true => exact .inr ⟨rfl, rfl⟩
  | false => exact .inl rfl

/-- Whole groups: a single one cannot be encoded, and the others come back where each ends in two zero digits. -/
theorem reencodes_digits_iff (p : PtrWidth) (variant : Base64Variant) {vs : List Nat} (hvs : ∀ v ∈ vs, v < 64)
    (hlen : vs.length % 4 = 0) (hrange : vs.length < 2 ^ p.bits) :
    Reencodes p variant (vs.map (digit variant)) (kept vs) ↔ vs.length ≠ 4 ∧ EndsInAA (vs.map (digit variant)) := by
  have hkept := length_kept vs
  have hiff := sextets_kept_iff variant vs hvs hlen
  by_cases h3 : (kept vs).length = 3
  · have hfour : vs.length = 4 := by omega
    constructor
    · intro hre
      obtain ⟨buf, henc, _⟩ := hre (List.replicate _ 0) (List.length_replicate ..)
      rw [base64Encode_three p variant _ h3 (by rw [List.length_replicate])] at henc
      cases henc
    · rintro ⟨hne, _⟩
      exact absurd hfour hne
  · have hfour : vs.length ≠ 4 := by omega
    have h2 : (kept vs).length ≠ 2 := by omega
    have hfit : (kept vs).length < 2 ^ p.bits := by omega
    constructor
    · intro hre
      have heq := reencodes_whole hfit h2 h3 hre
      exact ⟨hfour, hiff.mp (digits_inj variant (sextets_lt _) hvs heq.symm)⟩
    · rintro ⟨_, hAA⟩ buf hbuf
      have hmul : 2 ^ p.bits % 4 = 0 := by
        cases p <;> rfl
      have hneeded : 4 * (((kept vs).length + 2) / 3) + 1 < 2 ^ p.bits := by omega
      have henc := base64Encode_whole p variant ((vs.map (digit variant)).getLast? = some 61) hfit h2 h3 (Nat.le_of_eq hbuf.symm)
      rw [toNat_base64eLen p _ hneeded] at hbuf
      have hfits : (vs.map (digit variant) ++ [0]).length ≤ (Cursor.start buf).rest.length := by
        simp only [List.length_append, List.length_map, List.length_singleton, Cursor.start]
        omega
      rw [hiff.mpr hAA, Cursor.putAll_eq_some hfits, Option.map_some] at henc
      exact ⟨_, henc, cString_putAll (digits_ne_zero variant hvs) (Cursor.putAll_eq_some hfits)⟩

/-- A tail: the decoded bytes are not a whole number of groups, and the encoder writes only these. -/
theorem not_reencodes_tail {p : PtrWidth} {variant : Base64Variant} {t d : List UInt8} (hrange : d.length < 2 ^ p.bits)
    (hlen : d.length = 3 * ((t.length - textPad t) / 4) + ((t.length - textPad t) % 4 - 1))
    (htail : (t.length - textPad t) % 4 ≠ 0) (hmod : t.length % 4 ≠ 1) : ¬ Reencodes p variant t d := by
  intro hre
  have hle := textPad_le t
  have hcases := textPad_cases t
  have hone : (t.length - textPad t) % 4 ≠ 1 := by
    rcases hcases with h0 | ⟨h4, -, hpad⟩
    · rwa [h0]
    · omega
  by_cases h2 : d.length = 2
  · rcases reencodes_two h2 hre with hlen2 | ⟨hlen4, hthird⟩
    · omega
    · rcases hcases with h0 | ⟨-, -, hpad2 | ⟨-, hthird'⟩⟩
      · omega
      · omega
      · rw [hlen4] at hthird'
        exact hthird' hthird
  · have h3 : d.length ≠ 3 := by omega
    have heq := congrArg List.length (reencodes_whole hrange h2 h3 hre)
    rw [List.length_map, length_sextets] at heq
    omega

/-- The texts that come back, among those that the decoder accepts. -/
theorem reencodes_iff (p : PtrWidth) (variant : Base64Variant) {t buf buf' : List UInt8} {n : Nat} (ht : t.length < 2 ^ p.bits)
    (h : base64Decode (.bytes t) (some buf) variant = some { result := true, state := ⟨some buf', some n⟩ }) :
    Reencodes p variant t (buf'.take n) ↔ t.length % 4 = 0 ∧ t.length ≠ 4 ∧ EndsInAA t := by
  obtain ⟨vs, bs, rest, hlen, hvs, htext, hbs, hd, hmod⟩ := base64Decode_some h
  rw [hd]
  have hdlen : (kept vs ++ bs).length = 3 * ((t.length - textPad t) / 4) + ((t.length - textPad t) % 4 - 1) := by
    rw [List.length_append, length_kept, hlen, hbs]
    omega
  have hsum : vs.length + rest.length = t.length := by
    rw [htext, List.length_append, List.length_map]
  have hle := textPad_le t
  by_cases hwhole : (t.length - textPad t) % 4 = 0
  · -- No character is left for a tail, so there is no padding.
    have hpad : textPad t = 0 := by
      rcases textPad_cases t with h0 | ⟨h4, -, hpad⟩
      · exact h0
      · omega
    rw [hpad, Nat.sub_zero] at hwhole hlen hbs
    obtain rfl : rest = [] := List.length_eq_zero_iff.mp (by omega)
    obtain rfl : bs = [] := List.length_eq_zero_iff.mp (by omega)
    rw [List.append_nil] at htext ⊢
    have hlength : t.length = vs.length := by rw [htext, List.length_map]
    rw [hlength] at hwhole ht ⊢
    rw [htext, reencodes_digits_iff p variant hvs hwhole ht]
    exact (and_iff_right hwhole).symm
  · have hnot : ¬ (t.length % 4 = 0 ∧ t.length ≠ 4 ∧ EndsInAA t) := by
      rintro ⟨h4, -, hAA⟩
      rw [textPad_eq_zero (hAA.getLast? h4)] at hwhole
      exact hwhole h4
    have hrange : (kept vs ++ bs).length < 2 ^ p.bits := by omega
    exact iff_of_false (not_reencodes_tail hrange hdlen hwhole hmod) hnot

/-! ## Both round trips -/

/-- Both round trips, exactly. Bytes come back where they are whole groups, though not a single one, each with the low half of
its second byte and its third byte zero: the encoder writes no tail but for two bytes, which the decoder cannot read, and the
decoder drops the last two digits of a group. An accepted text comes back, whatever its unused bits, where it is whole groups,
though not a single one, each ending in two zero digits. -/
theorem base64_round_trips (p : PtrWidth) (variant : Base64Variant) :
    (∀ pad d, 2 * d.length < 2 ^ p.bits →
      (RoundTrips p variant pad d ↔ d.length % 3 = 0 ∧ d.length ≠ 3 ∧ LowZero d)) ∧
    ∀ t buf buf' n, t.length < 2 ^ p.bits →
      base64Decode (.bytes t) (some buf) variant = some { result := true, state := ⟨some buf', some n⟩ } →
        (Reencodes p variant t (buf'.take n) ↔ t.length % 4 = 0 ∧ t.length ≠ 4 ∧ EndsInAA t) :=
  ⟨fun pad _ hd => roundTrips_iff p variant pad hd, fun _ _ _ _ ht h => reencodes_iff p variant ht h⟩

/-- Six bytes that come back, and the eight characters `AQAAAgAA` of them. -/
theorem base64_round_trips_six :
    RoundTrips .w64 .std true [1, 0, 0, 2, 0, 0] ∧
      Reencodes .w64 .std [65, 81, 65, 65, 65, 103, 65, 65] ([1, 0, 0, 2, 0, 0].take 6) := by
  refine ⟨?_, ?_⟩
  · exact ((base64_round_trips .w64 .std).1 true [1, 0, 0, 2, 0, 0] (by decide)).mpr
      ⟨by decide, by decide, by decide, by decide, trivial⟩
  · exact ((base64_round_trips .w64 .std).2 [65, 81, 65, 65, 65, 103, 65, 65] [0, 0, 0, 0, 0, 0] [1, 0, 0, 2, 0, 0] 6 (by decide)
      rfl).mpr ⟨by decide, by decide, by decide, by decide, trivial⟩

/-- One byte, and the text `TWFu` of three: the byte is lost, and the bytes of the text cannot be encoded. -/
theorem base64_round_trips_fail :
    ¬ RoundTrips .w64 .std false [77] ∧
      base64Decode (.bytes [84, 87, 70, 117]) (some [0, 0, 0]) .std =
        some { result := true, state := ⟨some [77, 96, 0], some 3⟩ } ∧
      ¬ Reencodes .w64 .std [84, 87, 70, 117] ([77, 96, 0].take 3) := by
  refine ⟨fun h => ?_, rfl, fun h => ?_⟩
  · obtain ⟨buf', henc, hdec⟩ := h [0, 0, 0] rfl
    cases henc
    obtain ⟨out, hdec, _⟩ := hdec [0] (by decide)
    cases hdec
  · obtain ⟨buf', henc, _⟩ := h [0, 0, 0, 0, 0] rfl
    cases henc

end Copper
