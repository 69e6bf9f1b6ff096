import Copper.Base64.Lemmas

/-!
# Base64: whole calls

What a call of the encoder writes, by the number of bytes: the text of the whole groups, and a tail only for two bytes, as if
for one; for three it reads past its input. What a call of the decoder leaves that accepts its text.
-/

namespace Copper

/-! ## Sizes -/

theorem toNat_ofSize (p : PtrWidth) {n : Nat} (h : n < 2 ^ p.bits) : (BitVec.ofNat p.bits n).toNat = n := by
  rw [BitVec.toNat_ofNat, Nat.mod_eq_of_lt h]

/-! ### `size_t` and small numbers -/

section

variable {p : PtrWidth} {k : Nat}

theorem toNat_small (p : PtrWidth) (hk : k < 2 ^ 32) : (BitVec.ofNat p.bits k).toNat = k :=
  toNat_ofSize p (Nat.lt_of_lt_of_le hk p.range_le)

theorem toNat_div_small (x : BitVec p.bits) (hk : k < 2 ^ 32) : (x / BitVec.ofNat p.bits k).toNat = x.toNat / k := by
  rw [BitVec.toNat_udiv, toNat_small p hk]

theorem toNat_mod_small (x : BitVec p.bits) (hk : k < 2 ^ 32) : (x % BitVec.ofNat p.bits k).toNat = x.toNat % k := by
  rw [BitVec.toNat_umod, toNat_small p hk]

theorem toNat_add_small (x : BitVec p.bits) (hk : k < 2 ^ 32) (h : x.toNat + k < 2 ^ p.bits) :
    (x + BitVec.ofNat p.bits k).toNat = x.toNat + k := by
  rw [BitVec.toNat_add_of_lt (by rwa [toNat_small p hk]), toNat_small p hk]

theorem toNat_mul_small (x : BitVec p.bits) (hk : k < 2 ^ 32) (h : x.toNat * k < 2 ^ p.bits) :
    (x * BitVec.ofNat p.bits k).toNat = x.toNat * k := by
  rw [BitVec.toNat_mul_of_lt (by rwa [toNat_small p hk]), toNat_small p hk]

/-- A small number that is given is compared as it is. -/
theorem eq_small_iff (x : BitVec p.bits) (hk : k < 2 ^ 32) : x = BitVec.ofNat p.bits k ↔ x.toNat = k := by
  rw [← BitVec.toNat_inj, toNat_small p hk]

variable {groups rem : BitVec p.bits}

/-- The characters of the groups and of what is left, with padding. -/
theorem toNat_paddedChars (h : 4 * groups.toNat + (if rem.toNat = 0 then 0 else 4) < 2 ^ p.bits) :
    ((groups + if rem ≠ 0 then 1 else 0) * 4).toNat = 4 * groups.toNat + if rem.toNat = 0 then 0 else 4 := by
  have hrem : rem = 0 ↔ rem.toNat = 0 := eq_small_iff (k := 0) rem (by decide)
  have hmul (x : BitVec p.bits) (hx : x.toNat * 4 < 2 ^ p.bits) : (x * 4).toNat = x.toNat * 4 :=
    toNat_mul_small (k := 4) x (by decide) hx
  by_cases h0 : rem.toNat = 0
  · have hsame : (groups + 0).toNat = groups.toNat := toNat_add_small (k := 0) groups (by decide) groups.isLt
    rw [if_pos h0] at h
    rw [if_neg (not_not.mpr (hrem.mpr h0)), if_pos h0, hmul _ (by omega), hsame, Nat.mul_comm, Nat.add_zero]
  · rw [if_neg h0] at h
    have hmore : (groups + 1).toNat = groups.toNat + 1 := toNat_add_small (k := 1) groups (by decide) (by omega)
    rw [if_pos (fun h => h0 (hrem.mp h)), if_neg h0, hmul _ (by omega), hmore, Nat.add_mul, Nat.mul_comm]

/-- And without. -/
theorem toNat_unpaddedChars (h : 4 * groups.toNat + (if rem.toNat = 0 then 0 else rem.toNat + 1) < 2 ^ p.bits) :
    (groups * 4 + if rem ≠ 0 then rem + 1 else 0).toNat =
      4 * groups.toNat + if rem.toNat = 0 then 0 else rem.toNat + 1 := by
  have hrem : rem = 0 ↔ rem.toNat = 0 := eq_small_iff (k := 0) rem (by decide)
  have hmul : (groups * 4).toNat = groups.toNat * 4 := toNat_mul_small (k := 4) groups (by decide) (by omega)
  by_cases h0 : rem.toNat = 0
  · have hsame : (groups * 4 + 0).toNat = (groups * 4).toNat := toNat_add_small (k := 0) _ (by decide) (groups * 4).isLt
    rw [if_neg (not_not.mpr (hrem.mpr h0)), if_pos h0, hsame, hmul, Nat.mul_comm, Nat.add_zero]
  · rw [if_neg h0] at h
    have hmore : (rem + 1).toNat = rem.toNat + 1 := toNat_add_small (k := 1) rem (by decide) (by omega)
    rw [if_pos (fun h => h0 (hrem.mp h)), if_neg h0, BitVec.toNat_add_of_lt (by rw [hmul, hmore]; omega), hmul, hmore, Nat.mul_comm]

/-- `cpr_base64e_len` in unbounded integers, where nothing wraps. -/
theorem toNat_base64eLen (p : PtrWidth) (pad : Bool) {n : Nat} (h : 4 * ((n + 2) / 3) + 1 < 2 ^ p.bits) :
    (base64eLen (BitVec.ofNat p.bits n) pad).toNat =
      4 * (n / 3) + (if n % 3 = 0 then 0 else if pad then 4 else n % 3 + 1) + 1 := by
  have hpow := p.range_le
  have hn : (BitVec.ofNat p.bits n).toNat = n := toNat_ofSize p (by omega)
  have hgroups : (BitVec.ofNat p.bits n / 3).toNat = n / 3 := (toNat_div_small (k := 3) _ (by decide)).trans (by rw [hn])
  have hrem : (BitVec.ofNat p.bits n % 3).toNat = n % 3 := (toNat_mod_small (k := 3) _ (by decide)).trans (by rw [hn])
  have hend (chars : BitVec p.bits) (hc : chars.toNat + 1 < 2 ^ p.bits) : (chars + 1).toNat = chars.toNat + 1 :=
    toNat_add_small (k := 1) chars (by decide) hc
  have hleft : 4 * (n / 3) + (if n % 3 = 0 then 0 else 4) + 1 < 2 ^ p.bits := by
    split <;> omega
  rw [base64eLen]
  cases pad with
  | true =>
    have hchars := @toNat_paddedChars p (BitVec.ofNat p.bits n / 3) (BitVec.ofNat p.bits n % 3) (by rw [hgroups, hrem]; omega)
    rw [hgroups, hrem] at hchars
    rw [if_pos rfl, hend _ (by rw [hchars]; exact hleft), hchars, if_pos rfl]
  | false =>
    have hsmaller : (if n % 3 = 0 then 0 else n % 3 + 1) ≤ if n % 3 = 0 then 0 else 4 := by
      split <;> omega
    have hchars := @toNat_unpaddedChars p (BitVec.ofNat p.bits n / 3) (BitVec.ofNat p.bits n % 3) (by rw [hgroups, hrem]; omega)
    rw [hgroups, hrem] at hchars
    rw [if_neg Bool.false_ne_true, hend _ (by rw [hchars]; omega), hchars, if_neg Bool.false_ne_true]

end

/-! ## Encoding -/

/-- The remainder that the encoder computes is 1 for two bytes and 2 for three. -/
theorem encode_rem (p : PtrWidth) {n : Nat} (hn : n < 2 ^ p.bits) :
    (BitVec.ofNat p.bits n - 1 = 1 ↔ n = 2) ∧ (BitVec.ofNat p.bits n - 1 = 2 ↔ n = 3) := by
  have h2 : (1 + 1 : BitVec p.bits).toNat = 2 := by cases p <;> rfl
  have h3 : (2 + 1 : BitVec p.bits).toNat = 3 := by cases p <;> rfl
  rw [BitVec.sub_eq_iff_eq_add, BitVec.sub_eq_iff_eq_add, ← BitVec.toNat_inj, ← BitVec.toNat_inj, toNat_ofSize p hn, h2, h3]
  exact ⟨Iff.rfl, Iff.rfl⟩

/-- A call whose output buffer has the size asked for. -/
theorem base64Encode_eq (p : PtrWidth) (variant : Base64Variant) (pad : Bool) {d buf : List UInt8}
    (hbuf : (base64eLen (BitVec.ofNat p.bits d.length) pad).toNat ≤ buf.length) :
    base64Encode p (.bytes d) (some buf) variant pad =
      ((Cursor.start buf).putAll ((sextets d).map (digit variant))).bind fun out =>
        (encodeTail variant pad (BitVec.ofNat p.bits d.length - 1) (d.drop (3 * (d.length / 3))) out).bind fun out =>
          (out.put 0).map fun out => { result := true, state := some out.cells } := by
  simp only [base64Encode, DataArg.missing, DataArg.size, DataArg.toList, Bool.false_eq_true, if_false, Nat.not_lt.mpr hbuf,
    encodeGroups_eq, Option.bind_eq_bind, Option.bind_map]
  refine Option.bind_congr fun out _ => Option.bind_congr fun out _ => ?_
  rw [Option.map_eq_bind]
  rfl

/-- Bytes that no tail is written for, whatever is left of them. -/
theorem base64Encode_whole (p : PtrWidth) (variant : Base64Variant) (pad : Bool) {d buf : List UInt8} (hd : d.length < 2 ^ p.bits)
    (h2 : d.length ≠ 2) (h3 : d.length ≠ 3)
    (hbuf : (base64eLen (BitVec.ofNat p.bits d.length) pad).toNat ≤ buf.length) :
    base64Encode p (.bytes d) (some buf) variant pad =
      ((Cursor.start buf).putAll ((sextets d).map (digit variant) ++ [0])).map fun out =>
        { result := true, state := some out.cells } := by
  obtain ⟨hrem1, hrem2⟩ := encode_rem p hd
  rw [base64Encode_eq p variant pad hbuf, Cursor.putAll_append, Option.map_bind]
  refine Option.bind_congr fun out _ => ?_
  rw [encodeTail, if_neg fun h => h2 (hrem1.mp h), if_neg fun h => h3 (hrem2.mp h), Option.bind_some, Function.comp,
    Cursor.putAll_singleton]

/-- Three bytes: the encoder reads past its input. -/
theorem base64Encode_three (p : PtrWidth) (variant : Base64Variant) (pad : Bool) {d buf : List UInt8} (h3 : d.length = 3)
    (hbuf : (base64eLen (BitVec.ofNat p.bits d.length) pad).toNat ≤ buf.length) :
    base64Encode p (.bytes d) (some buf) variant pad = none := by
  have hrange := p.range_le
  obtain ⟨hrem1, hrem2⟩ := encode_rem p (n := d.length) (by omega)
  have hrest : d.drop (3 * (d.length / 3)) = [] := by
    rw [h3]
    exact List.drop_eq_nil_of_le (by omega)
  have htail : ∀ out, encodeTail variant pad (BitVec.ofNat p.bits d.length - 1) [] out = none := by
    intro out
    rw [encodeTail, if_neg fun h => absurd (hrem1.mp h) (by omega), if_pos (hrem2.mpr h3)]
    rfl
  rw [base64Encode_eq p variant pad hbuf, hrest]
  cases (Cursor.start buf).putAll ((sextets d).map (digit variant)) with
  | none => rfl
  | some out => rw [Option.bind_some, htail, Option.bind_none]

/-- The branch of the encoder for a remainder of 1. -/
theorem encodeTail_one {w : Nat} (variant : Base64Variant) (pad : Bool) {rem : BitVec w} (hrem : rem = 1) (b0 : UInt8)
    (rest : List UInt8) (out : Cursor UInt8) :
    encodeTail variant pad rem (b0 :: rest) out =
      out.putAll ([digit variant (b0.toNat / 4), digit variant (b0.toNat % 4 * 16)] ++ if pad then [61, 61] else []) := by
  have hlt := b0.toNat_lt
  have hn0 : ((b0.toNat <<< 16) >>> 18) &&& 0x3F = b0.toNat / 4 := by
    rw [shift_mask, Nat.shiftLeft_eq]
    omega
  have hn1 : ((b0.toNat <<< 16) >>> 12) &&& 0x3F = b0.toNat % 4 * 16 := by
    rw [shift_mask, Nat.shiftLeft_eq]
    omega
  rw [encodeTail, if_pos hrem]
  simp only [List.getElem?_cons_zero, Option.bind_eq_bind, Option.bind_some, hn0, hn1,
    putChar_eq variant (show b0.toNat / 4 < 64 by omega), putChar_eq variant (show b0.toNat % 4 * 16 < 64 by omega)]
  cases pad with
  | true => simp only [if_true, List.cons_append, List.nil_append, Cursor.putAll, Option.bind_fun_some]
  | false => simp only [Bool.false_eq_true, if_false, List.cons_append, List.nil_append, Cursor.putAll]

/-- Two bytes: the encoder writes the tail of one. -/
theorem base64Encode_two (p : PtrWidth) (variant : Base64Variant) (pad : Bool) (b0 b1 : UInt8) {buf : List UInt8}
    (hbuf : (base64eLen (BitVec.ofNat p.bits [b0, b1].length) pad).toNat ≤ buf.length) :
    base64Encode p (.bytes [b0, b1]) (some buf) variant pad =
      ((Cursor.start buf).putAll
        ([digit variant (b0.toNat / 4), digit variant (b0.toNat % 4 * 16)] ++ (if pad then [61, 61] else []) ++ [0])).map
        fun out => { result := true, state := some out.cells } := by
  have hrange := p.range_le
  obtain ⟨hrem, _⟩ := encode_rem p (n := [b0, b1].length) (show 2 < _ by omega)
  have hsextets : sextets [b0, b1] = [] := rfl
  have hdrop : [b0, b1].drop (3 * ([b0, b1].length / 3)) = [b0, b1] := by simp
  rw [base64Encode_eq p variant pad hbuf, hsextets, hdrop, List.map_nil, Cursor.putAll, Option.bind_some,
    encodeTail_one variant pad (hrem.mpr rfl), Cursor.putAll_append _ [0], Option.map_bind]
  refine Option.bind_congr fun out _ => ?_
  rw [Function.comp, Cursor.putAll_singleton]

/-- The text in front of a NUL. -/
theorem cString_append {t junk : List UInt8} (h : ∀ c ∈ t, c ≠ 0) : cString (t ++ 0 :: junk) = t := by
  rw [cString, List.takeWhile_append_of_pos (by simpa using h)]
  simp

/-- The text left by an encoder whose output is a NUL-terminated list of characters. -/
theorem cString_putAll {t buf : List UInt8} {out : Cursor UInt8} (ht : ∀ c ∈ t, c ≠ 0)
    (h : (Cursor.start buf).putAll (t ++ [0]) = some out) : cString out.cells = t := by
  obtain ⟨_, rfl⟩ := Cursor.putAll_some h
  rw [Cursor.cells, Cursor.start, List.nil_append, List.append_assoc]
  exact cString_append ht

/-- The texts of the alphabet are texts. -/
theorem digits_ne_zero (variant : Base64Variant) {vs : List Nat} (hvs : ∀ v ∈ vs, v < 64) :
    ∀ c ∈ vs.map (digit variant), c ≠ 0 := by
  intro c hc
  obtain ⟨v, hv, rfl⟩ := List.mem_map.mp hc
  exact (digit_ne variant (hvs v hv)).1

theorem tail_one_ne_zero (variant : Base64Variant) (b0 : UInt8) (pad : Bool) :
    ∀ c ∈ [digit variant (b0.toNat / 4), digit variant (b0.toNat % 4 * 16)] ++ (if pad then [61, 61] else []), c ≠ 0 := by
  have hlt := b0.toNat_lt
  have hne0 := (digit_ne variant (v := b0.toNat / 4) (by omega)).1
  have hne1 := (digit_ne variant (v := b0.toNat % 4 * 16) (by omega)).1
  cases pad <;> simp [hne0, hne1]

theorem digits_inj (variant : Base64Variant) {vs ws : List Nat} (hvs : ∀ v ∈ vs, v < 64) (hws : ∀ v ∈ ws, v < 64)
    (h : vs.map (digit variant) = ws.map (digit variant)) : vs = ws := by
  induction vs generalizing ws with
  | nil =>
    rw [List.map_nil, eq_comm, List.map_eq_nil_iff] at h
    exact h.symm
  | cons v vs ih =>
    cases ws with
    | nil => cases h
    | cons w ws =>
      rw [List.map_cons, List.map_cons, List.cons.injEq] at h
      simp only [List.mem_cons, forall_eq_or_imp] at hvs hws
      rw [digit_inj variant hvs.1 hws.1 h.1, ih hvs.2 hws.2 h.2]

/-! ## Decoding -/

/-- A text that does not end in the padding character has no padding. -/
theorem textPad_eq_zero {t : List UInt8} (h : t.getLast? ≠ some 61) : textPad t = 0 := by
  rw [List.getLast?_eq_getElem?] at h
  rw [textPad, if_neg fun hpad => h hpad.2]

/-- What `textPad` says of the text. -/
theorem textPad_cases (t : List UInt8) :
    textPad t = 0 ∨
      (t.length % 4 = 0 ∧ t.getLast? = some 61 ∧ (textPad t = 2 ∨ textPad t = 1 ∧ t[t.length - 2]? ≠ some 61)) := by
  rw [List.getLast?_eq_getElem?]
  unfold textPad
  split
  · rename_i h
    refine .inr ⟨h.1, h.2, ?_⟩
    split
    · exact .inl rfl
    · rename_i hne
      exact .inr ⟨rfl, hne⟩
  · exact .inl rfl

theorem textPad_le (t : List UInt8) : textPad t ≤ t.length := by
  rcases textPad_cases t with h | ⟨hmod, hlast, h⟩
  · omega
  · have hpos : t.length ≠ 0 := by
      intro h0
      rw [List.length_eq_zero_iff.mp h0] at hlast
      cases hlast
    omega

/-- The last character of a text of the alphabet is not the padding character. -/
theorem getLast?_digits (variant : Base64Variant) {vs : List Nat} (hvs : ∀ v ∈ vs, v < 64) :
    (vs.map (digit variant)).getLast? ≠ some 61 := by
  intro h
  obtain ⟨v, hv, hd⟩ := List.mem_map.mp (List.mem_of_getLast? h)
  exact (digit_ne variant (hvs v hv)).2 hd

/-- A call with a text of whole groups of the alphabet. -/
theorem base64Decode_whole (variant : Base64Variant) {vs : List Nat} (hvs : ∀ v ∈ vs, v < 64) (hlen : vs.length % 4 = 0)
    {buf : List UInt8} (hbuf : (kept vs).length ≤ buf.length) :
    base64Decode (.bytes (vs.map (digit variant))) (some buf) variant =
      some { result := true, state := ⟨some (kept vs ++ buf.drop (kept vs).length), some (kept vs).length⟩ } := by
  rcases Nat.eq_zero_or_pos vs.length with hzero | hpos
  · obtain rfl : vs = [] := List.length_eq_zero_iff.mp hzero
    rfl
  · have hkept := length_kept vs
    have hsize : decodedSize vs.length = (kept vs).length := by
      rw [decodedSize, hlen, hkept, if_neg (by decide), if_neg (by decide)]
      omega
    have hgroups := decodeGroups_eq variant hvs (g := vs.length / 4) (by omega) [] (.start buf)
    rw [List.append_nil, Cursor.putAll_eq_some hbuf, Option.map_some] at hgroups
    simp only [base64Decode, DataArg.missing, DataArg.size, DataArg.toList, Bool.false_eq_true, if_false, List.length_map,
      if_neg (show ¬ vs.length = 0 by omega),
      textPad_eq_zero (getLast?_digits variant hvs), Nat.sub_zero, hsize, if_neg (Nat.not_lt.mpr hbuf), hgroups, hlen,
      Option.bind_eq_bind, Option.bind_some]
    rfl

/-- What the branches for the last characters write, where they accept them. -/
theorem decodeTail_some {variant : Base64Variant} {finalChars : Nat} {text : List UInt8} {out out' : Cursor UInt8}
    (hfinal : finalChars < 4) (h : decodeTail variant finalChars text out = some (.ok out')) :
    ∃ bs : List UInt8, bs.length = finalChars - 1 ∧ out.putAll bs = some out' := by
  unfold decodeTail at h
  split at h
  · rename_i h2
    obtain ⟨c0, _, h⟩ := Option.bind_eq_some_iff.mp h
    obtain ⟨v0, _, h⟩ := Option.bind_eq_some_iff.mp h
    obtain ⟨c1, _, h⟩ := Option.bind_eq_some_iff.mp h
    obtain ⟨v1, _, h⟩ := Option.bind_eq_some_iff.mp h
    obtain ⟨out1, hput, h⟩ := Option.bind_eq_some_iff.mp h
    cases h
    refine ⟨[_], ?_, (Cursor.putAll_singleton out _).trans hput⟩
    rw [h2, List.length_singleton]
  · split at h
    · rename_i h3
      obtain ⟨c0, _, h⟩ := Option.bind_eq_some_iff.mp h
      obtain ⟨c1, _, h⟩ := Option.bind_eq_some_iff.mp h
      obtain ⟨c2, _, h⟩ := Option.bind_eq_some_iff.mp h
      simp only at h
      split at h
      · cases h
      · obtain ⟨out1, hput1, h⟩ := Option.bind_eq_some_iff.mp h
        obtain ⟨out2, hput2, h⟩ := Option.bind_eq_some_iff.mp h
        cases h
        refine ⟨[_, _], ?_, Cursor.putAll_pair hput1 hput2⟩
        rw [h3, List.length_cons, List.length_singleton]
    · rename_i h2 h3
      cases h
      refine ⟨[], ?_, rfl⟩
      rw [List.length_nil]
      omega

/-- What a call that accepts its text leaves: whole groups of the alphabet, and at most two bytes more. -/
theorem base64Decode_some {variant : Base64Variant} {t buf buf' : List UInt8} {n : Nat}
    (h : base64Decode (.bytes t) (some buf) variant = some { result := true, state := ⟨some buf', some n⟩ }) :
    ∃ (vs : List Nat) (bs rest : List UInt8), vs.length = 4 * ((t.length - textPad t) / 4) ∧ (∀ v ∈ vs, v < 64) ∧
      t = vs.map (digit variant) ++ rest ∧ bs.length = (t.length - textPad t) % 4 - 1 ∧ buf'.take n = kept vs ++ bs ∧
      t.length % 4 ≠ 1 := by
  by_cases h0 : t.length = 0
  · obtain rfl : t = [] := List.length_eq_zero_iff.mp h0
    cases h
    exact ⟨[], [], [], rfl, fun v hv => absurd hv List.not_mem_nil, rfl, rfl, rfl, by decide⟩
  simp only [base64Decode, DataArg.missing, DataArg.size, DataArg.toList, Bool.false_eq_true, if_false, h0] at h
  by_cases hmod : t.length % 4 = 1
  · simp only [hmod, if_true] at h
    cases h
  by_cases hbuf : buf.length < decodedSize (t.length - textPad t)
  · simp only [hmod, hbuf, if_false, if_true] at h
    cases h
  simp only [hmod, hbuf, if_false] at h
  obtain ⟨r, hgroups, h⟩ := Option.bind_eq_some_iff.mp h
  rcases r with out | ⟨rest, out⟩
  · cases h
  obtain ⟨r, htail, h⟩ := Option.bind_eq_some_iff.mp h
  rcases r with out2 | out2
  · cases h
  simp only [Option.some.injEq, Outcome.mk.injEq, Decoded.mk.injEq, true_and, and_true] at h
  obtain ⟨rfl, rfl⟩ := h
  obtain ⟨vs, hlen, hvs, htext⟩ := decodeGroups_some hgroups
  have hputs := decodeGroups_eq variant hvs hlen rest (.start buf)
  rw [← htext, hgroups] at hputs
  obtain ⟨out1, hput1, heq⟩ := Option.map_eq_some_iff.mp hputs.symm
  cases heq
  obtain ⟨bs, hbs, hput2⟩ := decodeTail_some (Nat.mod_lt _ (by decide)) htail
  have hput : (Cursor.start buf).putAll (kept vs ++ bs) = some out2 := by
    rw [Cursor.putAll_append, hput1, Option.bind_some, hput2]
  obtain ⟨_, rfl⟩ := Cursor.putAll_some hput
  have hkept := length_kept vs
  have hsize : decodedSize (t.length - textPad t) = (kept vs ++ bs).length := by
    rw [List.length_append, hkept, hlen, hbs, decodedSize]
    split
    · omega
    · split <;> omega
  refine ⟨vs, bs, rest, hlen, hvs, htext, hbs, ?_, hmod⟩
  rw [hsize, Cursor.cells, Cursor.start, List.nil_append]
  exact List.take_left

end Copper
