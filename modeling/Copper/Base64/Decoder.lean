import Copper.Base64.Rfc

/-!
# Base64: what the decoder makes of its text

A text is, without its padding, whole groups of four characters and up to three more. The loop rejects a group with a character
outside the alphabet and keeps the first two digits of the others. Of three last characters the two bytes are right. Two are
looked up in the encoder's table, which has nothing at 64 and beyond, and below gives a character for a digit.
-/

namespace Copper

open Radix (bits bits_append bits_carry bits_congr regroup)

/-- The characters of the whole groups of a text. -/
def textGroups (t : List UInt8) : List UInt8 := (rfcBody t).take (4 * ((rfcBody t).length / 4))

/-- The characters after them. -/
def textFinal (t : List UInt8) : List UInt8 := (rfcBody t).drop (4 * ((rfcBody t).length / 4))

/-! ## Parts of a text -/

theorem rfcBody_eq (t : List UInt8) : rfcBody t = t.take (t.length - textPad t) := by
  have hlast : t.getLast? = t[t.length - 1]? := List.getLast?_eq_getElem?
  unfold rfcBody textPad
  rw [← hlast]
  by_cases h : t.length % 4 = 0 ∧ t.getLast? = some 61
  · have hpos : t.length ≠ 0 := by
      intro h0
      rw [List.length_eq_zero_iff.mp h0] at h
      cases h.2
    have hnext : t.dropLast.getLast? = t[t.length - 2]? := by
      rw [List.getLast?_eq_getElem?, List.length_dropLast, List.getElem?_dropLast, if_pos (by omega)]
      rfl
    rw [if_pos h, if_pos h, hnext]
    split
    · rw [List.dropLast_eq_take, List.dropLast_eq_take, List.take_take, List.length_take]
      congr 1
      omega
    · exact List.dropLast_eq_take
  · rw [if_neg h, if_neg h, Nat.sub_zero, List.take_length]

theorem length_rfcBody (t : List UInt8) : (rfcBody t).length = t.length - textPad t := by
  have hle := textPad_le t
  rw [rfcBody_eq, List.length_take]
  omega

theorem length_textGroups (t : List UInt8) : (textGroups t).length = 4 * ((rfcBody t).length / 4) := by
  rw [textGroups, List.length_take]
  omega

theorem length_textFinal (t : List UInt8) : (textFinal t).length = (rfcBody t).length % 4 := by
  rw [textFinal, List.length_drop]
  omega

theorem length_of_groups {variant : Base64Variant} {t : List UInt8} {vs : List Nat}
    (hgroups : textGroups t = vs.map (digit variant)) : vs.length = 4 * ((rfcBody t).length / 4) := by
  rw [← length_textGroups, hgroups, List.length_map]

theorem length_of_final {variant : Base64Variant} {t : List UInt8} {ws : List Nat}
    (hfinal : textFinal t = ws.map (digit variant)) : ws.length = (rfcBody t).length % 4 := by
  rw [← length_textFinal, hfinal, List.length_map]

theorem rfcBody_eq_append (t : List UInt8) : rfcBody t = textGroups t ++ textFinal t := (List.take_append_drop _ _).symm

/-- A text is its groups, the characters after them, and its padding. -/
theorem text_eq (t : List UInt8) : ∃ pads, t = textGroups t ++ (textFinal t ++ pads) := by
  refine ⟨t.drop (t.length - textPad t), ?_⟩
  rw [← List.append_assoc, ← rfcBody_eq_append, rfcBody_eq, List.take_append_drop]

/-- One character after the groups is one too many or too few. -/
theorem length_mod_iff (t : List UInt8) : t.length % 4 = 1 ↔ (rfcBody t).length % 4 = 1 := by
  rw [length_rfcBody]
  rcases textPad_cases t with h | ⟨hmod, hlast, h⟩
  · rw [h, Nat.sub_zero]
  · have hle := textPad_le t
    omega

theorem decodedSize_eq (n : Nat) : decodedSize n = 6 * n / 8 := by
  unfold decodedSize
  split
  · omega
  · split <;> omega

/-! ## The loop -/

/-- A group with a character outside the alphabet ends the loop. -/
theorem decodeGroups_error (variant : Base64Variant) {g : Nat} {groups : List UInt8} (hlen : groups.length = 4 * g)
    (hbad : ∃ c ∈ groups, c ∉ rfcAlphabet variant) (rest : List UInt8) {out : Cursor UInt8} (hroom : 3 * g ≤ out.rest.length) :
    ∃ out', decodeGroups variant g (groups ++ rest) out = some (.error out') := by
  induction g generalizing groups out with
  | zero =>
    obtain ⟨c, hc, -⟩ := hbad
    rw [List.length_eq_zero_iff.mp hlen] at hc
    exact absurd hc List.not_mem_nil
  | succ g ih =>
    rcases groups with _ | ⟨c0, _ | ⟨c1, _ | ⟨c2, _ | ⟨c3, groups⟩⟩⟩⟩
    iterate 4 · simp only [List.length_nil, List.length_cons] at hlen; omega
    obtain ⟨done, r⟩ := out
    rcases r with _ | ⟨r0, _ | ⟨r1, _ | ⟨r2, r⟩⟩⟩
    iterate 3 · simp only [List.length_nil, List.length_cons] at hroom; omega
    simp only [List.length_cons] at hlen hroom
    simp only [decodeGroups, List.cons_append, List.getElem?_cons_zero, List.getElem?_cons_succ, Option.bind_eq_bind,
      Option.bind_some]
    by_cases hfour : base64Charval c0 variant < 0 ∨ base64Charval c1 variant < 0 ∨ base64Charval c2 variant < 0 ∨
        base64Charval c3 variant < 0
    · exact ⟨_, if_pos hfour⟩
    · rw [if_neg hfour]
      simp only [not_or, ← mem_rfcAlphabet_iff] at hfour
      have hmore : ∃ c ∈ groups, c ∉ rfcAlphabet variant := by
        obtain ⟨c, hc, hout⟩ := hbad
        refine ⟨c, ?_, hout⟩
        simp only [List.mem_cons] at hc
        rcases hc with rfl | rfl | rfl | rfl | hc
        · exact absurd hfour.1 hout
        · exact absurd hfour.2.1 hout
        · exact absurd hfour.2.2.1 hout
        · exact absurd hfour.2.2.2 hout
        · exact hc
      exact ih (by omega) hmore (by simp only []; omega)

/-! ## The last characters -/

/-- `cpr__base64_char` has a character for the numbers below 64. -/
theorem base64Char_none_iff (variant : Base64Variant) (c : UInt8) : base64Char c variant = none ↔ 64 ≤ c.toNat := by
  have h : ∀ c : Fin 256, base64Char (UInt8.ofNat c) variant = none ↔ 64 ≤ (c : Nat) := by
    cases variant <;> decide +kernel
  have h' := h ⟨c.toNat, c.toNat_lt⟩
  have hofNat : UInt8.ofNat c.toNat = c := UInt8.ofNat_toNat
  simp only [hofNat] at h'
  exact h'

/-- The byte that the branch for two characters makes of what it looks up. -/
def lookedUp (variant : Base64Variant) (c0 c1 : UInt8) : UInt8 :=
  UInt8.ofNat ((((base64Char c0 variant).getD 0).toNat <<< 18 ||| ((base64Char c1 variant).getD 0).toNat <<< 12) >>> 16)

/-- Two characters below 64. -/
theorem decodeTail_two (variant : Base64Variant) {c0 c1 : UInt8} (h0 : c0.toNat < 64) (h1 : c1.toNat < 64) (pads : List UInt8)
    (out : Cursor UInt8) :
    decodeTail variant 2 ([c0, c1] ++ pads) out = (out.put (lookedUp variant c0 c1)).map .ok := by
  obtain ⟨d0, hd0⟩ := Option.ne_none_iff_exists'.mp fun h => Nat.not_le.mpr h0 ((base64Char_none_iff variant c0).mp h)
  obtain ⟨d1, hd1⟩ := Option.ne_none_iff_exists'.mp fun h => Nat.not_le.mpr h1 ((base64Char_none_iff variant c1).mp h)
  simp only [decodeTail, if_true, List.cons_append, List.getElem?_cons_zero, List.getElem?_cons_succ, Option.bind_eq_bind,
    Option.bind_some, hd0, hd1, lookedUp, Option.getD_some]
  rw [Option.map_eq_bind]
  rfl

/-- One of two characters is past the table. -/
theorem decodeTail_two_none (variant : Base64Variant) {c0 c1 : UInt8} (h : ∃ c ∈ [c0, c1], 64 ≤ c.toNat) (pads : List UInt8)
    (out : Cursor UInt8) : decodeTail variant 2 ([c0, c1] ++ pads) out = none := by
  simp only [decodeTail, if_true, List.cons_append, List.getElem?_cons_zero, List.getElem?_cons_succ, Option.bind_eq_bind,
    Option.bind_some]
  simp only [← base64Char_none_iff variant, List.mem_cons, List.not_mem_nil, or_false, exists_eq_or_imp, exists_eq_left] at h
  rcases h with h | h
  · rw [h, Option.bind_none]
  · simp only [h, Option.bind_none]
    exact Option.bind_fun_none (base64Char c0 variant)

/-- Three characters of the alphabet. -/
theorem decodeTail_three (variant : Base64Variant) {v0 v1 v2 : Nat} (h0 : v0 < 64) (h1 : v1 < 64) (h2 : v2 < 64)
    (pads : List UInt8) (out : Cursor UInt8) :
    decodeTail variant 3 ([digit variant v0, digit variant v1, digit variant v2] ++ pads) out =
      (out.putAll [UInt8.ofNat (v0 * 4 + v1 / 16), UInt8.ofNat (v1 % 16 * 16 + v2 / 4)]).map .ok := by
  have hneg : ∀ v : Nat, ¬ (v : Int) < 0 := fun v => by omega
  have hword : v0 <<< 18 ||| v1 <<< 12 ||| v2 <<< 6 = v0 * 262144 + v1 * 4096 + v2 * 64 := by
    rw [Nat.or_assoc, Nat.shiftLeft_eq v2, shift_or (a := v1) (by omega), shift_or (by omega)]
    omega
  have hn0 : (v0 * 262144 + v1 * 4096 + v2 * 64) >>> 16 = v0 * 4 + v1 / 16 := by
    rw [Nat.shiftRight_eq_div_pow]
    omega
  have hn1 : UInt8.ofNat ((v0 * 262144 + v1 * 4096 + v2 * 64) >>> 8) = UInt8.ofNat (v1 % 16 * 16 + v2 / 4) := by
    rw [← UInt8.toNat_inj, UInt8.toNat_ofNat', UInt8.toNat_ofNat', Nat.shiftRight_eq_div_pow]
    omega
  simp only [decodeTail, if_true, List.cons_append, List.getElem?_cons_zero, List.getElem?_cons_succ, Option.bind_eq_bind,
    Option.bind_some, base64Charval_digit variant h0, base64Charval_digit variant h1, base64Charval_digit variant h2, hneg, or_self,
    if_false, Int.toNat_natCast, hword, hn0, hn1, Cursor.putAll, Nat.reduceEqDiff]
  rw [Option.map_bind]
  refine Option.bind_congr fun out _ => ?_
  rw [Function.comp, Option.map_bind]
  rfl

/-- Three characters that are not all in the alphabet. -/
theorem decodeTail_three_error (variant : Base64Variant) {c0 c1 c2 : UInt8} (h : ∃ c ∈ [c0, c1, c2], c ∉ rfcAlphabet variant)
    (pads : List UInt8) (out : Cursor UInt8) : decodeTail variant 3 ([c0, c1, c2] ++ pads) out = some (.error out) := by
  simp only [decodeTail, List.cons_append, List.getElem?_cons_zero, List.getElem?_cons_succ, Option.bind_eq_bind,
    Option.bind_some, Nat.reduceEqDiff, if_false, if_true]
  rw [if_pos]
  simp only [mem_rfcAlphabet_iff, not_not, List.mem_cons, List.not_mem_nil, or_false, exists_eq_or_imp, exists_eq_left] at h
  exact h

/-! ## Whole calls -/

section

variable {variant : Base64Variant} {t buf : List UInt8}

/-- A text that is rejected for its length. -/
theorem base64Decode_length (hmod : t.length % 4 = 1) :
    base64Decode (.bytes t) (some buf) variant = some (.fail ⟨some buf, none⟩ false .errInvalid "invalid Base64 length") := by
  have hne : (DataArg.bytes t).size ≠ 0 := show t.length ≠ 0 by omega
  simp only [base64Decode, DataArg.missing, Bool.false_eq_true, if_false, if_neg hne]
  exact if_pos hmod

/-- A text that is not rejected for its length, and a buffer that is large enough. -/
theorem base64Decode_eq (hmod : t.length % 4 ≠ 1) (hbuf : 6 * (rfcBody t).length / 8 ≤ buf.length) :
    base64Decode (.bytes t) (some buf) variant =
      (decodeGroups variant ((rfcBody t).length / 4) t (.start buf)).bind fun r =>
        match r with
        | .error out => some (.fail ⟨some out.cells, none⟩ false .errInvalid "invalid Base64 character")
        | .ok (rest, out) =>
          (decodeTail variant ((rfcBody t).length % 4) rest out).bind fun r =>
            match r with
            | .error out => some (.fail ⟨some out.cells, none⟩ false .errInvalid "invalid Base64 character")
            | .ok out => some { result := true, state := ⟨some out.cells, some (6 * (rfcBody t).length / 8)⟩ } := by
  by_cases hlen : t.length = 0
  · obtain rfl : t = [] := List.length_eq_zero_iff.mp hlen
    rfl
  simp only [base64Decode, DataArg.missing, DataArg.size, DataArg.toList, Bool.false_eq_true, if_false, if_neg hlen, if_neg hmod,
    ← length_rfcBody, decodedSize_eq, if_neg (Nat.not_lt.mpr hbuf)]
  rfl

/-- A group with a character outside the alphabet: the text is rejected. -/
theorem base64Decode_error (hmod : t.length % 4 ≠ 1) (hbuf : 6 * (rfcBody t).length / 8 ≤ buf.length)
    (hbad : ∃ c ∈ textGroups t, c ∉ rfcAlphabet variant) :
    ∃ out, base64Decode (.bytes t) (some buf) variant =
      some (.fail ⟨some out, none⟩ false .errInvalid "invalid Base64 character") := by
  obtain ⟨pads, ht⟩ := text_eq t
  have hroom : 3 * ((rfcBody t).length / 4) ≤ (Cursor.start buf).rest.length := show _ ≤ buf.length by omega
  obtain ⟨out, hout⟩ := decodeGroups_error variant (length_textGroups t) hbad (textFinal t ++ pads) hroom
  rw [← ht] at hout
  rw [base64Decode_eq hmod hbuf, hout]
  exact ⟨out.cells, rfl⟩

/-- Groups of the alphabet: what the branches make of the last characters decides. -/
theorem base64Decode_groups (hone : (textFinal t).length ≠ 1) (hbuf : 6 * (rfcBody t).length / 8 ≤ buf.length)
    {vs : List Nat} (hvs : ∀ v ∈ vs, v < 64) (hgroups : textGroups t = vs.map (digit variant)) :
    ∃ pads, base64Decode (.bytes t) (some buf) variant =
      (decodeTail variant ((rfcBody t).length % 4) (textFinal t ++ pads) ⟨kept vs, buf.drop (kept vs).length⟩).bind fun r =>
        match r with
        | .error out => some (.fail ⟨some out.cells, none⟩ false .errInvalid "invalid Base64 character")
        | .ok out => some { result := true, state := ⟨some out.cells, some (6 * (rfcBody t).length / 8)⟩ } := by
  obtain ⟨pads, ht⟩ := text_eq t
  have hmod : t.length % 4 ≠ 1 := fun h => hone ((length_textFinal t).trans ((length_mod_iff t).mp h))
  have hlen := length_of_groups hgroups
  have hkept := length_kept vs
  have hfits : (kept vs).length ≤ (Cursor.start buf).rest.length := by
    show (kept vs).length ≤ buf.length
    omega
  have hloop := decodeGroups_eq variant hvs hlen (textFinal t ++ pads) (.start buf)
  rw [← hgroups, ← ht, Cursor.putAll_eq_some hfits, Option.map_some] at hloop
  refine ⟨pads, ?_⟩
  rw [base64Decode_eq hmod hbuf, hloop, Option.bind_some]
  rfl

/-- Two characters after groups of the alphabet, one of them past the table. -/
theorem base64Decode_two_none (hbuf : 6 * (rfcBody t).length / 8 ≤ buf.length) {vs : List Nat} (hvs : ∀ v ∈ vs, v < 64)
    (hgroups : textGroups t = vs.map (digit variant)) (h2 : (textFinal t).length = 2) (hpast : ∃ c ∈ textFinal t, 64 ≤ c.toNat) :
    base64Decode (.bytes t) (some buf) variant = none := by
  have hlen := (length_textFinal t).symm.trans h2
  obtain ⟨pads, heq⟩ := base64Decode_groups (by omega) hbuf hvs hgroups
  obtain ⟨c0, c1, hfinal⟩ := List.length_eq_two.mp h2
  rw [hfinal] at hpast heq
  rw [heq, hlen, decodeTail_two_none variant hpast, Option.bind_none]

/-- Two characters after groups of the alphabet that the table has. -/
theorem base64Decode_two (hbuf : 6 * (rfcBody t).length / 8 ≤ buf.length) {vs : List Nat} (hvs : ∀ v ∈ vs, v < 64)
    (hgroups : textGroups t = vs.map (digit variant)) {c0 c1 : UInt8} (hfinal : textFinal t = [c0, c1]) (h0 : c0.toNat < 64)
    (h1 : c1.toNat < 64) :
    base64Decode (.bytes t) (some buf) variant =
      some { result := true
             state := ⟨some (kept vs ++ [lookedUp variant c0 c1] ++ (buf.drop (kept vs).length).drop 1),
               some (6 * (rfcBody t).length / 8)⟩ } := by
  have h2 : (textFinal t).length = 2 := by
    rw [hfinal]
    rfl
  have hlen : 2 = (rfcBody t).length % 4 := h2.symm.trans (length_textFinal t)
  have hvlen := length_of_groups hgroups
  have hkept := length_kept vs
  have hroom : [lookedUp variant c0 c1].length ≤ (Cursor.mk (kept vs) (buf.drop (kept vs).length)).rest.length := by
    rw [List.length_drop]
    show 1 ≤ _
    omega
  obtain ⟨pads, heq⟩ := base64Decode_groups (by omega) hbuf hvs hgroups
  rw [heq, ← hlen, hfinal, decodeTail_two variant h0 h1, ← Cursor.putAll_singleton, Cursor.putAll_eq_some hroom, Option.map_some,
    Option.bind_some]
  rfl

end

/-! ## The bytes of the digits -/

/-- Four digits are three bytes. -/
def octets : List Nat → List Nat
  | v0 :: v1 :: v2 :: v3 :: rest => (v0 * 4 + v1 / 16) :: (v1 % 16 * 16 + v2 / 4) :: (v2 % 4 * 64 + v3) :: octets rest
  | _ => []

theorem length_octets (vs : List Nat) : (octets vs).length = 3 * (vs.length / 4) := by
  induction vs using octets.induct with
  | case1 v0 v1 v2 v3 rest ih =>
    simp only [octets, List.length_cons, ih]
    omega
  | case2 vs hno =>
    have hlt := length_lt_four hno
    rw [octets.eq_2 vs hno, List.length_nil]
    omega

theorem octets_lt (vs : List Nat) (hvs : ∀ v ∈ vs, v < 64) : ∀ b ∈ octets vs, b < 256 := by
  induction vs using octets.induct with
  | case1 v0 v1 v2 v3 rest ih =>
    simp only [List.mem_cons, forall_eq_or_imp] at hvs
    obtain ⟨h0, h1, h2, h3, hrest⟩ := hvs
    intro b hb
    simp only [octets, List.mem_cons] at hb
    rcases hb with rfl | rfl | rfl | hb
    · omega
    · omega
    · omega
    · exact ih hrest b hb
  | case2 vs hno =>
    intro b hb
    rw [octets.eq_2 vs hno] at hb
    cases hb

section

variable {v0 v1 v2 v3 : Nat}

/-- Two digits are a byte and four bits. -/
theorem bits_two (h0 : v0 < 64) (h1 : v1 < 64) : bits 6 v0 ++ bits 6 v1 = bits 8 (v0 * 4 + v1 / 16) ++ bits 4 v1 := by
  have hcarry : bits 6 v0 ++ bits 6 v1 = bits 8 (v0 % 64 * 4 + v1 / 16) ++ bits 4 v1 := bits_carry (k := 4) 6 2 v0 h1
  rwa [Nat.mod_eq_of_lt h0] at hcarry

/-- Three digits are two bytes and two bits. -/
theorem bits_three (h0 : v0 < 64) (h1 : v1 < 64) (h2 : v2 < 64) :
    bits 6 v0 ++ (bits 6 v1 ++ bits 6 v2) = bits 8 (v0 * 4 + v1 / 16) ++ (bits 8 (v1 % 16 * 16 + v2 / 4) ++ bits 2 v2) := by
  have hcarry : bits 4 v1 ++ bits 6 v2 = bits 8 (v1 % 16 * 16 + v2 / 4) ++ bits 2 v2 := bits_carry (k := 2) 4 4 v1 h2
  rw [← hcarry, ← List.append_assoc, bits_two h0 h1, List.append_assoc]

/-- Four digits are three bytes. -/
theorem bits_four (h0 : v0 < 64) (h1 : v1 < 64) (h2 : v2 < 64) (h3 : v3 < 64) :
    bits 6 v0 ++ (bits 6 v1 ++ (bits 6 v2 ++ bits 6 v3))
      = bits 8 (v0 * 4 + v1 / 16) ++ (bits 8 (v1 % 16 * 16 + v2 / 4) ++ bits 8 (v2 % 4 * 64 + v3)) := by
  have hcarry : bits 2 v2 ++ bits 6 v3 = bits 8 (v2 % 4 * 64 + v3) := by
    rw [bits_append 2 v2 h3]
    refine bits_congr ?_
    omega
  rw [← hcarry, ← List.append_assoc (bits 6 v1), ← List.append_assoc (bits 6 v0), bits_three h0 h1 h2]
  simp only [List.append_assoc]

end

theorem bits_octets (vs : List Nat) (hvs : ∀ v ∈ vs, v < 64) (hlen : vs.length % 4 = 0) :
    vs.flatMap (bits 6) = (octets vs).flatMap (bits 8) := by
  induction vs using octets.induct with
  | case1 v0 v1 v2 v3 rest ih =>
    simp only [List.mem_cons, forall_eq_or_imp] at hvs
    obtain ⟨h0, h1, h2, h3, hrest⟩ := hvs
    simp only [List.length_cons] at hlen
    have hfour := bits_four h0 h1 h2 h3
    simp only [octets, List.flatMap_cons, ← ih hrest (by omega)]
    rw [← List.append_assoc (bits 8 (v1 % 16 * 16 + v2 / 4)), ← List.append_assoc (bits 8 (v0 * 4 + v1 / 16)), ← hfour]
    simp only [List.append_assoc]
  | case2 vs hno =>
    have hlt := length_lt_four hno
    obtain rfl : vs = [] := List.length_eq_zero_iff.mp (by omega)
    rfl

/-- The loop keeps the bytes of the digits where the last two of every four are zero. -/
theorem kept_eq_octets_iff (variant : Base64Variant) (vs : List Nat) (hvs : ∀ v ∈ vs, v < 64) :
    kept vs = (octets vs).map UInt8.ofNat ↔ EndsInAA (vs.map (digit variant)) := by
  induction vs using octets.induct with
  | case1 v0 v1 v2 v3 rest ih =>
    simp only [List.mem_cons, forall_eq_or_imp] at hvs
    obtain ⟨h0, h1, h2, h3, hrest⟩ := hvs
    have hsecond : UInt8.ofNat (v1 % 16 * 16) = UInt8.ofNat (v1 % 16 * 16 + v2 / 4) ↔ v2 / 4 = 0 := by
      rw [← UInt8.toNat_inj, UInt8.toNat_ofNat', UInt8.toNat_ofNat']
      omega
    have hthird : 0 = UInt8.ofNat (v2 % 4 * 64 + v3) ↔ v2 % 4 * 64 + v3 = 0 := by
      rw [← UInt8.toNat_inj, UInt8.toNat_ofNat']
      show 0 = _ ↔ _
      omega
    simp only [kept, octets, List.map_cons, EndsInAA, List.cons.injEq, true_and, hsecond, hthird, ih hrest,
      digit_eq_zero_iff variant h2, digit_eq_zero_iff variant h3]
    have hzero : v2 / 4 = 0 ∧ v2 % 4 * 64 + v3 = 0 ↔ v2 = 0 ∧ v3 = 0 := by omega
    rw [← and_assoc, hzero]
  | case2 vs hno =>
    rcases vs with _ | ⟨v0, _ | ⟨v1, _ | ⟨v2, _ | ⟨v3, rest⟩⟩⟩⟩
    · simp [kept, octets, EndsInAA]
    · simp [kept, octets, EndsInAA]
    · simp [kept, octets, EndsInAA]
    · simp [kept, octets, EndsInAA]
    · exact absurd rfl (hno v0 v1 v2 v3 rest)

/-- The bytes of three digits. -/
theorem regroup_three {v0 v1 v2 : Nat} (h0 : v0 < 64) (h1 : v1 < 64) (h2 : v2 < 64) :
    regroup 8 2 ([v0, v1, v2].flatMap (bits 6)) = [v0 * 4 + v1 / 16, v1 % 16 * 16 + v2 / 4] := by
  have hbytes : ∀ b ∈ [v0 * 4 + v1 / 16, v1 % 16 * 16 + v2 / 4], b < 2 ^ 8 := by
    intro b hb
    simp only [List.mem_cons, List.not_mem_nil, or_false] at hb
    omega
  have hread := Radix.regroup_flatMap hbytes 0 (bits 2 v2)
  simp only [List.flatMap_cons, List.flatMap_nil, List.append_nil, List.append_assoc] at hread ⊢
  rw [bits_three h0 h1 h2]
  exact hread

/-- The byte of two digits. -/
theorem regroup_two {v0 v1 : Nat} (h0 : v0 < 64) (h1 : v1 < 64) :
    regroup 8 1 ([v0, v1].flatMap (bits 6)) = [v0 * 4 + v1 / 16] := by
  have hbytes : ∀ b ∈ [v0 * 4 + v1 / 16], b < 2 ^ 8 := by
    intro b hb
    rw [List.mem_singleton.mp hb]
    omega
  have hread := Radix.regroup_flatMap hbytes 0 (bits 4 v1)
  simp only [List.flatMap_cons, List.flatMap_nil, List.append_nil] at hread ⊢
  rw [bits_two h0 h1]
  exact hread

/-- What is looked up for two digits below 64 is never their byte. -/
theorem lookedUp_ne (variant : Base64Variant) {v0 v1 : Nat} (h0 : v0 < 64) (h1 : v1 < 64) (hc0 : (digit variant v0).toNat < 64)
    (hc1 : (digit variant v1).toNat < 64) :
    lookedUp variant (digit variant v0) (digit variant v1) ≠ UInt8.ofNat (v0 * 4 + v1 / 16) := by
  have hlow : ∀ v : Fin 64, (digit variant v).toNat < 64 → 52 ≤ (v : Nat) := by
    cases variant <;> decide
  have hne : ∀ i j : Fin 12, (digit variant (52 + i)).toNat < 64 → (digit variant (52 + j)).toNat < 64 →
      lookedUp variant (digit variant (52 + i)) (digit variant (52 + j)) ≠ UInt8.ofNat ((52 + i) * 4 + (52 + j) / 16) := by
    cases variant <;> decide +kernel
  have hv0 := hlow ⟨v0, h0⟩ hc0
  have hv1 := hlow ⟨v1, h1⟩ hc1
  obtain ⟨i, rfl⟩ := Nat.exists_eq_add_of_le hv0
  obtain ⟨j, rfl⟩ := Nat.exists_eq_add_of_le hv1
  exact hne ⟨i, by omega⟩ ⟨j, by omega⟩ hc0 hc1

/-! ## The decoder and RFC 4648 -/

/-- A call with a buffer that is large enough accepts a text exactly when it is one, and leaves the bytes that it stands for and
their number; else it leaves the number alone. -/
def DecodesRfc (variant : Base64Variant) (t : List UInt8) : Prop :=
  ∀ buf : List UInt8, 6 * (rfcBody t).length / 8 ≤ buf.length →
    ∃ o, base64Decode (.bytes t) (some buf) variant = some o ∧
      match rfcDecode variant t with
      | some bytes =>
        o.result = true ∧ o.state.outSize = some bytes.length ∧ o.state.buf = some (bytes ++ buf.drop bytes.length)
      | none => o.result = false ∧ o.state.outSize = none

/-- The text is rejected for its length or for a character of a whole group; or it does not leave two characters after the
groups, and either one of those that it leaves is outside the alphabet, or every group ends in `AA`. -/
def DecodesWell (variant : Base64Variant) (t : List UInt8) : Prop :=
  (textFinal t).length = 1 ∨ (∃ c ∈ textGroups t, c ∉ rfcAlphabet variant) ∨
    (textFinal t).length ≠ 2 ∧ ((∃ c ∈ textFinal t, c ∉ rfcAlphabet variant) ∨ EndsInAA (textGroups t))

section

variable {variant : Base64Variant} {t : List UInt8}

/-- A text with a character outside the alphabet, or one character too many, is none. -/
theorem rfcDecode_none (h : (textFinal t).length = 1 ∨ ∃ c ∈ textGroups t ++ textFinal t, c ∉ rfcAlphabet variant) :
    rfcDecode variant t = none := by
  rw [rfcDecode, if_neg]
  rintro ⟨hmod, hall⟩
  rcases h with hone | ⟨c, hc, hout⟩
  · exact hmod ((length_textFinal t).symm.trans hone)
  · rw [← rfcBody_eq_append] at hc
    exact hout (List.contains_iff_mem.mp (List.all_eq_true.mp hall c hc))

/-- The bits of a text of the alphabet. -/
theorem bits_text {vs : List Nat} (hvs : ∀ v ∈ vs, v < 64) :
    ((vs.map (digit variant)).flatMap fun c => bits 6 ((rfcAlphabet variant).idxOf c)) = vs.flatMap (bits 6) := by
  induction vs with
  | nil => rfl
  | cons v vs ih =>
    rw [List.map_cons, List.flatMap_cons, List.flatMap_cons, idxOf_digit variant (hvs v List.mem_cons_self),
      ih fun w hw => hvs w (List.mem_cons_of_mem v hw)]

/-- The bytes of a text of the alphabet: those of its groups, and those of the digits after them. -/
theorem rfcDecode_some {vs ws : List Nat} (hvs : ∀ v ∈ vs, v < 64) (hws : ∀ w ∈ ws, w < 64)
    (hgroups : textGroups t = vs.map (digit variant)) (hfinal : textFinal t = ws.map (digit variant)) (hone : ws.length ≠ 1) :
    rfcDecode variant t =
      some ((octets vs).map UInt8.ofNat ++ (regroup 8 (6 * ws.length / 8) (ws.flatMap (bits 6))).map UInt8.ofNat) := by
  have hvlen := length_of_groups hgroups
  have hwlen := length_of_final hfinal
  have hall : ∀ v ∈ vs ++ ws, v < 64 := by
    intro v hv
    rcases List.mem_append.mp hv with hv | hv
    · exact hvs v hv
    · exact hws v hv
  have hbody : rfcBody t = (vs ++ ws).map (digit variant) := by
    rw [rfcBody_eq_append, hgroups, hfinal, List.map_append]
  have hmem : (rfcBody t).all (rfcAlphabet variant).contains = true := by
    refine List.all_eq_true.mpr fun c hc => List.contains_iff_mem.mpr ?_
    rw [hbody] at hc
    obtain ⟨v, hv, rfl⟩ := List.mem_map.mp hc
    exact digit_mem variant (hall v hv)
  have hcount : 6 * (rfcBody t).length / 8 = (octets vs).length + 6 * ws.length / 8 := by
    rw [length_octets]
    omega
  rw [rfcDecode, if_pos ⟨by omega, hmem⟩, hcount, hbody, bits_text hall, List.flatMap_append, bits_octets vs hvs (by omega),
    Radix.regroup_flatMap (octets_lt vs hvs), List.map_append]

/-- A text that is rejected for its length or for a character of a group. -/
theorem decodesRfc_of_groups (h : (textFinal t).length = 1 ∨ ∃ c ∈ textGroups t, c ∉ rfcAlphabet variant) :
    DecodesRfc variant t := by
  intro buf hbuf
  have hrfc : rfcDecode variant t = none := by
    refine rfcDecode_none (h.imp_right ?_)
    rintro ⟨c, hc, hout⟩
    exact ⟨c, List.mem_append_left _ hc, hout⟩
  rw [hrfc]
  by_cases hmod : t.length % 4 = 1
  · exact ⟨_, base64Decode_length hmod, rfl, rfl⟩
  · have hbad := h.resolve_left fun hone => hmod ((length_mod_iff t).mpr ((length_textFinal t).symm.trans hone))
    obtain ⟨out, hout⟩ := base64Decode_error hmod hbuf hbad
    exact ⟨_, hout, rfl, rfl⟩

/-- Three characters after groups of the alphabet that are not all in the alphabet. -/
theorem decodesRfc_of_three {vs : List Nat} (hvs : ∀ v ∈ vs, v < 64) (hgroups : textGroups t = vs.map (digit variant))
    (h3 : (textFinal t).length = 3) (hbad : ∃ c ∈ textFinal t, c ∉ rfcAlphabet variant) : DecodesRfc variant t := by
  intro buf hbuf
  have hrfc : rfcDecode variant t = none := by
    refine rfcDecode_none (.inr ?_)
    obtain ⟨c, hc, hout⟩ := hbad
    exact ⟨c, List.mem_append_right _ hc, hout⟩
  have hlen := (length_textFinal t).symm.trans h3
  obtain ⟨c0, c1, c2, hfinal⟩ := List.length_eq_three.mp h3
  obtain ⟨pads, hcall⟩ := base64Decode_groups (by omega) hbuf hvs hgroups
  rw [hfinal] at hbad hcall
  rw [hlen, decodeTail_three_error variant hbad] at hcall
  rw [hrfc]
  exact ⟨_, hcall, rfl, rfl⟩

/-- No character, or three, of the alphabet, after groups of the alphabet. -/
theorem base64Decode_valid {vs ws : List Nat} (hvs : ∀ v ∈ vs, v < 64) (hws : ∀ w ∈ ws, w < 64)
    (hgroups : textGroups t = vs.map (digit variant)) (hfinal : textFinal t = ws.map (digit variant))
    (hlen : ws.length = 0 ∨ ws.length = 3) {buf : List UInt8} (hbuf : 6 * (rfcBody t).length / 8 ≤ buf.length) :
    base64Decode (.bytes t) (some buf) variant =
      some { result := true
             state := ⟨some ((kept vs ++ (regroup 8 (6 * ws.length / 8) (ws.flatMap (bits 6))).map UInt8.ofNat) ++
               buf.drop (6 * (rfcBody t).length / 8)), some (6 * (rfcBody t).length / 8)⟩ } := by
  have hvlen := length_of_groups hgroups
  have hwlen := length_of_final hfinal
  have hkept := length_kept vs
  have hone : (textFinal t).length ≠ 1 := by
    rw [length_textFinal]
    omega
  obtain ⟨pads, hcall⟩ := base64Decode_groups hone hbuf hvs hgroups
  rw [hcall, ← hwlen]
  rcases hlen with hzero | hthree
  · obtain rfl : ws = [] := List.length_eq_zero_iff.mp hzero
    have hsize : (kept vs).length = 6 * (rfcBody t).length / 8 := by
      rw [List.length_nil] at hwlen
      omega
    rw [hsize]
    simp [decodeTail, Cursor.cells, regroup]
  · obtain ⟨v0, v1, v2, rfl⟩ := List.length_eq_three.mp hthree
    simp only [List.mem_cons, List.not_mem_nil, or_false, forall_eq_or_imp, forall_eq] at hws
    obtain ⟨h0, h1, h2⟩ := hws
    have hsize : (kept vs).length + 2 = 6 * (rfcBody t).length / 8 := by
      rw [hthree] at hwlen
      omega
    have hroom : [UInt8.ofNat (v0 * 4 + v1 / 16), UInt8.ofNat (v1 % 16 * 16 + v2 / 4)].length
        ≤ (Cursor.mk (kept vs) (buf.drop (kept vs).length)).rest.length := by
      rw [List.length_drop]
      show 2 ≤ _
      omega
    have htail := decodeTail_three variant h0 h1 h2 pads ⟨kept vs, buf.drop (kept vs).length⟩
    rw [Cursor.putAll_eq_some hroom, Option.map_some] at htail
    rw [hfinal, List.map_cons, List.map_cons, List.map_cons, List.map_nil, hthree, htail, Option.bind_some, ← hsize]
    have hread := regroup_three h0 h1 h2
    simp only [Cursor.cells, hread, List.map_cons, List.map_nil, List.drop_drop]
    rfl

/-- Two characters after groups of the alphabet: past the table, or wrong. -/
theorem not_decodesRfc_of_two {vs : List Nat} (hvs : ∀ v ∈ vs, v < 64) (hgroups : textGroups t = vs.map (digit variant))
    (h2 : (textFinal t).length = 2) : ¬ DecodesRfc variant t := by
  intro h
  have hbuf := Nat.le_of_eq (List.length_replicate (n := 6 * (rfcBody t).length / 8) (a := (0 : UInt8))).symm
  obtain ⟨o, hcall, hres⟩ := h _ hbuf
  by_cases hpast : ∃ c ∈ textFinal t, 64 ≤ c.toNat
  · rw [base64Decode_two_none hbuf hvs hgroups h2 hpast] at hcall
    cases hcall
  · obtain ⟨c0, c1, hfinal⟩ := List.length_eq_two.mp h2
    simp only [hfinal, List.mem_cons, List.not_mem_nil, or_false, exists_eq_or_imp, exists_eq_left, not_or, Nat.not_le] at hpast
    obtain ⟨h0, h1⟩ := hpast
    rw [base64Decode_two hbuf hvs hgroups hfinal h0 h1] at hcall
    obtain rfl := Option.some.inj hcall
    by_cases hmem : ∀ c ∈ textFinal t, c ∈ rfcAlphabet variant
    · -- Both are digits, and the byte of the two is not the one that is written.
      obtain ⟨ws, hws, hwfinal⟩ := exists_digits variant hmem
      obtain ⟨v0, v1, rfl⟩ := List.length_eq_two.mp ((List.length_map _).symm.trans (hwfinal ▸ h2))
      rw [rfcDecode_some hvs hws hgroups hwfinal (by simp)] at hres
      simp only [List.mem_cons, List.not_mem_nil, or_false, forall_eq_or_imp, forall_eq] at hws
      rw [hfinal, List.map_cons, List.map_cons, List.map_nil, List.cons.injEq, List.cons.injEq] at hwfinal
      obtain ⟨rfl, rfl, -⟩ := hwfinal
      obtain ⟨-, -, hbytes⟩ := hres
      have hread := regroup_two hws.1 hws.2
      simp only [List.length_cons, List.length_nil, Nat.reduceAdd, Nat.reduceMul, Nat.reduceDiv, hread, List.map_cons, List.map_nil,
        Option.some.injEq] at hbytes
      have hsame := List.append_inj_left hbytes (by simp [length_kept, length_octets])
      have hlast := List.append_inj_right hsame (by simp [length_kept, length_octets])
      exact lookedUp_ne variant hws.1 hws.2 h0 h1 (List.cons.inj hlast).1
    · -- One is outside the alphabet, and the text is accepted.
      simp only [not_forall] at hmem
      obtain ⟨c, hc, hout⟩ := hmem
      rw [rfcDecode_none (.inr ⟨c, List.mem_append_right _ hc, hout⟩)] at hres
      cases hres.1

/-- No character, or three, of the alphabet, after groups of the alphabet: the groups have to end in `AA`. -/
theorem decodesRfc_valid_iff {vs ws : List Nat} (hvs : ∀ v ∈ vs, v < 64) (hws : ∀ w ∈ ws, w < 64)
    (hgroups : textGroups t = vs.map (digit variant)) (hfinal : textFinal t = ws.map (digit variant))
    (hlen : ws.length = 0 ∨ ws.length = 3) : DecodesRfc variant t ↔ EndsInAA (textGroups t) := by
  have hvlen := length_of_groups hgroups
  have hwlen := length_of_final hfinal
  have hkept : (kept vs).length = ((octets vs).map UInt8.ofNat).length := by
    rw [List.length_map, length_kept, length_octets]
  have hrfc := rfcDecode_some hvs hws hgroups hfinal (by omega)
  have hcount : ((octets vs).map UInt8.ofNat ++ (regroup 8 (6 * ws.length / 8) (ws.flatMap (bits 6))).map UInt8.ofNat).length
      = 6 * (rfcBody t).length / 8 := by
    rw [List.length_append, List.length_map, List.length_map, Radix.length_regroup, length_octets]
    omega
  rw [hgroups, ← kept_eq_octets_iff variant vs hvs]
  constructor
  · intro h
    have hbuf := Nat.le_of_eq (List.length_replicate (n := 6 * (rfcBody t).length / 8) (a := (0 : UInt8))).symm
    obtain ⟨o, hcall, hres⟩ := h _ hbuf
    rw [base64Decode_valid hvs hws hgroups hfinal hlen hbuf] at hcall
    obtain rfl := Option.some.inj hcall
    rw [hrfc] at hres
    obtain ⟨-, -, hbytes⟩ := hres
    have hsame := List.append_inj_left (Option.some.inj hbytes) (by rw [List.length_append, List.length_append, hkept])
    exact List.append_inj_left hsame hkept
  · intro heq buf hbuf
    refine ⟨_, base64Decode_valid hvs hws hgroups hfinal hlen hbuf, ?_⟩
    rw [hrfc]
    simp only [hcount, heq, and_self]

end

/-- For every variant, the decoder does with a text what RFC 4648 says exactly when the text is rejected for its length or in
a whole group, or when no two characters are left after the groups and the others do not hide the digits that the loop drops. -/
theorem decodesRfc_iff (variant : Base64Variant) (t : List UInt8) : DecodesRfc variant t ↔ DecodesWell variant t := by
  by_cases hearly : (textFinal t).length = 1 ∨ ∃ c ∈ textGroups t, c ∉ rfcAlphabet variant
  · constructor
    · intro _
      exact hearly.imp_right .inl
    · intro _
      exact decodesRfc_of_groups hearly
  have hshape : DecodesWell variant t ↔
      (textFinal t).length ≠ 2 ∧ ((∃ c ∈ textFinal t, c ∉ rfcAlphabet variant) ∨ EndsInAA (textGroups t)) := by
    rw [DecodesWell, ← or_assoc]
    exact or_iff_right hearly
  rw [hshape]
  simp only [not_or, not_exists, not_and, not_not] at hearly
  obtain ⟨hone, hmem⟩ := hearly
  obtain ⟨vs, hvs, hgroups⟩ := exists_digits variant hmem
  have hlen : (textFinal t).length < 4 := by
    rw [length_textFinal]
    omega
  by_cases h2 : (textFinal t).length = 2
  · constructor
    · intro h
      exact absurd h (not_decodesRfc_of_two hvs hgroups h2)
    · rintro ⟨hne, -⟩
      exact absurd h2 hne
  by_cases hbad : ∃ c ∈ textFinal t, c ∉ rfcAlphabet variant
  · have h3 : (textFinal t).length = 3 := by
      have hpos : (textFinal t).length ≠ 0 := by
        intro hzero
        obtain ⟨c, hc, -⟩ := hbad
        rw [List.length_eq_zero_iff.mp hzero] at hc
        exact absurd hc List.not_mem_nil
      omega
    constructor
    · intro _
      exact ⟨h2, .inl hbad⟩
    · intro _
      exact decodesRfc_of_three hvs hgroups h3 hbad
  · have hfinal : ∀ c ∈ textFinal t, c ∈ rfcAlphabet variant := by
      simpa only [not_exists, not_and, not_not] using hbad
    obtain ⟨ws, hws, hwfinal⟩ := exists_digits variant hfinal
    have hwlen : ws.length = (textFinal t).length := by
      rw [hwfinal, List.length_map]
    rw [decodesRfc_valid_iff hvs hws hgroups hwfinal (by omega)]
    exact ⟨fun h => ⟨h2, .inr h⟩, fun h => h.2.resolve_left hbad⟩

/-- The text `TWFu` of `Man` gives `M`, a wrong byte and a zero; `TQ==` looks up what is past the table; and `!!`, which is no
text, is accepted. -/
theorem not_decodesRfc_texts :
    base64Decode (.bytes [84, 87, 70, 117]) (some [0, 0, 0]) .std =
        some { result := true, state := ⟨some [77, 96, 0], some 3⟩ } ∧
      rfcDecode .std [84, 87, 70, 117] = some [77, 97, 110] ∧
      base64Decode (.bytes [84, 81, 61, 61]) (some [0]) .std = none ∧ rfcDecode .std [84, 81, 61, 61] = some [77] ∧
      base64Decode (.bytes [33, 33]) (some [0]) .std = some { result := true, state := ⟨some [166], some 1⟩ } ∧
      rfcDecode .std [33, 33] = none ∧ ¬ DecodesRfc .std [84, 87, 70, 117] := by
  refine ⟨rfl, by decide, rfl, by decide, rfl, by decide, fun h => ?_⟩
  obtain ⟨o, hcall, hres⟩ := h [0, 0, 0] (by decide)
  obtain rfl := Option.some.inj hcall
  cases hres.2.2

end Copper
