import Copper.Base64.Basic
import Mathlib.Tactic.NormNum

/-!
# Base64: the alphabet and the two loops

Three bytes are four numbers below 64 (`sextets`), and a text of the alphabet is a list of such numbers (`digit`). The loop of
the encoder writes the text of the sextets of its whole groups; the loop of the decoder accepts the texts of the alphabet, and
of every four numbers it keeps the first two (`kept`).
-/

namespace Copper

/-! ## The alphabet -/

/-- The character of a number below 64. -/
def digit (variant : Base64Variant) (v : Nat) : UInt8 := (base64Char (UInt8.ofNat v) variant).getD 0

theorem base64Char_digit (variant : Base64Variant) {v : Nat} (hv : v < 64) :
    base64Char (UInt8.ofNat v) variant = some (digit variant v) := by
  have h : ∀ v : Fin 64, (base64Char (UInt8.ofNat v) variant).isSome := by
    cases variant <;> decide
  obtain ⟨c, hc⟩ := Option.isSome_iff_exists.mp (h ⟨v, hv⟩)
  rw [digit, hc, Option.getD_some]

/-- The decoder reads a character of the alphabet back. -/
theorem base64Charval_digit (variant : Base64Variant) {v : Nat} (hv : v < 64) : base64Charval (digit variant v) variant = v := by
  have h : ∀ v : Fin 64, base64Charval (digit variant v) variant = (v : Nat) := by
    cases variant <;> decide
  exact h ⟨v, hv⟩

/-- A character of the alphabet is neither the NUL nor the padding character. -/
theorem digit_ne (variant : Base64Variant) {v : Nat} (hv : v < 64) : digit variant v ≠ 0 ∧ digit variant v ≠ 61 := by
  have h : ∀ v : Fin 64, digit variant v ≠ 0 ∧ digit variant v ≠ 61 := by
    cases variant <;> decide
  exact h ⟨v, hv⟩

theorem digit_zero (variant : Base64Variant) : digit variant 0 = 65 := by
  cases variant <;> rfl

theorem digit_inj (variant : Base64Variant) {v w : Nat} (hv : v < 64) (hw : w < 64) (h : digit variant v = digit variant w) :
    v = w := by
  have hval := congrArg (fun c => base64Charval c variant) h
  simp only [base64Charval_digit variant hv, base64Charval_digit variant hw] at hval
  exact Int.ofNat.inj hval

theorem digit_eq_zero_iff (variant : Base64Variant) {v : Nat} (hv : v < 64) : digit variant v = 65 ↔ v = 0 := by
  rw [← digit_zero variant]
  constructor
  · intro h
    exact digit_inj variant hv (by decide) h
  · intro h
    rw [h]

/-- What the decoder does not reject is a character of the alphabet. -/
theorem digit_of_charval (variant : Base64Variant) {c : UInt8} (hc : ¬ base64Charval c variant < 0) :
    (base64Charval c variant).toNat < 64 ∧ digit variant (base64Charval c variant).toNat = c := by
  have h : ∀ c : Fin 256, ¬ base64Charval (UInt8.ofNat c) variant < 0 →
      (base64Charval (UInt8.ofNat c) variant).toNat < 64 ∧
        digit variant (base64Charval (UInt8.ofNat c) variant).toNat = UInt8.ofNat c := by
    cases variant <;> decide +kernel
  have hofNat : UInt8.ofNat c.toNat = c := UInt8.ofNat_toNat
  have h' := h ⟨c.toNat, c.toNat_lt⟩
  simp only [hofNat] at h'
  exact h' hc

/-! ## Shifts and masks as arithmetic -/

theorem shift_or {a b k : Nat} (hb : b < 2 ^ k) : a <<< k ||| b = a * 2 ^ k + b := by
  rw [← Nat.shiftLeft_add_eq_or_of_lt hb, Nat.shiftLeft_eq]

/-- `((uint32_t)in[i] << 16) | ((uint32_t)in[i + 1] << 8) | in[i + 2]`. -/
theorem word_of_bytes {b0 b1 b2 : Nat} (h1 : b1 < 256) (h2 : b2 < 256) :
    b0 <<< 16 ||| b1 <<< 8 ||| b2 = b0 * 65536 + b1 * 256 + b2 := by
  rw [Nat.or_assoc, shift_or (a := b1) (k := 8) h2, shift_or (by omega), Nat.add_assoc]
  norm_num

/-- `((uint32_t)v0 << 18) | ((uint32_t)v1 << 12)`. -/
theorem word_of_digits {v0 v1 : Nat} (h1 : v1 < 64) : v0 <<< 18 ||| v1 <<< 12 = v0 * 262144 + v1 * 4096 := by
  rw [Nat.shiftLeft_eq v1, shift_or (by omega)]
  norm_num

/-- One of the four numbers in a word of 24 bits. -/
theorem shift_mask (n k : Nat) : (n >>> k) &&& 0x3F = n / 2 ^ k % 64 := by
  rw [Nat.shiftRight_eq_div_pow, Nat.and_two_pow_sub_one_eq_mod _ 6]

/-! ## Bytes and numbers below 64 -/

/-- The numbers of the whole groups of three bytes. -/
def sextets : List UInt8 → List Nat
  | b0 :: b1 :: b2 :: rest =>
    b0.toNat / 4 :: (b0.toNat % 4 * 16 + b1.toNat / 16) :: (b1.toNat % 16 * 4 + b2.toNat / 64) :: b2.toNat % 64 :: sextets rest
  | _ => []

/-- The bytes that the decoder's loop makes of whole groups of four numbers: `v2` and `v3` do not enter. -/
def kept : List Nat → List UInt8
  | v0 :: v1 :: _ :: _ :: rest => UInt8.ofNat (v0 * 4 + v1 / 16) :: UInt8.ofNat (v1 % 16 * 16) :: 0 :: kept rest
  | _ => []

/-- Of every three bytes, the low half of the second and the third are zero: what the decoder's loop keeps. -/
def LowZero : List UInt8 → Prop
  | _ :: b1 :: b2 :: rest => (b1.toNat % 16 = 0 ∧ b2 = 0) ∧ LowZero rest
  | _ => True

/-- Of every four characters, the last two are `A`, which stands for zero. -/
def EndsInAA : List UInt8 → Prop
  | _ :: _ :: c2 :: c3 :: rest => (c2 = 65 ∧ c3 = 65) ∧ EndsInAA rest
  | _ => True

/-- A list that is not cut into threes any more. -/
theorem length_lt_three {α : Type} {xs : List α} (hno : ∀ a b c rest, xs = a :: b :: c :: rest → False) : xs.length < 3 := by
  rcases xs with _ | ⟨a, _ | ⟨b, _ | ⟨c, rest⟩⟩⟩
  · simp
  · simp
  · simp
  · exact absurd rfl (hno a b c rest)

/-- A list that is not cut into fours any more. -/
theorem length_lt_four {α : Type} {xs : List α} (hno : ∀ a b c d rest, xs = a :: b :: c :: d :: rest → False) : xs.length < 4 := by
  rcases xs with _ | ⟨a, _ | ⟨b, _ | ⟨c, _ | ⟨d, rest⟩⟩⟩⟩
  · simp
  · simp
  · simp
  · simp
  · exact absurd rfl (hno a b c d rest)

theorem sextets_lt (d : List UInt8) : ∀ v ∈ sextets d, v < 64 := by
  induction d using sextets.induct with
  | case1 b0 b1 b2 rest ih =>
    intro v hv
    have h0 := b0.toNat_lt
    have h1 := b1.toNat_lt
    have h2 := b2.toNat_lt
    simp only [sextets, List.mem_cons] at hv
    rcases hv with rfl | rfl | rfl | rfl | hv
    · omega
    · omega
    · omega
    · omega
    · exact ih v hv
  | case2 d hd =>
    intro v hv
    rw [sextets.eq_2 d hd] at hv
    cases hv

theorem length_sextets (d : List UInt8) : (sextets d).length = 4 * (d.length / 3) := by
  induction d using sextets.induct with
  | case1 b0 b1 b2 rest ih =>
    simp only [sextets, List.length_cons, ih]
    omega
  | case2 d hd =>
    have hlt := length_lt_three hd
    rw [sextets.eq_2 d hd, List.length_nil]
    omega

theorem length_kept (vs : List Nat) : (kept vs).length = 3 * (vs.length / 4) := by
  induction vs using kept.induct with
  | case1 v0 v1 v2 v3 rest ih =>
    simp only [kept, List.length_cons, ih]
    omega
  | case2 vs hvs =>
    have hlt := length_lt_four hvs
    rw [kept.eq_2 vs hvs, List.length_nil]
    omega

/-- What the loop of the decoder makes of the numbers of some bytes: those bytes, where the digits it drops were zero. -/
theorem kept_sextets_iff (d : List UInt8) : kept (sextets d) = d.take (3 * (d.length / 3)) ↔ LowZero d := by
  induction d using sextets.induct with
  | case1 b0 b1 b2 rest ih =>
    have h0 := b0.toNat_lt
    have h1 := b1.toNat_lt
    have h2 := b2.toNat_lt
    have hlen : 3 * ((rest.length + 1 + 1 + 1) / 3) = 3 * (rest.length / 3) + 1 + 1 + 1 := by omega
    simp only [sextets, kept, LowZero, List.length_cons, hlen, List.take_succ_cons, List.cons.injEq, ih]
    have hb0 : UInt8.ofNat (b0.toNat / 4 * 4 + (b0.toNat % 4 * 16 + b1.toNat / 16) / 16) = b0 := by
      have hval : b0.toNat / 4 * 4 + (b0.toNat % 4 * 16 + b1.toNat / 16) / 16 = b0.toNat := by omega
      rw [hval, UInt8.ofNat_toNat]
    have hb1 : UInt8.ofNat ((b0.toNat % 4 * 16 + b1.toNat / 16) % 16 * 16) = b1 ↔ b1.toNat % 16 = 0 := by
      rw [← UInt8.toNat_inj, UInt8.toNat_ofNat']
      omega
    have hb2 : 0 = b2 ↔ b2 = 0 := eq_comm
    rw [hb1, hb2, and_assoc]
    exact ⟨fun h => h.2, fun h => ⟨hb0, h⟩⟩
  | case2 d hd =>
    have hlt := length_lt_three hd
    have hnone : 3 * (d.length / 3) = 0 := by omega
    rw [sextets.eq_2 d hd, LowZero.eq_2 d hd, hnone]
    simp [kept]

/-- The numbers of what the loop of the decoder makes of a text: those of the text, where the last two of every four are zero.
-/
theorem sextets_kept_iff (variant : Base64Variant) (vs : List Nat) (hvs : ∀ v ∈ vs, v < 64) (hlen : vs.length % 4 = 0) :
    sextets (kept vs) = vs ↔ EndsInAA (vs.map (digit variant)) := by
  induction vs using kept.induct with
  | case1 v0 v1 v2 v3 rest ih =>
    simp only [List.mem_cons, forall_eq_or_imp] at hvs
    obtain ⟨h0, h1, h2, h3, hrest⟩ := hvs
    rw [List.length_cons, List.length_cons, List.length_cons, List.length_cons] at hlen
    have hdigit : ∀ v < 64, (0 = v ↔ digit variant v = 65) := by
      intro v hv
      rw [digit_eq_zero_iff variant hv, eq_comm]
    have hb0 : (UInt8.ofNat (v0 * 4 + v1 / 16)).toNat = v0 * 4 + v1 / 16 := UInt8.toNat_ofNat_of_lt' (show _ < 256 by omega)
    have hb1 : (UInt8.ofNat (v1 % 16 * 16)).toNat = v1 % 16 * 16 := UInt8.toNat_ofNat_of_lt' (show _ < 256 by omega)
    have hs0 : (v0 * 4 + v1 / 16) / 4 = v0 := by omega
    have hs1 : (v0 * 4 + v1 / 16) % 4 * 16 + v1 % 16 * 16 / 16 = v1 := by omega
    have hs2 : v1 % 16 * 16 % 16 * 4 + (0 : UInt8).toNat / 64 = 0 := by
      have hz : (0 : UInt8).toNat = 0 := rfl
      omega
    have hs3 : (0 : UInt8).toNat % 64 = 0 := rfl
    simp only [kept, sextets, List.map_cons, EndsInAA, List.cons.injEq, hb0, hb1, hs0, hs1, hs2, hs3, true_and,
      ih hrest (by omega), hdigit v2 h2, hdigit v3 h3, and_assoc]
  | case2 vs hno =>
    have hlt := length_lt_four hno
    obtain rfl : vs = [] := List.length_eq_zero_iff.mp (by omega)
    simp [kept, sextets, EndsInAA]

/-! ## The loops -/

/-- `putChar` of a number below 64. -/
theorem putChar_eq (variant : Base64Variant) {v : Nat} (hv : v < 64) (out : Cursor UInt8) :
    putChar variant v out = out.put (digit variant v) := by
  rw [putChar, base64Char_digit variant hv, Option.bind_some]

/-- The loop of the encoder writes the text of its whole groups, and leaves the bytes after them. -/
theorem encodeGroups_eq (variant : Base64Variant) (d : List UInt8) (out : Cursor UInt8) :
    encodeGroups variant d out =
      (out.putAll ((sextets d).map (digit variant))).map fun out => (d.drop (3 * (d.length / 3)), out) := by
  induction d, out using encodeGroups.induct with
  | case1 b0 b1 b2 rest out ih =>
    have h0 := b0.toNat_lt
    have h1 := b1.toNat_lt
    have h2 := b2.toNat_lt
    have hlen : 3 * ((rest.length + 1 + 1 + 1) / 3) = 3 * (rest.length / 3) + 1 + 1 + 1 := by omega
    have hn0 : (b0.toNat * 65536 + b1.toNat * 256 + b2.toNat) / 2 ^ 18 % 64 = b0.toNat / 4 := by omega
    have hn1 : (b0.toNat * 65536 + b1.toNat * 256 + b2.toNat) / 2 ^ 12 % 64 = b0.toNat % 4 * 16 + b1.toNat / 16 := by omega
    have hn2 : (b0.toNat * 65536 + b1.toNat * 256 + b2.toNat) / 2 ^ 6 % 64 = b1.toNat % 16 * 4 + b2.toNat / 64 := by omega
    have hn3 : (b0.toNat * 65536 + b1.toNat * 256 + b2.toNat) &&& 0x3F = b2.toNat % 64 := by
      rw [Nat.and_two_pow_sub_one_eq_mod _ 6]
      omega
    simp only [encodeGroups, word_of_bytes h1 h2, shift_mask, hn0, hn1, hn2, hn3, sextets, List.map_cons, Cursor.putAll,
      List.length_cons, hlen, List.drop_succ_cons]
    rw [putChar_eq variant (by omega)]
    refine .trans (Option.bind_congr fun out _ => ?_) Option.map_bind.symm
    rw [putChar_eq variant (by omega)]
    refine .trans (Option.bind_congr fun out _ => ?_) Option.map_bind.symm
    rw [putChar_eq variant (by omega)]
    refine .trans (Option.bind_congr fun out _ => ?_) Option.map_bind.symm
    rw [putChar_eq variant (by omega)]
    refine .trans (Option.bind_congr fun out _ => ?_) Option.map_bind.symm
    exact ih out
  | case2 rest out hno =>
    have hlt := length_lt_three hno
    have hnone : 3 * (rest.length / 3) = 0 := by omega
    rw [encodeGroups.eq_2 variant rest out hno, sextets.eq_2 rest hno, hnone]
    rfl

/-- The loop of the decoder accepts the text of any numbers below 64, and leaves the characters after its groups. -/
theorem decodeGroups_eq (variant : Base64Variant) {vs : List Nat} (hvs : ∀ v ∈ vs, v < 64) {g : Nat} (hlen : vs.length = 4 * g)
    (rest : List UInt8) (out : Cursor UInt8) :
    decodeGroups variant g (vs.map (digit variant) ++ rest) out = (out.putAll (kept vs)).map fun out => .ok (rest, out) := by
  induction g generalizing vs out with
  | zero =>
    obtain rfl : vs = [] := List.length_eq_zero_iff.mp hlen
    rfl
  | succ g ih =>
    rcases vs with _ | ⟨v0, _ | ⟨v1, _ | ⟨v2, _ | ⟨v3, vs⟩⟩⟩⟩
    iterate 4 · simp only [List.length_nil, List.length_cons] at hlen; omega
    simp only [List.mem_cons, forall_eq_or_imp] at hvs
    obtain ⟨h0, h1, h2, h3, hrest⟩ := hvs
    rw [List.length_cons, List.length_cons, List.length_cons, List.length_cons] at hlen
    have hneg : ∀ v : Nat, ¬ (v : Int) < 0 := fun v => by omega
    have hn0 : (v0 * 262144 + v1 * 4096) >>> 16 = v0 * 4 + v1 / 16 := by
      rw [Nat.shiftRight_eq_div_pow]
      omega
    have hn1 : UInt8.ofNat ((v0 * 262144 + v1 * 4096) >>> 8) = UInt8.ofNat (v1 % 16 * 16) := by
      rw [← UInt8.toNat_inj, UInt8.toNat_ofNat', UInt8.toNat_ofNat', Nat.shiftRight_eq_div_pow]
      omega
    have hn2 : UInt8.ofNat (v0 * 262144 + v1 * 4096) = 0 := by
      rw [← UInt8.toNat_inj, UInt8.toNat_ofNat']
      show _ = 0
      omega
    simp only [decodeGroups, List.map_cons, List.cons_append, List.getElem?_cons_zero, List.getElem?_cons_succ,
      Option.bind_eq_bind, Option.bind_some, base64Charval_digit variant h0, base64Charval_digit variant h1,
      base64Charval_digit variant h2, base64Charval_digit variant h3, hneg, or_self, if_false, Int.toNat_natCast,
      word_of_digits h1, hn0, hn1, hn2, kept, Cursor.putAll, List.drop_succ_cons, List.drop_zero]
    refine .trans (Option.bind_congr fun out _ => ?_) Option.map_bind.symm
    refine .trans (Option.bind_congr fun out _ => ?_) Option.map_bind.symm
    refine .trans (Option.bind_congr fun out _ => ?_) Option.map_bind.symm
    exact ih hrest (by omega) out

/-- What the loop of the decoder accepts is a text of the alphabet. -/
theorem decodeGroups_some {variant : Base64Variant} {g : Nat} {text rest : List UInt8} {out out' : Cursor UInt8}
    (h : decodeGroups variant g text out = some (.ok (rest, out'))) :
    ∃ vs : List Nat, vs.length = 4 * g ∧ (∀ v ∈ vs, v < 64) ∧ text = vs.map (digit variant) ++ rest := by
  induction g generalizing text out with
  | zero =>
    simp only [decodeGroups, Option.some.injEq, Except.ok.injEq, Prod.mk.injEq] at h
    exact ⟨[], rfl, fun v hv => absurd hv List.not_mem_nil, h.1⟩
  | succ g ih =>
    rcases text with _ | ⟨c0, _ | ⟨c1, _ | ⟨c2, _ | ⟨c3, text⟩⟩⟩⟩
    iterate 4 · simp [decodeGroups] at h
    simp only [decodeGroups, List.getElem?_cons_zero, List.getElem?_cons_succ, Option.bind_eq_bind, Option.bind_some] at h
    split at h
    · cases h
    · rename_i hneg
      simp only [not_or] at hneg
      obtain ⟨hneg0, hneg1, hneg2, hneg3⟩ := hneg
      obtain ⟨h0, hc0⟩ := digit_of_charval variant hneg0
      obtain ⟨h1, hc1⟩ := digit_of_charval variant hneg1
      obtain ⟨h2, hc2⟩ := digit_of_charval variant hneg2
      obtain ⟨h3, hc3⟩ := digit_of_charval variant hneg3
      obtain ⟨out1, _, h⟩ := Option.bind_eq_some_iff.mp h
      obtain ⟨out2, _, h⟩ := Option.bind_eq_some_iff.mp h
      obtain ⟨out3, _, h⟩ := Option.bind_eq_some_iff.mp h
      obtain ⟨vs, hlen, hvs, htext⟩ := ih h
      let val : UInt8 → Nat := fun c => (base64Charval c variant).toNat
      refine ⟨val c0 :: val c1 :: val c2 :: val c3 :: vs, ?_, ?_, ?_⟩
      · simp only [List.length_cons, hlen]
        omega
      · simp only [List.mem_cons, forall_eq_or_imp]
        exact ⟨h0, h1, h2, h3, hvs⟩
      · rw [List.drop_succ_cons, List.drop_succ_cons, List.drop_succ_cons, List.drop_succ_cons, List.drop_zero] at htext
        rw [htext]
        simp only [val, List.map_cons, List.cons_append, hc0, hc1, hc2, hc3]

end Copper
