import Copper.Base64.Calls
import Copper.Foundation.Radix
import Mathlib.Data.List.GetD

/-!
# Base64 as RFC 4648 has it

The encoding that `base64.h` promises, stated without the code: the bits of the bytes, highest first, are cut into groups of six,
the last of them filled up with zeros, and each group is a character of the alphabet. A padded text is filled up to a multiple
of four characters. Decoding takes the padding off, and cuts the bits of the characters into bytes; bits that are left over do
not count.
-/

namespace Copper

open Radix (bits regroup)

/-- The 64 characters, in order. -/
def rfcAlphabet (variant : Base64Variant) : List UInt8 :=
  (List.range 26).map (fun i => UInt8.ofNat (65 + i)) ++ (List.range 26).map (fun i => UInt8.ofNat (97 + i)) ++
    (List.range 10).map (fun i => UInt8.ofNat (48 + i)) ++
    match variant with
    | .std => [43, 47]
    | .url => [45, 95]

/-- The numbers of the groups of six bits. -/
def rfcDigits (d : List UInt8) : List Nat := regroup 6 ((8 * d.length + 5) / 6) (d.flatMap fun b => bits 8 b.toNat)

/-- The encoding of some bytes. -/
def rfcEncode (variant : Base64Variant) (pad : Bool) (d : List UInt8) : List UInt8 :=
  let chars := (rfcDigits d).map fun v => (rfcAlphabet variant).getD v 0
  if pad then chars.rightpad ((chars.length + 3) / 4 * 4) 61 else chars

/-- A text without its padding: at most two `=`, if its length is a multiple of four. -/
def rfcBody (t : List UInt8) : List UInt8 :=
  if t.length % 4 = 0 ∧ t.getLast? = some 61 then
    if t.dropLast.getLast? = some 61 then t.dropLast.dropLast else t.dropLast
  else t

/-- The bytes that a text stands for, if it is one. -/
def rfcDecode (variant : Base64Variant) (t : List UInt8) : Option (List UInt8) :=
  let body := rfcBody t
  if body.length % 4 ≠ 1 ∧ body.all (rfcAlphabet variant).contains = true then
    some ((regroup 8 (6 * body.length / 8) (body.flatMap fun c => bits 6 ((rfcAlphabet variant).idxOf c))).map UInt8.ofNat)
  else none

/-! ## The alphabet -/

/-- The encoder's table is the alphabet. -/
theorem rfcAlphabet_eq (variant : Base64Variant) {v : Nat} (hv : v < 64) : (rfcAlphabet variant).getD v 0 = digit variant v := by
  have h : ∀ v : Fin 64, (rfcAlphabet variant).getD v 0 = digit variant v := by
    cases variant <;> decide
  exact h ⟨v, hv⟩

/-- There are 64 letters. -/
theorem length_rfcAlphabet (variant : Base64Variant) : (rfcAlphabet variant).length = 64 := by
  cases variant <;> rfl

/-- A digit is one of the letters. -/
theorem digit_mem (variant : Base64Variant) {v : Nat} (hv : v < 64) : digit variant v ∈ rfcAlphabet variant := by
  have hlen : v < (rfcAlphabet variant).length := by
    rw [length_rfcAlphabet]
    exact hv
  rw [← rfcAlphabet_eq variant hv, List.getD_eq_getElem _ _ hlen]
  exact List.getElem_mem hlen

/-- So is the decoder's. -/
theorem mem_rfcAlphabet_iff (variant : Base64Variant) (c : UInt8) :
    c ∈ rfcAlphabet variant ↔ ¬ base64Charval c variant < 0 := by
  constructor
  · intro hc
    obtain ⟨v, hv, rfl⟩ := List.mem_iff_getElem.mp hc
    rw [length_rfcAlphabet] at hv
    rw [← List.getD_eq_getElem _ 0, rfcAlphabet_eq variant hv, base64Charval_digit variant hv]
    omega
  · intro hc
    obtain ⟨hv, hdigit⟩ := digit_of_charval variant hc
    rw [← hdigit]
    exact digit_mem variant hv

/-- A digit is found at its value. -/
theorem idxOf_digit (variant : Base64Variant) {v : Nat} (hv : v < 64) : (rfcAlphabet variant).idxOf (digit variant v) = v := by
  have h : ∀ v : Fin 64, (rfcAlphabet variant).idxOf (digit variant v) = v := by
    cases variant <;> decide
  exact h ⟨v, hv⟩

/-- A text of the alphabet is the text of some numbers. -/
theorem exists_digits (variant : Base64Variant) {t : List UInt8} (h : ∀ c ∈ t, c ∈ rfcAlphabet variant) :
    ∃ vs : List Nat, (∀ v ∈ vs, v < 64) ∧ t = vs.map (digit variant) := by
  induction t with
  | nil => exact ⟨[], fun v hv => absurd hv List.not_mem_nil, rfl⟩
  | cons c t ih =>
    obtain ⟨vs, hvs, rfl⟩ := ih fun d hd => h d (List.mem_cons_of_mem c hd)
    obtain ⟨hlt, hc⟩ := digit_of_charval variant ((mem_rfcAlphabet_iff variant c).mp (h c List.mem_cons_self))
    refine ⟨(base64Charval c variant).toNat :: vs, ?_, ?_⟩
    · intro v hv
      rcases List.mem_cons.mp hv with rfl | hv
      · exact hlt
      · exact hvs v hv
    · rw [List.map_cons, hc]

end Copper
