import Mathlib.Data.Nat.Digits.Defs

/-!
# Numbers and bytes

The bytes of a number, the lowest first (`bytes`), and the number that bytes stand for (`value`), as digits to the base 256. For a
word of `w` bits, `reverse` is the word whose bytes stand the other way round; its bits are found by their place in a byte and the
byte's place in the word (`getLsbD_reverse`), and so are those of a byte that a mask and a shift move to another place
(`getLsbD_place`), so that a swap written out with masks is checked byte by byte.
-/

namespace Bytes

/-- The low `n` bytes of a number, the lowest first. -/
def bytes : Nat → Nat → List UInt8
  | 0, _ => []
  | n + 1, v => UInt8.ofNat v :: bytes n (v / 256)

/-- The number that bytes stand for, the lowest first. -/
def value (bs : List UInt8) : Nat := Nat.ofDigits 256 (bs.map UInt8.toNat)

variable {n v w i : Nat}

/-- The length of the bytes of a number. -/
@[simp] theorem length_bytes (n v : Nat) : (bytes n v).length = n := by
  induction n generalizing v with
  | zero => rfl
  | succ n ih => rw [bytes, List.length_cons, ih]

/-- The first byte counts least. -/
theorem value_cons (b : UInt8) (bs : List UInt8) : value (b :: bs) = b.toNat + 256 * value bs :=
  Nat.ofDigits_cons

/-- A byte of a number. -/
theorem getElem?_bytes (h : i < n) : (bytes n v)[i]? = some (UInt8.ofNat (v / 256 ^ i)) := by
  induction n generalizing v i with
  | zero => exact absurd h (Nat.not_lt_zero i)
  | succ n ih =>
    cases i with
    | zero => rw [bytes, List.getElem?_cons_zero, Nat.pow_zero, Nat.div_one]
    | succ i => rw [bytes, List.getElem?_cons_succ, ih (Nat.lt_of_succ_lt_succ h), Nat.div_div_eq_div_mul, Nat.pow_succ']

/-- The bytes of a list are worth less than the next power of 256. -/
theorem value_lt (bs : List UInt8) : value bs < 256 ^ bs.length := by
  rw [value, ← List.length_map (f := UInt8.toNat)]
  refine Nat.ofDigits_lt_base_pow_length (by decide) fun d hd => ?_
  obtain ⟨b, -, rfl⟩ := List.mem_map.mp hd
  exact b.toNat_lt

/-- The bytes of a number are worth the number. -/
theorem value_bytes (h : v < 256 ^ n) : value (bytes n v) = v := by
  induction n generalizing v with
  | zero =>
    rw [Nat.pow_zero, Nat.lt_one_iff] at h
    exact h.symm
  | succ n ih =>
    rw [Nat.pow_succ'] at h
    rw [bytes, value_cons, ih (Nat.div_lt_of_lt_mul h), UInt8.toNat_ofNat']
    exact Nat.mod_add_div v 256

/-- The bytes of what a list is worth are the list. -/
theorem bytes_value (bs : List UInt8) : bytes bs.length (value bs) = bs := by
  induction bs with
  | nil => rfl
  | cons b bs ih =>
    have hb : b.toNat < 256 := b.toNat_lt
    have hlow : UInt8.ofNat (b.toNat + 256 * value bs) = b := by
      rw [← UInt8.toNat_inj, UInt8.toNat_ofNat']
      omega
    have hhigh : (b.toNat + 256 * value bs) / 256 = value bs := by omega
    rw [List.length_cons, bytes, value_cons, hlow, hhigh, ih]

/-- The number that bytes stand for is a sum. -/
theorem value_eq_sum (f : Nat → UInt8) (n : Nat) :
    value ((List.range n).map f) = ((List.range n).map fun i => (f i).toNat * 256 ^ i).sum := by
  induction n with
  | zero => rfl
  | succ n ih =>
    rw [List.range_succ, List.map_append, List.map_append, List.sum_append, ← ih, value, value, List.map_append,
      Nat.ofDigits_append]
    simp [Nat.mul_comm]

/-- A bit of a number, in the byte where it stands. -/
theorem testBit_value (bs : List UInt8) (i : Nat) : (value bs).testBit i = ((bs[i / 8]?).getD 0).toNat.testBit (i % 8) := by
  induction bs generalizing i with
  | nil => exact (Nat.zero_testBit i).trans (Nat.zero_testBit (i % 8)).symm
  | cons b bs ih =>
    have hb : b.toNat < 2 ^ 8 := b.toNat_lt
    rw [value_cons, Nat.add_comm, show 256 = 2 ^ 8 from rfl, Nat.testBit_two_pow_mul_add _ hb]
    split
    · rename_i hlow
      rw [Nat.div_eq_of_lt hlow, Nat.mod_eq_of_lt hlow, List.getElem?_cons_zero, Option.getD_some]
    · rename_i hhigh
      rw [ih, show i / 8 = (i - 8) / 8 + 1 by omega, show i % 8 = (i - 8) % 8 by omega, List.getElem?_cons_succ]

/-! ## Words -/

variable {v : BitVec w}

/-- The word with the bytes in the opposite order. -/
def reverse (v : BitVec w) : BitVec w := BitVec.ofNat w (value (bytes (w / 8) v.toNat).reverse)

/-- A bit of the reversed word is the bit at the same place in the byte across. -/
theorem getLsbD_reverse (hw : 8 ∣ w) (v : BitVec w) (hi : i < w) :
    (reverse v).getLsbD i = v.getLsbD (8 * (w / 8 - 1 - i / 8) + i % 8) := by
  have hbyte : i / 8 < w / 8 := by omega
  rw [reverse, BitVec.getLsbD_ofNat, decide_eq_true hi, Bool.true_and, testBit_value,
    List.getElem?_reverse (by rwa [length_bytes]), length_bytes, getElem?_bytes (by omega), Option.getD_some,
    UInt8.toNat_ofNat', Nat.testBit_mod_two_pow, decide_eq_true (Nat.mod_lt i (by decide)), Bool.true_and,
    show 256 = 2 ^ 8 from rfl, ← Nat.pow_mul, Nat.testBit_div_two_pow, Nat.add_comm]
  rfl

/-- The byte at place `k` of a word, alone and at place `j`: masked out where it stands, then shifted. -/
def place (v : BitVec w) (k j : Nat) : BitVec w :=
  let masked := v &&& (0xff#w <<< (8 * k))
  if k ≤ j then masked <<< (8 * (j - k)) else masked >>> (8 * (k - j))

/-- The mask of a byte leaves the bits of that byte. -/
theorem getLsbD_masked (v : BitVec w) (k : Nat) (hi : i < w) :
    (v &&& (0xff#w <<< (8 * k))).getLsbD i = (decide (i / 8 = k) && v.getLsbD i) := by
  have hmask : (0xff#w <<< (8 * k)).getLsbD i = decide (i / 8 = k) := by
    rw [BitVec.getLsbD_shiftLeft, BitVec.getLsbD_ofNat, show 0xff = 2 ^ 8 - 1 from rfl, Nat.testBit_two_pow_sub_one, Bool.eq_iff_iff]
    simp only [Bool.and_eq_true, Bool.not_eq_true', decide_eq_true_eq, decide_eq_false_iff_not]
    omega
  rw [BitVec.getLsbD_and, hmask, Bool.and_comm]

/-- The bits of a byte that was moved. -/
theorem getLsbD_place {j k : Nat} (hk : 8 * k + 8 ≤ w) (v : BitVec w) (hi : i < w) :
    (place v k j).getLsbD i = (decide (i / 8 = j) && v.getLsbD (8 * k + i % 8)) := by
  unfold place
  dsimp only
  by_cases hbyte : i / 8 = j
  · rw [decide_eq_true hbyte, Bool.true_and]
    split
    · rw [BitVec.getLsbD_shiftLeft, decide_eq_true hi, decide_eq_false (by omega), getLsbD_masked v k (by omega),
        show i - 8 * (j - k) = 8 * k + i % 8 by omega, decide_eq_true (by omega)]
      rfl
    · rw [BitVec.getLsbD_ushiftRight, show 8 * (k - j) + i = 8 * k + i % 8 by omega, getLsbD_masked v k (by omega),
        decide_eq_true (by omega), Bool.true_and]
  · rw [decide_eq_false hbyte, Bool.false_and]
    split
    · rw [BitVec.getLsbD_shiftLeft]
      by_cases hlow : i < 8 * (j - k)
      · rw [decide_eq_true hlow, Bool.not_true, Bool.and_false, Bool.false_and]
      · have hother : (i - 8 * (j - k)) / 8 ≠ k := by omega
        rw [getLsbD_masked v k (by omega), decide_eq_false hother, Bool.false_and, Bool.and_false]
    · rw [BitVec.getLsbD_ushiftRight]
      rcases Nat.lt_or_ge (8 * (k - j) + i) w with hin | hout
      · rw [getLsbD_masked v k hin, decide_eq_false (by omega), Bool.false_and]
      · exact BitVec.getLsbD_of_ge _ _ hout

/-- A word put together from the bytes of another, each at the place opposite to its own, is that word reversed. -/
theorem eq_reverse {u : BitVec w} (hw : 8 ∣ w)
    (h : ∀ i < w, u.getLsbD i = v.getLsbD (8 * (w / 8 - 1 - i / 8) + i % 8)) : u = reverse v := by
  refine BitVec.eq_of_getLsbD_eq fun i hi => ?_
  rw [h i hi, getLsbD_reverse hw v hi]

/-! ## A word in the order of its host -/

/-- The order in which a host lays out the bytes of a word. -/
inductive Order where
  | little
  | big
  deriving DecidableEq, Repr

/-- Where the byte for 256^i stands in a word of `w` bits. -/
def Order.index (order : Order) (w i : Nat) : Nat :=
  match order with
  | .little => i
  | .big => w / 8 - 1 - i

/-- The bytes of a word as they stand in memory. -/
def layOut (order : Order) (v : BitVec w) : List UInt8 :=
  match order with
  | .little => bytes (w / 8) v.toNat
  | .big => (bytes (w / 8) v.toNat).reverse

/-- The word whose bytes stand in memory so. -/
def takeUp (order : Order) (w : Nat) (bs : List UInt8) : BitVec w :=
  match order with
  | .little => BitVec.ofNat w (value bs)
  | .big => BitVec.ofNat w (value bs.reverse)

/-- The order that a host does not have. -/
def Order.other : Order → Order
  | .little => .big
  | .big => .little

/-- A word of whole bytes. -/
theorem pow_bytes (hw : 8 ∣ w) : 256 ^ (w / 8) = 2 ^ w := by
  rw [show 256 = 2 ^ 8 from rfl, ← Nat.pow_mul, Nat.mul_div_cancel' hw]

/-- What as many bytes as a word has are worth fits the word. -/
theorem toNat_ofNat_value (hw : 8 ∣ w) {bs : List UInt8} (h : bs.length = w / 8) : (BitVec.ofNat w (value bs)).toNat = value bs := by
  have hlt := value_lt bs
  rw [h, pow_bytes hw] at hlt
  rw [BitVec.toNat_ofNat, Nat.mod_eq_of_lt hlt]

/-- A word is what its bytes are worth. -/
theorem ofNat_value_bytes (hw : 8 ∣ w) (v : BitVec w) : BitVec.ofNat w (value (bytes (w / 8) v.toNat)) = v := by
  rw [value_bytes (by rw [pow_bytes hw]; exact v.isLt), BitVec.ofNat_toNat, BitVec.setWidth_eq]

/-- The bytes of the word that some bytes are worth are those bytes. -/
theorem bytes_ofNat_value (hw : 8 ∣ w) {bs : List UInt8} (h : bs.length = w / 8) :
    bytes (w / 8) (BitVec.ofNat w (value bs)).toNat = bs := by
  rw [toNat_ofNat_value hw h, ← h, bytes_value]

/-- A word is laid out in as many bytes as it has. -/
@[simp] theorem length_layOut (order : Order) (v : BitVec w) : (layOut order v).length = w / 8 := by
  cases order with
  | little => exact length_bytes _ _
  | big => exact List.length_reverse.trans (length_bytes _ _)

/-- Where a byte of a word lies. -/
theorem getElem?_layOut (order : Order) (v : BitVec w) (h : i < w / 8) :
    (layOut order v)[order.index w i]? = some (UInt8.ofNat (v.toNat / 256 ^ i)) := by
  cases order with
  | little => exact getElem?_bytes h
  | big =>
    have hlast : w / 8 - 1 - (w / 8 - 1 - i) = i := by omega
    rw [layOut, Order.index, List.getElem?_reverse (by rw [length_bytes]; omega), length_bytes, hlast, getElem?_bytes h]

/-- Every byte lies within the word. -/
theorem index_lt (order : Order) (h : i < w / 8) : order.index w i < w / 8 := by
  cases order with
  | little => exact h
  | big =>
    rw [Order.index]
    omega

/-- What is taken up is a sum. -/
theorem toNat_takeUp (hw : 8 ∣ w) (order : Order) (f : Nat → UInt8) :
    (takeUp order w ((List.range (w / 8)).map f)).toNat =
      ((List.range (w / 8)).map fun i => (f (order.index w i)).toNat * 256 ^ i).sum := by
  have hlen : ((List.range (w / 8)).map f).length = w / 8 := by rw [List.length_map, List.length_range]
  cases order with
  | little => exact (toNat_ofNat_value hw hlen).trans (value_eq_sum f _)
  | big =>
    have hreverse : ((List.range (w / 8)).map f).reverse = (List.range (w / 8)).map fun i => f (w / 8 - 1 - i) := by
      refine List.ext_getElem (by simp) fun i _ _ => ?_
      simp [List.getElem_reverse]
    rw [takeUp, toNat_ofNat_value hw (List.length_reverse.trans hlen), hreverse, value_eq_sum]
    rfl

/-- What was laid out is taken up again. -/
theorem takeUp_layOut (hw : 8 ∣ w) (order : Order) (v : BitVec w) : takeUp order w (layOut order v) = v := by
  cases order with
  | little => exact ofNat_value_bytes hw v
  | big =>
    rw [takeUp, layOut, List.reverse_reverse]
    exact ofNat_value_bytes hw v

/-- What was taken up is laid out again. -/
theorem layOut_takeUp (hw : 8 ∣ w) (order : Order) {bs : List UInt8} (h : bs.length = w / 8) :
    layOut order (takeUp order w bs) = bs := by
  cases order with
  | little => exact bytes_ofNat_value hw h
  | big =>
    rw [takeUp, layOut, bytes_ofNat_value hw (List.length_reverse.trans h), List.reverse_reverse]

/-- A reversed word is laid out as the word is on a host of the other order. -/
theorem layOut_reverse (hw : 8 ∣ w) (order : Order) (v : BitVec w) : layOut order (reverse v) = layOut order.other v := by
  have hbytes : bytes (w / 8) (reverse v).toNat = (bytes (w / 8) v.toNat).reverse :=
    bytes_ofNat_value hw (List.length_reverse.trans (length_bytes _ _))
  cases order with
  | little => exact hbytes
  | big =>
    rw [layOut, hbytes, List.reverse_reverse]
    rfl

/-- And what was taken up, reversed, is what the other host takes up. -/
theorem reverse_takeUp (hw : 8 ∣ w) (order : Order) {bs : List UInt8} (h : bs.length = w / 8) :
    reverse (takeUp order w bs) = takeUp order.other w bs := by
  have htwice : order.other.other = order := by cases order <;> rfl
  rw [← takeUp_layOut hw order.other (reverse (takeUp order w bs)), layOut_reverse hw, htwice, layOut_takeUp hw order h]

/-! ### A word for every host -/

/-- A word turned round where the host does not have the order that is wanted. -/
def toOrder (host order : Order) (v : BitVec w) : BitVec w := if host = order then v else reverse v

/-- There are two orders. -/
theorem eq_other {host order : Order} (h : host ≠ order) : host.other = order := by
  cases host <;> cases order <;> first | rfl | exact absurd rfl h

/-- A word that is turned round where it has to be is laid out in the same order on every host. -/
theorem layOut_toOrder (hw : 8 ∣ w) (host order : Order) (v : BitVec w) : layOut host (toOrder host order v) = layOut order v := by
  unfold toOrder
  split
  · rename_i h
    rw [h]
  · rename_i h
    rw [layOut_reverse hw, eq_other h]

/-- A word that is turned round where it has to be has been taken up in the same order on every host. -/
theorem toOrder_takeUp (hw : 8 ∣ w) (host order : Order) {bs : List UInt8} (h : bs.length = w / 8) :
    toOrder host order (takeUp host w bs) = takeUp order w bs := by
  unfold toOrder
  split
  · rename_i horder
    rw [horder]
  · rename_i horder
    rw [reverse_takeUp hw host h, eq_other horder]

end Bytes
