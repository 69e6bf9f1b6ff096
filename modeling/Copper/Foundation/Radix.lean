import Mathlib.Algebra.Group.Nat.Defs
import Mathlib.Data.List.Induction
import Mathlib.Data.Nat.Bits

/-!
# Regrouping bits

Numbers of `k` bits each, written one after the other with the highest bit first, and read back in groups of another width.
`bits_add` cuts a number's bits in two, so a string of bits that is written in groups of one width is found in groups of another
by arithmetic (`regroup_flatMap`).
-/

namespace Radix

/-- The low `k` bits of a number, the highest first. -/
def bits : Nat → Nat → List Bool
  | 0, _ => []
  | k + 1, n => n.testBit k :: bits k n

/-- The number that bits spell. -/
def value (bs : List Bool) : Nat := bs.foldl (fun v b => 2 * v + b.toNat) 0

/-- The first `m` groups of `k` bits; bits that are missing are zero. -/
def regroup (k : Nat) : Nat → List Bool → List Nat
  | 0, _ => []
  | m + 1, bs => value ((bs.take k).rightpad k false) :: regroup k m (bs.drop k)

variable {k m n : Nat} {vs : List Nat}

/-- A number is cut to as many bits as are asked for. -/
@[simp] theorem length_bits (k n : Nat) : (bits k n).length = k := by
  induction k with
  | zero => rfl
  | succ k ih => rw [bits, List.length_cons, ih]

/-- Bits are regrouped into as many numbers as are asked for. -/
@[simp] theorem length_regroup (k m : Nat) (bs : List Bool) : (regroup k m bs).length = m := by
  induction m generalizing bs with
  | zero => rfl
  | succ m ih => rw [regroup, List.length_cons, ih]

/-- Only the low bits count. -/
theorem bits_congr (h : m % 2 ^ k = n % 2 ^ k) : bits k m = bits k n := by
  induction k with
  | zero => rfl
  | succ k ih =>
    have hbit : m.testBit k = n.testBit k := by
      have htest := congrArg (fun v => v.testBit k) h
      simpa [Nat.testBit_mod_two_pow] using htest
    have hlow : m % 2 ^ k = n % 2 ^ k := by
      have hmod := congrArg (fun v => v % 2 ^ k) h
      simpa [Nat.mod_mod_of_dvd _ (Nat.pow_dvd_pow 2 (Nat.le_succ k))] using hmod
    rw [bits, bits, hbit, ih hlow]

/-- The bits of a number are the high ones, then the low ones. -/
theorem bits_add (j k n : Nat) : bits (j + k) n = bits j (n / 2 ^ k) ++ bits k n := by
  induction j with
  | zero => rw [Nat.zero_add, bits, List.nil_append]
  | succ j ih => rw [Nat.succ_add, bits, ih, bits, List.cons_append, Nat.testBit_div_two_pow, Nat.add_comm j k]

/-- Two numbers, one after the other, are one. -/
theorem bits_append (j a : Nat) {b : Nat} (hb : b < 2 ^ k) : bits j a ++ bits k b = bits (j + k) (a * 2 ^ k + b) := by
  rw [bits_add, Nat.mul_comm, Nat.mul_add_div (Nat.two_pow_pos k), Nat.div_eq_of_lt hb, Nat.add_zero]
  congr 1
  refine bits_congr ?_
  rw [Nat.mul_add_mod]

/-- The first bits of a number go with the number before it. -/
theorem bits_carry (j m a : Nat) {b : Nat} (hb : b < 2 ^ (m + k)) :
    bits j a ++ bits (m + k) b = bits (j + m) (a % 2 ^ j * 2 ^ m + b / 2 ^ k) ++ bits k b := by
  have hhigh : b / 2 ^ k < 2 ^ m := by
    rw [Nat.div_lt_iff_lt_mul (Nat.two_pow_pos k), ← Nat.pow_add]
    exact hb
  rw [bits_add m k b, ← List.append_assoc, ← bits_append j _ hhigh, bits_congr (Nat.mod_mod a (2 ^ j))]

/-! ## Reading bits -/

/-- A bit more doubles what stands before it. -/
theorem value_concat (bs : List Bool) (b : Bool) : value (bs ++ [b]) = 2 * value bs + b.toNat := by
  rw [value, List.foldl_append, List.foldl_cons, List.foldl_nil, value]

/-- The value of bits that follow others. -/
theorem value_append (bs cs : List Bool) : value (bs ++ cs) = value bs * 2 ^ cs.length + value cs := by
  induction cs using List.reverseRecOn with
  | nil => simp [value]
  | append_singleton cs c ih =>
    have hpow : value bs * (2 ^ cs.length * 2) = 2 * (value bs * 2 ^ cs.length) := by
      rw [← Nat.mul_assoc, Nat.mul_comm]
    rw [← List.append_assoc, value_concat, value_concat, ih, List.length_append, List.length_singleton, Nat.pow_succ, hpow]
    omega

/-- Bits are worth less than the next power of two. -/
theorem value_lt (bs : List Bool) : value bs < 2 ^ bs.length := by
  induction bs using List.reverseRecOn with
  | nil => exact Nat.one_pos
  | append_singleton bs b ih =>
    have hb := Bool.toNat_le b
    rw [value_concat, List.length_append, List.length_singleton, Nat.pow_succ]
    omega

/-- Bits are read back, as far as they were written. -/
theorem value_bits (k n : Nat) : value (bits k n) = n % 2 ^ k := by
  induction k with
  | zero => rw [bits, Nat.pow_zero, Nat.mod_one, value, List.foldl_nil]
  | succ k ih =>
    have hone : value [n.testBit k] = (n.testBit k).toNat := Nat.zero_add _
    rw [bits, ← List.singleton_append, value_append, ih, length_bits, hone, Nat.toNat_testBit, Nat.mod_pow_succ,
      Nat.mul_comm, Nat.add_comm]

/-- A group has `k` bits. -/
theorem regroup_lt (k m : Nat) (bs : List Bool) : ∀ v ∈ regroup k m bs, v < 2 ^ k := by
  induction m generalizing bs with
  | zero => exact fun v hv => absurd hv List.not_mem_nil
  | succ m ih =>
    intro v hv
    rcases List.mem_cons.mp hv with rfl | hv
    · have hlen : ((bs.take k).rightpad k false).length = k := by
        rw [List.length_rightpad, List.length_take]
        omega
      have hlt := value_lt ((bs.take k).rightpad k false)
      rwa [hlen] at hlt
    · exact ih (bs.drop k) v hv

/-- Numbers of `k` bits are read back in groups of `k` bits. -/
theorem regroup_flatMap (hvs : ∀ v ∈ vs, v < 2 ^ k) (m : Nat) (rest : List Bool) :
    regroup k (vs.length + m) (vs.flatMap (bits k) ++ rest) = vs ++ regroup k m rest := by
  induction vs with
  | nil => rw [List.length_nil, Nat.zero_add, List.flatMap_nil, List.nil_append, List.nil_append]
  | cons v vs ih =>
    have hlen := length_bits k v
    have hread : value (bits k v) = v := by
      rw [value_bits, Nat.mod_eq_of_lt (hvs v List.mem_cons_self)]
    have hpad : (bits k v).rightpad k false = bits k v := by
      rw [List.rightpad, hlen, Nat.sub_self, List.replicate_zero, List.append_nil]
    rw [List.length_cons, Nat.add_right_comm, regroup, List.flatMap_cons, List.append_assoc, List.take_left' hlen,
      List.drop_left' hlen, hpad, hread, ih fun w hw => hvs w (List.mem_cons_of_mem v hw), List.cons_append]

end Radix
