import Copper.Defs
import Mathlib.Algebra.Group.Int.Defs
import Mathlib.Data.List.Chain

/-!
# The monotonic clock

`cpr_time_monotonic` on its two platforms, over the readings of the system's clock. On Windows the counter is multiplied before it
is divided by its frequency, in 64 bits: as long as no product passes a multiple of 2^64 the clock does not go backwards.
-/

namespace Copper

/-- `struct timespec`. -/
structure Timespec where
  tvSec : Int
  tvNsec : Int
  deriving DecidableEq, Repr

/-- `cpr_s_to_ms`. -/
def sToMs (x : UInt64) : UInt64 := x * 1000

/-- `cpr_ns_to_ms`. -/
def nsToMs (x : UInt64) : UInt64 := x / 1000000

/-- `cpr_time_monotonic`, of what `clock_gettime` gives. -/
def timeMonotonicPosix (ts : Timespec) : UInt64 := sToMs (UInt64.ofInt ts.tvSec) + nsToMs (UInt64.ofInt ts.tvNsec)

/-- `InterlockedCompareExchange64`: what it leaves in its destination. -/
def interlockedCompareExchange64 (destination exchange comperand : Int64) : Int64 :=
  if destination = comperand then exchange else destination

/-- `cpr_time_monotonic` on Windows: `frequency` and `counter` are what the two queries give, and `freqQp` is the value of its static
variable, which it returns as well. -/
def timeMonotonicWindows (frequency counter freqQp : Int64) : UInt64 × Int64 :=
  let freqQp := if freqQp = 0 then interlockedCompareExchange64 freqQp frequency 0 else freqQp
  (counter.toUInt64 * 1000 / freqQp.toUInt64, freqQp)

/-- One call after another, from a value of the static variable on. -/
def monotonicRun (frequency : Int64) : Int64 → List Int64 → List UInt64
  | _, [] => []
  | freqQp, counter :: counters =>
    let (ms, freqQp) := timeMonotonicWindows frequency counter freqQp
    ms :: monotonicRun frequency freqQp counters

/-- A reading that `clock_gettime` gives, of less than some 584 million years. -/
structure Timespec.Valid (ts : Timespec) : Prop where
  tvSec : 0 ≤ ts.tvSec ∧ ts.tvSec * 1000 < 2 ^ 64 - 1000
  tvNsec : 0 ≤ ts.tvNsec ∧ ts.tvNsec < 10 ^ 9

/-- A reading is not before another. -/
def Timespec.Le (a b : Timespec) : Prop := a.tvSec < b.tvSec ∨ a.tvSec = b.tvSec ∧ a.tvNsec ≤ b.tvNsec

/-- How often the product of a counter and 1000 has passed 2^64. -/
def wraps (counter : Int64) : Nat := counter.toUInt64.toNat * 1000 / 2 ^ 64

variable {frequency a b c lo hi : Int64} {counters : List Int64} {s t : Timespec} {readings : List Timespec}

/-! ## `clock_gettime` -/

/-- A number that fits a word is what the word holds. -/
theorem toNat_ofInt_word {n : Int} (hlo : 0 ≤ n) (hhi : n < 2 ^ 64) : ((UInt64.ofInt n).toNat : Int) = n := by
  rw [UInt64.ofInt, UInt64.toNat_ofNat']
  omega

/-- The milliseconds of a reading. -/
theorem toNat_timeMonotonicPosix (h : t.Valid) :
    ((timeMonotonicPosix t).toNat : Int) = t.tvSec * 1000 + t.tvNsec / 1000000 := by
  obtain ⟨⟨hsec, hsmall⟩, hnsec, hless⟩ := h
  have hs := toNat_ofInt_word hsec (by omega)
  have hn := toNat_ofInt_word hnsec (by omega)
  have hthousand : (1000 : UInt64).toNat = 1000 := rfl
  have hmillion : (1000000 : UInt64).toNat = 1000000 := rfl
  rw [timeMonotonicPosix, sToMs, nsToMs, UInt64.toNat_add, UInt64.toNat_mul, UInt64.toNat_div, hthousand, hmillion]
  omega

/-- A later reading gives no fewer milliseconds. -/
theorem timeMonotonicPosix_le (hs : s.Valid) (ht : t.Valid) (h : s.Le t) : timeMonotonicPosix s ≤ timeMonotonicPosix t := by
  have hs' := toNat_timeMonotonicPosix hs
  have ht' := toNat_timeMonotonicPosix ht
  obtain ⟨-, hs⟩ := hs
  obtain ⟨-, ht⟩ := ht
  rw [UInt64.le_iff_toNat_le]
  rcases h with hsec | ⟨hsec, hnsec⟩
  · omega
  · omega

/-- On POSIX systems the clock does not go backwards. -/
theorem posix_isChain (hreadings : ∀ t ∈ readings, t.Valid) (hclock : readings.IsChain Timespec.Le) :
    (readings.map timeMonotonicPosix).IsChain (· ≤ ·) := by
  rw [List.isChain_map]
  induction hclock with
  | nil => exact .nil
  | singleton t => exact .singleton t
  | cons_cons hle _ ih =>
    obtain ⟨hs, hreadings⟩ := List.forall_mem_cons.mp hreadings
    exact .cons_cons (timeMonotonicPosix_le hs (hreadings _ List.mem_cons_self) hle) (ih hreadings)

/-! ## The performance counter -/

/-- The static variable is the frequency from the first call on. -/
theorem monotonicRun_eq (hf : frequency ≠ 0) {freqQp : Int64} (h : freqQp = 0 ∨ freqQp = frequency) (counters : List Int64) :
    monotonicRun frequency freqQp counters = counters.map fun c => c.toUInt64 * 1000 / frequency.toUInt64 := by
  induction counters generalizing freqQp with
  | nil => rfl
  | cons c counters ih =>
    have hcall : timeMonotonicWindows frequency c freqQp = (c.toUInt64 * 1000 / frequency.toUInt64, frequency) := by
      rcases h with rfl | rfl
      · rfl
      · rw [timeMonotonicWindows, if_neg hf]
    rw [monotonicRun, List.map_cons, hcall]
    dsimp only
    rw [ih (Or.inr rfl)]

/-- A counter that is not negative is the same without a sign. -/
theorem toNat_toUInt64 (h : 0 ≤ c) : (c.toUInt64.toNat : Int) = c.toInt := by
  have hnonneg := Int64.le_iff_toInt_le.mp h
  have hzero : (0 : Int64).toInt = 0 := rfl
  rw [Int64.toNat_toUInt64_of_le h, ← Int64.toNat_toInt]
  omega

/-- Of two readings whose products pass 2^64 equally often, the second gives no less. -/
theorem scaled_le (ha : 0 ≤ a) (h : a ≤ b) (hwraps : wraps a = wraps b) :
    a.toUInt64 * 1000 / frequency.toUInt64 ≤ b.toUInt64 * 1000 / frequency.toUInt64 := by
  have hle := UInt64.le_iff_toNat_le.mp (Int64.toUInt64_le ha h)
  have hthousand : (1000 : UInt64).toNat = 1000 := rfl
  rw [UInt64.le_iff_toNat_le, UInt64.toNat_div, UInt64.toNat_div, UInt64.toNat_mul, UInt64.toNat_mul, hthousand]
  refine Nat.div_le_div_right ?_
  rw [wraps, wraps] at hwraps
  omega

/-- A frequency goes into what is left just before the product passes 2^64 once more than into what is left just after. -/
theorem div_lt_div_passed {f before after : Nat} (hone : 1 ≤ f) (hhalf : f < 2 ^ 63) (hlast : 2 ^ 64 - 1000 ≤ before)
    (hfirst : after < 1000) : after / f < before / f := by
  have hquotient := Nat.div_mul_le_self after f
  refine (Nat.le_div_iff_mul_le hone).mpr ?_
  rw [Nat.succ_mul]
  omega

/-- Of a reading and the next one, the second gives less at every frequency, if the product passes a multiple of 2^64. -/
theorem scaled_lt (hf : 1 ≤ frequency) (hnext : b.toUInt64.toNat = a.toUInt64.toNat + 1) (hwraps : wraps a ≠ wraps b) :
    b.toUInt64 * 1000 / frequency.toUInt64 < a.toUInt64 * 1000 / frequency.toUInt64 := by
  have hnonneg : 0 ≤ frequency := Int64.le_trans (by decide) hf
  have hone : 1 ≤ frequency.toUInt64.toNat := UInt64.le_iff_toNat_le.mp (Int64.toUInt64_le (by decide) hf)
  have hhalf : frequency.toUInt64.toNat < 2 ^ 63 := by
    rw [Int64.toNat_toUInt64_of_le hnonneg]
    exact Int64.toNatClampNeg_lt frequency
  have hthousand : (1000 : UInt64).toNat = 1000 := rfl
  rw [wraps, wraps, hnext] at hwraps
  rw [UInt64.lt_iff_toNat_lt, UInt64.toNat_div, UInt64.toNat_div, UInt64.toNat_mul, UInt64.toNat_mul, hthousand, hnext]
  exact div_lt_div_passed hone hhalf (by omega) (by omega)

/-- The static variable is the frequency, so that the calls are those of the readings, one by one. -/
theorem windows_isChain_scaled_iff (hf : 1 ≤ frequency) (counters : List Int64) :
    (monotonicRun frequency 0 counters).IsChain (· ≤ ·) ↔
      counters.IsChain fun a b => a.toUInt64 * 1000 / frequency.toUInt64 ≤ b.toUInt64 * 1000 / frequency.toUInt64 := by
  have hne : frequency ≠ 0 := by
    rintro rfl
    exact absurd hf (by decide)
  rw [monotonicRun_eq hne (Or.inl rfl), List.isChain_map]

/-- The clock does not go backwards while the products pass no multiple of 2^64. -/
theorem windows_isChain (hf : 1 ≤ frequency) (hcounters : ∀ c ∈ counters, 0 ≤ c) (hchain : counters.IsChain (· ≤ ·))
    (hwraps : counters.IsChain fun a b => wraps a = wraps b) : (monotonicRun frequency 0 counters).IsChain (· ≤ ·) := by
  rw [windows_isChain_scaled_iff hf]
  induction hchain with
  | nil => exact .nil
  | singleton c => exact .singleton c
  | cons_cons hle _ ih =>
    obtain ⟨ha, hcounters⟩ := List.forall_mem_cons.mp hcounters
    obtain ⟨hsame, hwraps⟩ := List.isChain_cons_cons.mp hwraps
    exact .cons_cons (scaled_le ha hle hsame) (ih hcounters hwraps)

/-! ## How long the counter may run -/

/-- A later reading has passed 2^64 no less often. -/
theorem wraps_mono (ha : 0 ≤ a) (h : a ≤ b) : wraps a ≤ wraps b :=
  Nat.div_le_div_right (Nat.mul_le_mul_right _ (UInt64.le_iff_toNat_le.mp (Int64.toUInt64_le ha h)))

/-- Between two readings that differ in how often their products pass 2^64, there are a reading and the next one that do. -/
theorem exists_passed (hlo : 0 ≤ lo) (hle : lo ≤ hi) (hwraps : wraps lo ≠ wraps hi) :
    ∃ a b : Int64, lo ≤ a ∧ a ≤ b ∧ b ≤ hi ∧ b.toUInt64.toNat = a.toUInt64.toNat + 1 ∧ wraps a ≠ wraps b := by
  have hlo' := toNat_toUInt64 hlo
  have hhi' := toNat_toUInt64 (Int64.le_trans hlo hle)
  have hlt := Int64.toInt_lt hi
  have hmono := wraps_mono hlo hle
  have hzero : (0 : Int64).toInt = 0 := rfl
  -- the first reading whose product passes 2^64 as often as that of the last one
  obtain ⟨n, hn⟩ : ∃ n, n = (wraps hi * 2 ^ 64 + 999) / 1000 := ⟨_, rfl⟩
  have hbounds : lo.toUInt64.toNat < n ∧ n ≤ hi.toUInt64.toNat := by
    unfold wraps at hn hwraps hmono
    omega
  have hreading {m : Nat} (hm : m ≤ hi.toUInt64.toNat) : (Int64.ofInt m).toInt = m ∧ (Int64.ofInt m).toUInt64.toNat = m := by
    have htoInt : (Int64.ofInt m).toInt = m := Int64.toInt_ofInt_of_le (by omega) (by omega)
    have hnonneg : 0 ≤ Int64.ofInt m := Int64.le_iff_toInt_le.mpr (by omega)
    exact ⟨htoInt, Int.ofNat_inj.mp ((toNat_toUInt64 hnonneg).trans htoInt)⟩
  obtain ⟨ha, ha'⟩ := hreading (m := n - 1) (by omega)
  obtain ⟨hb, hb'⟩ := hreading (m := n) (by omega)
  refine ⟨Int64.ofInt (n - 1 : Nat), Int64.ofInt n, ?_, ?_, ?_, by omega, ?_⟩
  · rw [Int64.le_iff_toInt_le]
    omega
  · rw [Int64.le_iff_toInt_le]
    omega
  · rw [Int64.le_iff_toInt_le]
    omega
  · have hbefore : (n - 1) * 1000 < wraps hi * 2 ^ 64 := by omega
    have hafter : wraps hi * 2 ^ 64 ≤ n * 1000 := by omega
    rw [wraps, wraps, ha', hb']
    exact Nat.ne_of_lt (Nat.lt_of_lt_of_le ((Nat.div_lt_iff_lt_mul (by decide)).mpr hbefore)
      ((Nat.le_div_iff_mul_le (by decide)).mpr hafter))

/-- The clock does not go backwards on any readings between two exactly if the products of the two pass 2^64 equally often. -/
theorem windows_between_iff (hf : 1 ≤ frequency) (hlo : 0 ≤ lo) (hle : lo ≤ hi) :
    (∀ counters : List Int64, (∀ c ∈ counters, lo ≤ c ∧ c ≤ hi) → counters.IsChain (· ≤ ·) →
      (monotonicRun frequency 0 counters).IsChain (· ≤ ·)) ↔ wraps lo = wraps hi := by
  constructor
  · intro h
    refine Decidable.byContradiction fun hwraps => ?_
    obtain ⟨a, b, hloa, hab, hbhi, hnext, hpassed⟩ := exists_passed hlo hle hwraps
    have hchain := h [a, b]
      (List.forall_mem_cons.mpr ⟨⟨hloa, Int64.le_trans hab hbhi⟩, List.forall_mem_singleton.mpr ⟨Int64.le_trans hloa hab, hbhi⟩⟩)
      (.cons_cons hab (.singleton b))
    rw [windows_isChain_scaled_iff hf] at hchain
    exact absurd hchain.rel (UInt64.not_le.mpr (scaled_lt hf hnext hpassed))
  · intro hwraps counters hcounters hchain
    have hsame : ∀ c ∈ counters, wraps c = wraps lo := by
      intro c hc
      obtain ⟨hloc, hchi⟩ := hcounters c hc
      have hbelow := wraps_mono hlo hloc
      have habove := wraps_mono (Int64.le_trans hlo hloc) hchi
      omega
    refine windows_isChain hf (fun c hc => Int64.le_trans hlo (hcounters c hc).1) hchain ?_
    exact hchain.imp_of_mem_imp fun a b ha hb _ => (hsame a ha).trans (hsame b hb).symm

/-- On all readings up to a bound it does not exactly if 1000 times the bound is less than 2^64. -/
theorem windows_upTo_iff (hf : 1 ≤ frequency) (bound : Int64) :
    (∀ counters : List Int64, (∀ c ∈ counters, 0 ≤ c ∧ c ≤ bound) → counters.IsChain (· ≤ ·) →
      (monotonicRun frequency 0 counters).IsChain (· ≤ ·)) ↔ bound < 18446744073709552 := by
  have hlimit : (18446744073709552 : Int64).toInt = 18446744073709552 := rfl
  have hzero : (0 : Int64).toInt = 0 := rfl
  by_cases hbound : 0 ≤ bound
  · have hticks := toNat_toUInt64 hbound
    have hstart : wraps 0 = 0 := rfl
    rw [windows_between_iff hf (Int64.le_refl 0) hbound, hstart, wraps, Int64.lt_iff_toInt_lt, hlimit]
    omega
  · have hnegative := Int64.not_le.mp hbound
    refine iff_of_true (fun counters hcounters _ => ?_) (Int64.lt_trans hnegative (by decide))
    cases counters with
    | nil => exact .nil
    | cons c counters =>
      obtain ⟨hc, hcb⟩ := hcounters c List.mem_cons_self
      exact absurd (Int64.le_trans hc hcb) hbound

/-! ## Both platforms -/

/-- The clock does not go backwards on POSIX systems; nor on Windows, as long as the products of consecutive readings pass 2^64
equally often. On all readings between two it does not exactly if the products of these do, and on all up to a bound exactly if 1000
times the bound is less than 2^64. -/
theorem time_monotonic_iff (hreadings : ∀ t ∈ readings, t.Valid) (hclock : readings.IsChain Timespec.Le) (hf : 1 ≤ frequency) :
    (readings.map timeMonotonicPosix).IsChain (· ≤ ·) ∧
      (∀ counters : List Int64, (∀ c ∈ counters, 0 ≤ c) → counters.IsChain (· ≤ ·) →
        (counters.IsChain fun a b => wraps a = wraps b) → (monotonicRun frequency 0 counters).IsChain (· ≤ ·)) ∧
      (∀ lo hi, 0 ≤ lo → lo ≤ hi →
        ((∀ counters : List Int64, (∀ c ∈ counters, lo ≤ c ∧ c ≤ hi) → counters.IsChain (· ≤ ·) →
          (monotonicRun frequency 0 counters).IsChain (· ≤ ·)) ↔ wraps lo = wraps hi)) ∧
      ∀ bound, (∀ counters : List Int64, (∀ c ∈ counters, 0 ≤ c ∧ c ≤ bound) → counters.IsChain (· ≤ ·) →
        (monotonicRun frequency 0 counters).IsChain (· ≤ ·)) ↔ bound < 18446744073709552 :=
  ⟨posix_isChain hreadings hclock, fun _ => windows_isChain hf, fun _ _ => windows_between_iff hf, windows_upTo_iff hf⟩

/-- A second of a counter of 10 MHz, and of a clock. -/
theorem time_monotonic_second :
    ([⟨5, 999999999⟩, ⟨6, 0⟩].map timeMonotonicPosix).IsChain (· ≤ ·) ∧
      (monotonicRun 10000000 0 [0, 10000000]).IsChain (· ≤ ·) :=
  have h := @time_monotonic_iff 10000000 [⟨5, 999999999⟩, ⟨6, 0⟩]
    (List.forall_mem_cons.mpr ⟨⟨by decide, by decide⟩, List.forall_mem_singleton.mpr ⟨by decide, by decide⟩⟩)
    (.cons_cons (Or.inl (by decide)) (.singleton _)) (by decide)
  ⟨h.1, h.2.1 [0, 10000000] (List.forall_mem_cons.mpr ⟨by decide, List.forall_mem_singleton.mpr (by decide)⟩)
    (.cons_cons (by decide) (.singleton _)) (.cons_cons rfl (.singleton _))⟩

/-- A counter of 10 MHz that has run for 58 years and five months. -/
theorem time_monotonic_backwards :
    monotonicRun 10000000 0 [18446744073709551, 18446744073709552] = [1844674407370, 0] ∧
      ¬ (monotonicRun 10000000 0 [18446744073709551, 18446744073709552]).IsChain (· ≤ ·) := by
  decide

end Copper
