import Copper.Time

/-!
# The order of dates and times

`cpr_time_utc` over a `gmtime_r` that keeps to the Gregorian calendar where it succeeds. A later time is a later moment, but two
things are cut on the way to a `CprDateTime`. The seconds go through a `time_t`, which may have 32 bits, and then starts again in
1901 when it has passed 2038. The year is an `int16_t`: what is left of it is its place in a block of 65536 years, and one year of a
block is the -1 that stands for a failure. Between the cuts times keep their order (`time_utc_inOrder_iff`).
-/

namespace Copper

open Gregorian

/-- The fields of a date and time but for `yday`, from the year down. -/
def DateTime.toList (d : DateTime) : List Int :=
  [d.year.toInt, d.month.toNat, d.day.toNat, d.hour.toNat, d.minute.toNat, d.second.toNat, d.ms.toNat]

/-- Where `gmtime_r` succeeds, from the year 1900 on, it is the exact conversion. -/
def ExactWhereDefined (gmtimeR : TimeConversion) : Prop :=
  ∀ t tm, start1900 ≤ t → gmtimeR.convert t = some tm → gmtime t = some tm

/-- `gmtime_r` succeeds for a time. -/
def Converts (gmtimeR : TimeConversion) (ms : UInt64) : Prop := (gmtimeR.convert (gmtimeR.time ms)).isSome

/-- The moment of a `time_t`. -/
def utcMoment (t : Int) : Moment := momentAt 1900 (t - start1900).toNat

/-- What is below the year: the month, which counts from one, the day, the hour, the minute, the second and the millisecond. -/
def belowYear (t : Int) (ms : UInt64) : List Int :=
  let m := utcMoment t
  [m.month + 1, m.day, m.hour, m.minute, m.second, (ms % 1000).toNat]

/-- The block of 65536 years of a year, which are those of an `int16_t`; the second one starts with the year 32768. -/
def yearBlock (year : Nat) : Nat := (year + 32768) / 65536

/-- The years 65535, 131071 and so on, of which 16 bits leave a -1. -/
def LooksFailed (year : Nat) : Prop := year % 65536 = 65535

instance : DecidablePred LooksFailed := fun year => inferInstanceAs (Decidable (year % 65536 = 65535))

namespace TimeConversion

/-- The year in which the `time_t` of a time lies. -/
def year (f : TimeConversion) (ms : UInt64) : Nat := (utcMoment (f.time ms)).year

/-- How often the seconds of a time have passed the greatest `time_t`. -/
def laps (f : TimeConversion) (ms : UInt64) : Nat := ((ms / 1000).toNat + 2 ^ (f.timeBits - 1)) / 2 ^ f.timeBits

/-- The first time that a `time_t` of 32 bits does not hold, or else the start of the year 32768. -/
def firstCut (f : TimeConversion) : UInt64 := if f.timeBits = 32 then 2147483648000 else 971890963200000

end TimeConversion

/-- From one time to another, the seconds do not pass the greatest `time_t`, nor the years the end of a block. -/
structure Uncut (f : TimeConversion) (ms₁ ms₂ : UInt64) : Prop where
  laps : f.laps ms₁ = f.laps ms₂
  block : yearBlock (f.year ms₁) = yearBlock (f.year ms₂)

/-- Two times are converted in order, and a time that converts is not reported as a failure. -/
structure UtcInOrder (gmtimeR : TimeConversion) (ms₁ ms₂ : UInt64) : Prop where
  lt : (timeUtc gmtimeR ms₁).year ≠ -1 → (timeUtc gmtimeR ms₂).year ≠ -1 →
    (timeUtc gmtimeR ms₁).toList < (timeUtc gmtimeR ms₂).toList
  first : Converts gmtimeR ms₁ → (timeUtc gmtimeR ms₁).year ≠ -1
  second : Converts gmtimeR ms₂ → (timeUtc gmtimeR ms₂).year ≠ -1

variable {gmtimeR : TimeConversion} {ms ms₁ ms₂ lo hi : UInt64} {t t₁ t₂ : Int}

/-! ## The seconds in a `time_t` -/

/-- The seconds of a time. -/
theorem toNat_seconds (ms : UInt64) : (ms / 1000).toNat = ms.toNat / 1000 := UInt64.toNat_div ms 1000

/-- The `time_t` is what is left of the seconds after the laps. -/
theorem TimeConversion.time_eq (hbits : gmtimeR.timeBits = 32 ∨ gmtimeR.timeBits = 64) (ms : UInt64) :
    gmtimeR.time ms = (ms / 1000).toNat - (2 ^ gmtimeR.timeBits : Nat) * gmtimeR.laps ms := by
  rw [TimeConversion.time, TimeConversion.laps, BitVec.toInt_ofNat', Int.bmod_def]
  rcases hbits with hbits | hbits
  · rw [hbits]
    omega
  · rw [hbits]
    omega

/-- Seconds that are given go round a `time_t` of 64 bits not once. -/
theorem TimeConversion.laps_eq_zero (hbits : gmtimeR.timeBits = 64) (ms : UInt64) : gmtimeR.laps ms = 0 := by
  have hms := ms.toNat_lt
  rw [TimeConversion.laps, hbits, toNat_seconds]
  omega

/-- No `time_t` is before the year 1900. -/
theorem TimeConversion.start1900_le_time (hbits : gmtimeR.timeBits = 32 ∨ gmtimeR.timeBits = 64) (ms : UInt64) :
    start1900 ≤ gmtimeR.time ms := by
  have htime := TimeConversion.time_eq hbits ms
  rcases hbits with h | h
  · rw [TimeConversion.laps, h] at htime
    unfold start1900
    omega
  · rw [TimeConversion.laps_eq_zero h] at htime
    unfold start1900
    omega

/-- A later time has gone no fewer laps. -/
theorem TimeConversion.laps_mono (gmtimeR : TimeConversion) (h : ms₁ ≤ ms₂) : gmtimeR.laps ms₁ ≤ gmtimeR.laps ms₂ := by
  rw [UInt64.le_iff_toNat_le] at h
  rw [TimeConversion.laps, TimeConversion.laps, toNat_seconds, toNat_seconds]
  exact Nat.div_le_div_right (Nat.add_le_add_right (Nat.div_le_div_right h) _)

/-- As long as the seconds do not pass the greatest `time_t`, a time has a later one, or the same and no fewer milliseconds. -/
theorem TimeConversion.time_order (hbits : gmtimeR.timeBits = 32 ∨ gmtimeR.timeBits = 64) (h : ms₁ < ms₂)
    (hlaps : gmtimeR.laps ms₁ = gmtimeR.laps ms₂) :
    gmtimeR.time ms₁ < gmtimeR.time ms₂ ∨
      gmtimeR.time ms₁ = gmtimeR.time ms₂ ∧ (ms₁ % 1000).toNat < (ms₂ % 1000).toNat := by
  have hmod (ms : UInt64) : (ms % 1000).toNat = ms.toNat % 1000 := UInt64.toNat_mod ms 1000
  rw [UInt64.lt_iff_toNat_lt] at h
  rw [TimeConversion.time_eq hbits, TimeConversion.time_eq hbits, hlaps, toNat_seconds, toNat_seconds, hmod, hmod]
  generalize ((2 ^ gmtimeR.timeBits : Nat) : Int) * gmtimeR.laps ms₂ = past
  omega

/-- A later `time_t` is of no earlier year. -/
theorem utcMoment_year_mono (h : t₁ ≤ t₂) : (utcMoment t₁).year ≤ (utcMoment t₂).year :=
  momentAt_year_mono 1900 (Int.toNat_le_toNat (Int.sub_le_sub_right h _))

/-! ## The fields of a time that converts -/

/-- What 16 bits leave of a year is its place in its block. -/
theorem toInt_ofInt_year (year : Nat) : (Int16.ofInt year).toInt = (year : Int) - 65536 * yearBlock year := by
  have hsize : Int16.size = 65536 := rfl
  rw [Int16.toInt_ofInt, yearBlock, Int.bmod_def, hsize]
  omega

/-- A byte holds what is below 256. -/
theorem toNat_ofInt_byte {n : Int} (hlo : 0 ≤ n) (hhi : n < 256) : ((UInt8.ofInt n).toNat : Int) = n := by
  rw [UInt8.ofInt, UInt8.toNat_ofNat']
  omega

/-- A time that converts has the fields of its moment, but for the year. -/
theorem timeUtc_toList (hbits : gmtimeR.timeBits = 32 ∨ gmtimeR.timeBits = 64) (hexact : ExactWhereDefined gmtimeR)
    (h : Converts gmtimeR ms) :
    (timeUtc gmtimeR ms).toList =
      ((gmtimeR.year ms : Int) - 65536 * yearBlock (gmtimeR.year ms)) :: belowYear (gmtimeR.time ms) ms := by
  obtain ⟨tm, htm⟩ := Option.isSome_iff_exists.mp h
  have hstart := TimeConversion.start1900_le_time hbits ms
  have hgmtime := hexact _ tm hstart htm
  rw [gmtime, if_neg (Int.not_lt.mpr hstart), Option.some.injEq] at hgmtime
  obtain ⟨hmonth, ⟨-, hday⟩, hhour, hminute, hsecond⟩ := momentAt_proper 1900 (gmtimeR.time ms - start1900).toNat
  have hms : (ms % 1000).toUInt16.toNat = (ms % 1000).toNat := by
    rw [UInt64.toNat_toUInt16, UInt64.toNat_mod]
    exact Nat.mod_eq_of_lt (Nat.lt_trans (Nat.mod_lt _ (by decide)) (by decide))
  subst hgmtime
  rw [timeUtc, htm]
  simp only [fill, DateTime.toList, belowYear, TimeConversion.year, utcMoment, Int.sub_add_cancel, toInt_ofInt_year]
  rw [toNat_ofInt_byte (by omega) (by omega), toNat_ofInt_byte (by omega) (by omega), toNat_ofInt_byte (by omega) (by omega),
    toNat_ofInt_byte (by omega) (by omega), toNat_ofInt_byte (by omega) (by omega), hms]

/-- A time that converts is reported as a failure just if its year looks like one. -/
theorem timeUtc_year (hbits : gmtimeR.timeBits = 32 ∨ gmtimeR.timeBits = 64) (hexact : ExactWhereDefined gmtimeR)
    (h : Converts gmtimeR ms) : (timeUtc gmtimeR ms).year = -1 ↔ LooksFailed (gmtimeR.year ms) := by
  have hyear : (timeUtc gmtimeR ms).year.toInt = (gmtimeR.year ms : Int) - 65536 * yearBlock (gmtimeR.year ms) :=
    (List.cons.inj (timeUtc_toList hbits hexact h)).1
  have hone : (-1 : Int16).toInt = -1 := rfl
  rw [← Int16.toInt_inj, hyear, hone, yearBlock, LooksFailed]
  omega

/-- A time that does not convert is reported as a failure. -/
theorem timeUtc_year_of_not (h : ¬ Converts gmtimeR ms) : (timeUtc gmtimeR ms).year = -1 := by
  rw [Converts, Option.not_isSome_iff_eq_none] at h
  rw [timeUtc, h]
  rfl

/-! ## Between the cuts -/

/-- Of two moments the later is of a later year, or later in its year. -/
theorem belowYear_order (h : t₁ < t₂ ∨ t₁ = t₂ ∧ (ms₁ % 1000).toNat < (ms₂ % 1000).toNat) (hstart : start1900 ≤ t₁) :
    (utcMoment t₁).year < (utcMoment t₂).year ∨
      (utcMoment t₁).year = (utcMoment t₂).year ∧ belowYear t₁ ms₁ < belowYear t₂ ms₂ := by
  simp only [belowYear, utcMoment, List.cons_lt_cons_iff]
  rcases h with hlt | ⟨rfl, hms⟩
  · have horder := momentAt_lt 1900 (s := (t₁ - start1900).toNat) (t := (t₂ - start1900).toNat) (by omega)
    simp only [Moment.toList, List.cons_lt_cons_iff, List.not_lt_nil, and_false, or_false] at horder
    omega
  · refine Or.inr ⟨rfl, Or.inr ⟨rfl, Or.inr ⟨rfl, Or.inr ⟨rfl, Or.inr ⟨rfl, Or.inr ⟨rfl, Or.inl ?_⟩⟩⟩⟩⟩⟩
    omega

/-- Where nothing is cut between two times that convert, they are converted in order. -/
theorem Uncut.lt (hbits : gmtimeR.timeBits = 32 ∨ gmtimeR.timeBits = 64) (hexact : ExactWhereDefined gmtimeR) (hlt : ms₁ < ms₂)
    (h₁ : Converts gmtimeR ms₁) (h₂ : Converts gmtimeR ms₂) (h : Uncut gmtimeR ms₁ ms₂) :
    (timeUtc gmtimeR ms₁).toList < (timeUtc gmtimeR ms₂).toList := by
  have horder := belowYear_order (TimeConversion.time_order hbits hlt h.laps) (TimeConversion.start1900_le_time hbits ms₁)
  rw [timeUtc_toList hbits hexact h₁, timeUtc_toList hbits hexact h₂, List.cons_lt_cons_iff, h.block]
  rcases horder with hyear | ⟨hyear, hbelow⟩
  · exact Or.inl (Int.sub_lt_sub_right (Int.ofNat_lt.mpr hyear) _)
  · exact Or.inr ⟨congrArg (fun year : Nat => (year : Int) - _) hyear, hbelow⟩

/-- Where nothing is cut and no year looks like a failure, times are converted in order. -/
theorem utcInOrder_of_uncut (hbits : gmtimeR.timeBits = 32 ∨ gmtimeR.timeBits = 64) (hexact : ExactWhereDefined gmtimeR)
    (hlt : ms₁ < ms₂) (hfirst : Converts gmtimeR ms₁ → ¬ LooksFailed (gmtimeR.year ms₁))
    (hsecond : Converts gmtimeR ms₂ → ¬ LooksFailed (gmtimeR.year ms₂))
    (h : Converts gmtimeR ms₁ → Converts gmtimeR ms₂ → Uncut gmtimeR ms₁ ms₂) : UtcInOrder gmtimeR ms₁ ms₂ where
  lt h₁ h₂ := by
    have hconv₁ : Converts gmtimeR ms₁ := Classical.byContradiction fun hnot => h₁ (timeUtc_year_of_not hnot)
    have hconv₂ : Converts gmtimeR ms₂ := Classical.byContradiction fun hnot => h₂ (timeUtc_year_of_not hnot)
    exact (h hconv₁ hconv₂).lt hbits hexact hlt hconv₁ hconv₂
  first hconv := fun hyear => hfirst hconv ((timeUtc_year hbits hexact hconv).mp hyear)
  second hconv := fun hyear => hsecond hconv ((timeUtc_year hbits hexact hconv).mp hyear)

/-- From a time to itself nothing is cut. -/
theorem Uncut.refl (f : TimeConversion) (ms : UInt64) : Uncut f ms ms := ⟨rfl, rfl⟩

/-- Nor from one to another over a third, if nothing is on the way. -/
theorem Uncut.trans {ms₃ : UInt64} (h : Uncut gmtimeR ms₁ ms₂) (h' : Uncut gmtimeR ms₂ ms₃) : Uncut gmtimeR ms₁ ms₃ :=
  ⟨h.laps.trans h'.laps, h.block.trans h'.block⟩

/-- Where nothing is cut between two times, nothing is between two times that lie between them. -/
theorem Uncut.inside (hbits : gmtimeR.timeBits = 32 ∨ gmtimeR.timeBits = 64) (h : Uncut gmtimeR lo hi) (hlo : lo ≤ ms₁)
    (hle : ms₁ ≤ ms₂) (hhi : ms₂ ≤ hi) : Uncut gmtimeR ms₁ ms₂ := by
  have hmono {a b : UInt64} (hab : a ≤ b) (hlaps : gmtimeR.laps a = gmtimeR.laps b) :
      yearBlock (gmtimeR.year a) ≤ yearBlock (gmtimeR.year b) := by
    refine Nat.div_le_div_right (Nat.add_le_add_right (utcMoment_year_mono ?_) _)
    rcases UInt64.lt_or_eq_of_le hab with hlt | rfl
    · exact (TimeConversion.time_order hbits hlt hlaps).elim Int.le_of_lt fun hsame => Int.le_of_eq hsame.1
    · exact Int.le_refl _
  have h₁ := gmtimeR.laps_mono hlo
  have h₂ := gmtimeR.laps_mono hle
  have h₃ := gmtimeR.laps_mono hhi
  have hlaps := h.laps
  have hblock := h.block
  have hb₁ := hmono hlo (by omega)
  have hb₂ := hmono hle (by omega)
  have hb₃ := hmono hhi (by omega)
  exact ⟨by omega, by omega⟩

/-! ## The cuts -/

/-- Of two times that are converted in order, the first is given no greater year. -/
theorem UtcInOrder.year_le (hbits : gmtimeR.timeBits = 32 ∨ gmtimeR.timeBits = 64) (hexact : ExactWhereDefined gmtimeR)
    (h : UtcInOrder gmtimeR ms₁ ms₂) (h₁ : Converts gmtimeR ms₁) (h₂ : Converts gmtimeR ms₂) :
    (gmtimeR.year ms₁ : Int) - 65536 * yearBlock (gmtimeR.year ms₁) ≤
      (gmtimeR.year ms₂ : Int) - 65536 * yearBlock (gmtimeR.year ms₂) := by
  have hlt := h.lt (h.first h₁) (h.second h₂)
  rw [timeUtc_toList hbits hexact h₁, timeUtc_toList hbits hexact h₂, List.cons_lt_cons_iff] at hlt
  exact hlt.elim Int.le_of_lt fun hsame => Int.le_of_eq hsame.1

/-- The last second of a `time_t` of 32 bits, and the first. -/
theorem year_lastSecond : (utcMoment 2147483647).year = 2038 ∧ (utcMoment (-2147483648)).year = 1901 :=
  ⟨momentAt_year (by decide) (by decide), momentAt_year (by decide) (by decide)⟩

/-- A cut between a time and the next one puts them out of order. -/
theorem uncut_succ (hbits : gmtimeR.timeBits = 32 ∨ gmtimeR.timeBits = 64) (hexact : ExactWhereDefined gmtimeR)
    (hnext : ms₂.toNat = ms₁.toNat + 1) (h₁ : Converts gmtimeR ms₁) (h₂ : Converts gmtimeR ms₂) (h : UtcInOrder gmtimeR ms₁ ms₂) :
    Uncut gmtimeR ms₁ ms₂ := by
  have hyears := h.year_le hbits hexact h₁ h₂
  have htime₁ := TimeConversion.time_eq hbits ms₁
  have htime₂ := TimeConversion.time_eq hbits ms₂
  have hseconds₁ := toNat_seconds ms₁
  have hseconds₂ := toNat_seconds ms₂
  have hlaps : gmtimeR.laps ms₁ = gmtimeR.laps ms₂ := by
    rcases hbits with h32 | h64
    · -- the `time_t` would go from its last second back to its first one
      rw [TimeConversion.laps, h32] at htime₁ htime₂
      rw [TimeConversion.laps, TimeConversion.laps, h32]
      refine Decidable.byContradiction fun hcut => ?_
      have hlast : gmtimeR.time ms₁ = 2147483647 := by omega
      have hfirst : gmtimeR.time ms₂ = -2147483648 := by omega
      rw [TimeConversion.year, TimeConversion.year, hlast, hfirst, year_lastSecond.1, year_lastSecond.2] at hyears
      exact absurd hyears (by decide)
    · rw [TimeConversion.laps_eq_zero h64, TimeConversion.laps_eq_zero h64]
  refine ⟨hlaps, ?_⟩
  have hstep : gmtimeR.year ms₂ = gmtimeR.year ms₁ ∨ gmtimeR.year ms₂ = gmtimeR.year ms₁ + 1 := by
    have hstart := TimeConversion.start1900_le_time hbits ms₁
    rw [hlaps] at htime₁
    have hsecond : gmtimeR.time ms₂ = gmtimeR.time ms₁ ∨ gmtimeR.time ms₂ = gmtimeR.time ms₁ + 1 := by omega
    rcases hsecond with hsame | hlater
    · exact Or.inl (by rw [TimeConversion.year, hsame, TimeConversion.year])
    · have hle : (utcMoment (gmtimeR.time ms₁)).year ≤ (utcMoment (gmtimeR.time ms₂)).year := utcMoment_year_mono (by omega)
      have hsucc := momentAt_year_succ_le 1900 (gmtimeR.time ms₁ - start1900).toNat
      have htoNat : (gmtimeR.time ms₁ - start1900).toNat + 1 = (gmtimeR.time ms₂ - start1900).toNat := by omega
      rw [htoNat] at hsucc
      rw [TimeConversion.year, TimeConversion.year]
      change (utcMoment (gmtimeR.time ms₂)).year ≤ (utcMoment (gmtimeR.time ms₁)).year + 1 at hsucc
      omega
  unfold yearBlock at hyears ⊢
  omega

/-- Where nothing is cut between any time and the next one, nothing is from the first to the last. -/
theorem uncut_of_steps {f : TimeConversion} (hle : lo ≤ hi)
    (hstep : ∀ ms₁ ms₂, lo ≤ ms₁ → ms₂ ≤ hi → ms₂.toNat = ms₁.toNat + 1 → Uncut f ms₁ ms₂) : Uncut f lo hi := by
  have hsize := hi.toNat_lt_size
  have hle := UInt64.le_iff_toNat_le.mp hle
  obtain ⟨n, hn⟩ := Nat.exists_eq_add_of_le hle
  have hsteps : ∀ k ≤ n, Uncut f lo (UInt64.ofNat (lo.toNat + k)) := by
    intro k hk
    induction k with
    | zero =>
      rw [Nat.add_zero, UInt64.ofNat_toNat]
      exact .refl f lo
    | succ k ih =>
      have hk₁ : (UInt64.ofNat (lo.toNat + k)).toNat = lo.toNat + k := UInt64.toNat_ofNat_of_lt' (by omega)
      have hk₂ : (UInt64.ofNat (lo.toNat + (k + 1))).toNat = lo.toNat + (k + 1) := UInt64.toNat_ofNat_of_lt' (by omega)
      refine (ih (by omega)).trans (hstep _ _ ?_ ?_ (by omega))
      · rw [UInt64.le_iff_toNat_le]
        omega
      · rw [UInt64.le_iff_toNat_le]
        omega
  have hall := hsteps n (Nat.le_refl n)
  rwa [← hn, UInt64.ofNat_toNat] at hall

/-- All times between two are converted in order exactly if nothing is cut between the two, and no year there looks like a failure. -/
theorem utcInOrder_between_iff (hbits : gmtimeR.timeBits = 32 ∨ gmtimeR.timeBits = 64) (hexact : ExactWhereDefined gmtimeR)
    (hlt : lo < hi) (hall : ∀ ms, lo ≤ ms → ms ≤ hi → Converts gmtimeR ms) :
    (∀ ms₁ ms₂, lo ≤ ms₁ → ms₁ < ms₂ → ms₂ ≤ hi → UtcInOrder gmtimeR ms₁ ms₂) ↔
      Uncut gmtimeR lo hi ∧ ∀ ms, lo ≤ ms → ms ≤ hi → ¬ LooksFailed (gmtimeR.year ms) := by
  constructor
  · intro h
    refine ⟨uncut_of_steps (UInt64.le_of_lt hlt) fun ms₁ ms₂ hlo hhi hnext => ?_, fun ms hlo hhi hlooks => ?_⟩
    · have hlt' : ms₁ < ms₂ := UInt64.lt_iff_toNat_lt.mpr (by omega)
      have hle' := UInt64.le_of_lt hlt'
      exact uncut_succ hbits hexact hnext (hall ms₁ hlo (UInt64.le_trans hle' hhi)) (hall ms₂ (UInt64.le_trans hlo hle') hhi)
        (h ms₁ ms₂ hlo hlt' hhi)
    · have hconv := hall ms hlo hhi
      have hyear := (timeUtc_year hbits hexact hconv).mpr hlooks
      rcases UInt64.lt_or_eq_of_le hhi with hbefore | rfl
      · exact (h ms hi hlo hbefore (UInt64.le_refl hi)).first hconv hyear
      · exact (h lo ms (UInt64.le_refl lo) hlt (UInt64.le_refl ms)).second hconv hyear
  · rintro ⟨huncut, hnamed⟩ ms₁ ms₂ hlo hlt' hhi
    have hle' := UInt64.le_of_lt hlt'
    exact utcInOrder_of_uncut hbits hexact hlt' (fun _ => hnamed ms₁ hlo (UInt64.le_trans hle' hhi))
      (fun _ => hnamed ms₂ (UInt64.le_trans hlo hle') hhi) fun _ _ => huncut.inside hbits hlo hle' hhi

/-! ## Up to the first cut -/

/-- The year 32768 is the first of its block. -/
theorem utcMoment_firstOfBlock : (utcMoment 971890963200).year = 32768 := momentAt_year (by decide) (by decide)

/-- Before the first cut the year is below 32768. -/
theorem utcMoment_year_lt (h : t < 971890963200) : (utcMoment t).year < 32768 := by
  have hdays : daysBefore 1900 + 11274305 = daysBefore 32768 := by decide
  refine momentAt_year_lt ?_
  unfold start1900
  omega

/-- A time is before the first cut just if its seconds fit a `time_t` and its year an `int16_t`. -/
theorem TimeConversion.lt_firstCut_iff (hbits : gmtimeR.timeBits = 32 ∨ gmtimeR.timeBits = 64) (ms : UInt64) :
    ms < gmtimeR.firstCut ↔ gmtimeR.laps ms = 0 ∧ gmtimeR.year ms < 32768 := by
  have htime := TimeConversion.time_eq hbits ms
  have hseconds := toNat_seconds ms
  rw [UInt64.lt_iff_toNat_lt, TimeConversion.firstCut]
  rcases hbits with h32 | h64
  · have hcut : (2147483648000 : UInt64).toNat = 2147483648000 := rfl
    rw [TimeConversion.laps, h32] at htime
    have hyear : (utcMoment (gmtimeR.time ms)).year < 32768 := utcMoment_year_lt (by omega)
    rw [if_pos h32, hcut, TimeConversion.laps, h32]
    exact ⟨fun hlt => ⟨by omega, hyear⟩, fun hlaps => by omega⟩
  · have hcut : (971890963200000 : UInt64).toNat = 971890963200000 := rfl
    rw [TimeConversion.laps_eq_zero h64] at htime
    rw [if_neg (by rw [h64]; decide), hcut]
    refine ⟨fun hlt => ⟨TimeConversion.laps_eq_zero h64 ms, utcMoment_year_lt (by omega)⟩, fun hyear => ?_⟩
    refine Nat.lt_of_not_le fun hle => Nat.not_le.mpr hyear.2 ?_
    rw [← utcMoment_firstOfBlock]
    exact utcMoment_year_mono (by omega)

/-- Where every time converts, all times up to a bound are converted in order exactly if the bound is before the first cut. -/
theorem utcInOrder_upTo_iff (hbits : gmtimeR.timeBits = 32 ∨ gmtimeR.timeBits = 64) (hexact : ExactWhereDefined gmtimeR)
    (hall : ∀ ms, Converts gmtimeR ms) (bound : UInt64) :
    (∀ ms₁ ms₂, ms₁ < ms₂ → ms₂ ≤ bound → UtcInOrder gmtimeR ms₁ ms₂) ↔ bound < gmtimeR.firstCut := by
  have hepoch : (0 : UInt64) < gmtimeR.firstCut := by
    unfold TimeConversion.firstCut
    split <;> decide
  obtain ⟨hlaps₀, hyear₀⟩ := (TimeConversion.lt_firstCut_iff hbits 0).mp hepoch
  rcases UInt64.lt_or_eq_of_le (UInt64.zero_le (a := bound)) with hpos | rfl
  · have hbetween := utcInOrder_between_iff hbits hexact hpos fun ms _ _ => hall ms
    constructor
    · intro h
      obtain ⟨huncut, -⟩ := hbetween.mp fun ms₁ ms₂ _ => h ms₁ ms₂
      have hblock := huncut.block
      have hlaps := huncut.laps
      unfold yearBlock at hblock
      exact (TimeConversion.lt_firstCut_iff hbits bound).mpr ⟨by omega, by omega⟩
    · intro hbound
      have hbefore (ms : UInt64) (hms : ms ≤ bound) := (TimeConversion.lt_firstCut_iff hbits ms).mp (UInt64.lt_of_le_of_lt hms hbound)
      obtain ⟨hlaps, hyear⟩ := hbefore bound (UInt64.le_refl bound)
      refine fun ms₁ ms₂ => hbetween.mpr ⟨⟨by omega, ?_⟩, fun ms _ hms => ?_⟩ ms₁ ms₂ UInt64.zero_le
      · unfold yearBlock
        omega
      · have hyear := (hbefore ms hms).2
        unfold LooksFailed
        omega
  · exact iff_of_true (fun _ _ hlt hle => absurd (UInt64.lt_of_lt_of_le hlt hle) (UInt64.not_lt.mpr UInt64.zero_le)) hepoch

/-- Two times are converted in order if nothing is cut between them, and neither is of a year that looks like a failure; a time that
converts is reported as a failure exactly if its year looks like one; and all the times between two are converted in order exactly
if both are so. From the epoch on they are up to the first cut. -/
theorem time_utc_inOrder_iff (hbits : gmtimeR.timeBits = 32 ∨ gmtimeR.timeBits = 64) (hexact : ExactWhereDefined gmtimeR) :
    (∀ ms₁ ms₂, ms₁ < ms₂ → (Converts gmtimeR ms₁ → ¬ LooksFailed (gmtimeR.year ms₁)) →
        (Converts gmtimeR ms₂ → ¬ LooksFailed (gmtimeR.year ms₂)) →
          (Converts gmtimeR ms₁ → Converts gmtimeR ms₂ → Uncut gmtimeR ms₁ ms₂) → UtcInOrder gmtimeR ms₁ ms₂) ∧
      (∀ ms, Converts gmtimeR ms → ((timeUtc gmtimeR ms).year = -1 ↔ LooksFailed (gmtimeR.year ms))) ∧
      (∀ lo hi, lo < hi → (∀ ms, lo ≤ ms → ms ≤ hi → Converts gmtimeR ms) →
        ((∀ ms₁ ms₂, lo ≤ ms₁ → ms₁ < ms₂ → ms₂ ≤ hi → UtcInOrder gmtimeR ms₁ ms₂) ↔
          Uncut gmtimeR lo hi ∧ ∀ ms, lo ≤ ms → ms ≤ hi → ¬ LooksFailed (gmtimeR.year ms))) ∧
      ((∀ ms, Converts gmtimeR ms) → ∀ bound,
        (∀ ms₁ ms₂, ms₁ < ms₂ → ms₂ ≤ bound → UtcInOrder gmtimeR ms₁ ms₂) ↔ bound < gmtimeR.firstCut) :=
  ⟨fun _ _ => utcInOrder_of_uncut hbits hexact, fun _ => timeUtc_year hbits hexact, fun _ _ => utcInOrder_between_iff hbits hexact,
    utcInOrder_upTo_iff hbits hexact⟩

/-- The year of a time, from that of its `time_t`. -/
theorem year_of_time {f : TimeConversion} {year : Nat} (ht : f.time ms = t) (hyear : (utcMoment t).year = year) : f.year ms = year := by
  rw [TimeConversion.year, ht, hyear]

/-- Universal time, with a `time_t` of 32 bits. -/
def gmtime32 : TimeConversion := ⟨32, gmtime⟩

/-- The exact conversion is exact with 64 bits. -/
theorem gmtime64_exact : ExactWhereDefined gmtime64 := fun _ _ _ h => h

/-- And with 32. -/
theorem gmtime32_exact : ExactWhereDefined gmtime32 := fun _ _ _ h => h

/-- It converts every time. -/
theorem gmtime_converts {f : TimeConversion} (hbits : f.timeBits = 32 ∨ f.timeBits = 64) (hf : f.convert = gmtime) (ms : UInt64) :
    Converts f ms := by
  rw [Converts, hf, gmtime, if_neg (Int.not_lt.mpr (TimeConversion.start1900_le_time hbits ms))]
  rfl

/-- The epoch, and a day later. -/
theorem time_utc_inOrder_day : UtcInOrder gmtime32 0 86400000 ∧ UtcInOrder gmtime64 0 86400000 :=
  ⟨(time_utc_inOrder_iff (Or.inl rfl) gmtime32_exact).1 0 86400000 (by decide) (fun _ => by decide) (fun _ => by decide)
      fun _ _ => ⟨by decide, by decide⟩,
    (time_utc_inOrder_iff (Or.inr rfl) gmtime64_exact).1 0 86400000 (by decide) (fun _ => by decide) (fun _ => by decide)
      fun _ _ => ⟨by decide, by decide⟩⟩

/-- With 64 bits, the last millisecond of the year 32767 and the first of the year 32768, and the start of the year 65535; with 32
bits, the last millisecond of the `time_t` and the next. -/
theorem time_utc_outOfOrder :
    ((timeUtc gmtime64 971890963199999).year = 32767 ∧ (timeUtc gmtime64 971890963200000).year = -32768 ∧
        ¬ (timeUtc gmtime64 971890963199999).toList < (timeUtc gmtime64 971890963200000).toList ∧
        Converts gmtime64 2005917609600000 ∧ (timeUtc gmtime64 2005917609600000).year = -1) ∧
      (timeUtc gmtime32 2147483647999).year = 2038 ∧ (timeUtc gmtime32 2147483648000).year = 1901 ∧
        ¬ (timeUtc gmtime32 2147483647999).toList < (timeUtc gmtime32 2147483648000).toList := by
  have hconv (f : TimeConversion) (hbits : f.timeBits = 32 ∨ f.timeBits = 64) (hf : f.convert = gmtime) (ms : UInt64) :=
    timeUtc_toList hbits (fun _ _ _ h => hf ▸ h) (gmtime_converts hbits hf ms)
  have hlast := hconv gmtime64 (Or.inr rfl) rfl 971890963199999
  have hfirst := hconv gmtime64 (Or.inr rfl) rfl 971890963200000
  have hgone := hconv gmtime32 (Or.inl rfl) rfl 2147483647999
  have hback := hconv gmtime32 (Or.inl rfl) rfl 2147483648000
  have hlastYear : gmtime64.year 971890963199999 = 32767 := year_of_time (t := 971890963199) rfl (momentAt_year (by decide) (by decide))
  have hfirstYear : gmtime64.year 971890963200000 = 32768 := year_of_time (t := 971890963200) rfl utcMoment_firstOfBlock
  have hfailure : gmtime64.year 2005917609600000 = 65535 := year_of_time (t := 2005917609600) rfl (momentAt_year (by decide) (by decide))
  have hgoneYear : gmtime32.year 2147483647999 = 2038 := year_of_time (t := 2147483647) rfl year_lastSecond.1
  have hbackYear : gmtime32.year 2147483648000 = 1901 := year_of_time (t := -2147483648) rfl year_lastSecond.2
  rw [hlastYear] at hlast
  rw [hfirstYear] at hfirst
  rw [hgoneYear] at hgone
  rw [hbackYear] at hback
  refine ⟨⟨Int16.toInt_inj.mp (List.cons.inj hlast).1, Int16.toInt_inj.mp (List.cons.inj hfirst).1, ?_,
    gmtime_converts (Or.inr rfl) rfl _, ?_⟩, Int16.toInt_inj.mp (List.cons.inj hgone).1,
    Int16.toInt_inj.mp (List.cons.inj hback).1, ?_⟩
  · rw [hlast, hfirst, List.cons_lt_cons_iff]
    decide
  · rw [timeUtc_year (Or.inr rfl) gmtime64_exact (gmtime_converts (Or.inr rfl) rfl _), hfailure]
    rfl
  · rw [hgone, hback, List.cons_lt_cons_iff]
    decide

end Copper
