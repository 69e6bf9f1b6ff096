import Mathlib.Algebra.Group.Nat.Defs
import Mathlib.Algebra.GroupWithZero.Nat

/-!
# The Gregorian calendar

Days and seconds counted from the start of a year, as dates of the proleptic Gregorian calendar: years, and then months, are
taken off the front of a count of days for as long as they fit.
-/

namespace Gregorian

/-- Every fourth year, but of the centuries only every fourth. -/
def isLeap (year : Nat) : Bool := year % 4 = 0 ∧ (year % 100 ≠ 0 ∨ year % 400 = 0)

def yearLength (year : Nat) : Nat := if isLeap year then 366 else 365

/-- The months of a year, January first. -/
def monthLengths (year : Nat) : List Nat := [31, if isLeap year then 29 else 28, 31, 30, 31, 30, 31, 31, 30, 31, 30, 31]

/-- The year of the day `days` days after the start of `year`, and the days before it in that year. As many years are tried as
the first argument says; the number of days is always enough. -/
def splitYears : Nat → Nat → Nat → Nat × Nat
  | 0, year, days => (year, days)
  | fuel + 1, year, days =>
    if days < yearLength year then (year, days) else splitYears fuel (year + 1) (days - yearLength year)

/-- The month of a day of the year, counted from zero, and the days before it in that month. -/
def splitMonths : List Nat → Nat → Nat × Nat
  | [], days => (0, days)
  | len :: rest, days =>
    if days < len then (0, days) else ((splitMonths rest (days - len)).1 + 1, (splitMonths rest (days - len)).2)

/-- A point in time. Months and days of the year count from zero, days of the month from one. -/
structure Moment where
  year : Nat
  month : Nat
  day : Nat
  hour : Nat
  minute : Nat
  second : Nat
  yday : Nat
  deriving DecidableEq, Repr

/-- The moment `seconds` seconds after the start of `year`. -/
def momentAt (year seconds : Nat) : Moment :=
  let days := seconds / 86400
  let (y, yday) := splitYears days year days
  let (month, mday) := splitMonths (monthLengths y) yday
  { year := y
    month := month
    day := mday + 1
    hour := seconds / 3600 % 24
    minute := seconds / 60 % 60
    second := seconds % 60
    yday := yday }

example : momentAt 1970 951782400 = ⟨2000, 1, 29, 0, 0, 0, 59⟩ := by decide

/-! ## Days and years -/

variable {y z r q d e fuel year s t : Nat}

/-- The days of the years before a year, from the year 0 on. -/
def daysBefore (year : Nat) : Nat := 365 * year + (year + 3) / 4 - (year + 99) / 100 + (year + 399) / 400

/-- The next year begins a group of `n` years, or is in the same. -/
theorem groups_succ (year : Nat) {n : Nat} (hn : 0 < n) :
    (year + 1 + (n - 1)) / n = (year + (n - 1)) / n + if year % n = 0 then 1 else 0 := by
  have hlast : year + (n - 1) + 1 = year + n := by omega
  rw [Nat.add_right_comm, Nat.succ_div, hlast]
  simp only [Nat.dvd_iff_mod_eq_zero, Nat.add_mod_right]

/-- A year more. -/
theorem daysBefore_succ (year : Nat) : daysBefore (year + 1) = daysBefore year + yearLength year := by
  have hle : (year + 99) / 100 ≤ 365 * year := by omega
  have hfour : (year + 1 + 3) / 4 = (year + 3) / 4 + if year % 4 = 0 then 1 else 0 := groups_succ year (Nat.succ_pos _)
  have hcentury : (year + 1 + 99) / 100 = (year + 99) / 100 + if year % 100 = 0 then 1 else 0 := groups_succ year (Nat.succ_pos _)
  have hfourth : (year + 1 + 399) / 400 = (year + 399) / 400 + if year % 400 = 0 then 1 else 0 := groups_succ year (Nat.succ_pos _)
  rw [daysBefore, daysBefore, hfour, hcentury, hfourth]
  generalize (year + 3) / 4 = fours, (year + 99) / 100 = centuries, (year + 399) / 400 = fourths at hle ⊢
  unfold yearLength
  -- of the three groups, each begins only with the one before
  by_cases h400 : year % 400 = 0
  · have h100 : year % 100 = 0 := by omega
    have h4 : year % 4 = 0 := by omega
    rw [if_pos h4, if_pos h100, if_pos h400, if_pos (by simp [isLeap, h4, h400])]
    omega
  · by_cases h100 : year % 100 = 0
    · have h4 : year % 4 = 0 := by omega
      rw [if_pos h4, if_pos h100, if_neg h400, if_neg (by simp [isLeap, h100, h400])]
      omega
    · by_cases h4 : year % 4 = 0
      · rw [if_pos h4, if_neg h100, if_neg h400, if_pos (by simp [isLeap, h4, h100])]
        omega
      · rw [if_neg h4, if_neg h100, if_neg h400, if_neg (by simp [isLeap, h4])]
        omega

/-- No year is empty. -/
theorem yearLength_pos (year : Nat) : 0 < yearLength year := by
  unfold yearLength
  split <;> decide

/-- A later year has no fewer days before it. -/
theorem daysBefore_mono (h : y ≤ z) : daysBefore y ≤ daysBefore z := by
  induction h with
  | refl => exact Nat.le_refl _
  | step _ ih => exact Nat.le_trans ih (daysBefore_succ _ ▸ Nat.le_add_right _ _)

/-- The days of a year come before those of the next. -/
theorem day_lt_daysBefore (hr : r < yearLength y) (h : y < z) : daysBefore y + r < daysBefore z :=
  Nat.lt_of_lt_of_le (daysBefore_succ y ▸ Nat.add_lt_add_left hr _) (daysBefore_mono h)

/-- An earlier day is one of an earlier year, or an earlier one of the same year. -/
theorem day_order (hq : q < yearLength z) (h : daysBefore y + r < daysBefore z + q) : y < z ∨ y = z ∧ r < q := by
  rcases Nat.lt_trichotomy y z with hyz | rfl | hyz
  · exact Or.inl hyz
  · exact Or.inr ⟨rfl, by omega⟩
  · have hbefore := day_lt_daysBefore hq hyz
    omega

/-- The split is the day of the year that is that many days after the start. -/
theorem splitYears_spec (year : Nat) (h : d ≤ fuel) :
    (splitYears fuel year d).2 < yearLength (splitYears fuel year d).1 ∧
      daysBefore (splitYears fuel year d).1 + (splitYears fuel year d).2 = daysBefore year + d := by
  induction fuel generalizing year d with
  | zero =>
    obtain rfl : d = 0 := by omega
    exact ⟨yearLength_pos year, rfl⟩
  | succ fuel ih =>
    rw [splitYears]
    split
    · rename_i hfit
      exact ⟨hfit, rfl⟩
    · have hsmaller := yearLength_pos year
      obtain ⟨hlt, hdays⟩ := ih (year + 1) (d := d - yearLength year) (by omega)
      refine ⟨hlt, hdays.trans ?_⟩
      rw [daysBefore_succ]
      omega

/-- Which makes it that day. -/
theorem splitYears_eq (hfuel : d ≤ fuel) (hr : r < yearLength y) (h : daysBefore y + r = daysBefore year + d) :
    splitYears fuel year d = (y, r) := by
  obtain ⟨hlt, hdays⟩ := splitYears_spec year hfuel
  rcases Nat.lt_trichotomy (splitYears fuel year d).1 y with hyz | hyz | hyz
  · have hbefore := day_lt_daysBefore hlt hyz
    omega
  · refine Prod.ext hyz ?_
    rw [hyz] at hdays
    exact Nat.add_left_cancel (hdays.trans h.symm)
  · have hbefore := day_lt_daysBefore hr hyz
    omega

/-- A later day is in a later year, or later in its year. -/
theorem splitYears_lt (year : Nat) (h : d < e) :
    (splitYears d year d).1 < (splitYears e year e).1 ∨
      (splitYears d year d).1 = (splitYears e year e).1 ∧ (splitYears d year d).2 < (splitYears e year e).2 := by
  obtain ⟨-, hd⟩ := splitYears_spec year (Nat.le_refl d)
  obtain ⟨hlt, he⟩ := splitYears_spec year (Nat.le_refl e)
  exact day_order hlt (by omega)

/-! ## Days and months -/

variable {lens : List Nat}

/-- And in a later month, or later in its month. -/
theorem splitMonths_lt (lens : List Nat) (h : d < e) :
    (splitMonths lens d).1 < (splitMonths lens e).1 ∨
      (splitMonths lens d).1 = (splitMonths lens e).1 ∧ (splitMonths lens d).2 < (splitMonths lens e).2 := by
  induction lens generalizing d e with
  | nil => exact Or.inr ⟨rfl, h⟩
  | cons len rest ih =>
    rw [splitMonths, splitMonths]
    split
    · split
      · exact Or.inr ⟨rfl, h⟩
      · exact Or.inl (Nat.succ_pos _)
    · rw [if_neg (by omega)]
      dsimp only
      rcases ih (d := d - len) (e := e - len) (by omega) with hmonth | ⟨hmonth, hday⟩
      · exact Or.inl (Nat.succ_lt_succ hmonth)
      · exact Or.inr ⟨congrArg Nat.succ hmonth, hday⟩

/-- A day of the year is in one of its months, which have at most `n` days. -/
theorem splitMonths_bounds {n : Nat} (hlens : ∀ len ∈ lens, len ≤ n) (h : d < lens.sum) :
    (splitMonths lens d).1 < lens.length ∧ (splitMonths lens d).2 < n := by
  induction lens generalizing d with
  | nil => exact absurd h (Nat.not_lt_zero _)
  | cons len rest ih =>
    obtain ⟨hlen, hrest⟩ := List.forall_mem_cons.mp hlens
    rw [splitMonths]
    split
    · exact ⟨Nat.succ_pos _, by omega⟩
    · rw [List.sum_cons] at h
      obtain ⟨hmonth, hday⟩ := ih hrest (d := d - len) (by omega)
      exact ⟨Nat.succ_lt_succ hmonth, hday⟩

/-- The months make up the year. -/
theorem sum_monthLengths (year : Nat) : (monthLengths year).sum = yearLength year := by
  unfold monthLengths yearLength
  split <;> rfl

/-- No month is longer than 31 days. -/
theorem monthLengths_le (year : Nat) : ∀ len ∈ monthLengths year, len ≤ 31 := by
  unfold monthLengths
  split <;> decide

/-! ## Moments -/

/-- From the year down. -/
def Moment.toList (m : Moment) : List Nat := [m.year, m.month, m.day, m.hour, m.minute, m.second]

/-- A later moment is greater, year first. -/
theorem momentAt_lt (year : Nat) (h : s < t) : (momentAt year s).toList < (momentAt year t).toList := by
  simp only [Moment.toList, List.cons_lt_cons_iff, momentAt]
  rcases Nat.lt_or_ge (s / 86400) (t / 86400) with hday | hday
  · rcases splitYears_lt year hday with hyear | ⟨hyear, hyday⟩
    · exact Or.inl hyear
    · refine Or.inr ⟨hyear, ?_⟩
      rw [hyear]
      rcases splitMonths_lt (monthLengths (splitYears (t / 86400) year (t / 86400)).1) hyday with hmonth | ⟨hmonth, hmday⟩
      · exact Or.inl hmonth
      · exact Or.inr ⟨hmonth, Or.inl (Nat.succ_lt_succ hmday)⟩
  · have hsame : s / 86400 = t / 86400 := by omega
    rw [hsame]
    refine Or.inr ⟨rfl, Or.inr ⟨rfl, Or.inr ⟨rfl, ?_⟩⟩⟩
    omega

/-- A later moment is of no earlier year. -/
theorem momentAt_year_mono (year : Nat) (h : s ≤ t) : (momentAt year s).year ≤ (momentAt year t).year := by
  rcases Nat.eq_or_lt_of_le h with rfl | hlt
  · exact Nat.le_refl _
  · have hlater := momentAt_lt year hlt
    simp only [Moment.toList, List.cons_lt_cons_iff] at hlater
    exact hlater.elim Nat.le_of_lt fun hsame => Nat.le_of_eq hsame.1

/-- The numbers of a moment are those of a calendar and a clock. -/
structure Moment.Proper (m : Moment) : Prop where
  month : m.month < 12
  day : 1 ≤ m.day ∧ m.day ≤ 31
  hour : m.hour < 24
  minute : m.minute < 60
  second : m.second < 60

/-- Every moment is proper. -/
theorem momentAt_proper (year s : Nat) : (momentAt year s).Proper := by
  obtain ⟨hyday, -⟩ := splitYears_spec year (Nat.le_refl (s / 86400))
  obtain ⟨hmonth, hday⟩ := splitMonths_bounds (monthLengths_le _) ((sum_monthLengths _).symm ▸ hyday)
  exact ⟨hmonth, ⟨Nat.succ_pos _, hday⟩, Nat.mod_lt _ (by decide), Nat.mod_lt _ (by decide), Nat.mod_lt _ (by decide)⟩

/-- The year of a moment, from the days before it. -/
theorem momentAt_year (hlo : daysBefore y ≤ daysBefore year + s / 86400) (hhi : daysBefore year + s / 86400 < daysBefore (y + 1)) :
    (momentAt year s).year = y := by
  rw [daysBefore_succ] at hhi
  have hsplit := splitYears_eq (r := daysBefore year + s / 86400 - daysBefore y) (Nat.le_refl (s / 86400))
    (by omega) (Nat.add_sub_cancel' hlo)
  exact congrArg Prod.fst hsplit

/-- A moment before the start of a year is of an earlier one. -/
theorem momentAt_year_lt (h : daysBefore year + s / 86400 < daysBefore z) : (momentAt year s).year < z := by
  obtain ⟨-, hdays⟩ := splitYears_spec year (Nat.le_refl (s / 86400))
  change (splitYears (s / 86400) year (s / 86400)).1 < z
  refine Nat.lt_of_not_le fun hle => ?_
  have hbefore := daysBefore_mono hle
  omega

/-- A second later it is at most a year later. -/
theorem momentAt_year_succ_le (year s : Nat) : (momentAt year (s + 1)).year ≤ (momentAt year s).year + 1 := by
  obtain ⟨hlt, hdays⟩ := splitYears_spec year (Nat.le_refl (s / 86400))
  change (splitYears (s / 86400) year (s / 86400)).2 < yearLength (momentAt year s).year at hlt
  change daysBefore (momentAt year s).year + (splitYears (s / 86400) year (s / 86400)).2 = _ at hdays
  have hnext := daysBefore_succ (momentAt year s).year
  have hafter := daysBefore_succ ((momentAt year s).year + 1)
  have hpos := yearLength_pos ((momentAt year s).year + 1)
  refine Nat.le_of_lt_succ (momentAt_year_lt (z := (momentAt year s).year + 1 + 1) ?_)
  omega

end Gregorian
