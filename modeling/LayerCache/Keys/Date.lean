import Mathlib.Data.Int.Init
import Mathlib.Tactic.Ring
import LayerCache.Json.Value

/-! # Dates and their ISO text

A date is a time value in milliseconds, and `toISOString` writes its calendar
fields with a fixed number of digits each. No two dates have the same text.
-/

namespace LayerCache.Keys

/-- A valid `Date`: its time value is within the range the language allows. -/
structure Date where
  time : ℤ
  valid : time.natAbs ≤ 8640000000000000
  deriving DecidableEq

structure Civil where
  year : ℤ
  month : ℤ
  day : ℤ

/-- The year of a day and its place in the year. Years are counted from March, so that the
leap day ends the year, the four years, the century and the era it is in. -/
def marchDay (days : ℤ) : ℤ × ℤ :=
  let dayOfEra := (days + 719468) % 146097
  let century := min (dayOfEra / 36524) 3
  let dayOfCentury := dayOfEra - 36524 * century
  let dayOfCycle := dayOfCentury % 1461
  let yearOfCycle := min (dayOfCycle / 365) 3
  (400 * ((days + 719468) / 146097) + 100 * century + 4 * (dayOfCentury / 1461) + yearOfCycle,
    dayOfCycle - 365 * yearOfCycle)

/-- The calendar day that begins `days` days after the epoch. -/
def civil (days : ℤ) : Civil :=
  let (year, dayOfYear) := marchDay days
  let month := (5 * dayOfYear + 2) / 153
  { year := if month < 10 then year else year + 1
    month := if month < 10 then month + 3 else month - 9
    day := dayOfYear - (153 * month + 2) / 5 + 1 }

def digit (n : ℤ) : Char := Char.ofNat (48 + (n % 10).toNat)

def pad2 (n : ℤ) : List Char := [digit (n / 10), digit n]
def pad3 (n : ℤ) : List Char := digit (n / 100) :: pad2 n
def pad4 (n : ℤ) : List Char := digit (n / 1000) :: pad3 n
def pad6 (n : ℤ) : List Char := digit (n / 100000) :: digit (n / 10000) :: pad4 n

def yearText (y : ℤ) : List Char :=
  if 0 ≤ y ∧ y ≤ 9999 then pad4 y else if 0 ≤ y then '+' :: pad6 y else '-' :: pad6 (-y)

def timeText (ms : ℤ) : List Char :=
  pad2 (ms / 3600000) ++ ':' :: (pad2 (ms / 60000 % 60) ++ ':' ::
    (pad2 (ms / 1000 % 60) ++ '.' :: (pad3 (ms % 1000) ++ ['Z'])))

def Date.toISOString (d : Date) : List Char :=
  let c := civil (d.time / 86400000)
  yearText c.year ++ '-' :: (pad2 c.month ++ '-' :: (pad2 c.day ++ 'T' ::
    timeText (d.time % 86400000)))

example : String.ofList (Date.toISOString ⟨1709210096789, by decide⟩) =
    "2024-02-29T12:34:56.789Z" := by
  decide +kernel

example : String.ofList (Date.toISOString ⟨-62198755200001, by decide⟩) =
    "-000002-12-31T23:59:59.999Z" := by
  decide +kernel

/-- How many days before the epoch's era a March year begins. -/
def marchStart (year : ℤ) : ℤ :=
  year / 400 * 146097 + (365 * (year % 400) + year % 400 / 4 - year % 400 / 100)

theorem marchDay_spec (days : ℤ) :
    0 ≤ (marchDay days).2 ∧ (marchDay days).2 ≤ 365 ∧
      marchStart (marchDay days).1 + (marchDay days).2 - 719468 = days := by
  simp only [marchDay]
  generalize hd : (days + 719468) % 146097 = dayOfEra
  generalize hc : min (dayOfEra / 36524) 3 = century
  generalize hq : (dayOfEra - 36524 * century) / 1461 = cycle
  generalize hr : (dayOfEra - 36524 * century) % 1461 = dayOfCycle
  generalize hy : min (dayOfCycle / 365) 3 = yearOfCycle
  have hmod : (400 * ((days + 719468) / 146097) + 100 * century + 4 * cycle + yearOfCycle) % 400 =
      100 * century + 4 * cycle + yearOfCycle := by
    omega
  have hfour : (100 * century + 4 * cycle + yearOfCycle) / 4 = 25 * century + cycle := by omega
  have hcycle : 0 ≤ cycle ∧ cycle ≤ 24 := by omega
  have hhundred : (100 * century + 4 * cycle + yearOfCycle) / 100 = century := by omega
  refine ⟨by omega, by omega, ?_⟩
  rw [marchStart, hmod, hfour, hhundred]
  omega

theorem civil_bounds (days : ℤ) :
    1 ≤ (civil days).month ∧ (civil days).month ≤ 12 ∧ 1 ≤ (civil days).day ∧
      (civil days).day ≤ 31 := by
  obtain ⟨h0, h1, -⟩ := marchDay_spec days
  simp only [civil]
  omega

theorem civil_injective {d e : ℤ} (hyear : (civil d).year = (civil e).year)
    (hmonth : (civil d).month = (civil e).month) (hday : (civil d).day = (civil e).day) :
    d = e := by
  obtain ⟨h0, h1, hd⟩ := marchDay_spec d
  obtain ⟨h0', h1', he⟩ := marchDay_spec e
  simp only [civil] at hyear hmonth hday
  have hm : (5 * (marchDay d).2 + 2) / 153 = (5 * (marchDay e).2 + 2) / 153 := by omega
  have hy : (marchDay d).1 = (marchDay e).1 := by omega
  rw [← hd, ← he, hy]
  omega

theorem digit_injective {m n : ℤ} (h : digit m = digit n) : m % 10 = n % 10 := by
  have hchar : ∀ k < 10, (Char.ofNat (48 + k)).toNat = 48 + k := by decide
  have := congrArg Char.toNat h
  rw [digit, digit, hchar _ (by omega), hchar _ (by omega)] at this
  omega

theorem pad2_injective {m n : ℤ} (h : pad2 m = pad2 n) : m % 100 = n % 100 := by
  simp only [pad2, List.cons.injEq, and_true] at h
  have h0 := digit_injective h.1
  have h1 := digit_injective h.2
  omega

theorem pad3_injective {m n : ℤ} (h : pad3 m = pad3 n) : m % 1000 = n % 1000 := by
  simp only [pad3, List.cons.injEq] at h
  have h0 := digit_injective h.1
  have h1 := pad2_injective h.2
  omega

theorem pad4_injective {m n : ℤ} (h : pad4 m = pad4 n) : m % 10000 = n % 10000 := by
  simp only [pad4, List.cons.injEq] at h
  have h0 := digit_injective h.1
  have h1 := pad3_injective h.2
  omega

theorem pad6_injective {m n : ℤ} (h : pad6 m = pad6 n) : m % 1000000 = n % 1000000 := by
  simp only [pad6, List.cons.injEq] at h
  have h0 := digit_injective h.1
  have h1 := digit_injective h.2.1
  have h2 := pad4_injective h.2.2
  omega

theorem yearText_injective {y z : ℤ} (hy : -1000000 < y ∧ y < 1000000)
    (hz : -1000000 < z ∧ z < 1000000) (h : yearText y = yearText z) : y = z := by
  have h4 : ∀ n, (pad4 n).length = 4 := fun _ => rfl
  have h6 : ∀ c n, (c :: pad6 n).length = 7 := fun _ _ => rfl
  unfold yearText at h
  split_ifs at h
  · have := pad4_injective h
    omega
  · exact absurd (congrArg List.length h) (by rw [h4, h6]; decide)
  · exact absurd (congrArg List.length h) (by rw [h4, h6]; decide)
  · exact absurd (congrArg List.length h) (by rw [h4, h6]; decide)
  · have := pad6_injective (List.cons.inj h).2
    omega
  · exact absurd (List.cons.inj h).1 (by decide)
  · exact absurd (congrArg List.length h) (by rw [h4, h6]; decide)
  · exact absurd (List.cons.inj h).1 (by decide)
  · have := pad6_injective (List.cons.inj h).2
    omega

theorem ediv_eq_of_digits {m n unit k : ℤ} (hunit : 0 ≤ unit)
    (hcoarse : m / (unit * k) = n / (unit * k)) (hdigits : m / unit % k = n / unit % k) :
    m / unit = n / unit := by
  rw [← Int.ediv_ediv_of_nonneg hunit, ← Int.ediv_ediv_of_nonneg hunit] at hcoarse
  rw [← Int.mul_ediv_add_emod (m / unit) k, hcoarse, hdigits, Int.mul_ediv_add_emod]

theorem timeText_injective {m n : ℤ} (hm : 0 ≤ m ∧ m < 86400000) (hn : 0 ≤ n ∧ n < 86400000)
    (h : timeText m = timeText n) : m = n := by
  obtain ⟨hhour, h⟩ := List.append_inj h rfl
  obtain ⟨hminute, h⟩ := List.append_inj (List.cons.inj h).2 rfl
  obtain ⟨hsecond, h⟩ := List.append_inj (List.cons.inj h).2 rfl
  obtain ⟨hmilli, -⟩ := List.append_inj (List.cons.inj h).2 rfl
  have hsixty : ∀ a b : ℤ, a % 60 % 100 = b % 60 % 100 → a % 60 = b % 60 := by omega
  have hthousand : ∀ a b : ℤ, a % 1000 % 1000 = b % 1000 % 1000 → a % 1000 = b % 1000 := by omega
  have hhours : m / 3600000 = n / 3600000 := by
    have := pad2_injective hhour
    omega
  have hminutes : m / 60000 = n / 60000 :=
    ediv_eq_of_digits (by decide) hhours (hsixty _ _ (pad2_injective hminute))
  have hseconds : m / 1000 = n / 1000 :=
    ediv_eq_of_digits (by decide) hminutes (hsixty _ _ (pad2_injective hsecond))
  have hmillis := hthousand _ _ (pad3_injective hmilli)
  rw [← Int.mul_ediv_add_emod m 1000, hseconds, hmillis, Int.mul_ediv_add_emod]

theorem Date.year_bound (d : Date) :
    -1000000 < (civil (d.time / 86400000)).year ∧ (civil (d.time / 86400000)).year < 1000000 := by
  have hd := d.valid
  simp only [civil, marchDay]
  omega

theorem Date.toISOString_injective {d e : Date} (h : d.toISOString = e.toISOString) : d = e := by
  have hsuffix : ∀ c : Civil, ∀ ms : ℤ,
      ('-' :: (pad2 c.month ++ '-' :: (pad2 c.day ++ 'T' :: timeText ms))).length = 20 :=
    fun _ _ => rfl
  simp only [toISOString] at h
  obtain ⟨hyear, hrest⟩ := List.append_inj' h (by rw [hsuffix, hsuffix])
  obtain ⟨hmonth, hrest⟩ := List.append_inj (List.cons.inj hrest).2 rfl
  obtain ⟨hday, htime⟩ := List.append_inj (List.cons.inj hrest).2 rfl
  have hms := timeText_injective (by omega) (by omega) (List.cons.inj htime).2
  have hy := yearText_injective d.year_bound e.year_bound hyear
  have hm := pad2_injective hmonth
  have hd := pad2_injective hday
  have hbd := civil_bounds (d.time / 86400000)
  have hbe := civil_bounds (e.time / 86400000)
  have hdays := civil_injective hy (by omega) (by omega)
  have : d.time = e.time := by omega
  cases d
  cases e
  simpa using this

end LayerCache.Keys
