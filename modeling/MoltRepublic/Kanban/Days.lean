import Mathlib
import MoltRepublic.Kanban.Calendar

/-! The days of the calendar, counted: the first day of every month, also past the year 9999,
and the day of a date from its month. -/

namespace Molt.Kanban
open Text List

def yearFirst (year : ℕ) : ℕ := 365 * year + (year + 3) / 4 - (year + 99) / 100 + (year + 399) / 400

def monthFirst (n : ℕ) : ℕ := yearFirst (n / 12) + NaiveDate.daysBeforeMonth (n / 12) (n % 12 + 1)

def monthLength (n : ℕ) : ℕ := daysInMonth (n / 12) (n % 12 + 1)

theorem yearFirst_succ (y : ℕ) : yearFirst (y + 1) = yearFirst y + if isLeap y then 366 else 365 := by
  have h4 : (y + 1 + 3) / 4 = (y + 3) / 4 + if y % 4 = 0 then 1 else 0 := by split_ifs <;> omega
  have h100 : (y + 1 + 99) / 100 = (y + 99) / 100 + if y % 100 = 0 then 1 else 0 := by split_ifs <;> omega
  have h400 : (y + 1 + 399) / 400 = (y + 399) / 400 + if y % 400 = 0 then 1 else 0 := by split_ifs <;> omega
  have hle : (y + 99) / 100 ≤ 365 * y + (y + 3) / 4 := by omega
  have hfour : y % 100 = 0 → y % 4 = 0 := by omega
  have hhundred : y % 400 = 0 → y % 100 = 0 := by omega
  unfold yearFirst isLeap
  rw [h4, h100, h400]
  clear h4 h100 h400
  generalize (y + 3) / 4 = a, (y + 99) / 100 = b, (y + 399) / 400 = c at *
  by_cases hy400 : y % 400 = 0
  · have hy100 := hhundred hy400
    have hy4 := hfour hy100
    simp [hy4, hy100, hy400]
    omega
  · by_cases hy100 : y % 100 = 0
    · have hy4 := hfour hy100
      simp [hy4, hy100, hy400]
      omega
    · by_cases hy4 : y % 4 = 0
      · simp [hy4, hy100, hy400]
        omega
      · simp [hy4, hy100, hy400]
        omega

theorem isLeap_add_cycle (y : ℕ) : isLeap (y + 400) = isLeap y := by
  have h4 : (y + 400) % 4 = y % 4 := by omega
  have h100 : (y + 400) % 100 = y % 100 := by omega
  have h400 : (y + 400) % 400 = y % 400 := by omega
  unfold isLeap
  rw [h4, h100, h400]

theorem daysInMonth_cycle (y m : ℕ) : daysInMonth (y + 400) m = daysInMonth y m := by
  unfold daysInMonth
  rw [isLeap_add_cycle]

theorem le_daysInMonth (y m : ℕ) : 28 ≤ daysInMonth y m := by
  unfold daysInMonth
  split_ifs <;> omega

theorem daysBeforeMonth_succ (y m : ℕ) :
    NaiveDate.daysBeforeMonth y (m + 2) = NaiveDate.daysBeforeMonth y (m + 1) + daysInMonth y (m + 1) := by
  unfold NaiveDate.daysBeforeMonth
  rw [show m + 2 - 1 = m + 1 from rfl, show m + 1 - 1 = m from rfl, range_succ, map_append,
    sum_append]
  simp

theorem year_length (y : ℕ) :
    NaiveDate.daysBeforeMonth y 12 + daysInMonth y 12 = if isLeap y then 366 else 365 := by
  cases hleap : isLeap y <;> simp [NaiveDate.daysBeforeMonth, daysInMonth, range_succ, hleap]

theorem monthFirst_succ (n : ℕ) : monthFirst (n + 1) = monthFirst n + monthLength n := by
  unfold monthFirst monthLength
  rcases Nat.lt_or_ge (n % 12) 11 with hlt | hge
  · have hyear : (n + 1) / 12 = n / 12 := by omega
    have hmonth : (n + 1) % 12 = n % 12 + 1 := by omega
    rw [hyear, hmonth, daysBeforeMonth_succ]
    ring
  · have hyear : (n + 1) / 12 = n / 12 + 1 := by omega
    have hmonth : (n + 1) % 12 = 0 := by omega
    have hlast : n % 12 = 11 := by omega
    have hlength := year_length (n / 12)
    have hempty : NaiveDate.daysBeforeMonth (n / 12 + 1) 1 = 0 := rfl
    rw [hyear, hmonth, hlast, yearFirst_succ, Nat.zero_add, hempty, ← hlength]
    ring

theorem le_monthLength (n : ℕ) : 28 ≤ monthLength n := le_daysInMonth _ _

theorem monthLength_cycle (n : ℕ) : monthLength (cycleMonths + n) = monthLength n := by
  have hyear : (cycleMonths + n) / 12 = n / 12 + 400 := by unfold cycleMonths; omega
  have hmonth : (cycleMonths + n) % 12 = n % 12 := by unfold cycleMonths; omega
  unfold monthLength
  rw [hyear, hmonth, daysInMonth_cycle]

theorem monthFirst_strictMono : StrictMono monthFirst := by
  apply strictMono_nat_of_lt_succ
  intro n
  rw [monthFirst_succ]
  have hlength := le_monthLength n
  omega

theorem le_monthFirst (n : ℕ) : n ≤ monthFirst n := monthFirst_strictMono.le_apply

namespace NaiveDate

variable (d : NaiveDate)

theorem one_le_month : 1 ≤ d.month := by
  have hvalid := d.valid
  simp only [isDate, Bool.and_eq_true, decide_eq_true_eq] at hvalid
  exact hvalid.1.1.1.2

theorem one_le_day : 1 ≤ d.day := by
  have hvalid := d.valid
  simp only [isDate, Bool.and_eq_true, decide_eq_true_eq] at hvalid
  exact hvalid.1.2

theorem year_le : d.year ≤ 9999 := by
  have hvalid := d.valid
  simp only [isDate, Bool.and_eq_true, decide_eq_true_eq] at hvalid
  exact hvalid.1.1.1.1

theorem monthNumber_year : d.monthNumber / 12 = d.year := by
  have hle := d.month_le
  unfold monthNumber
  omega

theorem monthNumber_month : d.monthNumber % 12 + 1 = d.month := by
  have hle := d.month_le
  have hge := d.one_le_month
  unfold monthNumber
  omega

theorem day_le_monthLength : d.day ≤ monthLength d.monthNumber := by
  have hvalid := d.valid
  simp only [isDate, Bool.and_eq_true, decide_eq_true_eq] at hvalid
  unfold monthLength
  rw [d.monthNumber_year, d.monthNumber_month]
  exact hvalid.2

theorem number_eq : d.number = monthFirst d.monthNumber + (d.day - 1) := by
  unfold monthFirst
  rw [d.monthNumber_year, d.monthNumber_month]
  rfl

theorem number_lt_next : d.number < monthFirst (d.monthNumber + 1) := by
  have hle := d.day_le_monthLength
  have hge := d.one_le_day
  rw [d.number_eq, monthFirst_succ]
  omega

theorem lt_iff_lex {a b : NaiveDate} :
    a < b ↔ a.monthNumber < b.monthNumber ∨ a.monthNumber = b.monthNumber ∧ a.day < b.day := by
  have ha := a.day_le
  have hb := b.day_le
  have ha' := a.month_le
  have hb' := b.month_le
  have ha'' := a.one_le_month
  have hb'' := b.one_le_month
  change a.rank < b.rank ↔ _
  unfold rank monthNumber
  omega

theorem number_strictMono : StrictMono number := by
  intro a b hab
  rcases lt_iff_lex.mp hab with hmonth | ⟨hmonth, hday⟩
  · calc a.number < monthFirst (a.monthNumber + 1) := a.number_lt_next
      _ ≤ monthFirst b.monthNumber := monthFirst_strictMono.monotone hmonth
      _ ≤ b.number := by rw [b.number_eq]; exact Nat.le_add_right _ _
  · have ha := a.one_le_day
    rw [a.number_eq, b.number_eq, hmonth]
    omega

theorem number_lt {a b : NaiveDate} : a.number < b.number ↔ a < b := number_strictMono.lt_iff_lt

theorem number_le {a b : NaiveDate} : a.number ≤ b.number ↔ a ≤ b := number_strictMono.le_iff_le

theorem number_inj {a b : NaiveDate} : a.number = b.number ↔ a = b := number_strictMono.injective.eq_iff

theorem weekday_lt : d.weekday < 7 := Nat.mod_lt _ (by decide)

end NaiveDate

variable {n : ℕ}

theorem month_unique {m a b : ℕ} (ha : a < monthLength m) (hb : b < monthLength n)
    (h : monthFirst m + a = monthFirst n + b) : m = n ∧ a = b := by
  have hle : ∀ {m n a b : ℕ}, a < monthLength m → monthFirst m + a = monthFirst n + b → n ≤ m := by
    intro m n a b ha h
    by_contra hlt
    have hnext : monthFirst (m + 1) ≤ monthFirst n := monthFirst_strictMono.monotone (by omega)
    rw [monthFirst_succ] at hnext
    omega
  obtain rfl : m = n := (hle hb h.symm).antisymm (hle ha h)
  exact ⟨rfl, by omega⟩

def monthOf (n : ℕ) : ℕ := Nat.findGreatest (fun m => monthFirst m ≤ n) (n / 28)

def dayOf (n : ℕ) : ℕ := n - monthFirst (monthOf n) + 1

def dateAt (n : ℕ) : Option NaiveDate := NaiveDate.fromYmdOpt (monthOf n / 12) (monthOf n % 12 + 1) (dayOf n)

theorem mul_le_monthFirst (m : ℕ) : 28 * m ≤ monthFirst m := by
  induction m with
  | zero => exact Nat.zero_le _
  | succ m ih =>
    have hlength := le_monthLength m
    rw [monthFirst_succ]
    omega

theorem monthFirst_monthOf (n : ℕ) : monthFirst (monthOf n) ≤ n ∧ n < monthFirst (monthOf n + 1) := by
  constructor
  · exact Nat.findGreatest_spec (P := fun m => monthFirst m ≤ n) (Nat.zero_le _) (Nat.zero_le n)
  · by_contra hle
    have hbound := mul_le_monthFirst (monthOf n + 1)
    have hgreatest : monthOf n + 1 ≤ monthOf n :=
      Nat.le_findGreatest (P := fun m => monthFirst m ≤ n) (by omega) (not_lt.mp hle)
    omega

theorem monthOf_dayOf (n : ℕ) : monthFirst (monthOf n) + (dayOf n - 1) = n ∧ dayOf n ≤ monthLength (monthOf n) := by
  obtain ⟨hle, hlt⟩ := monthFirst_monthOf n
  rw [monthFirst_succ] at hlt
  unfold dayOf
  omega

theorem monthOf_eq {m a : ℕ} (ha : a < monthLength m) :
    monthOf (monthFirst m + a) = m ∧ dayOf (monthFirst m + a) = a + 1 := by
  obtain ⟨hsum, hday⟩ := monthOf_dayOf (monthFirst m + a)
  have hone : 1 ≤ dayOf (monthFirst m + a) := Nat.le_add_left 1 _
  obtain ⟨hmonth, hrest⟩ := month_unique (by omega) ha hsum
  exact ⟨hmonth, by omega⟩

variable (d : NaiveDate)

theorem NaiveDate.monthOf_number : monthOf d.number = d.monthNumber ∧ dayOf d.number = d.day := by
  have hone := d.one_le_day
  have hle := d.day_le_monthLength
  obtain ⟨hmonth, hday⟩ := monthOf_eq (show d.day - 1 < monthLength d.monthNumber by omega)
  rw [d.number_eq]
  exact ⟨hmonth, by omega⟩

theorem dateAt_number : dateAt d.number = some d := by
  unfold dateAt NaiveDate.fromYmdOpt
  simp only [d.monthOf_number.1, d.monthOf_number.2, d.monthNumber_year, d.monthNumber_month]
  exact dif_pos d.valid

theorem number_of_dateAt {d : NaiveDate} (h : dateAt n = some d) : d.number = n := by
  unfold dateAt NaiveDate.fromYmdOpt at h
  split at h
  · cases h
    rw [NaiveDate.number_eq]
    have hmonth : NaiveDate.monthNumber ⟨monthOf n / 12, monthOf n % 12 + 1, dayOf n, ‹_›⟩ = monthOf n := by
      unfold NaiveDate.monthNumber
      dsimp only
      omega
    rw [hmonth]
    exact (monthOf_dayOf n).1
  · cases h

theorem monthNumber_lt : d.monthNumber < 120000 := by
  have hyear := d.year_le
  have hmonth := d.month_le
  unfold NaiveDate.monthNumber
  omega

def yearsEnd : ℕ := monthFirst 120000

theorem yearsEnd_eq : yearsEnd = 3652425 := rfl

theorem number_lt_yearsEnd : d.number < yearsEnd := by
  have hmonth : monthFirst (d.monthNumber + 1) ≤ monthFirst 120000 := monthFirst_strictMono.monotone (monthNumber_lt d)
  exact d.number_lt_next.trans_le hmonth

theorem dateAt_isSome (h : n < yearsEnd) : ∃ d, dateAt n = some d := by
  obtain ⟨hsum, hday⟩ := monthOf_dayOf n
  have hmonth : monthOf n < 120000 := by
    rw [← monthFirst_strictMono.lt_iff_lt]
    exact (Nat.le_of_add_right_le hsum.le).trans_lt h
  have hone : 1 ≤ dayOf n := Nat.le_add_left 1 _
  have hvalid : isDate (monthOf n / 12) (monthOf n % 12 + 1) (dayOf n) = true := by
    simp only [isDate, Bool.and_eq_true, decide_eq_true_eq]
    exact ⟨⟨⟨⟨by omega, by omega⟩, by omega⟩, hone⟩, hday⟩
  exact ⟨_, dif_pos hvalid⟩

theorem padded_digits (width n : ℕ) : ∀ c ∈ (padded width n).toList, c.isDigit = true := by
  intro c hc
  unfold padded at hc
  rw [String.toList_ofList] at hc
  rcases mem_append.mp hc with hzero | hdigit
  · rw [eq_of_mem_replicate hzero]
    rfl
  · exact Nat.isDigit_of_mem_toDigits (by decide) (by decide) hdigit

theorem padded_value (width n : ℕ) : Nat.ofDigitChars 10 (padded width n).toList 0 = n := by
  have hzeros : ∀ k, Nat.ofDigitChars 10 (List.replicate k '0' ++ Nat.toDigits 10 n) 0 = n := by
    intro k
    induction k with
    | zero => exact Nat.ofDigitChars_ten_toDigits
    | succ k ih =>
      exact ih
  unfold padded
  rw [String.toList_ofList]
  exact hzeros _

theorem not_mem_padded {c : Char} (h : c.isDigit = false) (width n : ℕ) : c ∉ (padded width n).toList := fun hmem =>
  absurd (padded_digits width n c hmem) (by simp [h])

theorem padded_length {width : ℕ} (hwidth : 0 < width) (h : n < 10 ^ width) :
    (padded width n).toList.length = width := by
  have hle := (Nat.length_toDigits_le_iff (by decide) hwidth).mpr h
  unfold padded
  rw [String.toList_ofList, length_append, length_replicate]
  omega

theorem digitsValue_padded (width n : ℕ) : digitsValue (padded width n).toList 0 = some n := by
  rw [digitsValue_digits (padded_digits width n), padded_value]

theorem padded_two (h : n < 100) : ∃ a b, (padded 2 n).toList = [a, b] ∧ digitsValue [a, b] 0 = some n := by
  obtain ⟨a, b, heq⟩ := length_eq_two.mp (padded_length (by decide) h)
  exact ⟨a, b, heq, heq ▸ digitsValue_padded 2 n⟩

theorem padded_four (h : n < 10000) :
    ∃ a b c d, (padded 4 n).toList = [a, b, c, d] ∧ digitsValue [a, b, c, d] 0 = some n := by
  have hlen : (padded 4 n).toList.length = 4 := padded_length (by decide) h
  have hvalue := digitsValue_padded 4 n
  match hdigits : (padded 4 n).toList, hlen with
  | [a, b, c, d], _ => exact ⟨a, b, c, d, rfl, hdigits ▸ hvalue⟩

theorem fmtDate_chars : ∃ y₁ y₂ y₃ y₄ m₁ m₂ d₁ d₂,
    (fmtDate d).toList = [y₁, y₂, y₃, y₄, '-', m₁, m₂, '-', d₁, d₂] ∧ digitsValue [y₁, y₂, y₃, y₄] 0 = some d.year ∧
      digitsValue [m₁, m₂] 0 = some d.month ∧ digitsValue [d₁, d₂] 0 = some d.day := by
  obtain ⟨y₁, y₂, y₃, y₄, hy, hyear⟩ := padded_four (Nat.lt_succ_of_le d.year_le)
  obtain ⟨m₁, m₂, hm, hmonth⟩ := padded_two (show d.month < 100 by have := d.month_le; omega)
  obtain ⟨d₁, d₂, hd, hday⟩ := padded_two (show d.day < 100 by have := d.day_le; omega)
  refine ⟨y₁, y₂, y₃, y₄, m₁, m₂, d₁, d₂, ?_, hyear, hmonth, hday⟩
  rw [fmtDate]
  simp only [String.toList_append, hy, hm, hd]
  rfl

theorem parseDate_fmtDate : parseDate (fmtDate d) = some d := by
  obtain ⟨y₁, y₂, y₃, y₄, m₁, m₂, d₁, d₂, hchars, hyear, hmonth, hday⟩ := fmtDate_chars d
  unfold parseDate
  rw [hchars]
  show ((digitsValue [y₁, y₂, y₃, y₄] 0).bind fun y => (digitsValue [m₁, m₂] 0).bind fun m =>
    (digitsValue [d₁, d₂] 0).bind fun n => NaiveDate.fromYmdOpt y m n) = some d
  rw [hyear, hmonth, hday]
  exact dif_pos d.valid

end Molt.Kanban
