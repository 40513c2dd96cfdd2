import Mathlib
import MoltRepublic.Kanban.Words

/-! The first original date at or after a day, found by jumping. Days are numbers here: the search
goes past the year 9999, to the end of what `chrono` names. -/

namespace Molt.Kanban
open Turns Checked List Nat

/-- The last date of `chrono`, 262142-12-31. -/
def dateMax : ℕ := monthFirst (262143 * 12) - 1

/-- `checked_add_days` on the date `back` days before a day. -/
def addDays (day back days : ℕ) : Option ℕ :=
  if days < 2 ^ 31 ∧ day + days - back ≤ dateMax then some (day + days - back) else none

def divCeil (a b : ℕ) : ℕ := (a + b - 1) / b

def weekTurns (start : NaiveDate) (r : Repeat) : ℕ → ℕ → Option (Option ℕ)
  | 0, _ => some none
  | turns + 1, at_ =>
    let week := at_ / 7
    if week % r.interval ≠ 0 then
      match (fits 64 ((week / r.interval + 1) * r.interval)).bind fun m => fits 64 (m * 7) with
      | none => some none
      | some at_ => weekTurns start r turns at_
    else
      match (List.range' (at_ % 7) (7 - at_ % 7)).find? (· ∈ dayMask start r) with
      | some dow => (fits 64 (week * 7 + dow)).map (addDays start.number start.weekday)
      | none =>
        match (fits 64 (week + r.interval)).bind fun m => fits 64 (m * 7) with
        | none => some none
        | some at_ => weekTurns start r turns at_

def monthTurns (start : NaiveDate) (r : Repeat) : ℕ → ℕ → Option ℕ
  | 0, _ => none
  | turns + 1, k =>
    let n := start.monthNumber + k
    if 9999 < n / 12 then none
    else if start.day ≤ monthLength n then some (monthFirst n + (start.day - 1))
    else (fits 64 (k + r.interval)).bind (monthTurns start r turns)

/-- The first original date at or after `from_`; the computation stops (`none`) at an overflow. -/
def nextHit (start : NaiveDate) (r : Repeat) (from_ : ℕ) : Option (Option ℕ) :=
  if from_ ≤ start.number then some (some start.number)
  else
    let off := from_ - start.number
    match r.freq with
    | .daily => some ((fits 64 (divCeil off r.interval * r.interval)).bind (addDays start.number 0))
    | .weekly => weekTurns start r 3 (off + start.weekday)
    | .monthly =>
      let months := monthOf from_ - start.monthNumber
      some ((fits 64 (divCeil months r.interval * r.interval)).bind fun k =>
        (if k = months ∧ start.day < dayOf from_ then fits 64 (k + r.interval) else some k).bind
          (monthTurns start r cycleMonths))

def Pattern (start : NaiveDate) (r : Repeat) (n : ℕ) : Prop := n = start.number ∨ ∃ k, n ∈ later start r k

def lastDay : Freq → ℕ
  | .monthly => yearsEnd - 1
  | _ => dateMax

def IsNext (start : NaiveDate) (r : Repeat) (x : ℕ) (o : Option ℕ) : Prop :=
  ∀ n, o = some n ↔ IsLeast {m | Pattern start r m ∧ x ≤ m} n ∧ n ≤ lastDay r.freq

def lastWeek : ℕ := (2 ^ 64 - 1) / 7

/-- The search is past the start's week, and the week it jumps to is the last one a word counts
in days, with its first weekday past the word. -/
def Overflows (start : NaiveDate) (r : Repeat) (x : ℕ) : Prop :=
  r.freq = .weekly ∧ r.interval = lastWeek ∧ start.number < x ∧
    ∀ o ∈ dayMask start r, 2 ≤ o ∧ start.number + o < x + start.weekday

section
variable {start : NaiveDate} {r : Repeat} {x n : ℕ}

theorem isNext_some (h : IsLeast {m | Pattern start r m ∧ x ≤ m} n) (hle : n ≤ lastDay r.freq) :
    IsNext start r x (some n) := by
  intro m
  constructor
  · intro hm
    cases hm
    exact ⟨h, hle⟩
  · rintro ⟨hm, -⟩
    exact congrArg some (h.unique hm)

theorem isNext_none (h : ∀ m, Pattern start r m → x ≤ m → lastDay r.freq < m) : IsNext start r x none := by
  intro m
  refine iff_of_false (by simp) ?_
  rintro ⟨hm, hle⟩
  exact (h m hm.1.1 hm.1.2).not_ge hle

theorem isNext_past (h : IsLeast {m | Pattern start r m ∧ x ≤ m} n) (hlt : lastDay r.freq < n) :
    IsNext start r x none :=
  isNext_none fun _ hm hx => hlt.trans_le (h.2 ⟨hm, hx⟩)

theorem dateMax_eq : dateMax = 95745764 := rfl

theorem isNext_addDays (hfreq : lastDay r.freq = dateMax) {day back days : ℕ} (hback : back < 7)
    (h : IsLeast {m | Pattern start r m ∧ x ≤ m} (day + days - back)) :
    IsNext start r x (addDays day back days) := by
  unfold addDays
  split
  · rename_i hle
    exact isNext_some h (hfreq ▸ hle.2)
  · rename_i hgt
    refine isNext_past h ?_
    rw [hfreq]
    rw [dateMax_eq] at hgt ⊢
    omega

end

section
variable {start : NaiveDate} {r : Repeat} {x : ℕ}

theorem le_divCeil_mul (a : ℕ) {b : ℕ} (hb : 1 ≤ b) : a ≤ divCeil a b * b ∧ ∀ k, a ≤ k * b → divCeil a b ≤ k := by
  unfold divCeil
  constructor
  · have hdiv := div_add_mod (a + b - 1) b
    have hmod := mod_lt (a + b - 1) hb
    rw [Nat.mul_comm] at hdiv
    omega
  · intro k hk
    have hlt : (a + b - 1) / b < k + 1 := by
      rw [Nat.div_lt_iff_lt_mul hb, Nat.add_mul]
      omega
    omega

theorem pattern_daily (hr : r.Fits) (hfreq : r.freq = .daily) {n : ℕ} :
    Pattern start r n ↔ ∃ k, n = start.number + k * r.interval := by
  constructor
  · rintro (rfl | ⟨k, hk⟩)
    · exact ⟨0, by simp⟩
    · cases k with
      | zero => rw [(later_daily hr hfreq 0).1] at hk; simp at hk
      | succ k =>
        rw [(later_daily hr hfreq k).2] at hk
        exact ⟨k + 1, mem_singleton.mp hk⟩
  · rintro ⟨k, rfl⟩
    cases k with
    | zero => exact .inl (by simp)
    | succ k => exact .inr ⟨k + 1, by rw [(later_daily hr hfreq k).2]; exact .head _⟩

theorem nextHit_daily (hr : r.Fits) (hfreq : r.freq = .daily) (hx : start.number < x) :
    ∃ o, nextHit start r x = some o ∧ IsNext start r x o := by
  obtain ⟨hle, hleast⟩ := le_divCeil_mul (x - start.number) hr.interval_pos
  unfold nextHit
  rw [if_neg hx.not_ge, hfreq]
  refine ⟨_, rfl, ?_⟩
  have hnext : IsLeast {m | Pattern start r m ∧ x ≤ m}
      (start.number + divCeil (x - start.number) r.interval * r.interval - 0) := by
    refine ⟨⟨(pattern_daily hr hfreq).mpr ⟨_, rfl⟩, by omega⟩, ?_⟩
    rintro m ⟨hm, hxm⟩
    obtain ⟨k, rfl⟩ := (pattern_daily hr hfreq).mp hm
    have hk := Nat.mul_le_mul_right r.interval (hleast k (by omega))
    omega
  have hlast : lastDay r.freq = dateMax := by rw [hfreq]; rfl
  unfold fits
  split
  · exact isNext_addDays hlast (by decide) hnext
  · refine isNext_past hnext ?_
    rw [hlast, dateMax_eq]
    omega

end

section
variable {start : NaiveDate} {r : Repeat} {x : ℕ}

theorem pattern_monthly (hr : r.Fits) (hfreq : r.freq = .monthly) {n : ℕ} :
    Pattern start r n ↔ ∃ k, HasDay start r.interval k ∧
      n = monthFirst (start.monthNumber + k * r.interval) + (start.day - 1) := by
  constructor
  · rintro (rfl | ⟨k, hk⟩)
    · refine ⟨0, hasDay_zero _ _, ?_⟩
      rw [Nat.zero_mul, Nat.add_zero, ← start.number_eq]
    · cases k with
      | zero => rw [(later_monthly hr hfreq 0).1] at hk; simp at hk
      | succ k =>
        rw [(later_monthly hr hfreq k).2, mem_ite_nil_right, mem_singleton] at hk
        exact ⟨k + 1, hk⟩
  · rintro ⟨k, hday, rfl⟩
    cases k with
    | zero =>
      left
      rw [Nat.zero_mul, Nat.add_zero, ← start.number_eq]
    | succ k =>
      right
      refine ⟨k + 1, ?_⟩
      rw [(later_monthly hr hfreq k).2, if_pos hday]
      exact .head _

theorem monthTurns_spec (turns q : ℕ) :
    (∃ p, q ≤ p ∧ HasDay start r.interval p ∧ (∀ k, q ≤ k → HasDay start r.interval k → p ≤ k) ∧
      start.monthNumber + p * r.interval < 120000 ∧ monthTurns start r turns (q * r.interval) =
        some (monthFirst (start.monthNumber + p * r.interval) + (start.day - 1))) ∨
    monthTurns start r turns (q * r.interval) = none ∧
      ∀ k, q ≤ k → k < q + turns → HasDay start r.interval k → 120000 ≤ start.monthNumber + k * r.interval := by
  induction turns generalizing q with
  | zero => exact .inr ⟨rfl, fun k hk hlt => by omega⟩
  | succ turns ih =>
    have hbeyond : ∀ k, q ≤ k → start.monthNumber + q * r.interval ≤ start.monthNumber + k * r.interval :=
      fun k hk => Nat.add_le_add_left (Nat.mul_le_mul_right _ hk) _
    unfold monthTurns
    dsimp only
    split
    · rename_i hyear
      refine .inr ⟨rfl, fun k hk _ _ => ?_⟩
      have hle := hbeyond k hk
      omega
    split
    · rename_i hday
      exact .inl ⟨q, le_rfl, hday, fun k hk _ => hk, by omega, rfl⟩
    rename_i hday
    have hstep : q * r.interval + r.interval = (q + 1) * r.interval := by ring
    rw [hstep]
    unfold fits
    split
    · rename_i hfits
      rcases ih (q + 1) with ⟨p, hp, hhas, hleast, hmonth, hsome⟩ | ⟨hnone, hall⟩
      · refine .inl ⟨p, by omega, hhas, fun k hk hk' => ?_, hmonth, hsome⟩
        rcases hk.eq_or_lt with rfl | hlt
        · exact absurd hk' hday
        · exact hleast k hlt hk'
      · refine .inr ⟨hnone, fun k hk hlt hk' => ?_⟩
        rcases hk.eq_or_lt with rfl | hlt'
        · exact absurd hk' hday
        · exact hall k hlt' (by omega) hk'
    · rename_i hfits
      refine .inr ⟨rfl, fun k hk _ hk' => ?_⟩
      rcases hk.eq_or_lt with rfl | hlt
      · exact absurd hk' hday
      · have hle : (q + 1) * r.interval ≤ k * r.interval := Nat.mul_le_mul_right r.interval hlt
        omega

theorem exists_hasDay (start : NaiveDate) (interval q : ℕ) :
    ∃ k, q ≤ k ∧ k < q + cycleMonths ∧ HasDay start interval k := by
  have hpos := cycle_period_pos (interval % cycleMonths)
  have hle := cycle_period_le (interval % cycleMonths)
  have hperiodic := hasDay_periodic start interval
  generalize cycleMonths / Nat.gcd (interval % cycleMonths) cycleMonths = period at *
  have hmultiple : ∀ c, HasDay start interval (c * period) := by
    intro c
    induction c with
    | zero => rw [Nat.zero_mul]; exact hasDay_zero _ _
    | succ c ih =>
      rw [Nat.add_mul, Nat.one_mul, Nat.add_comm]
      exact (hperiodic _).mpr ih
  obtain ⟨hceil, -⟩ := le_divCeil_mul q hpos
  refine ⟨divCeil q period * period, hceil, ?_, hmultiple _⟩
  unfold divCeil
  have hdiv := div_mul_le_self (q + period - 1) period
  omega

theorem monthTurns_exact (hr : r.Fits) (q : ℕ) (hq : ∀ k, HasDay start r.interval k →
      (x ≤ monthFirst (start.monthNumber + k * r.interval) + (start.day - 1) ↔ q ≤ k)) (hfreq : r.freq = .monthly) :
    IsNext start r x (monthTurns start r cycleMonths (q * r.interval)) := by
  have hlast : lastDay r.freq = yearsEnd - 1 := by rw [hfreq]; rfl
  have hpos : 0 < yearsEnd := by rw [yearsEnd_eq]; decide
  rcases @monthTurns_spec start r cycleMonths q with ⟨p, hp, hhas, hleast, hmonth, hsome⟩ | ⟨hnone, hall⟩
  · rw [hsome]
    refine isNext_some ⟨⟨(pattern_monthly hr hfreq).mpr ⟨p, hhas, rfl⟩, (hq p hhas).mpr hp⟩, ?_⟩ ?_
    · rintro m ⟨hm, hxm⟩
      obtain ⟨k, hk, rfl⟩ := (pattern_monthly hr hfreq).mp hm
      have hpk := Nat.mul_le_mul_right r.interval (hleast k ((hq k hk).mp hxm) hk)
      have hmono : monthFirst (start.monthNumber + p * r.interval) ≤ monthFirst (start.monthNumber + k * r.interval) :=
        monthFirst_strictMono.monotone (by omega)
      omega
    · have hend : monthFirst (start.monthNumber + p * r.interval + 1) ≤ yearsEnd := monthFirst_strictMono.monotone hmonth
      rw [monthFirst_succ] at hend
      have hone := start.one_le_day
      unfold HasDay at hhas
      omega
  · rw [hnone]
    refine isNext_none fun m hm hxm => ?_
    obtain ⟨k, hk, rfl⟩ := (pattern_monthly hr hfreq).mp hm
    obtain ⟨j, hqj, hj, hhas⟩ := exists_hasDay start r.interval q
    have hqk := (hq k hk).mp hxm
    have hmonth : 120000 ≤ start.monthNumber + k * r.interval := by
      rcases Nat.lt_or_ge k (q + cycleMonths) with hlt | hge
      · exact hall k hqk hlt hk
      · have hle := Nat.mul_le_mul_right r.interval (hj.le.trans hge)
        have hjmonth := hall j hqj hj hhas
        omega
    have hend : yearsEnd ≤ monthFirst (start.monthNumber + k * r.interval) := monthFirst_strictMono.monotone hmonth
    omega

theorem le_monthDay {m day : ℕ} (hday : 1 ≤ day) (hle : day ≤ monthLength m) :
    x ≤ monthFirst m + (day - 1) ↔ monthOf x < m ∨ monthOf x = m ∧ dayOf x ≤ day := by
  obtain ⟨hsum, hlength⟩ := monthOf_dayOf x
  rcases lt_trichotomy (monthOf x) m with hlt | heq | hlt
  · have hnext : monthFirst (monthOf x + 1) ≤ monthFirst m := monthFirst_strictMono.monotone hlt
    rw [monthFirst_succ] at hnext
    exact iff_of_true (by omega) (.inl hlt)
  · subst heq
    constructor
    · intro h
      exact .inr ⟨rfl, by omega⟩
    · rintro (h | ⟨-, h⟩)
      · exact absurd h (lt_irrefl _)
      · omega
  · have hnext : monthFirst (m + 1) ≤ monthFirst (monthOf x) := monthFirst_strictMono.monotone hlt
    rw [monthFirst_succ] at hnext
    refine iff_of_false (by omega) ?_
    rintro (h | ⟨h, -⟩)
    all_goals omega

theorem monthNumber_le_monthOf (hx : start.number < x) : start.monthNumber ≤ monthOf x := by
  have hlt := (monthFirst_monthOf x).2
  have hfirst : monthFirst start.monthNumber < monthFirst (monthOf x + 1) := by
    have hle := Nat.le_add_right (monthFirst start.monthNumber) (start.day - 1)
    rw [← start.number_eq] at hle
    omega
  have hmonth := monthFirst_strictMono.lt_iff_lt.mp hfirst
  omega

theorem nextHit_monthly (hr : r.Fits) (hfreq : r.freq = .monthly) (hx : start.number < x) :
    ∃ o, nextHit start r x = some o ∧ IsNext start r x o := by
  have hmonth := monthNumber_le_monthOf hx
  have hone := start.one_le_day
  have hpos := hr.interval_pos
  have hlast : lastDay r.freq = yearsEnd - 1 := by rw [hfreq]; rfl
  obtain ⟨hle, hleast⟩ := le_divCeil_mul (monthOf x - start.monthNumber) hr.interval_pos
  have hafter : ∀ k, HasDay start r.interval k →
      (x ≤ monthFirst (start.monthNumber + k * r.interval) + (start.day - 1) ↔
        monthOf x - start.monthNumber < k * r.interval ∨
          monthOf x - start.monthNumber = k * r.interval ∧ dayOf x ≤ start.day) := by
    intro k hk
    rw [le_monthDay hone hk]
    constructor
    · rintro (h | ⟨h, h'⟩)
      · exact .inl (by omega)
      · exact .inr ⟨by omega, h'⟩
    · rintro (h | ⟨h, h'⟩)
      · exact .inl (by omega)
      · exact .inr ⟨by omega, h'⟩
  have hfar : ∀ {q : ℕ}, 2 ^ 64 ≤ q * r.interval → (∀ k, HasDay start r.interval k →
      x ≤ monthFirst (start.monthNumber + k * r.interval) + (start.day - 1) → q ≤ k) → IsNext start r x none := by
    intro q hq hall
    refine isNext_none fun m hm hxm => ?_
    obtain ⟨k, hk, rfl⟩ := (pattern_monthly hr hfreq).mp hm
    have hqk := Nat.mul_le_mul_right r.interval (hall k hk hxm)
    have hfirst := le_monthFirst (start.monthNumber + k * r.interval)
    rw [hlast, yearsEnd_eq]
    omega
  unfold nextHit
  rw [if_neg hx.not_ge, hfreq]
  refine ⟨_, rfl, ?_⟩
  generalize divCeil (monthOf x - start.monthNumber) r.interval = q at *
  have hceil : ∀ k, HasDay start r.interval k →
      x ≤ monthFirst (start.monthNumber + k * r.interval) + (start.day - 1) → q ≤ k := by
    intro k hk hxk
    rcases (hafter k hk).mp hxk with h | ⟨h, -⟩
    · exact hleast k h.le
    · exact hleast k h.le
  have hmono : ∀ {a b : ℕ}, a < b → a * r.interval + r.interval ≤ b * r.interval := by
    intro a b hab
    have hle := Nat.mul_le_mul_right r.interval hab
    rwa [succ_mul] at hle
  unfold fits
  split
  · dsimp only [Option.bind_some]
    split
    · rename_i hsame
      have hnext : ∀ k, HasDay start r.interval k →
          (x ≤ monthFirst (start.monthNumber + k * r.interval) + (start.day - 1) ↔ q + 1 ≤ k) := by
        intro k hk
        rw [hafter k hk]
        constructor
        · rintro (h | ⟨-, h⟩)
          · by_contra hlt
            have hle := Nat.mul_le_mul_right r.interval (show k ≤ q by omega)
            omega
          · omega
        · intro hqk
          have hlt := hmono hqk
          exact .inl (by omega)
      rw [show q * r.interval + r.interval = (q + 1) * r.interval by ring]
      split
      · exact monthTurns_exact hr (q + 1) hnext hfreq
      · rename_i hgt
        exact hfar (not_lt.mp hgt) fun k hk hxk => (hnext k hk).mp hxk
    · rename_i hsame
      refine monthTurns_exact hr q (fun k hk => ⟨hceil k hk, fun hqk => (hafter k hk).mpr ?_⟩) hfreq
      rcases hqk.eq_or_lt with rfl | hlt
      · rcases hle.eq_or_lt with heq | hlt
        · exact .inr ⟨heq, not_lt.mp fun h => hsame ⟨heq.symm, h⟩⟩
        · exact .inl hlt
      · have hstep := hmono hlt
        exact .inl (by omega)
  · rename_i hgt
    exact hfar (not_lt.mp hgt) hceil

end

section
variable {start : NaiveDate} {r : Repeat} {x : ℕ}

def WeekHit (start : NaiveDate) (r : Repeat) (a : ℕ) : Prop := a / 7 % r.interval = 0 ∧ a % 7 ∈ dayMask start r

theorem pattern_weekly (hfreq : r.freq = .weekly) {n : ℕ} (hn : start.number < n) :
    Pattern start r n ↔ WeekHit start r (n + start.weekday - start.number) := by
  unfold WeekHit
  constructor
  · rintro (rfl | ⟨k, hk⟩)
    · exact absurd hn (lt_irrefl _)
    · obtain ⟨hturn, -⟩ := mem_later.mp hk
      unfold turn at hturn
      simp only [hfreq, mem_map, mem_weekDays] at hturn
      obtain ⟨o, ho, rfl⟩ := hturn
      have hlt := mem_dayMask_lt ho
      have ha : start.number + 7 * (k * r.interval) + o - start.weekday + start.weekday - start.number =
          7 * (k * r.interval) + o := by omega
      have hweek : (7 * (k * r.interval) + o) / 7 = k * r.interval := by omega
      have hday : (7 * (k * r.interval) + o) % 7 = o := by omega
      rw [ha, hweek, hday]
      exact ⟨mul_mod_left _ _, ho⟩
  · rintro ⟨hweek, hday⟩
    obtain ⟨k, hk⟩ := dvd_of_mod_eq_zero hweek
    refine .inr ⟨k, mem_later.mpr ⟨?_, hn⟩⟩
    unfold turn
    simp only [hfreq, mem_map, mem_weekDays]
    refine ⟨_, hday, ?_⟩
    rw [Nat.mul_comm k, ← hk]
    omega

variable {a : ℕ}

theorem isLeast_week (hfreq : r.freq = .weekly) (hx : start.number < x) (hhit : WeekHit start r a)
    (hle : x + start.weekday - start.number ≤ a)
    (hleast : ∀ b, x + start.weekday - start.number ≤ b → WeekHit start r b → a ≤ b) :
    IsLeast {m | Pattern start r m ∧ x ≤ m} (start.number + a - start.weekday) := by
  have hback : start.number + a - start.weekday + start.weekday - start.number = a := by omega
  constructor
  · refine ⟨(pattern_weekly hfreq (by omega)).mpr ?_, by omega⟩
    rw [hback]
    exact hhit
  · rintro m ⟨hm, hxm⟩
    have hb := hleast _ (by omega) ((pattern_weekly hfreq (by omega)).mp hm)
    omega

theorem find_weekday (start : NaiveDate) (r : Repeat) (o : ℕ) :
    (∃ dow, (List.range' o (7 - o)).find? (· ∈ dayMask start r) = some dow ∧ dow ∈ dayMask start r ∧ o ≤ dow ∧
      dow < 7 ∧ ∀ p ∈ dayMask start r, o ≤ p → dow ≤ p) ∨
    (List.range' o (7 - o)).find? (· ∈ dayMask start r) = none ∧ ∀ p ∈ dayMask start r, p < o := by
  cases hfind : (List.range' o (7 - o)).find? (· ∈ dayMask start r) with
  | none =>
    refine .inr ⟨rfl, fun p hp => ?_⟩
    by_contra hle
    have hlt := mem_dayMask_lt hp
    have hnot := find?_eq_none.mp hfind p (mem_range'_1.mpr ⟨by omega, by omega⟩)
    exact hnot (decide_eq_true hp)
  | some dow =>
    have hmem := mem_range'_1.mp (mem_of_find?_eq_some hfind)
    have hdow : dow ∈ dayMask start r := by simpa using find?_some hfind
    refine .inl ⟨dow, rfl, hdow, hmem.1, by omega, fun p hp hop => ?_⟩
    by_contra hlt
    obtain ⟨-, i, hi, hget, hbefore⟩ := find?_eq_some_iff_getElem.mp hfind
    rw [getElem_range'] at hget
    have hp' := hbefore (p - o) (by omega)
    rw [getElem_range', show o + 1 * (p - o) = p by omega] at hp'
    simp [hp] at hp'

theorem dayMask_nonempty (start : NaiveDate) (r : Repeat) : ∃ o, o ∈ dayMask start r := by
  unfold dayMask
  split
  · exact ⟨_, Finset.mem_singleton_self _⟩
  · rename_i hsome
    obtain ⟨w, ws, hw⟩ := exists_cons_of_ne_nil (mt List.isEmpty_iff.mpr hsome)
    exact ⟨w.number, by simp [hw]⟩

def nextWeek (r : Repeat) (week : ℕ) : ℕ := (week / r.interval + 1) * r.interval

theorem nextWeek_spec (hr : r.Fits) (week : ℕ) : week < nextWeek r week ∧ nextWeek r week % r.interval = 0 ∧
    ∀ m, week < m → m % r.interval = 0 → nextWeek r week ≤ m := by
  have hpos := hr.interval_pos
  unfold nextWeek
  refine ⟨?_, mul_mod_left _ _, ?_⟩
  · rw [Nat.mul_comm]
    exact lt_mul_div_succ week hpos
  · intro m hm hmod
    obtain ⟨k, rfl⟩ := dvd_of_mod_eq_zero hmod
    rw [Nat.mul_comm]
    have hlt : week / r.interval < k := Nat.div_lt_of_lt_mul hm
    exact Nat.mul_le_mul_left _ hlt

theorem nextWeek_of_mod {week : ℕ} (hmod : week % r.interval = 0) : nextWeek r week = week + r.interval := by
  unfold nextWeek
  rw [Nat.add_mul, Nat.one_mul, Nat.div_mul_cancel (dvd_of_mod_eq_zero hmod)]

theorem weekTurns_here {turns at_ dow : ℕ} (hmod : at_ / 7 % r.interval = 0)
    (hfind : (List.range' (at_ % 7) (7 - at_ % 7)).find? (· ∈ dayMask start r) = some dow) :
    weekTurns start r (turns + 1) at_ = (fits 64 (at_ / 7 * 7 + dow)).map (addDays start.number start.weekday) := by
  rw [weekTurns]
  rw [if_neg (not_not.mpr hmod), hfind]

theorem weekTurns_jump {turns at_ : ℕ} (hpast : at_ / 7 % r.interval = 0 →
      (List.range' (at_ % 7) (7 - at_ % 7)).find? (· ∈ dayMask start r) = none) :
    weekTurns start r (turns + 1) at_ =
      match (fits 64 (nextWeek r (at_ / 7))).bind fun m => fits 64 (m * 7) with
      | none => some none
      | some at_ => weekTurns start r turns at_ := by
  rw [weekTurns]
  by_cases hmod : at_ / 7 % r.interval = 0
  · rw [if_neg (not_not.mpr hmod), hpast hmod, nextWeek_of_mod hmod]
  · rw [if_pos hmod]
    rfl

theorem fits_week (m : ℕ) :
    (fits 64 m).bind (fun m => fits 64 (m * 7)) = if m ≤ lastWeek then some (m * 7) else none := by
  unfold lastWeek fits
  split_ifs <;> simp <;> omega

theorem isNext_week (hfreq : r.freq = .weekly)
    (h : IsLeast {m | Pattern start r m ∧ x ≤ m} (start.number + a - start.weekday)) :
    IsNext start r x (addDays start.number start.weekday a) :=
  isNext_addDays (by rw [hfreq]; rfl) start.weekday_lt h

theorem weekTurns_past (hr : r.Fits) (hpast : a / 7 % r.interval = 0 → ∀ o ∈ dayMask start r, o < a % 7) :
    ∃ dow ∈ dayMask start r, dow < 7 ∧ (∀ o ∈ dayMask start r, dow ≤ o) ∧
      (∀ b, a ≤ b → WeekHit start r b → nextWeek r (a / 7) * 7 + dow ≤ b) ∧
      weekTurns start r 3 a =
        if nextWeek r (a / 7) ≤ lastWeek then
          (fits 64 (nextWeek r (a / 7) * 7 + dow)).map (addDays start.number start.weekday)
        else some none := by
  obtain ⟨hlater, hmod, hleast⟩ := nextWeek_spec hr (a / 7)
  have hnone : a / 7 % r.interval = 0 →
      (List.range' (a % 7) (7 - a % 7)).find? (· ∈ dayMask start r) = none := by
    intro hzero
    rcases find_weekday start r (a % 7) with ⟨dow, -, hdow, hge, -⟩ | ⟨hfind, -⟩
    · exact absurd (hpast hzero dow hdow) hge.not_gt
    · exact hfind
  rcases find_weekday start r 0 with ⟨dow, hfind, hdow, -, hlt, hfirst⟩ | ⟨-, hall⟩
  · refine ⟨dow, hdow, hlt, fun o ho => hfirst o ho (Nat.zero_le _), ?_, ?_⟩
    · rintro b hb ⟨hweek, hday⟩
      have hmonday : a / 7 < b / 7 := by
        by_contra hle
        have hsame : b / 7 = a / 7 := by omega
        have hgone := hpast (hsame ▸ hweek) _ hday
        omega
      have hmb := hleast _ hmonday hweek
      have hdb := hfirst _ hday (Nat.zero_le _)
      omega
    · rw [weekTurns_jump hnone, fits_week]
      by_cases hle : nextWeek r (a / 7) ≤ lastWeek
      · simp only [if_pos hle]
        have hmonday : nextWeek r (a / 7) * 7 % 7 = 0 := mul_mod_left _ _
        have hweek : nextWeek r (a / 7) * 7 / 7 = nextWeek r (a / 7) := Nat.mul_div_cancel _ (by decide)
        rw [weekTurns_here (hweek.symm ▸ hmod) (hmonday.symm ▸ hfind), hweek]
      · simp [if_neg hle]
  · obtain ⟨o, ho⟩ := dayMask_nonempty start r
    exact absurd (hall o ho) (Nat.not_lt_zero o)

theorem nextHit_weekly (hr : r.Fits) (hfreq : r.freq = .weekly) (hx : start.number < x) (hmax : x ≤ dateMax) :
    (Overflows start r x → nextHit start r x = none) ∧
      (¬ Overflows start r x → ∃ o, nextHit start r x = some o ∧ IsNext start r x o) := by
  have hwd := start.weekday_lt
  have hat : x - start.number + start.weekday = x + start.weekday - start.number := by omega
  have hbound : x + start.weekday - start.number < 2 ^ 28 := by rw [dateMax_eq] at hmax; omega
  have hstart : nextHit start r x = weekTurns start r 3 (x + start.weekday - start.number) := by
    unfold nextHit
    rw [if_neg hx.not_ge, hfreq, ← hat]
  rw [hstart]
  have hleast := fun {a : ℕ} => isLeast_week (a := a) hfreq hx
  have hcoord : ∀ m, Pattern start r m → x ≤ m → WeekHit start r (m + start.weekday - start.number) :=
    fun m hm hxm => (pattern_weekly hfreq (hx.trans_le hxm)).mp hm
  have hbefore : ∀ o, start.number + o < x + start.weekday ↔ o < x + start.weekday - start.number := by
    omega
  have hplace : ∀ m, x ≤ m → x + start.weekday - start.number ≤ m + start.weekday - start.number := fun m hm => by omega
  unfold Overflows
  simp only [hbefore]
  generalize x + start.weekday - start.number = a at *
  by_cases hhere : a / 7 % r.interval = 0 ∧ ∃ o ∈ dayMask start r, a % 7 ≤ o
  · -- in a series week, and not past its last weekday
    obtain ⟨hmod, o, ho, hao⟩ := hhere
    obtain ⟨dow, hfind, hdow, hge, hlt, hfirst⟩ := (find_weekday start r (a % 7)).resolve_right
      fun hnone => (hnone.2 o ho).not_ge hao
    have hnot : ¬ (r.freq = .weekly ∧ r.interval = lastWeek ∧ start.number < x ∧
        ∀ o ∈ dayMask start r, 2 ≤ o ∧ o < a) := by
      rintro ⟨-, hinterval, -, hall⟩
      have hweek : a / 7 = 0 := by
        rw [hinterval] at hmod
        unfold lastWeek at hmod
        omega
      have hdow' := (hall dow hdow).2
      omega
    refine ⟨fun h => absurd h hnot, fun _ => ?_⟩
    rw [weekTurns_here hmod hfind, fits_eq (by omega)]
    refine ⟨_, rfl, isNext_week hfreq (hleast ⟨?_, ?_⟩ (by omega) ?_)⟩
    · rw [show (a / 7 * 7 + dow) / 7 = a / 7 by omega]
      exact hmod
    · rw [show (a / 7 * 7 + dow) % 7 = dow by omega]
      exact hdow
    · rintro b hb ⟨-, hday⟩
      rcases Nat.lt_or_ge (b / 7) (a / 7 + 1) with hsame | hlater
      · have hle := hfirst (b % 7) hday (by omega)
        omega
      · omega
  · have hpast : a / 7 % r.interval = 0 → ∀ o ∈ dayMask start r, o < a % 7 := by
      intro hmod o ho
      by_contra hle
      exact hhere ⟨hmod, o, ho, not_lt.mp hle⟩
    obtain ⟨dow, hdow, hlt, hfirst, hafter, hresult⟩ := weekTurns_past hr hpast
    obtain ⟨hlater, hmod, -⟩ := nextWeek_spec hr (a / 7)
    rw [hresult]
    have hiff : (r.freq = .weekly ∧ r.interval = lastWeek ∧ start.number < x ∧
        ∀ o ∈ dayMask start r, 2 ≤ o ∧ o < a) ↔ nextWeek r (a / 7) = lastWeek ∧ 2 ≤ dow := by
      constructor
      · rintro ⟨-, hinterval, -, hall⟩
        refine ⟨?_, (hall dow hdow).1⟩
        unfold nextWeek
        rw [hinterval, div_eq_of_lt (by unfold lastWeek; omega)]
        ring
      · rintro ⟨hweek, htwo⟩
        have hfar : a / 7 < r.interval := by
          by_contra hle
          have hprod : a / 7 / r.interval * r.interval ≤ a / 7 := div_mul_le_self _ _
          unfold nextWeek lastWeek at hweek
          rw [Nat.add_mul] at hweek
          omega
        refine ⟨hfreq, ?_, hx, fun o ho => ⟨htwo.trans (hfirst o ho), ?_⟩⟩
        · unfold nextWeek at hweek
          rw [div_eq_of_lt hfar] at hweek
          omega
        · rcases Nat.eq_zero_or_pos (a / 7) with hzero | hone
          · have hgone := hpast (by rw [hzero, zero_mod]) o ho
            omega
          · have ho7 := mem_dayMask_lt ho
            omega
    rw [hiff]
    constructor
    · rintro ⟨hweek, htwo⟩
      rw [hweek, if_pos le_rfl]
      have hover : ¬ lastWeek * 7 + dow < 2 ^ 64 := by unfold lastWeek; omega
      unfold fits
      rw [if_neg hover]
      rfl
    · intro hcalm
      split
      · rename_i hle
        have hword : nextWeek r (a / 7) * 7 + dow < 2 ^ 64 := by
          by_contra hover
          unfold lastWeek at hle hcalm
          exact hcalm ⟨by omega, by omega⟩
        rw [fits_eq hword]
        refine ⟨_, rfl, isNext_week hfreq (hleast ⟨?_, ?_⟩ (by omega) hafter)⟩
        · rw [show (nextWeek r (a / 7) * 7 + dow) / 7 = nextWeek r (a / 7) by omega]
          exact hmod
        · rw [show (nextWeek r (a / 7) * 7 + dow) % 7 = dow by omega]
          exact hdow
      · rename_i hgt
        refine ⟨none, rfl, isNext_none fun m hm hxm => ?_⟩
        have hfar := hafter _ (hplace m hxm) (hcoord m hm hxm)
        have hlast : lastDay r.freq = dateMax := by rw [hfreq]; rfl
        rw [hlast, dateMax_eq]
        unfold lastWeek at hgt
        omega

end

section
variable {start : NaiveDate} {r : Repeat} {x n : ℕ}

theorem Pattern.le (h : Pattern start r n) : start.number ≤ n := by
  rcases h with rfl | ⟨k, hk⟩
  · exact le_rfl
  · exact (mem_later.mp hk).2.le

theorem mem_original (hr : r.Fits) {turns : ℕ} (hn : n < turns) : n ∈ original start r turns ↔ Pattern start r n := by
  unfold original Pattern
  rw [mem_cons, mem_upTo]
  refine or_congr_right ⟨?_, ?_⟩
  · rintro ⟨k, -, hk⟩
    exact ⟨k, hk⟩
  · rintro ⟨k, hk⟩
    exact ⟨k, (turn_le hr hk).trans_lt hn, hk⟩

theorem yearsEnd_le_dateMax : yearsEnd ≤ dateMax := by
  decide

theorem yearsEnd_le_lastDay (f : Freq) : yearsEnd - 1 ≤ lastDay f := by
  have hle := yearsEnd_le_dateMax
  cases f
  · exact (sub_le _ _).trans hle
  · exact (sub_le _ _).trans hle
  · exact le_rfl

theorem nextHit_start (hx : x ≤ start.number) : nextHit start r x = some (some start.number) ∧
    IsNext start r x (some start.number) := by
  refine ⟨?_, isNext_some ⟨⟨.inl rfl, hx⟩, fun m hm => hm.1.le⟩ ?_⟩
  · unfold nextHit
    rw [if_pos hx]
  · have hlt := number_lt_yearsEnd start
    have hle := yearsEnd_le_lastDay r.freq
    omega

theorem nextHit_spec (hr : r.Fits) (hmax : x ≤ dateMax) :
    (Overflows start r x → nextHit start r x = none) ∧
      (¬ Overflows start r x → ∃ o, nextHit start r x = some o ∧ IsNext start r x o) := by
  rcases Nat.lt_or_ge start.number x with hx | hx
  · cases hfreq : r.freq with
    | daily => exact ⟨fun h => absurd (hfreq.symm.trans h.1) (by decide), fun _ => nextHit_daily hr hfreq hx⟩
    | weekly => exact nextHit_weekly hr hfreq hx hmax
    | monthly => exact ⟨fun h => absurd (hfreq.symm.trans h.1) (by decide), fun _ => nextHit_monthly hr hfreq hx⟩
  · exact ⟨fun h => absurd h.2.2.1 hx.not_gt, fun _ => ⟨_, nextHit_start hx⟩⟩

end

end Molt.Kanban
