import Mathlib
import MoltRepublic.Kanban.Days
import MoltRepublic.Lib.Turns

/-! The dates of a recurring series walked turn by turn, and the arithmetic that replaces the
walk: whether a date is an occurrence, and at which position. -/

namespace Molt.Kanban
open Check Turns List Function

def weekDays (start : NaiveDate) (r : Repeat) : List ℕ := (List.range 7).filter (· ∈ dayMask start r)

/-- The days the rule names in its `k`-th turn: one day, the weekdays of one week, or the start's
day of one month if it has it. In the week of the start some lie before it. -/
def turn (start : NaiveDate) (r : Repeat) (k : ℕ) : List ℕ :=
  match r.freq with
  | .daily => [start.number + k * r.interval]
  | .weekly => (weekDays start r).map fun o => start.number + 7 * (k * r.interval) + o - start.weekday
  | .monthly =>
    let month := start.monthNumber + k * r.interval
    if start.day ≤ monthLength month then [monthFirst month + (start.day - 1)] else []

def later (start : NaiveDate) (r : Repeat) (k : ℕ) : List ℕ := (turn start r k).filter (start.number < ·)

def original (start : NaiveDate) (r : Repeat) (turns : ℕ) : List ℕ := start.number :: upTo (later start r) turns

def cut (r : Repeat) (dates : List ℕ) : List ℕ :=
  match r.finish with
  | .opened => dates
  | .until last => dates.takeWhile (· ≤ last.number)
  | .count n => dates.take n

def walk (start : NaiveDate) (r : Repeat) (limit : ℕ) : List ℕ :=
  cut r ((original start r (limit + 1)).takeWhile (· ≤ limit))

structure Repeat.Fits (r : Repeat) : Prop where
  interval_pos : 1 ≤ r.interval
  interval_lt : r.interval < 2 ^ 64

theorem atLeastOne_eq_ok {v : Json.Value} {why : String} {n : ℕ} (h : atLeastOne v why = .ok n) :
    1 ≤ n ∧ n < 2 ^ 64 := by
  unfold atLeastOne at h
  split at h
  · rename_i m hm
    split at h
    · rename_i hle
      cases h
      exact ⟨hle, m.toNat_lt⟩
    · cases h
  · cases h

variable {r : Repeat}

theorem Repeat.parse_fits {v : Json.Value} (h : Repeat.parse v = .ok r) : r.Fits := by
  obtain ⟨obj, -, h⟩ := bind_eq_ok.mp h
  extract_lets afterFreq known at h
  obtain ⟨freq, hfreq⟩ : ∃ freq, afterFreq freq = .ok r := by
    split at h
    · cases h
    · unfold known at h
      split at h <;>
      · obtain ⟨freq, -, hfreq⟩ := bind_eq_ok.mp h
        exact ⟨freq, hfreq⟩
  unfold afterFreq at hfreq
  extract_lets afterInterval at hfreq
  obtain ⟨interval, hbounds, hinterval⟩ :
      ∃ interval, (1 ≤ interval ∧ interval < 2 ^ 64) ∧ afterInterval interval = .ok r := by
    split at hfreq
    · obtain ⟨interval, hone, hinterval⟩ := bind_eq_ok.mp hfreq
      cases hone
      exact ⟨1, by decide, hinterval⟩
    · obtain ⟨interval, hread, hinterval⟩ := bind_eq_ok.mp hfreq
      exact ⟨interval, atLeastOne_eq_ok hread, hinterval⟩
  unfold afterInterval at hinterval
  extract_lets afterByday at hinterval
  obtain ⟨byday, hbyday⟩ : ∃ byday, afterByday byday = .ok r := by
    split at hinterval
    · obtain ⟨byday, -, hbyday⟩ := bind_eq_ok.mp hinterval
      exact ⟨byday, hbyday⟩
    · obtain ⟨_, -, hinterval⟩ := bind_eq_ok.mp hinterval
      obtain ⟨days, -, hinterval⟩ := bind_eq_ok.mp hinterval
      obtain ⟨byday, -, hbyday⟩ := bind_eq_ok.mp hinterval
      exact ⟨byday, hbyday⟩
  unfold afterByday at hbyday
  extract_lets afterFinish at hbyday
  obtain ⟨finish, hfinish⟩ : ∃ finish, afterFinish finish = .ok r := by
    split at hbyday <;>
    · obtain ⟨finish, -, hfinish⟩ := bind_eq_ok.mp hbyday
      exact ⟨finish, hfinish⟩
  cases hfinish
  exact ⟨hbounds.1, hbounds.2⟩

variable {start : NaiveDate}

theorem mem_dayMask_lt {o : ℕ} (h : o ∈ dayMask start r) : o < 7 := by
  unfold dayMask at h
  split at h
  · rw [Finset.mem_singleton] at h
    rw [h]
    exact start.weekday_lt
  · rw [mem_toFinset, mem_map] at h
    obtain ⟨w, -, rfl⟩ := h
    cases w <;> decide

theorem mem_weekDays {o : ℕ} : o ∈ weekDays start r ↔ o ∈ dayMask start r := by
  unfold weekDays
  rw [mem_filter, mem_range, decide_eq_true_eq]
  exact ⟨And.right, fun h => ⟨mem_dayMask_lt h, h⟩⟩

theorem weekDays_ascending (start : NaiveDate) (r : Repeat) : (weekDays start r).Pairwise (· < ·) :=
  pairwise_lt_range.filter _

theorem mem_later {k n : ℕ} :
    n ∈ later start r k ↔ n ∈ turn start r k ∧ start.number < n := by
  unfold later
  rw [mem_filter, decide_eq_true_eq]

theorem later_ascending (start : NaiveDate) (r : Repeat) (k : ℕ) : (later start r k).Pairwise (· < ·) := by
  unfold later turn
  cases r.freq with
  | daily => exact (pairwise_singleton _ _).filter _
  | weekly =>
    rw [pairwise_filter, pairwise_map]
    refine (weekDays_ascending start r).imp ?_
    intro a b hab ha hb
    simp only [decide_eq_true_eq] at ha hb
    omega
  | monthly =>
    dsimp only
    split
    · exact (pairwise_singleton _ _).filter _
    · exact List.Pairwise.nil

theorem later_across (hr : r.Fits) {k l : ℕ} (hkl : k < l) {a b : ℕ} (ha : a ∈ later start r k)
    (hb : b ∈ later start r l) : a < b := by
  obtain ⟨ha, hsa⟩ := mem_later.mp ha
  obtain ⟨hb, hsb⟩ := mem_later.mp hb
  have hstep : k * r.interval + 1 ≤ l * r.interval := by
    calc k * r.interval + 1 ≤ k * r.interval + r.interval := Nat.add_le_add_left hr.interval_pos _
      _ = (k + 1) * r.interval := by ring
      _ ≤ l * r.interval := Nat.mul_le_mul_right _ hkl
  unfold turn at ha hb
  cases hfreq : r.freq with
  | daily =>
    simp only [hfreq, mem_singleton] at ha hb
    omega
  | weekly =>
    simp only [hfreq, mem_map, mem_weekDays] at ha hb
    obtain ⟨o, ho, rfl⟩ := ha
    have hlt := mem_dayMask_lt ho
    omega
  | monthly =>
    simp only [hfreq, mem_ite_nil_right, mem_singleton] at ha hb
    have hnext : monthFirst (start.monthNumber + k * r.interval + 1) ≤ monthFirst (start.monthNumber + l * r.interval) :=
      monthFirst_strictMono.monotone (by omega)
    have hpos := start.one_le_day
    rw [monthFirst_succ] at hnext
    omega

theorem original_ascending (hr : r.Fits) (start : NaiveDate) (n : ℕ) :
    (original start r n).Pairwise (· < ·) := by
  refine pairwise_cons.mpr ⟨?_, ?_⟩
  · intro a ha
    obtain ⟨k, -, hk⟩ := mem_upTo.mp ha
    exact (mem_later.mp hk).2
  · exact pairwise_upTo (later_ascending start r) (fun k l hkl a ha b hb => later_across hr hkl ha hb) n

theorem turn_le (hr : r.Fits) {k n : ℕ} (h : n ∈ later start r k) : k ≤ n := by
  obtain ⟨h, hs⟩ := mem_later.mp h
  have hk : k ≤ k * r.interval := Nat.le_mul_of_pos_right k hr.interval_pos
  have hwd := start.weekday_lt
  unfold turn at h
  cases hfreq : r.freq with
  | daily =>
    simp only [hfreq, mem_singleton] at h
    omega
  | weekly =>
    simp only [hfreq, mem_map] at h
    obtain ⟨o, ho, rfl⟩ := h
    omega
  | monthly =>
    simp only [hfreq, mem_ite_nil_right, mem_singleton] at h
    have hfirst := le_monthFirst (start.monthNumber + k * r.interval)
    omega

theorem monthLength_mod (n : ℕ) : monthLength (n % cycleMonths) = monthLength n := by
  have hperiodic : Function.Periodic monthLength cycleMonths := by
    intro m
    rw [Nat.add_comm, monthLength_cycle]
  exact hperiodic.map_mod_nat n

/-- The `k`-th month of a monthly series has its day. -/
def HasDay (start : NaiveDate) (interval k : ℕ) : Prop := start.day ≤ monthLength (start.monthNumber + k * interval)

instance (start : NaiveDate) (interval : ℕ) : DecidablePred (HasDay start interval) :=
  fun k => inferInstanceAs (Decidable (start.day ≤ monthLength (start.monthNumber + k * interval)))

theorem hasDay_zero (start : NaiveDate) (interval : ℕ) : HasDay start interval 0 := by
  unfold HasDay
  rw [Nat.zero_mul, Nat.add_zero]
  exact start.day_le_monthLength

theorem hasDay_periodic (start : NaiveDate) (interval k : ℕ) :
    HasDay start interval (cycleMonths / Nat.gcd (interval % cycleMonths) cycleMonths + k) ↔
      HasDay start interval k := by
  have hgcd : Nat.gcd (interval % cycleMonths) cycleMonths = Nat.gcd cycleMonths interval := (Nat.gcd_rec _ _).symm
  have hround : ∃ c, cycleMonths / Nat.gcd (interval % cycleMonths) cycleMonths * interval = cycleMonths * c := by
    rw [hgcd]
    obtain ⟨a, ha⟩ := Nat.gcd_dvd_left cycleMonths interval
    obtain ⟨b, hb⟩ := Nat.gcd_dvd_right cycleMonths interval
    have hpos : 0 < Nat.gcd cycleMonths interval := Nat.gcd_pos_of_pos_left _ (by decide)
    refine ⟨b, ?_⟩
    generalize Nat.gcd cycleMonths interval = g at *
    have hquot : cycleMonths / g = a := by
      rw [ha]
      exact Nat.mul_div_cancel_left a hpos
    rw [hquot, ha]
    calc a * interval = a * (g * b) := by rw [← hb]
      _ = g * a * b := by ring
  obtain ⟨c, hc⟩ := hround
  unfold HasDay
  have hmonth : start.monthNumber + (cycleMonths / Nat.gcd (interval % cycleMonths) cycleMonths + k) * interval =
      start.monthNumber + k * interval + cycleMonths * c := by
    rw [Nat.add_mul, hc]
    ring
  rw [hmonth, ← monthLength_mod (_ + cycleMonths * c), Nat.add_mul_mod_self_left, monthLength_mod]

/-- The `j`-th step of a cycle has the day. -/
def cycleHas (m0 step day j : ℕ) : Bool :=
  let a := (m0 + j * step) % cycleMonths
  decide (1 ≤ day) && decide (day ≤ daysInMonth (2000 + a / 12) (a % 12 + 1))

def cycleCount (m0 step day i : ℕ) : ℕ := ((List.range i).filter (cycleHas m0 step day)).length

theorem monthPrefix_eq (m0 step day : ℕ) : monthPrefix m0 step day =
    (List.range (cycleMonths / Nat.gcd step cycleMonths + 1)).map (cycleCount m0 step day) := rfl

theorem monthPrefix_length (m0 step day : ℕ) :
    (monthPrefix m0 step day).length = cycleMonths / Nat.gcd step cycleMonths + 1 := by
  rw [monthPrefix_eq, length_map, length_range]

theorem getElem?_monthPrefix {m0 step day j : ℕ} (hj : j ≤ cycleMonths / Nat.gcd step cycleMonths) :
    (monthPrefix m0 step day)[j]? = some (cycleCount m0 step day j) := by
  rw [monthPrefix_eq, getElem?_map, getElem?_range (by omega), Option.map_some]

theorem cycleCount_eq (start : NaiveDate) (interval j : ℕ) :
    cycleCount (start.monthNumber % cycleMonths) (interval % cycleMonths) start.day j =
      Nat.count (HasDay start interval) j := by
  have hday : ∀ k, cycleHas (start.monthNumber % cycleMonths) (interval % cycleMonths) start.day k =
      decide (HasDay start interval k) := by
    intro k
    have hmod : (start.monthNumber % cycleMonths + k * (interval % cycleMonths)) % cycleMonths =
        (start.monthNumber + k * interval) % cycleMonths := by
      simp [Nat.add_mod, Nat.mul_mod]
    have hcycles : ∀ y m, daysInMonth (2000 + y) m = daysInMonth y m := by
      intro y m
      rw [show 2000 + y = y + 400 + 400 + 400 + 400 + 400 by ring]
      simp [daysInMonth_cycle]
    unfold cycleHas
    dsimp only
    rw [hmod, hcycles, decide_eq_true start.one_le_day, Bool.true_and, decide_eq_decide]
    unfold HasDay
    rw [← monthLength_mod (start.monthNumber + k * interval)]
    rfl
  unfold cycleCount
  rw [funext hday, ← countP_eq_length_filter]
  rfl

theorem cycle_period_pos (step : ℕ) : 0 < cycleMonths / Nat.gcd step cycleMonths :=
  Nat.div_pos (Nat.gcd_le_right _ (by decide)) (Nat.gcd_pos_of_pos_right _ (by decide))

theorem cycle_period_le (step : ℕ) : cycleMonths / Nat.gcd step cycleMonths ≤ cycleMonths := Nat.div_le_self _ _

theorem monthsWithDay_eq (start : NaiveDate) (interval k : ℕ) :
    monthsWithDay start interval k = Nat.count (HasDay start interval) k := by
  unfold monthsWithDay
  split
  · rename_i hday
    refine (Nat.count_of_forall ?_).symm
    intro n _
    exact hday.trans (le_monthLength _)
  · dsimp only
    rw [monthPrefix_length, Nat.add_sub_cancel, getD_eq_getElem?_getD, getD_eq_getElem?_getD,
      getElem?_monthPrefix le_rfl, getElem?_monthPrefix (Nat.mod_lt _ (cycle_period_pos _)).le]
    simp only [Option.getD_some, cycleCount_eq]
    exact (count_periodic (hasDay_periodic start interval) k).symm

theorem maskBetween_eq (mask : Finset ℕ) (lo hi : ℕ) :
    maskBetween mask lo hi = ((List.range hi).filter fun o => decide (o ∈ mask ∧ lo ≤ o)).length := by
  unfold maskBetween
  rw [← toFinset_card_of_nodup (nodup_range.filter _)]
  congr 1
  ext o
  simp only [Finset.mem_filter, mem_toFinset, mem_filter, mem_range, decide_eq_true_eq]
  tauto

section
variable {start : NaiveDate} {r : Repeat}

theorem later_daily (hr : r.Fits) (hfreq : r.freq = .daily) (k : ℕ) :
    later start r 0 = [] ∧ later start r (k + 1) = [start.number + (k + 1) * r.interval] := by
  have hpos : 0 < (k + 1) * r.interval := Nat.mul_pos k.succ_pos hr.interval_pos
  unfold later turn
  rw [hfreq]
  simp [hpos]

theorem length_daily (hr : r.Fits) (hfreq : r.freq = .daily) (q : ℕ) : (upTo (later start r) (q + 1)).length = q := by
  induction q with
  | zero => rw [upTo_succ, (later_daily hr hfreq 0).1]; rfl
  | succ q ih => rw [upTo_succ, length_append, ih, (later_daily hr hfreq q).2]; rfl

theorem later_monthly (hr : r.Fits) (hfreq : r.freq = .monthly) (k : ℕ) :
    later start r 0 = [] ∧ later start r (k + 1) = if HasDay start r.interval (k + 1) then
      [monthFirst (start.monthNumber + (k + 1) * r.interval) + (start.day - 1)] else [] := by
  have hstep : start.monthNumber + 1 ≤ start.monthNumber + (k + 1) * r.interval := by
    have hpos : 0 < (k + 1) * r.interval := Nat.mul_pos k.succ_pos hr.interval_pos
    omega
  have hafter : start.number < monthFirst (start.monthNumber + (k + 1) * r.interval) + (start.day - 1) :=
    start.number_lt_next.trans_le ((monthFirst_strictMono.monotone hstep).trans (Nat.le_add_right _ _))
  constructor
  · unfold later turn
    rw [hfreq]
    simp only [Nat.zero_mul, Nat.add_zero, if_pos start.day_le_monthLength, ← start.number_eq]
    simp
  · unfold later turn
    rw [hfreq]
    by_cases hday : HasDay start r.interval (k + 1)
    · rw [if_pos hday, if_pos (show start.day ≤ _ from hday)]
      exact filter_cons_of_pos (decide_eq_true hafter)
    · rw [if_neg hday, if_neg (show ¬ start.day ≤ _ from hday)]
      rfl

theorem length_monthly (hr : r.Fits) (hfreq : r.freq = .monthly) (q : ℕ) :
    1 + (upTo (later start r) (q + 1)).length = Nat.count (HasDay start r.interval) (q + 1) := by
  induction q with
  | zero => rw [upTo_succ, (later_monthly hr hfreq 0).1, Nat.count_succ, if_pos (hasDay_zero _ _)]; simp
  | succ q ih =>
    rw [upTo_succ, length_append, ← Nat.add_assoc, ih, (later_monthly hr hfreq q).2, Nat.count_succ _ (q + 1)]
    split_ifs <;> rfl

theorem later_weekly (hr : r.Fits) (hfreq : r.freq = .weekly) (k : ℕ) :
    later start r 0 = ((List.range 7).filter fun o => decide (o ∈ dayMask start r ∧ start.weekday + 1 ≤ o)).map
      (fun o => start.number + o - start.weekday) ∧
    later start r (k + 1) = ((List.range 7).filter fun o => decide (o ∈ dayMask start r ∧ 0 ≤ o)).map
      (fun o => start.number + 7 * ((k + 1) * r.interval) + o - start.weekday) := by
  have hpos : 0 < (k + 1) * r.interval := Nat.mul_pos k.succ_pos hr.interval_pos
  have hwd := start.weekday_lt
  unfold later turn weekDays
  rw [hfreq]
  constructor
  · rw [filter_map, filter_filter]
    refine congrArg₂ _ (by simp) (filter_congr ?_)
    intro o _
    simp only [comp_apply, Nat.zero_mul, Nat.mul_zero, Nat.add_zero, ← Bool.decide_and, decide_eq_decide]
    constructor
    · rintro ⟨h, hmem⟩
      exact ⟨hmem, by omega⟩
    · rintro ⟨hmem, h⟩
      exact ⟨by omega, hmem⟩
  · rw [filter_map, filter_filter]
    refine congrArg _ (filter_congr ?_)
    intro o _
    simp only [comp_apply, ← Bool.decide_and, decide_eq_decide, Nat.zero_le, and_true]
    exact and_iff_right (by omega)

theorem maskBetween_week (hlt : ∀ o ∈ dayMask start r, o < 7) :
    maskBetween (dayMask start r) 0 7 = (dayMask start r).card := by
  unfold maskBetween
  rw [Finset.filter_true_of_mem fun o ho => ⟨Nat.zero_le o, hlt o ho⟩]

theorem length_weekly (hr : r.Fits) (hfreq : r.freq = .weekly) (q : ℕ) : (upTo (later start r) (q + 1)).length =
    maskBetween (dayMask start r) (start.weekday + 1) 7 + q * (dayMask start r).card := by
  induction q with
  | zero =>
    rw [upTo_succ, (later_weekly hr hfreq 0).1, length_append, length_map, ← maskBetween_eq]
    simp
  | succ q ih =>
    rw [upTo_succ, length_append, ih, (later_weekly hr hfreq q).2, length_map, ← maskBetween_eq,
      maskBetween_week fun o => mem_dayMask_lt]
    ring

end

section
variable {start d : NaiveDate} {r : Repeat} {j : ℕ}

def StandsAt (start : NaiveDate) (r : Repeat) (n j : ℕ) : Prop :=
  ∃ k i, (later start r k)[i]? = some n ∧ j = 1 + (upTo (later start r) k).length + i

theorem position_daily (hr : r.Fits) (hfreq : r.freq = .daily) (hlt : start < d) :
    position start r d = some j ↔ StandsAt start r d.number j := by
  have hnumber := NaiveDate.number_lt.mpr hlt
  unfold position
  rw [if_neg hlt.not_gt, if_neg hlt.ne', hfreq]
  simp only [Option.ite_none_right_eq_some, Option.some.injEq]
  constructor
  · rintro ⟨hmod, rfl⟩
    obtain ⟨k, hk⟩ := Nat.dvd_of_mod_eq_zero hmod
    rw [hk, Nat.mul_div_cancel_left k hr.interval_pos]
    cases k with
    | zero => omega
    | succ k =>
      refine ⟨k + 1, 0, ?_, ?_⟩
      · rw [(later_daily hr hfreq k).2, getElem?_cons_zero, Nat.mul_comm, ← hk]
        exact congrArg some (by omega)
      · rw [length_daily hr hfreq]
        omega
  · rintro ⟨k, i, hk, rfl⟩
    cases k with
    | zero => rw [(later_daily hr hfreq 0).1] at hk; simp at hk
    | succ k =>
      rw [(later_daily hr hfreq k).2] at hk
      obtain ⟨rfl, hk⟩ := getElem?_singleton_eq_some.mp hk
      have hdays : d.number - start.number = (k + 1) * r.interval := by omega
      rw [hdays, length_daily hr hfreq, Nat.mul_mod_left, Nat.mul_div_cancel _ hr.interval_pos]
      exact ⟨rfl, by omega⟩

theorem position_monthly (hr : r.Fits) (hfreq : r.freq = .monthly) (hlt : start < d) :
    position start r d = some j ↔ StandsAt start r d.number j := by
  unfold position
  rw [if_neg hlt.not_gt, if_neg hlt.ne', hfreq]
  simp only [ite_not, Option.ite_none_right_eq_some, Option.some.injEq, monthsWithDay_eq]
  constructor
  · rintro ⟨hday, hmod, rfl⟩
    have hmonth : start.monthNumber < d.monthNumber := by
      rcases NaiveDate.lt_iff_lex.mp hlt with h | ⟨-, h⟩
      · exact h
      · omega
    obtain ⟨k, hk⟩ := Nat.dvd_of_mod_eq_zero hmod
    have hthere : d.monthNumber = start.monthNumber + k * r.interval := by
      rw [Nat.mul_comm k]
      omega
    rw [hk, Nat.mul_div_cancel_left k hr.interval_pos]
    cases k with
    | zero => omega
    | succ k =>
      have hhas : HasDay start r.interval (k + 1) := by
        unfold HasDay
        rw [← hday, ← hthere]
        exact d.day_le_monthLength
      refine ⟨k + 1, 0, ?_, ?_⟩
      · rw [(later_monthly hr hfreq k).2, if_pos hhas, getElem?_cons_zero, d.number_eq, hthere, hday]
      · rw [length_monthly hr hfreq]
        rfl
  · rintro ⟨k, i, hk, rfl⟩
    cases k with
    | zero => rw [(later_monthly hr hfreq 0).1] at hk; simp at hk
    | succ k =>
      rw [(later_monthly hr hfreq k).2] at hk
      split at hk
      · rename_i hhas
        obtain ⟨rfl, hday⟩ := getElem?_singleton_eq_some.mp hk
        have hpos := start.one_le_day
        have hdpos := d.one_le_day
        have hle := d.day_le_monthLength
        have hthere : start.day - 1 < monthLength (start.monthNumber + (k + 1) * r.interval) := by
          unfold HasDay at hhas
          omega
        have hhere : d.day - 1 < monthLength d.monthNumber := by omega
        rw [d.number_eq] at hday
        obtain ⟨hmonth, hday⟩ := month_unique hthere hhere hday
        have hmonths : d.monthNumber - start.monthNumber = (k + 1) * r.interval := by omega
        rw [hmonths, Nat.mul_mod_left, Nat.mul_div_cancel _ hr.interval_pos, Nat.add_zero, length_monthly hr hfreq]
        exact ⟨by omega, rfl, rfl⟩
      · simp at hk

theorem getElem?_week {p : ℕ → Bool} {f : ℕ → ℕ} {i n : ℕ} :
    (((List.range 7).filter p).map f)[i]? = some n ↔
      ∃ o < 7, p o ∧ f o = n ∧ i = ((List.range o).filter p).length := by
  simp only [getElem?_map, Option.map_eq_some_iff, getElem?_filter_range]
  constructor
  · rintro ⟨o, ⟨ho, hp, hi⟩, hf⟩
    exact ⟨o, ho, hp, hf, hi⟩
  · rintro ⟨o, ho, hp, hf, hi⟩
    exact ⟨o, ⟨ho, hp, hi⟩, hf⟩

theorem weekday_of_week {t o : ℕ} (ho : o < 7) (hlt : start.number < d.number)
    (h : start.number + 7 * t + o - start.weekday = d.number) :
    d.weekday = o ∧ (d.number - start.number + start.weekday - d.weekday) / 7 = t := by
  have hday : d.weekday = o := by
    unfold NaiveDate.weekday at h ⊢
    omega
  rw [hday]
  exact ⟨rfl, by omega⟩

theorem week_of_weekday (hlt : start.number < d.number) :
    start.number + 7 * ((d.number - start.number + start.weekday - d.weekday) / 7) + d.weekday - start.weekday =
      d.number := by
  have hweek : (d.number - start.number + start.weekday - d.weekday) % 7 = 0 := by
    unfold NaiveDate.weekday
    omega
  have hwd := d.weekday_lt
  have hle : d.weekday ≤ d.number - start.number + start.weekday := by
    unfold NaiveDate.weekday
    omega
  omega

theorem position_weekly (hr : r.Fits) (hfreq : r.freq = .weekly) (hlt : start < d) :
    position start r d = some j ↔ StandsAt start r d.number j := by
  have hnumber := NaiveDate.number_lt.mpr hlt
  unfold position
  rw [if_neg hlt.not_gt, if_neg hlt.ne', hfreq]
  simp only [ite_not, Option.ite_none_right_eq_some, Option.some.injEq]
  constructor
  · rintro ⟨hmem, hmod, rfl⟩
    obtain ⟨k, hk⟩ := Nat.dvd_of_mod_eq_zero hmod
    have hthere := week_of_weekday hnumber
    rw [hk, Nat.mul_div_cancel_left k hr.interval_pos]
    rw [hk] at hthere
    cases k with
    | zero =>
      refine ⟨0, maskBetween (dayMask start r) (start.weekday + 1) d.weekday, ?_, by simp⟩
      rw [(later_weekly hr hfreq 0).1, getElem?_week]
      exact ⟨d.weekday, d.weekday_lt, decide_eq_true ⟨hmem, by omega⟩, by omega, maskBetween_eq _ _ _⟩
    | succ k =>
      refine ⟨k + 1, maskBetween (dayMask start r) 0 d.weekday, ?_, ?_⟩
      · rw [(later_weekly hr hfreq k).2, getElem?_week]
        refine ⟨d.weekday, d.weekday_lt, decide_eq_true ⟨hmem, Nat.zero_le _⟩, ?_, maskBetween_eq _ _ _⟩
        rw [Nat.mul_comm (k + 1)]
        exact hthere
      · rw [if_neg k.succ_ne_zero, length_weekly hr hfreq, Nat.add_sub_cancel]
        ring
  · rintro ⟨k, i, hk, rfl⟩
    cases k with
    | zero =>
      rw [(later_weekly hr hfreq 0).1, getElem?_week] at hk
      obtain ⟨o, ho, hp, hf, rfl⟩ := hk
      obtain ⟨hday, hweek⟩ := weekday_of_week (t := 0) ho hnumber hf
      rw [hweek, hday, Nat.zero_mod, Nat.zero_div, if_pos rfl, ← maskBetween_eq]
      exact ⟨(of_decide_eq_true hp).1, rfl, by simp⟩
    | succ k =>
      rw [(later_weekly hr hfreq k).2, getElem?_week] at hk
      obtain ⟨o, ho, hp, hf, rfl⟩ := hk
      obtain ⟨hday, hweek⟩ := weekday_of_week ho hnumber hf
      rw [hweek, hday, Nat.mul_mod_left, Nat.mul_div_cancel _ hr.interval_pos, if_neg k.succ_ne_zero,
        length_weekly hr hfreq, ← maskBetween_eq, Nat.add_sub_cancel]
      exact ⟨(of_decide_eq_true hp).1, rfl, by ring⟩

theorem position_later (hr : r.Fits) (hlt : start < d) : position start r d = some j ↔ StandsAt start r d.number j := by
  cases hfreq : r.freq with
  | daily => exact position_daily hr hfreq hlt
  | weekly => exact position_weekly hr hfreq hlt
  | monthly => exact position_monthly hr hfreq hlt

theorem position_before (hlt : d < start) : position start r d = none := by
  exact if_pos hlt

theorem position_start : position start r start = some 0 := by
  unfold position
  rw [if_neg (lt_irrefl start), if_pos rfl]

theorem position_index (hr : r.Fits) {n : ℕ} (hn : d.number < n) :
    position start r d = some j ↔ (original start r n)[j]? = some d.number := by
  have hsome : ∀ {m : ℕ}, (original start r n)[m + 1]? = some d.number ↔
      ∃ k < n, ∃ i, (later start r k)[i]? = some d.number ∧ m = (upTo (later start r) k).length + i := by
    intro m
    unfold original
    rw [getElem?_cons_succ, getElem?_upTo]
  have hafter : ∀ {k i : ℕ}, (later start r k)[i]? = some d.number → start < d := by
    intro k i h
    exact NaiveDate.number_lt.mp (mem_later.mp (mem_of_getElem? h)).2
  rcases lt_trichotomy start d with hlt | rfl | hlt
  · rw [position_later hr hlt]
    cases j with
    | zero =>
      refine iff_of_false ?_ ?_
      · rintro ⟨k, i, -, hj⟩
        omega
      · intro h
        have hstart : start.number = d.number := by simpa [original] using h
        exact hlt.ne (NaiveDate.number_inj.mp hstart)
    | succ j =>
      rw [hsome]
      constructor
      · rintro ⟨k, i, hk, hj⟩
        exact ⟨k, (turn_le hr (mem_of_getElem? hk)).trans_lt hn, i, hk, by omega⟩
      · rintro ⟨k, -, i, hk, hj⟩
        exact ⟨k, i, hk, by omega⟩
  · rw [position_start]
    cases j with
    | zero => simp [original]
    | succ j =>
      rw [hsome]
      refine iff_of_false (by simp) ?_
      rintro ⟨k, -, i, hk, -⟩
      exact lt_irrefl _ (hafter hk)
  · rw [position_before hlt]
    refine iff_of_false (by simp) ?_
    intro h
    cases j with
    | zero =>
      have hstart : start.number = d.number := by simpa [original] using h
      exact hlt.ne' (NaiveDate.number_inj.mp hstart)
    | succ j =>
      obtain ⟨k, -, i, hk, -⟩ := hsome.mp h
      exact hlt.not_gt (hafter hk)

end

section
variable {start d : NaiveDate} {r : Repeat}

theorem positionHit_eq (hle : start ≤ d) : positionHit start r d = (position start r d).isSome := by
  unfold positionHit
  cases hfreq : r.freq with
  | daily | weekly => rfl
  | monthly =>
    have hmonth : start.monthNumber ≤ d.monthNumber := by
      rcases hle.eq_or_lt with rfl | hlt
      · exact le_rfl
      · rcases NaiveDate.lt_iff_lex.mp hlt with h | ⟨h, -⟩
        all_goals exact h.le
    rcases hle.eq_or_lt with rfl | hlt
    · simp [position_start]
    · unfold position
      rw [if_neg hlt.not_gt, if_neg hlt.ne', hfreq]
      by_cases hday : d.day = start.day
      · by_cases hmod : (d.monthNumber - start.monthNumber) % r.interval = 0
        · simp [hday, hmod, hmonth]
        · simp [hday, hmod]
      · simp [hday]

theorem isOccurrence_iff {w : When} : isOccurrence w r d = true ↔
    ∃ j, position w.startDate r d = some j ∧ withinEnd r d j = true := by
  unfold isOccurrence
  have hplain : (∀ i j, withinEnd r d i = withinEnd r d j) →
      ((decide (w.startDate ≤ d) && positionHit w.startDate r d && withinEnd r d 0) = true ↔
        ∃ j, position w.startDate r d = some j ∧ withinEnd r d j = true) := by
    intro hsame
    simp only [Bool.and_eq_true, decide_eq_true_eq]
    constructor
    · rintro ⟨⟨hle, hhit⟩, hend⟩
      rw [positionHit_eq hle] at hhit
      obtain ⟨j, hj⟩ := Option.isSome_iff_exists.mp hhit
      exact ⟨j, hj, hsame 0 j ▸ hend⟩
    · rintro ⟨j, hj, hend⟩
      have hle : w.startDate ≤ d := by
        by_contra hlt
        rw [position_before (lt_of_not_ge hlt)] at hj
        cases hj
      rw [positionHit_eq hle, hj]
      exact ⟨⟨hle, rfl⟩, hsame j 0 ▸ hend⟩
  rcases hfinish : r.finish with _ | last | n
  · exact hplain fun i j => by simp [withinEnd, hfinish]
  · exact hplain fun i j => by simp [withinEnd, hfinish]
  · simp [Option.any_eq_true]

theorem getElem?_cut {l : List ℕ} (hl : l.Pairwise (· < ·)) {j : ℕ} :
    (cut r l)[j]? = some d.number ↔ l[j]? = some d.number ∧ withinEnd r d j = true := by
  unfold cut withinEnd
  rcases r.finish with _ | last | n
  · simp
  · dsimp only
    rw [getElem?_takeWhile hl, NaiveDate.number_le, decide_eq_true_eq]
  · dsimp only
    rw [getElem?_take, decide_eq_true_eq]
    split
    · rename_i hlt
      simp [hlt]
    · rename_i hlt
      simp [hlt]

theorem cut_sublist (l : List ℕ) : (cut r l).Sublist l := by
  unfold cut
  rcases r.finish with _ | last | n
  · exact List.Sublist.refl l
  · exact takeWhile_sublist _
  · exact take_sublist n l

theorem walk_ascending (hr : r.Fits) (start : NaiveDate) (limit : ℕ) : (walk start r limit).Pairwise (· < ·) :=
  (original_ascending hr start (limit + 1)).sublist ((cut_sublist _).trans (takeWhile_sublist _))

theorem getElem?_walk (hr : r.Fits) {limit j : ℕ} (hlimit : d.number ≤ limit) :
    (walk start r limit)[j]? = some d.number ↔ position start r d = some j ∧ withinEnd r d j = true := by
  have hascending := original_ascending hr start (limit + 1)
  unfold walk
  rw [getElem?_cut (hascending.sublist (takeWhile_sublist _)), getElem?_takeWhile hascending,
    position_index hr (Nat.lt_succ_of_le hlimit), and_iff_left hlimit]

theorem mem_walk (hr : r.Fits) {w : When} {limit : ℕ} (hlimit : d.number ≤ limit) :
    d.number ∈ walk w.startDate r limit ↔ isOccurrence w r d = true := by
  rw [isOccurrence_iff, mem_iff_getElem?]
  exact exists_congr fun j => getElem?_walk hr hlimit

end

end Molt.Kanban
