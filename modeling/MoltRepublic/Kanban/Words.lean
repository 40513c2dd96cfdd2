import Mathlib
import MoltRepublic.Kanban.Series
import MoltRepublic.Lib.Checked

/-! The same arithmetic in the machine words the code computes in. A computation is an `Option`:
it stops at an overflow, a division by zero, a shift past the width and an index past the end. -/

namespace Molt.Kanban
open Turns Checked List Nat
open Option hiding mem_map mem_toFinset

section

/-- `1u8 << o`. -/
def bit (o : ℕ) : Option (BitVec 8) := if o < 8 then some (1#8 <<< o) else none

def bits (os : List ℕ) : Option (BitVec 8) := os.foldlM (fun m o => do return m ||| (← bit o)) 0#8

def countOnes (m : BitVec 8) : ℕ := ((List.range 8).filter fun o => m.getLsbD o).length

theorem bits_eq {os : List ℕ} (h : ∀ o ∈ os, o < 8) :
    ∃ m, bits os = some m ∧ ∀ o < 8, m.getLsbD o = decide (o ∈ os) := by
  unfold bits
  induction os using List.reverseRecOn with
  | nil => exact ⟨0#8, rfl, fun o _ => by simp⟩
  | append_singleton os a ih =>
    obtain ⟨m, hm, hbits⟩ := ih fun o ho => h o (mem_append_left _ ho)
    have ha : bit a = some (1#8 <<< a) := if_pos (h a (by simp))
    refine ⟨m ||| 1#8 <<< a, ?_, ?_⟩
    · rw [foldlM_append, hm]
      simp [ha]
    · intro o ho
      have hone : (1#8 <<< a).getLsbD o = decide (o = a) := by
        rw [BitVec.getLsbD_shiftLeft, BitVec.getLsbD_one]
        grind
      rw [BitVec.getLsbD_or, hbits o ho, hone]
      simp

end

section

def dayMaskWords (start : NaiveDate) (r : Repeat) : Option (BitVec 8) :=
  if r.byday.isEmpty then bit start.weekday else bits (r.byday.map Weekday.number)

def maskBetweenWords (mask : BitVec 8) (lo hi : ℕ) : Option ℕ := do
  let span ← bits (List.range' lo (hi - lo))
  return countOnes (mask &&& span)

def monthPrefixStep (m0 step day : ℕ) (table : ℕ × List ℕ) (j : ℕ) : Option (ℕ × List ℕ) := do
  let a ← fits 64 (m0 + (← fits 64 (j * step)))
  let a := a % cycleMonths
  let c ← if 1 ≤ day ∧ day ≤ daysInMonth (2000 + a / 12) (a % 12 + 1) then fits 32 (table.1 + 1) else some table.1
  return (c, table.2 ++ [c])

def monthPrefixWords (m0 step day : ℕ) : Option (List ℕ) := do
  let period ← quotient cycleMonths (Nat.gcd step cycleMonths)
  let table ← (List.range period).foldlM (monthPrefixStep m0 step day) (0, [0])
  return table.2

def monthsWithDayWords (start : NaiveDate) (interval k : ℕ) : Option ℕ :=
  if start.day ≤ 28 then some k
  else do
    let table ← monthPrefixWords (start.monthNumber % cycleMonths) (interval % cycleMonths) start.day
    let period ← minus table.length 1
    let cycles ← fits 64 ((← quotient k period) * (← table[period]?))
    fits 64 (cycles + (← table[← remainder k period]?))

def positionWords (start : NaiveDate) (r : Repeat) (date : NaiveDate) : Option (Option ℕ) :=
  if date < start then some none
  else if date = start then some (some 0)
  else
    let days := date.number - start.number
    match r.freq with
    | .daily => do
      if (← remainder days r.interval) = 0 then return some (← quotient days r.interval) else return none
    | .weekly => do
      let mask ← dayMaskWords start r
      let so := start.weekday
      let dof := date.weekday
      if mask &&& (← bit dof) = 0#8 then return none
      else
        let weeks ← quotient (← minus (← fits 64 (days + so)) dof) 7
        if (← remainder weeks r.interval) ≠ 0 then return none
        else
          let q ← quotient weeks r.interval
          if q = 0 then return some (← fits 64 (1 + (← maskBetweenWords mask (so + 1) dof)))
          else
            let first ← fits 64 (1 + (← maskBetweenWords mask (so + 1) 7))
            let whole ← fits 64 ((← minus q 1) * countOnes mask)
            return some (← fits 64 ((← fits 64 (first + whole)) + (← maskBetweenWords mask 0 dof)))
    | .monthly => do
      if date.day ≠ start.day then return none
      else
        let months := date.monthNumber - start.monthNumber
        if (← remainder months r.interval) = 0 then
          return some (← monthsWithDayWords start r.interval (← quotient months r.interval))
        else return none

def positionHitWords (start : NaiveDate) (r : Repeat) (date : NaiveDate) : Option Bool :=
  match r.freq with
  | .monthly =>
    if date.day = start.day ∧ start.monthNumber ≤ date.monthNumber then do
      return (← remainder (date.monthNumber - start.monthNumber) r.interval) == 0
    else some false
  | _ => (positionWords start r date).map Option.isSome

def isOccurrenceWords (w : When) (r : Repeat) (date : NaiveDate) : Option Bool :=
  let start := w.startDate
  match r.finish with
  | .count _ => (positionWords start r date).map (Option.any (withinEnd r date))
  | _ =>
    if start ≤ date then do
      return (← positionHitWords start r date) && withinEnd r date 0
    else some false

end

section
variable {start d : NaiveDate} {r : Repeat}

def Masks (mask : BitVec 8) (days : Finset ℕ) : Prop := ∀ o < 8, mask.getLsbD o = decide (o ∈ days)

theorem dayMaskWords_eq (start : NaiveDate) (r : Repeat) :
    ∃ mask, dayMaskWords start r = some mask ∧ Masks mask (dayMask start r) := by
  unfold dayMaskWords dayMask
  split
  · obtain ⟨m, hm, hbits⟩ := @bits_eq [start.weekday] fun o ho => by
      rw [mem_singleton.mp ho]
      exact start.weekday_lt.trans (by decide)
    refine ⟨m, ?_, fun o ho => ?_⟩
    · simpa [bits] using hm
    · simpa using hbits o ho
  · obtain ⟨m, hm, hbits⟩ := @bits_eq (r.byday.map Weekday.number) fun o ho => by
      obtain ⟨w, -, rfl⟩ := mem_map.mp ho
      cases w <;> decide
    refine ⟨m, hm, fun o ho => ?_⟩
    rw [hbits o ho]
    simp

variable {mask : BitVec 8} {days : Finset ℕ}

theorem countOnes_eq (hmask : Masks mask days) (hdays : ∀ o ∈ days, o < 7) :
    countOnes mask = days.card := by
  unfold countOnes
  rw [← toFinset_card_of_nodup (nodup_range.filter _)]
  congr 1
  ext o
  simp only [mem_toFinset, mem_filter, mem_range]
  constructor
  · rintro ⟨ho, hbit⟩
    rw [hmask o ho] at hbit
    exact of_decide_eq_true hbit
  · intro hmem
    have ho : o < 8 := (hdays o hmem).trans (by decide)
    exact ⟨ho, (hmask o ho).trans (decide_eq_true hmem)⟩

theorem maskBetweenWords_eq (hmask : Masks mask days) (hdays : ∀ o ∈ days, o < 7) {lo hi : ℕ} (hhi : hi ≤ 7) :
    maskBetweenWords mask lo hi = some (maskBetween days lo hi) := by
  have hspan : ∀ o ∈ List.range' lo (hi - lo), o < 8 := by
    intro o ho
    have hlt := mem_range'_1.mp ho
    omega
  obtain ⟨span, hm, hbits⟩ := bits_eq hspan
  have hboth : Masks (mask &&& span) (days.filter fun o => lo ≤ o ∧ o < hi) := by
    intro o ho
    rw [BitVec.getLsbD_and, hmask o ho, hbits o ho, ← Bool.decide_and, decide_eq_decide, Finset.mem_filter,
      mem_range'_1]
    exact and_congr_right fun _ => ⟨fun h => ⟨h.1, by omega⟩, fun h => ⟨h.1, by omega⟩⟩
  unfold maskBetweenWords
  rw [hm]
  change some (countOnes (mask &&& span)) = some (maskBetween days lo hi)
  rw [countOnes_eq hboth fun o ho => hdays o (Finset.mem_of_mem_filter o ho)]
  rfl

theorem maskBetween_le (hdays : ∀ o ∈ days, o < 7) (lo hi : ℕ) : maskBetween days lo hi ≤ 7 := by
  have hsubset : (days.filter fun o => lo ≤ o ∧ o < hi) ⊆ Finset.range 7 := by
    intro o ho
    exact Finset.mem_range.mpr (hdays o (Finset.mem_of_mem_filter o ho))
  exact (Finset.card_le_card hsubset).trans (by simp)

theorem cycleCount_succ (m0 step day j : ℕ) :
    cycleCount m0 step day (j + 1) = cycleCount m0 step day j + if cycleHas m0 step day j then 1 else 0 := by
  unfold cycleCount
  rw [range_succ, filter_append, length_append]
  cases hhas : cycleHas m0 step day j <;> simp [hhas]

theorem cycleCount_le (m0 step day j : ℕ) : cycleCount m0 step day j ≤ j := by
  exact (length_filter_le _ _).trans (length_range).le

theorem monthPrefixStep_eq {m0 step day j : ℕ} (hm0 : m0 < cycleMonths) (hstep : step < cycleMonths)
    (hj : j < cycleMonths) (counts : List ℕ) :
    monthPrefixStep m0 step day (cycleCount m0 step day j, counts) j =
      some (cycleCount m0 step day (j + 1), counts ++ [cycleCount m0 step day (j + 1)]) := by
  have hprod : j * step ≤ 4800 * 4800 := Nat.mul_le_mul hj.le hstep.le
  have hle := cycleCount_le m0 step day j
  unfold cycleMonths at hm0 hj
  have hmonth : fits 64 (m0 + j * step) = some (m0 + j * step) := fits_eq (by omega)
  have hcount : fits 32 (cycleCount m0 step day j + 1) = some (cycleCount m0 step day j + 1) := fits_eq (by omega)
  have hhas : cycleHas m0 step day j = decide (1 ≤ day ∧ day ≤ daysInMonth
      (2000 + (m0 + j * step) % cycleMonths / 12) ((m0 + j * step) % cycleMonths % 12 + 1)) := (Bool.decide_and _ _).symm
  rw [cycleCount_succ, hhas]
  unfold monthPrefixStep
  rw [fits_eq (show j * step < 2 ^ 64 by omega), hcount]
  simp only [bind_eq_bind, bind_some, hmonth, decide_eq_true_eq]
  split_ifs <;> rfl

theorem monthPrefixWords_eq {m0 step : ℕ} (hm0 : m0 < cycleMonths) (hstep : step < cycleMonths) (day : ℕ) :
    monthPrefixWords m0 step day = some (monthPrefix m0 step day) := by
  have hfold : ∀ n ≤ cycleMonths, (List.range n).foldlM (monthPrefixStep m0 step day) (0, [0]) =
      some (cycleCount m0 step day n, (List.range (n + 1)).map (cycleCount m0 step day)) := by
    intro n hn
    induction n with
    | zero => rfl
    | succ n ih =>
      rw [range_succ, foldlM_append, ih (by omega), range_succ (n := n + 1), map_append]
      simp only [foldlM_cons, foldlM_nil, bind_eq_bind, bind_some,
        monthPrefixStep_eq hm0 hstep (lt_of_succ_le hn)]
      rfl
  unfold monthPrefixWords
  rw [quotient_eq (gcd_pos_of_pos_right _ (by decide))]
  simp only [bind_eq_bind, bind_some, hfold _ (cycle_period_le step)]
  rfl

theorem monthsWithDayWords_eq {start : NaiveDate} {interval k : ℕ} (hk : k < 2 ^ 32) :
    monthsWithDayWords start interval k = some (monthsWithDay start interval k) := by
  have hcycle : 0 < cycleMonths := by decide
  have hwords := monthPrefixWords_eq (mod_lt start.monthNumber hcycle) (mod_lt interval hcycle) start.day
  unfold monthsWithDayWords monthsWithDay
  split
  · rfl
  · rw [hwords]
    simp only [bind_eq_bind, bind_some]
    rw [monthPrefix_length, minus_eq (Nat.le_add_left 1 _), Nat.add_sub_cancel]
    have hperiod := cycle_period_pos (interval % cycleMonths)
    have hperiod' := cycle_period_le (interval % cycleMonths)
    simp only [bind_some]
    rw [quotient_eq hperiod, remainder_eq hperiod]
    simp only [bind_some, getD_eq_getElem?_getD, getElem?_monthPrefix le_rfl,
      getElem?_monthPrefix (mod_lt k hperiod).le, getD_some]
    generalize cycleMonths / Nat.gcd (interval % cycleMonths) cycleMonths = period at *
    have hwhole := cycleCount_le (start.monthNumber % cycleMonths) (interval % cycleMonths) start.day period
    have hrest := cycleCount_le (start.monthNumber % cycleMonths) (interval % cycleMonths) start.day (k % period)
    have hle : k / period * cycleCount (start.monthNumber % cycleMonths) (interval % cycleMonths) start.day period ≤ k :=
      (Nat.mul_le_mul_left _ hwhole).trans (div_mul_le_self k period)
    have hlt := mod_lt k hperiod
    unfold cycleMonths at hperiod'
    rw [fits_eq (by omega)]
    simp only [bind_some]
    exact fits_eq (by omega)

theorem mask_and_bit (hmask : Masks mask days) {o : ℕ} (ho : o < 8) :
    mask &&& 1#8 <<< o = 0#8 ↔ o ∉ days := by
  have hone : ∀ i < 8, (1#8 <<< o).getLsbD i = decide (i = o) := by
    intro i hi
    rw [BitVec.getLsbD_shiftLeft, BitVec.getLsbD_one]
    simp only [hi]
    grind
  constructor
  · intro hzero hmem
    have hbit : (mask &&& 1#8 <<< o).getLsbD o = true := by
      rw [BitVec.getLsbD_and, hmask o ho, hone o ho]
      simp [hmem]
    rw [hzero] at hbit
    simp at hbit
  · intro hnot
    apply BitVec.eq_of_getLsbD_eq
    intro i hi
    rw [BitVec.getLsbD_and, hmask i hi, hone i hi, BitVec.getLsbD_zero]
    by_cases hio : i = o
    · subst hio
      simp [hnot]
    · simp [hio]

theorem positionWords_eq (hr : r.Fits) : positionWords start r d = some (position start r d) := by
  have hd := yearsEnd_eq ▸ number_lt_yearsEnd d
  have hpos := hr.interval_pos
  unfold positionWords position
  split
  · rfl
  rename_i hbefore
  split
  · rfl
  rename_i hother
  have hlt := NaiveDate.number_lt.mpr (lt_of_le_of_ne (le_of_not_gt hbefore) (Ne.symm hother))
  cases r.freq with
  | daily =>
    dsimp only
    rw [remainder_eq hpos, quotient_eq hpos]
    simp only [bind_eq_bind, bind_some]
    split_ifs <;> rfl
  | weekly =>
    obtain ⟨mask, hwords, hmask⟩ := dayMaskWords_eq start r
    have hdays : ∀ o ∈ dayMask start r, o < 7 := fun o => mem_dayMask_lt
    have hso := start.weekday_lt
    have hdof := d.weekday_lt
    have hbit : bit d.weekday = some (1#8 <<< d.weekday) := if_pos (by omega)
    have hsum : d.weekday ≤ d.number - start.number + start.weekday := by
      unfold NaiveDate.weekday
      omega
    have hfirst := maskBetween_le hdays (start.weekday + 1) 7
    have hfirst' := maskBetween_le hdays (start.weekday + 1) d.weekday
    have hlast := maskBetween_le hdays 0 d.weekday
    have hcard : (dayMask start r).card ≤ 7 := maskBetween_week hdays ▸ maskBetween_le hdays 0 7
    dsimp only
    rw [hwords, hbit, fits_eq (show d.number - start.number + start.weekday < 2 ^ 64 by omega)]
    rw [bind_eq_bind, bind_some, bind_eq_bind, bind_some]
    have hhit := mask_and_bit hmask (show d.weekday < 8 by omega)
    by_cases hmem : d.weekday ∉ dayMask start r
    · rw [if_pos (hhit.mpr hmem), if_pos hmem]
      rfl
    rw [if_neg (mt hhit.mp hmem), if_neg hmem, bind_some, minus_eq hsum]
    simp only [bind_some]
    rw [quotient_eq (show 0 < 7 by decide)]
    simp only [bind_some]
    rw [remainder_eq hpos, quotient_eq hpos]
    have hweeks : (d.number - start.number + start.weekday - d.weekday) / 7 < 2 ^ 32 := by omega
    generalize (d.number - start.number + start.weekday - d.weekday) / 7 = weeks at *
    have hq : weeks / r.interval ≤ weeks := Nat.div_le_self _ _
    generalize weeks / r.interval = q at *
    simp only [bind_some]
    split
    · rfl
    split
    · rw [maskBetweenWords_eq hmask hdays hdof.le]
      simp only [bind_some]
      rw [fits_eq (by omega)]
      rfl
    · have hwhole : (q - 1) * (dayMask start r).card ≤ 2 ^ 32 * 7 := Nat.mul_le_mul (by omega) hcard
      rw [maskBetweenWords_eq hmask hdays le_rfl, maskBetweenWords_eq hmask hdays hdof.le, minus_eq (by omega),
        countOnes_eq hmask hdays]
      simp only [bind_some]
      rw [fits_eq (show 1 + maskBetween (dayMask start r) (start.weekday + 1) 7 < 2 ^ 64 by omega),
        fits_eq (show (q - 1) * (dayMask start r).card < 2 ^ 64 by omega)]
      simp only [bind_some]
      rw [fits_eq (by omega)]
      simp only [bind_some]
      rw [fits_eq (by omega)]
      rfl
  | monthly =>
    have hmonth := monthNumber_lt d
    dsimp only
    split
    · rfl
    rw [remainder_eq hpos, quotient_eq hpos]
    simp only [bind_eq_bind, bind_some]
    split
    · have hk : (d.monthNumber - start.monthNumber) / r.interval < 2 ^ 32 :=
        (Nat.div_le_self _ _).trans_lt (by omega)
      rw [monthsWithDayWords_eq hk]
      rfl
    · rfl

theorem positionHitWords_eq (hr : r.Fits) : positionHitWords start r d = some (positionHit start r d) := by
  unfold positionHitWords positionHit
  cases r.freq with
  | daily | weekly => rw [positionWords_eq hr]; rfl
  | monthly =>
    dsimp only
    split
    · rename_i h
      rw [remainder_eq hr.interval_pos]
      simp [h.1, h.2]
    · rename_i h
      by_cases hday : d.day = start.day
      · have hmonth : ¬ start.monthNumber ≤ d.monthNumber := fun hle => h ⟨hday, hle⟩
        simp [hmonth]
      · simp [hday]

theorem isOccurrenceWords_eq (hr : r.Fits) (w : When) : isOccurrenceWords w r d = some (isOccurrence w r d) := by
  unfold isOccurrenceWords isOccurrence
  rcases r.finish with _ | last | n
  · dsimp only
    split
    · rename_i hle
      rw [positionHitWords_eq hr]
      simp [hle]
    · rename_i hle
      simp [hle]
  · dsimp only
    split
    · rename_i hle
      rw [positionHitWords_eq hr]
      simp [hle]
    · rename_i hle
      simp [hle]
  · dsimp only
    rw [positionWords_eq hr]
    rfl

end

/-- A date occurs exactly when the walk of the rule passes it, its position is its index there,
and no step of the arithmetic leaves its word. -/
theorem occurrence_enumerated {v : Json.Value} {r : Repeat} (hparse : Repeat.parse v = .ok r) (w : When)
    (d limit : NaiveDate) (hlimit : d ≤ limit) :
    (walk w.startDate r limit.number).Pairwise (· < ·) ∧
      (isOccurrence w r d = true ↔ d.number ∈ walk w.startDate r limit.number) ∧
      (∀ j, (walk w.startDate r limit.number)[j]? = some d.number ↔
        isOccurrence w r d = true ∧ position w.startDate r d = some j) ∧
      (∀ j, position w.startDate r d = some j ↔
        (original w.startDate r (limit.number + 1))[j]? = some d.number) ∧
      positionWords w.startDate r d = some (position w.startDate r d) ∧
      isOccurrenceWords w r d = some (isOccurrence w r d) := by
  have hr := Repeat.parse_fits hparse
  have hle : d.number ≤ limit.number := NaiveDate.number_le.mpr hlimit
  refine ⟨walk_ascending hr _ _, (mem_walk hr hle).symm, ?_, ?_, positionWords_eq hr, isOccurrenceWords_eq hr w⟩
  · intro j
    rw [getElem?_walk hr hle, isOccurrence_iff]
    constructor
    · rintro ⟨hj, hend⟩
      exact ⟨⟨j, hj, hend⟩, hj⟩
    · rintro ⟨⟨i, hi, hend⟩, hj⟩
      obtain rfl : i = j := Option.some.inj (hi.symm.trans hj)
      exact ⟨hj, hend⟩
  · intro j
    exact position_index hr (Nat.lt_succ_of_le hle)

/-- A series that starts outside its own weekdays, two of them every second week, three times. -/
def fortnight : Repeat := ⟨.weekly, 2, [.mon, .fri], .count 3⟩

def fortnightStart : When := .allDay ⟨0, 1, 5, by decide⟩ ⟨0, 1, 5, by decide⟩

def thirdDate : NaiveDate := ⟨0, 1, 17, by decide⟩

theorem occurrence_enumerated_fortnight :
    walk fortnightStart.startDate fortnight 16 = [4, 6, 16] ∧
      isOccurrence fortnightStart fortnight thirdDate = true ∧
      position fortnightStart.startDate fortnight thirdDate = some 2 := by
  have hparse : Repeat.parse (.obj [("freq", .str "weekly"), ("interval", .num (.posInt 2)),
      ("byday", .arr [.str "mo", .str "fr"]), ("count", .num (.posInt 3))]) = .ok fortnight := by rfl
  have hwalk : walk fortnightStart.startDate fortnight 16 = [4, 6, 16] := by decide +kernel
  obtain ⟨-, -, hindex, -⟩ := occurrence_enumerated hparse fortnightStart thirdDate thirdDate le_rfl
  exact ⟨hwalk, (hindex 2).mp (hwalk ▸ rfl)⟩

end Molt.Kanban
