import Mathlib
import MoltRepublic.Core.Json
import MoltRepublic.Lib.Check
import MoltRepublic.Lib.SortedMap

/-! The kanban calendar (`kanban_calendar`): dates in their canonical spelling, the window of
a task, the rule of a recurring series, and which dates are its occurrences. -/

namespace Molt.Kanban
open Text Json Check

def isLeap (year : Nat) : Bool := year % 4 == 0 && (year % 100 != 0 || year % 400 == 0)

def daysInMonth (year month : Nat) : Nat :=
  if month = 2 then if isLeap year then 29 else 28
  else if month ∈ [4, 6, 9, 11] then 30 else 31

def isDate (year month day : Nat) : Bool :=
  year ≤ 9999 && 1 ≤ month && month ≤ 12 && 1 ≤ day && day ≤ daysInMonth year month

/-- `chrono::NaiveDate`, in the four-digit years every door admits. -/
structure NaiveDate where
  year : Nat
  month : Nat
  day : Nat
  valid : isDate year month day = true
  deriving DecidableEq

namespace NaiveDate

def fromYmdOpt (year month day : Nat) : Option NaiveDate :=
  if h : isDate year month day = true then some ⟨year, month, day, h⟩ else none

def rank (d : NaiveDate) : Nat := (d.year * 13 + d.month) * 32 + d.day

theorem day_le (d : NaiveDate) : d.day ≤ 31 := by
  have hday : d.day ≤ daysInMonth d.year d.month := by
    have hvalid := d.valid
    simp only [isDate, Bool.and_eq_true, decide_eq_true_eq] at hvalid
    exact hvalid.2
  refine hday.trans ?_
  unfold daysInMonth
  split_ifs <;> omega

theorem month_le (d : NaiveDate) : d.month ≤ 12 := by
  have hvalid := d.valid
  simp only [isDate, Bool.and_eq_true, decide_eq_true_eq] at hvalid
  exact hvalid.1.1.2

theorem rank_injective : Function.Injective rank := by
  intro a b h
  have ha := a.day_le
  have hb := b.day_le
  have ha' := a.month_le
  have hb' := b.month_le
  obtain ⟨ya, ma, da, va⟩ := a
  obtain ⟨yb, mb, db, vb⟩ := b
  simp only [rank] at h ha hb ha' hb'
  obtain rfl : da = db := by omega
  obtain rfl : ma = mb := by omega
  obtain rfl : ya = yb := by omega
  rfl

instance : LinearOrder NaiveDate := LinearOrder.lift' rank rank_injective

def daysBeforeMonth (year month : Nat) : Nat :=
  ((List.range (month - 1)).map fun m => daysInMonth year (m + 1)).sum

def number (d : NaiveDate) : Nat :=
  365 * d.year + (d.year + 3) / 4 - (d.year + 99) / 100 + (d.year + 399) / 400 +
    daysBeforeMonth d.year d.month + (d.day - 1)

/-- `num_days_from_monday` of the weekday. -/
def weekday (d : NaiveDate) : Nat := (d.number + 5) % 7

def monthNumber (d : NaiveDate) : Nat := d.year * 12 + (d.month - 1)

end NaiveDate

/-- `YYYY-MM-DD`, in its canonical spelling only. -/
def parseDate (s : String) : Option NaiveDate :=
  match s.toList with
  | [a, b, c, d, '-', e, f, '-', g, h] => do
    NaiveDate.fromYmdOpt (← digitsValue [a, b, c, d] 0) (← digitsValue [e, f] 0) (← digitsValue [g, h] 0)
  | _ => none

def padded (width n : Nat) : String :=
  let digits := Nat.toDigits 10 n
  String.ofList (List.replicate (width - digits.length) '0' ++ digits)

def fmtDate (d : NaiveDate) : String :=
  padded 4 d.year ++ "-" ++ padded 2 d.month ++ "-" ++ padded 2 d.day

structure NaiveDateTime where
  date : NaiveDate
  hour : Fin 24
  minute : Fin 60
  deriving DecidableEq

def NaiveDateTime.rank (t : NaiveDateTime) : Nat := (t.date.rank * 24 + t.hour) * 60 + t.minute

/-- `YYYY-MM-DDTHH:MM`, in its canonical spelling only. -/
def parseDatetime (s : String) : Option NaiveDateTime := do
  match s.toList.drop 10 with
  | ['T', a, b, ':', c, d] =>
    let date ← parseDate (String.ofList (s.toList.take 10))
    let hour ← digitsValue [a, b] 0
    let minute ← digitsValue [c, d] 0
    if h : hour < 24 ∧ minute < 60 then return ⟨date, ⟨hour, h.1⟩, ⟨minute, h.2⟩⟩ else none
  | _ => none

def asArray : Value → Option (List Value)
  | .arr items => some items
  | _ => none

def asObject : Value → Option (List (String × Value))
  | .obj fields => some fields
  | _ => none

def orElse {α : Type} (o : Option α) (why : String) : Except String α :=
  match o with
  | some a => .ok a
  | none => .error why

inductive When
  | allDay (start last : NaiveDate)
  | timed (start last : NaiveDateTime)
  deriving DecidableEq

def When.parse (v : Value) : Except String When := do
  let obj ← orElse (asObject v) "when: not an object"
  ensure (obj.length = 2) "when: exactly start and end"
  let s ← orElse ((obj.lookup "start").bind Value.asStr) "when: start missing"
  let e ← orElse ((obj.lookup "end").bind Value.asStr) "when: end missing"
  match parseDate s, parseDate e with
  | some start, some last =>
    if start ≤ last then return .allDay start last else throw "when: end before start"
  | _, _ =>
    match parseDatetime s, parseDatetime e with
    | some start, some last =>
      if start.rank < last.rank then return .timed start last else throw "when: end not after start"
    | _, _ => throw "when: start and end must both be YYYY-MM-DD or both YYYY-MM-DDTHH:MM"

def When.startDate : When → NaiveDate
  | .allDay start _ => start
  | .timed start _ => start.date

inductive Freq
  | daily
  | weekly
  | monthly
  deriving DecidableEq

inductive Weekday
  | mon | tue | wed | thu | fri | sat | sun
  deriving DecidableEq

def Weekday.number : Weekday → Nat
  | .mon => 0
  | .tue => 1
  | .wed => 2
  | .thu => 3
  | .fri => 4
  | .sat => 5
  | .sun => 6

def weekdays : List (String × Weekday) :=
  [("mo", .mon), ("tu", .tue), ("we", .wed), ("th", .thu), ("fr", .fri), ("sa", .sat), ("su", .sun)]

inductive RepeatEnd
  | opened
  | until (last : NaiveDate)
  | count (n : Nat)
  deriving DecidableEq

structure Repeat where
  freq : Freq
  interval : Nat
  byday : List Weekday
  finish : RepeatEnd
  deriving DecidableEq

def parseByday : List Value → List Weekday → Except String (List Weekday)
  | [], byday => .ok byday
  | d :: days, byday => do
    let s := d.asStr.getD ""
    let w ← orElse (weekdays.lookup s) ("repeat: byday `" ++ s ++ "` is not mo..su")
    ensure (w ∉ byday) ("repeat: byday `" ++ s ++ "` twice")
    parseByday days (byday ++ [w])

def atLeastOne (v : Value) (why : String) : Except String Nat :=
  match v.asU64 with
  | some n => if 1 ≤ n.toNat then .ok n.toNat else .error why
  | none => .error why

def Repeat.parse (v : Value) : Except String Repeat := do
  let obj ← orElse (asObject v) "repeat: not an object"
  match obj.find? fun f => f.1 ∉ ["freq", "interval", "byday", "until", "count"] with
  | some f => throw ("repeat: unknown field `" ++ f.1 ++ "`")
  | none => pure ()
  let freq ← match (obj.lookup "freq").bind Value.asStr with
    | some "daily" => pure Freq.daily
    | some "weekly" => pure Freq.weekly
    | some "monthly" => pure Freq.monthly
    | _ => throw "repeat: freq is daily, weekly or monthly"
  let interval ← match obj.lookup "interval" with
    | none => pure 1
    | some n => atLeastOne n "repeat: interval >= 1"
  let byday ← match obj.lookup "byday" with
    | none => pure []
    | some days => do
      ensure (freq = .weekly) "repeat: byday only with weekly"
      let days ← orElse ((asArray days).filter fun a => !a.isEmpty) "repeat: byday is a non-empty list"
      parseByday days []
  let finish ← match obj.lookup "until", obj.lookup "count" with
    | some _, some _ => throw "repeat: until or count, not both"
    | some u, none => (orElse (u.asStr.bind parseDate) "repeat: until is YYYY-MM-DD").map RepeatEnd.until
    | none, some c => (atLeastOne c "repeat: count >= 1").map RepeatEnd.count
    | none, none => pure RepeatEnd.opened
  return ⟨freq, interval, byday, finish⟩

def dayMask (start : NaiveDate) (r : Repeat) : Finset Nat :=
  if r.byday.isEmpty then {start.weekday} else (r.byday.map Weekday.number).toFinset

def maskBetween (mask : Finset Nat) (lo hi : Nat) : Nat := (mask.filter fun o => lo ≤ o ∧ o < hi).card

def cycleMonths : Nat := 4800

def monthPrefix (m0 step day : Nat) : List Nat :=
  let period := cycleMonths / Nat.gcd step cycleMonths
  (List.range (period + 1)).map fun i => ((List.range i).filter fun j =>
    let a := (m0 + j * step) % cycleMonths
    decide (1 ≤ day) && decide (day ≤ daysInMonth (2000 + a / 12) (a % 12 + 1))).length

/-- How many of the first `k` periods of a monthly series have its day. -/
def monthsWithDay (start : NaiveDate) (interval k : Nat) : Nat :=
  if start.day ≤ 28 then k
  else
    let table := monthPrefix (start.monthNumber % cycleMonths) (interval % cycleMonths) start.day
    let period := table.length - 1
    (k / period) * table.getD period 0 + table.getD (k % period) 0

def position (start : NaiveDate) (r : Repeat) (date : NaiveDate) : Option Nat :=
  if date < start then none
  else if date = start then some 0
  else
    let days := date.number - start.number
    match r.freq with
    | .daily => if days % r.interval = 0 then some (days / r.interval) else none
    | .weekly =>
      let mask := dayMask start r
      let so := start.weekday
      let dof := date.weekday
      if dof ∉ mask then none
      else
        let weeks := (days + so - dof) / 7
        if weeks % r.interval ≠ 0 then none
        else
          let q := weeks / r.interval
          some (if q = 0 then 1 + maskBetween mask (so + 1) dof
            else 1 + maskBetween mask (so + 1) 7 + (q - 1) * mask.card + maskBetween mask 0 dof)
    | .monthly =>
      if date.day ≠ start.day then none
      else
        let months := date.monthNumber - start.monthNumber
        if months % r.interval = 0 then some (monthsWithDay start r.interval (months / r.interval))
        else none

def withinEnd (r : Repeat) (date : NaiveDate) (pos : Nat) : Bool :=
  match r.finish with
  | .opened => true
  | .until last => date ≤ last
  | .count n => pos < n

/-- `position` without the count. -/
def positionHit (start : NaiveDate) (r : Repeat) (date : NaiveDate) : Bool :=
  match r.freq with
  | .monthly => date.day == start.day && start.monthNumber ≤ date.monthNumber &&
      (date.monthNumber - start.monthNumber) % r.interval == 0
  | _ => (position start r date).isSome

def isOccurrence (w : When) (r : Repeat) (date : NaiveDate) : Bool :=
  let start := w.startDate
  match r.finish with
  | .count _ => (position start r date).any (withinEnd r date)
  | _ => decide (start ≤ date) && positionHit start r date && withinEnd r date 0

end Molt.Kanban
