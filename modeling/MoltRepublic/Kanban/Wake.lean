import Mathlib
import MoltRepublic.Kanban.Expand
import MoltRepublic.Wiki.Fold

/-! The starts of a seat's timed tasks (`kanban_wake`): which have come, and when the next one will.
A clock counts seconds from the first of January of the year 0. -/

namespace Molt.Kanban
open Text

def missedHorizonSecs : ℕ := 24 * 3600

def lookaheadDays : ℕ := 15

/-- `fmt_datetime`, of the minutes since the year 0. Past its four-digit years the calendar reads no date back. -/
def fmtDatetime (begins : ℕ) : String :=
  match dateAt (begins / 1440) with
  | some d => fmtDate d ++ "T" ++ padded 2 (begins / 60 % 24) ++ ":" ++ padded 2 (begins % 60)
  | none => "+"

structure StartDue where
  task : TaskId
  occurrence : Option NaiveDate
  begins : ℕ
  blocked : Bool
  deriving DecidableEq

def StartDue.key (d : StartDue) : String := d.task ++ "@" ++ fmtDatetime d.begins

def keyBegins (key : String) : Option ℕ :=
  (Wiki.rsplitAt ['@'] key.toList).bind fun parts =>
    (parseDatetime (String.ofList parts.2)).map NaiveDateTime.instant

structure StartScan where
  due : List StartDue := []
  nextFire : Option ℕ := none
  deriving DecidableEq

def lastDate : NaiveDate := ⟨9999, 12, 31, by decide⟩

section
variable (seat : String) (now : ℕ) (lead : UInt16)

def scanOccurrence (id : TaskId) (t : Task) (blocked : Bool) (out : StartScan) (o : Occurrence) : StartScan :=
  let begins := o.window.begins
  let fire := begins * 60 - lead.toNat * 60
  if now + lead.toNat * 60 < begins * 60 then
    { out with nextFire := some ((out.nextFire.map fun n => min n fire).getD fire) }
  else if now < begins * 60 + missedHorizonSecs then
    { out with due := out.due ++ [⟨id, if t.isSeries then some o.date else none, begins, blocked⟩] }
  else out

def scanTask (derived : Derived) (from_ to_ : NaiveDate) (out : StartScan) (id : TaskId) (t : Task) :
    Option StartScan :=
  match t.when with
  | none => some out
  | some w =>
    if t.state ≠ .todo ∨ seat ∉ t.assignees then some out
    else do
      let blocked := (derived.tasks.get? id).any fun d => d.shown == .blocked || d.shown == .stuck
      let occurrences ← expand w t.skip t.moved from_ to_ t.recurs
      return occurrences.foldl (scanOccurrence now lead id t blocked) out

/-- The `todo` timed tasks the seat is assigned to, expanded around `now`; `none` where a sum overflows. -/
def startScan (board : BoardState) (derived : Derived) : Option StartScan := do
  let from_ := (dateAt ((now - missedHorizonSecs) / 86400)).getD lastDate
  let to_ := (dateAt ((now + lead.toNat * 60) / 86400 + lookaheadDays)).getD lastDate
  board.tasks.entries.foldlM (fun out e => scanTask seat now lead derived from_ to_ out e.1 e.2) {}

end

end Molt.Kanban
