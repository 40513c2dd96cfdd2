import Mathlib
import MoltRepublic.Kanban.Scanned

/-! The `task_start` timer of a seat (`wake`): every start of its timed tasks fires once, kept over
a close by the list of the fired keys. -/

namespace Molt.Wake
open Kanban Json

def timerIdleSecs : ℕ := 3600

def firedKeepSecs : ℕ := 2 * missedHorizonSecs

def epochSecs : ℕ := 719528 * 86400

def u64Max : ℕ := 2 ^ 64 - 1

def utc (secs : ℕ) : Option ℕ := if (secs + epochSecs) / 86400 ≤ dateMax then some (secs + epochSecs) else none

def dayEnd (secs : ℕ) : ℕ := min ((secs / 86400 + 1) * 86400) u64Max

structure Timer where
  rev : UInt64
  lead : UInt16
  seat : String
  at_ : ℕ
  deriving DecidableEq

structure WakeState where
  fired : Finset String := ∅
  timer : Option Timer := none

def adoptFired (keys : Finset String) : WakeState := ⟨keys, none⟩

/-- The workspace of a seat: its board, its clock settings, and `kanban_wakes.json`. -/
structure Node where
  opened : Bool := false
  seats : Finset String := ∅
  board : BoardState := {}
  lead : UInt16 := 0
  seat : String
  wake : WakeState := {}
  saved : Finset String := ∅

def pruneFired (now : ℕ) (fired : Finset String) : Finset String :=
  fired.filter fun k => (keyBegins k).any fun b => decide (now < b * 60 + firedKeepSecs)

def insertDue : List StartDue → Finset String → Finset String × List StartDue
  | [], fired => (fired, [])
  | d :: due, fired =>
    if d.key ∈ fired then insertDue due fired
    else
      let rest := insertDue due (insert d.key fired)
      (rest.1, d :: rest.2)

namespace Node
variable (n : Node) (now : ℕ)

def rests : Bool :=
  n.wake.timer.any fun t => t.rev = n.board.rev ∧ t.lead = n.lead ∧ t.seat = n.seat ∧ now < t.at_

def nextAt (nextFire : Option ℕ) : ℕ :=
  min (min ((nextFire.map fun t => t - epochSecs).getD u64Max) (min (now + timerIdleSecs) u64Max)) (dayEnd now)

def fires (new : List StartDue) : Bool := new.any fun d => !d.blocked

def taskTimer : Option (Node × List StartDue) :=
  if !n.opened || n.rests now then some (n, [])
  else
    match utc now with
    | none => some (n, [])
    | some nowT => do
      let today := (dateAt (nowT / 86400)).getD lastDate
      let scan ← startScan n.seat nowT n.lead n.board (derive n.board today)
      let timer := ⟨n.board.rev, n.lead, n.seat, nextAt now scan.nextFire⟩
      let kept := pruneFired nowT n.wake.fired
      let due := insertDue scan.due kept
      let changed := kept.card ≠ n.wake.fired.card ∨ due.2 ≠ []
      return ({ n with wake := ⟨due.1, some timer⟩, saved := if changed then due.1 else n.saved }, due.2)

end Node

inductive Act
  | append (payload : Value)
  | rebase (applied : List Value) (seats : Finset String)
  | setLead (lead : UInt16)
  | member (seat : String)
  | close
  | opening
  | tick (now : ℕ)

/-- A node, and what has happened to it: the board it has last scanned, the starts that were
inserted, and the last tick. -/
structure Run where
  node : Node
  scanned : BoardState := {}
  inserted : List StartDue := []
  clock : ℕ := 0

def Run.step (r : Run) : Act → Option Run
  | .append payload =>
    some { r with node := { r.node with board := (kanbanFoldOne r.node.board payload r.node.seats).1 } }
  | .rebase applied seats =>
    some { r with node := { r.node with seats := seats, board := kanbanFold applied seats } }
  | .setLead lead => some { r with node := { r.node with lead := lead } }
  | .member seat => some { r with node := { r.node with seat := seat } }
  | .close => some { r with node := { r.node with opened := false, wake := {} } }
  | .opening => some { r with node := { r.node with opened := true, wake := adoptFired r.node.saved } }
  | .tick now => do
    let (node, new) ← r.node.taskTimer now
    let scanned := if r.node.opened ∧ ¬ r.node.rests now then r.node.board else r.scanned
    return ⟨node, scanned, r.inserted ++ new, now⟩

end Molt.Wake
