import Mathlib

/-! The trickle sender (`trickle`): one persisted queue of publish jobs, one entry a series,
drained one piece at a time. A piece is chosen from a snapshot of the queue; what carries its
series when it is out may be another job. -/

namespace Molt.Net.Trickle

abbrev Ranges := List (UInt32 × UInt32)

structure PublishJob where
  series : String
  key : List UInt8
  path : String
  count : UInt32
  size : UInt64
  root : String
  ranges : Ranges
  next : UInt32
  startedAt : UInt64
  stored : Bool
  wikiBase : Bool
  vault : Option String
  deriving DecidableEq

structure SeriesLayout where
  count : UInt32
  chunks : UInt32
  top : UInt32
  deriving DecidableEq

def maxSeriesPieces : Nat := 1374 * 1375

def hashesPerChunk : Nat := 44000 / 32

def chunkCountFor (count : UInt32) : Nat := (count.toNat + hashesPerChunk - 1) / hashesPerChunk

def layoutFor (count : UInt32) : Option SeriesLayout :=
  if maxSeriesPieces < count.toNat then none
  else if count.toNat + chunkCountFor count < 2 ^ 32 then
    some ⟨count, UInt32.ofNat (chunkCountFor count), UInt32.ofNat (count.toNat + chunkCountFor count)⟩
  else none

def wholeSeriesRanges (layout : SeriesLayout) : Ranges :=
  (layout.top, layout.top) ::
    ((if 0 < layout.chunks then [(layout.count, layout.top - 1)] else []) ++
      if 0 < layout.count then [(0, layout.count - 1)] else [])

def rangeLen (r : UInt32 × UInt32) : Nat := (r.2.toNat - r.1.toNat) + 1

def jobTotal (ranges : Ranges) : Nat := (ranges.map rangeLen).sum

def indexAt : Ranges → Nat → Option UInt32
  | [], _ => none
  | r :: ranges, position =>
    if position < rangeLen r then
      if r.1.toNat + position < 2 ^ 32 then some (UInt32.ofNat (r.1.toNat + position)) else none
    else indexAt ranges (position - rangeLen r)

def isWhole (job : PublishJob) : Bool :=
  (layoutFor job.count).any fun layout => wholeSeriesRanges layout == job.ranges

def maxJobRanges : Nat := 256

def seriesJob (jobs : List PublishJob) (series : String) : Option PublishJob :=
  jobs.find? fun j => j.series == series

def adjust (series : String) (f : PublishJob → PublishJob) : List PublishJob → List PublishJob
  | [] => []
  | j :: jobs => if j.series = series then f j :: jobs else j :: adjust series f jobs

def freshRanges (existing job : PublishJob) : Ranges :=
  job.ranges.filter fun r => !existing.ranges.contains r

def enqueuePublish (jobs : List PublishJob) (job : PublishJob) : List PublishJob × Bool :=
  match seriesJob jobs job.series with
  | none => (jobs ++ [job], true)
  | some existing =>
    if isWhole existing then (jobs, false)
    else if isWhole job then (adjust job.series (fun _ => job) jobs, true)
    else
      let fresh := freshRanges existing job
      if fresh.isEmpty || maxJobRanges < existing.ranges.length + fresh.length then (jobs, false)
      else (adjust job.series (fun j => { j with ranges := j.ranges ++ fresh }) jobs, true)

/-- A range job before any whole-series job, and of these the one after `last`. -/
def pickJob (jobs : List PublishJob) (last : Option String) : Option PublishJob :=
  let unfinished := jobs.filter fun j => decide (j.next.toNat < jobTotal j.ranges)
  let group := if unfinished.any fun j => !isWhole j then unfinished.filter fun j => !isWhole j
    else unfinished
  let after := ((last.bind fun l => group.findIdx? fun j => j.series == l).map
    fun p => (p + 1) % group.length).getD 0
  group[after]?

def pieceWireBytes : Nat := 58720

def budgetHeadroom : Nat := 2

def secondsPerDay : Nat := 86400

structure Flight where
  job : PublishJob
  index : UInt32
  day : Nat
  out : Bool

structure Sender where
  publish : List PublishJob
  sentDay : Nat
  sentBytes : Nat
  last : Option String
  flight : Option Flight

structure Gates where
  busy : Bool
  headroom : Nat
  now : Nat
  dailyBytes : Nat

def Gates.shut (g : Gates) (s : Sender) : Bool :=
  let sent := if s.sentDay = g.now / secondsPerDay then s.sentBytes else 0
  g.busy || g.headroom < budgetHeadroom || g.dailyBytes < min (sent + pieceWireBytes) (2 ^ 64 - 1)

inductive Event where
  | queued (series : String) (ranges : Ranges)
  | replaced (series : String) (ranges : Ranges)
  | published (series : String) (index : UInt32)
  | dropped (series : String)
  deriving DecidableEq

def dropJob (s : Sender) (series : String) : Sender × List Event :=
  ({ s with publish := s.publish.filter fun j => j.series != series, flight := none }, [.dropped series])

def load (s : Sender) (g : Gates) : Sender × List Event :=
  match pickJob s.publish s.last with
  | none => (s, [])
  | some job =>
    let s := { s with last := some job.series }
    if g.shut s then (s, [])
    else match indexAt job.ranges job.next.toNat with
      | none => dropJob s job.series
      | some index => ({ s with flight := some ⟨job, index, g.now / secondsPerDay, false⟩ }, [])

def saturatingSucc (n : UInt32) : UInt32 := if n.toNat + 1 < 2 ^ 32 then n + 1 else n

def advance (s : Sender) (series : String) (day : Nat) : Sender :=
  let spent := if s.sentDay = day then s.sentBytes else 0
  { s with
    sentDay := day
    sentBytes := min (spent + pieceWireBytes) (2 ^ 64 - 1)
    publish := (adjust series (fun j => { j with next := saturatingSucc j.next }) s.publish).filter
      fun j => decide (j.next.toNat < jobTotal j.ranges)
    flight := none }

inductive Call where
  | enqueue (job : PublishJob)
  | load (gates : Gates)
  /-- The source of the piece is gone: the job is dropped. -/
  | refuse
  /-- The piece did not go out. -/
  | hold
  | publish
  | advance
  | restart

def enqueued (jobs : List PublishJob) (job : PublishJob) : List Event :=
  match seriesJob jobs job.series with
  | none => [.queued job.series job.ranges]
  | some existing =>
    if (enqueuePublish jobs job).2 then
      if isWhole job then [.replaced job.series job.ranges]
      else [.queued job.series (freshRanges existing job)]
    else []

def step (s : Sender) : Call → Sender × List Event
  | .enqueue job => ({ s with publish := (enqueuePublish s.publish job).1 }, enqueued s.publish job)
  | .load gates => if s.flight.isSome then (s, []) else load s gates
  | .refuse =>
    match s.flight with
    | some f => if f.out then (s, []) else dropJob s f.job.series
    | none => (s, [])
  | .hold =>
    match s.flight with
    | some f => if f.out then (s, []) else ({ s with flight := none }, [])
    | none => (s, [])
  | .publish =>
    match s.flight with
    | some f =>
      if f.out then (s, [])
      else ({ s with flight := some { f with out := true } }, [.published f.job.series f.index])
    | none => (s, [])
  | .advance =>
    match s.flight with
    | some f => if f.out then (advance s f.job.series f.day, []) else (s, [])
    | none => (s, [])
  | .restart => ({ s with flight := none, last := none }, [])

def run (s : Sender) (history : List Event) : List Call → Sender × List Event
  | [] => (s, history)
  | call :: calls => run (step s call).1 ((step s call).2 ++ history) calls

def Named (ranges : Ranges) (i : UInt32) : Prop := ∃ r ∈ ranges, r.1 ≤ i ∧ i ≤ r.2

instance (ranges : Ranges) (i : UInt32) : Decidable (Named ranges i) :=
  inferInstanceAs (Decidable (∃ r ∈ ranges, r.1 ≤ i ∧ i ≤ r.2))

/-- The pieces of a series that were queued and have not gone out since. A whole-series job
that replaces a range job starts the account anew, a dropped job closes it. -/
def Owed : List Event → String → UInt32 → Prop
  | [], _, _ => False
  | .queued τ ranges :: history, σ, i => τ = σ ∧ Named ranges i ∨ Owed history σ i
  | .replaced τ ranges :: history, σ, i => τ = σ ∧ Named ranges i ∨ τ ≠ σ ∧ Owed history σ i
  | .published τ j :: history, σ, i => ¬ (τ = σ ∧ j = i) ∧ Owed history σ i
  | .dropped τ :: history, σ, i => τ ≠ σ ∧ Owed history σ i

instance decidableOwed : (history : List Event) → (σ : String) → (i : UInt32) →
    Decidable (Owed history σ i)
  | [], _, _ => inferInstanceAs (Decidable False)
  | .queued _ _ :: history, σ, i =>
    have := decidableOwed history σ i
    inferInstanceAs (Decidable (_ ∨ _))
  | .replaced _ _ :: history, σ, i =>
    have := decidableOwed history σ i
    inferInstanceAs (Decidable (_ ∨ _))
  | .published _ _ :: history, σ, i =>
    have := decidableOwed history σ i
    inferInstanceAs (Decidable (_ ∧ _))
  | .dropped _ :: history, σ, i =>
    have := decidableOwed history σ i
    inferInstanceAs (Decidable (_ ∧ _))

end Molt.Net.Trickle
