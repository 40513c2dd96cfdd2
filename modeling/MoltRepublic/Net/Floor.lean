import Mathlib
import MoltRepublic.Net.Delivery

/-! The proven floor of the broadcast outbox (`supervisor`, `group_runtime`): how far down its
own log a node knows a member to have accepted everything it owes it, and the one publish
position that a resend pulls back to the least of these floors. -/

namespace Molt.Net
open List SortedMap

variable {Body : Type}

/-- A recorded event: a re-key commit, which the peer's supervisor consumes raw, or another. -/
inductive WorkspaceEvent (Body : Type) where
  | mlsCommit (commit : String) (stamp : Nat)
  | other (body : Body)

def WorkspaceEvent.isMlsCommit : WorkspaceEvent Body → Bool
  | .mlsCommit _ _ => true
  | .other _ => false

abbrev LogEntry (Body : Type) := Envelope (WorkspaceEvent Body)

/-- `OutboxLog::read_from`. -/
def readFrom (log : List (LogEntry Body)) (seq : Nat) : List (LogEntry Body) := log.filter (seq ≤ ·.seq)

structure OutboundCursor where
  ackedFloor : Nat
  ackSeen : Bool
  deriving DecidableEq

def OutboundCursor.default : OutboundCursor := ⟨0, false⟩

structure GroupCursor where
  logSeq : Nat
  resendRounds : Nat
  resendWindowStart : Nat
  healEvidence : Bool
  healRounds : Nat
  deriving DecidableEq

def GroupCursor.default : GroupCursor := ⟨0, 0, 0, false, 0⟩

structure TransportState where
  outbound : SortedMap String OutboundCursor
  group : Option GroupCursor

namespace TransportState

def default : TransportState := ⟨SortedMap.empty, none⟩

def cursor (t : TransportState) : GroupCursor := t.group.getD GroupCursor.default

def ackedFloor (t : TransportState) (m : String) : Nat := ((t.outbound.get? m).map (·.ackedFloor)).getD 0

def acking (t : TransportState) (m : String) : Prop := ∃ c, t.outbound.get? m = some c ∧ c.ackSeen = true

end TransportState

def ownAckable (me : String) (env : LogEntry Body) : Bool := env.author == me && !env.body.isMlsCommit

/-- The floor walks over what is owed to nobody, and stops at the first own ackable envelope
that the window does not hold. -/
def advanceAckedFloor (me : String) (win : AcceptedWindow) : List (LogEntry Body) → Nat → Nat
  | [], floor => floor
  | env :: envs, floor =>
    if ownAckable me env && (decide (win.high < env.seq) || !win.isAccepted env.seq) then floor
    else advanceAckedFloor me win envs env.seq

/-- `Some(min acked_floor)` over the members that have ever acked. -/
def groupFloor (t : TransportState) (members : List String) : Option Nat :=
  (((members.filterMap t.outbound.get?).filter (·.ackSeen)).map (·.ackedFloor)).min?

def rewindGroup (t : TransportState) (members : List String) : TransportState :=
  match groupFloor t members with
  | none => t
  | some floor => if floor < t.cursor.logSeq then { t with group := some { t.cursor with logSeq := floor } } else t

structure GroupAck where
  by_ : String
  claims : SortedMap String AcceptedWindow

def GroupAck.windowFor (ack : GroupAck) (me : String) : Option AcceptedWindow :=
  (ack.claims.get? me).filter fun w => decide (0 < w.high)

def ackFloor (me : String) (log : List (LogEntry Body)) (t : TransportState) (m : String) (win : AcceptedWindow) :
    Nat :=
  let old := t.ackedFloor m
  advanceAckedFloor me win (readFrom log (old + 1)) old

def trails (floor : Nat) (g : GroupCursor) : Bool := decide (floor < g.logSeq) && !g.healEvidence

def noteTrailing (floor : Nat) (g : GroupCursor) : GroupCursor :=
  if trails floor g then { g with healEvidence := true } else g

def raiseFloor (floor : Nat) (c : OutboundCursor) : OutboundCursor := ⟨max c.ackedFloor floor, true⟩

/-- What `apply_group_ack` writes; `none` where nothing changed. -/
def recordGroupAck (m : String) (floor : Nat) (t : TransportState) : Option TransportState :=
  let c := (t.outbound.get? m).getD OutboundCursor.default
  if trails floor t.cursor ∨ c.ackedFloor < floor ∨ c.ackSeen = false then
    some
      { outbound := t.outbound.insert m (if c.ackedFloor < floor ∨ c.ackSeen = false then raiseFloor floor c else c)
        group := some (noteTrailing floor t.cursor) }
  else none

section

variable {me m : String} {win : AcceptedWindow} {t : TransportState}

theorem mem_readFrom {log : List (LogEntry Body)} {seq : Nat} {env : LogEntry Body} :
    env ∈ readFrom log seq ↔ env ∈ log ∧ seq ≤ env.seq := by
  unfold readFrom
  simp

theorem advanceAckedFloor_spec {envs : List (LogEntry Body)} {old : Nat} (hsorted : envs.Pairwise (·.seq < ·.seq))
    (habove : ∀ env ∈ envs, old < env.seq) :
    (advanceAckedFloor me win envs old = old ∨ ∃ env ∈ envs, advanceAckedFloor me win envs old = env.seq) ∧
      ∀ env ∈ envs, ownAckable me env = true → env.seq ≤ advanceAckedFloor me win envs old →
        env.seq ≤ win.high ∧ win.isAccepted env.seq = true := by
  induction envs generalizing old with
  | nil => exact ⟨.inl rfl, fun env henv => absurd henv (by simp)⟩
  | cons e envs ih =>
    obtain ⟨hfirst, hsorted⟩ := pairwise_cons.mp hsorted
    unfold advanceAckedFloor
    split_ifs with hstop
    · refine ⟨.inl rfl, fun env henv _ hle => ?_⟩
      exact absurd (Nat.lt_of_lt_of_le (habove env henv) hle) (Nat.lt_irrefl _)
    · obtain ⟨hends, hheld⟩ := ih hsorted hfirst
      refine ⟨.inr ?_, fun env henv hown hle => ?_⟩
      · rcases hends with heq | ⟨env, henv, heq⟩
        · exact ⟨e, .head _, heq⟩
        · exact ⟨env, .tail _ henv, heq⟩
      · rcases mem_cons.mp henv with rfl | henv
        · rw [hown, Bool.true_and, Bool.or_eq_true, not_or, decide_eq_true_eq, not_lt] at hstop
          exact ⟨hstop.1, by simpa using hstop.2⟩
        · exact hheld env henv hown hle

variable {members : List String} {floor : Nat}

theorem groupFloor_eq_some (h : groupFloor t members = some floor) :
    ∀ m ∈ members, t.acking m → floor ≤ t.ackedFloor m := by
  rintro m hm ⟨c, hc, hseen⟩
  have hmem : c.ackedFloor ∈ ((members.filterMap t.outbound.get?).filter (·.ackSeen)).map (·.ackedFloor) :=
    mem_map.mpr ⟨c, mem_filter.mpr ⟨mem_filterMap.mpr ⟨m, hm, hc⟩, hseen⟩, rfl⟩
  unfold TransportState.ackedFloor
  rw [hc]
  exact (min?_eq_some_iff.mp h).2 _ hmem

theorem groupFloor_of_acking (hm : m ∈ members) (h : t.acking m) :
    ∃ floor, groupFloor t members = some floor := by
  obtain ⟨c, hc, hseen⟩ := h
  cases hfloor : groupFloor t members with
  | some floor => exact ⟨floor, rfl⟩
  | none =>
    have hmem : c.ackedFloor ∈ ((members.filterMap t.outbound.get?).filter (·.ackSeen)).map (·.ackedFloor) :=
      mem_map.mpr ⟨c, mem_filter.mpr ⟨mem_filterMap.mpr ⟨m, hm, hc⟩, hseen⟩, rfl⟩
    rw [min?_eq_none_iff.mp hfloor] at hmem
    cases hmem

theorem rewindGroup_cursor (h : groupFloor t members = some floor) :
    (rewindGroup t members).cursor = { t.cursor with logSeq := min floor t.cursor.logSeq } ∧
      (rewindGroup t members).outbound = t.outbound := by
  unfold rewindGroup
  rw [h]
  dsimp only
  split_ifs with hlt
  · exact ⟨by rw [Nat.min_eq_left hlt.le]; rfl, rfl⟩
  · exact ⟨by rw [Nat.min_eq_right (not_lt.mp hlt)], rfl⟩

theorem recordGroupAck_spec {t' : TransportState} (h : recordGroupAck m floor t = some t') :
    t'.cursor.logSeq = t.cursor.logSeq ∧ t'.outbound.get? m = some ⟨max (t.ackedFloor m) floor, true⟩ ∧
      ∀ n, n ≠ m → t'.outbound.get? n = t.outbound.get? n := by
  have hold : ((t.outbound.get? m).getD OutboundCursor.default).ackedFloor = t.ackedFloor m := by
    unfold TransportState.ackedFloor
    cases t.outbound.get? m <;> rfl
  have hraised : raiseFloor floor ((t.outbound.get? m).getD OutboundCursor.default) =
      ⟨max (t.ackedFloor m) floor, true⟩ := by
    unfold raiseFloor
    rw [hold]
  have hkept : ¬ (t.ackedFloor m < floor ∨ ((t.outbound.get? m).getD OutboundCursor.default).ackSeen = false) →
      (t.outbound.get? m).getD OutboundCursor.default = ⟨max (t.ackedFloor m) floor, true⟩ := by
    intro hstill
    obtain ⟨hle, hseen⟩ := not_or.mp hstill
    rw [Nat.max_eq_left (not_lt.mp hle), ← hold, ← Bool.eq_true_of_not_eq_false hseen]
  have hgroup : (noteTrailing floor t.cursor).logSeq = t.cursor.logSeq := by
    unfold noteTrailing
    split_ifs <;> rfl
  unfold recordGroupAck at h
  dsimp only at h
  rw [hold] at h
  split_ifs at h with hchanged hmoved
  · cases h
    refine ⟨hgroup, ?_, fun n hn => (get?_insert ..).trans (if_neg hn)⟩
    exact ((get?_insert ..).trans (if_pos rfl)).trans (congrArg some hraised)
  · cases h
    refine ⟨hgroup, ?_, fun n hn => (get?_insert ..).trans (if_neg hn)⟩
    exact ((get?_insert ..).trans (if_pos rfl)).trans (congrArg some (hkept hmoved))

end

end Molt.Net
