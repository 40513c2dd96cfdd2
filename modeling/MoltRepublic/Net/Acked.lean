import Mathlib
import MoltRepublic.Net.Floor

/-! What the floors of a sender are worth: a sheet is what a member's accept window was at some
moment, and whatever lies below the highest seq of that window, from the first one the member
took, has been passed to its engine. -/

namespace Molt.Net
open List Function Option Nat

section

variable {Body : Type} {c : Chain} {l : Link Body} {engine : Engine Body} {source : String} {e : Envelope Body}

def Engine.roomy (engine : Engine Body) : Engine Body := { engine with declineWouldShed := fun _ _ _ => false }

theorem roomy_roomy : Roomy engine.roomy := fun _ _ _ => rfl

theorem deliverGated_cases : deliverGated engine source l e = l.note .declineShed e ∨
    deliverGated engine source l e = deliverGated engine.roomy source l e := by
  rw [deliverGated_eq roomy_roomy]
  unfold deliverGated
  by_cases hshed : (engine.declined e.body).any
      fun d => d.2 == source && engine.declineWouldShed l.happened d.1 d.2
  · rw [if_pos hshed]
    exact .inl rfl
  · rw [if_neg hshed]
    right
    unfold acceptEnvelope
    dsimp only
    split_ifs <;> rfl

theorem Ordered.gated (h : Ordered c l) (he : c.Stamped e) (hready : ready l.accepted e = true ∨ l.accepted.high = 0) :
    Ordered c (Net.deliverGated engine source l e) := by
  rcases @deliverGated_cases Body l engine source e with heq | heq
  · rw [heq]
    exact h.other trivial (by decide)
  · rw [heq]
    exact h.deliverGated roomy_roomy he hready

theorem Ordered.drained (h : Ordered c l) (rounds : Nat) : Ordered c (Net.drain engine source rounds l) := by
  induction rounds generalizing l with
  | zero => exact h
  | succ rounds ih =>
    unfold Net.drain
    cases htake : takeReadyParked l with
    | none => exact h
    | some taken =>
      obtain ⟨hrest, hstamped, hready, -⟩ := h.taken htake
      exact ih (hrest.gated hstamped (.inl hready))

theorem Ordered.arrive {links : String → Link Body} {sender : String} {arrival : Arrival Body}
    (h : Ordered c (links sender)) (hstamped : arrival.source = sender → c.Stamped arrival.envelope) :
    Ordered c (cmdNetDelivered engine links arrival sender) := by
  unfold cmdNetDelivered
  split_ifs with hgates
  · by_cases hsource : arrival.source = sender
    · have he := hstamped hsource
      subst hsource
      rw [update_self]
      unfold Net.deliver
      split_ifs with hwait
      · exact (h.parkOrdered he).ordered
      · refine (h.gated he ?_).drained _
        by_cases hzero : (links arrival.source).accepted.high = 0
        · exact .inr hzero
        · left
          by_contra hnot
          simp only [ready, Bool.or_eq_true, beq_iff_eq, not_or, Bool.not_eq_true] at hnot
          exact hwait ⟨hnot.1, Nat.pos_iff_ne_zero.mpr hzero, hnot.2⟩
    · rw [update_of_ne (Ne.symm hsource)]
      exact h
  · exact h

theorem accept_high_le (win : AcceptedWindow) (seq : Nat) : win.high ≤ (win.accept seq).2.high := by
  unfold AcceptedWindow.accept
  split_ifs with hstale hraise
  · exact le_refl _
  · exact hraise.le
  · exact le_refl _

theorem deliverGated_high : l.accepted.high ≤ (deliverGated engine source l e).accepted.high := by
  rcases @deliverGated_cases Body l engine source e with heq | heq
  · rw [heq]
    exact le_refl _
  · rw [heq, deliverGated_eq roomy_roomy]
    exact accept_high_le _ _

theorem drain_high (rounds : Nat) (l : Link Body) :
    l.accepted.high ≤ (drain engine source rounds l).accepted.high := by
  induction rounds generalizing l with
  | zero => exact le_refl _
  | succ rounds ih =>
    unfold drain
    cases htake : takeReadyParked l with
    | none => exact le_refl _
    | some taken =>
      obtain ⟨seq, at', -, -, hrest⟩ := takeReadyParked_eq_some htake
      have hsame : taken.2.accepted = l.accepted := by rw [hrest]
      rw [← hsame]
      exact deliverGated_high.trans (ih _)

theorem cmdNetDelivered_high (links : String → Link Body) (arrival : Arrival Body) (sender : String) :
    (links sender).accepted.high ≤ (cmdNetDelivered engine links arrival sender).accepted.high := by
  unfold cmdNetDelivered
  split_ifs
  · by_cases hsource : arrival.source = sender
    · subst hsource
      rw [update_self]
      unfold deliver
      split_ifs
      · rw [parkOrdered_accepted]
      · exact deliverGated_high.trans (drain_high _ _)
    · rw [update_of_ne (Ne.symm hsource)]
  · exact le_refl _

theorem Ordered.passed_below (h : Ordered c l) {k : Nat} (hle : c.seq k ≤ l.accepted.high)
    (hfirst : ∀ first, (passedSeqs l.happened).head? = some first → first ≤ c.seq k) :
    c.seq k ∈ passedSeqs l.happened := by
  have hne : passedSeqs l.happened ≠ [] := by
    intro hnil
    have hzero := h.tracks.high.resolve_right (by rw [hnil]; exact not_mem_nil)
    exact absurd (c.pos k) (by rw [hzero] at hle; exact Nat.not_lt.mpr hle)
  obtain ⟨f, hf⟩ := h.head hne
  obtain ⟨j, hfj, hj⟩ := h.followers f hf
  rw [h.high_eq hf hfj hj] at hle
  exact (hj k (c.le_of_seq_le (hfirst _ hf))).mpr (c.le_of_seq_le hle)

end

section

variable {Body : Type}

def ackables (me : String) (log : List (LogEntry Body)) : List Nat := (log.filter (ownAckable me)).map (·.seq)

def Chain.Extends (c : Chain) (me : String) (log : List (LogEntry Body)) : Prop :=
  ∀ k seq, (ackables me log)[k]? = some seq → c.seq k = seq

theorem exists_chain {l : List Nat} (hpos : ∀ seq ∈ l, 0 < seq) (hsorted : l.Pairwise (· < ·)) :
    ∃ c : Chain, ∀ k seq, l[k]? = some seq → c.seq k = seq := by
  have hbound : ∀ seq ∈ l, seq ≤ l.sum := fun seq hmem => le_sum_of_mem hmem
  refine ⟨⟨fun k => (l[k]?).getD (l.sum + 1 + k), strictMono_nat_of_lt_succ fun k => ?_, ?_⟩, fun k seq hk => ?_⟩
  · cases hnext : l[k + 1]? with
    | some next =>
      obtain ⟨hlt, hnext⟩ := List.getElem?_eq_some_iff.mp hnext
      have hk : k < l.length := lt_of_succ_lt hlt
      rw [getElem?_eq_getElem hk, ← hnext]
      exact pairwise_iff_getElem.mp hsorted k (k + 1) hk hlt (lt_succ_self k)
    | none =>
      cases hk : l[k]? with
      | some seq =>
        have hle := hbound seq (mem_of_getElem? hk)
        simp only [getD_some, getD_none]
        omega
      | none =>
        simp only [getD_none]
        omega
  · cases hk : l[0]? with
    | some seq => exact hpos seq (mem_of_getElem? hk)
    | none => exact succ_pos _
  · change (l[k]?).getD _ = seq
    rw [hk]
    rfl

theorem ackables_append (me : String) (log : List (LogEntry Body)) (env : LogEntry Body) :
    ackables me (log ++ [env]) = ackables me log ++ if ownAckable me env then [env.seq] else [] := by
  unfold ackables
  cases hown : ownAckable me env <;> simp [hown]

theorem Chain.Extends.before {c : Chain} {me : String} {log : List (LogEntry Body)} {env : LogEntry Body}
    (h : c.Extends me (log ++ [env])) : c.Extends me log := by
  intro k seq hk
  refine h k seq ?_
  rw [ackables_append, getElem?_append_left (List.getElem?_eq_some_iff.mp hk).1]
  exact hk

end

section

variable {Body : Type}

/-- A sender with its log and its cursors, what each member's engine holds of each sender, and
the claim sheets that were ever made, each beside its author. -/
structure AckNet (Body : Type) where
  log : List (LogEntry Body)
  nextSeq : Nat
  lastOwnAckable : Nat
  transport : TransportState
  links : String → String → Link (WorkspaceEvent Body)
  sheets : List (String × GroupAck)

namespace AckNet

def opened : AckNet Body := ⟨[], 1, 0, TransportState.default, fun _ _ => Link.empty, []⟩

/-- `make_env`: an own envelope names the own ackable one before it. -/
def makeEnv (me author : String) (ts : Nat) (body : WorkspaceEvent Body) (s : AckNet Body) : LogEntry Body :=
  ⟨s.nextSeq, ts, author, body, if author = me then s.lastOwnAckable else 0⟩

/-- The envelope recorded, and with it the chain of own ackable ones that `apply` keeps. -/
def record (me author : String) (ts : Nat) (body : WorkspaceEvent Body) (s : AckNet Body) : AckNet Body :=
  let env := s.makeEnv me author ts body
  { s with
    log := s.log ++ [env]
    nextSeq := s.nextSeq + 1
    lastOwnAckable := if s.lastOwnAckable < env.seq ∧ ownAckable me env = true then env.seq else s.lastOwnAckable }

/-- `flush_group_ack`: the windows of these subjects, as far as there are any. -/
def sheetOf (m : String) (links : String → Link (WorkspaceEvent Body)) (subjects : List String) : GroupAck :=
  ⟨m, (subjects.filter fun subject => decide (0 < (links subject).accepted.high)).foldl
    (fun claims subject => claims.insert subject (links subject).accepted) SortedMap.empty⟩

/-- A sheet that the credential of `from_` came with. -/
def applyGroupAck (me from_ : String) (ack : GroupAck) (s : AckNet Body) : AckNet Body :=
  if ack.by_ ≠ from_ then s
  else match ack.windowFor me with
    | none => s
    | some win =>
      { s with
        transport := (recordGroupAck from_ (ackFloor me s.log s.transport from_ win) s.transport).getD s.transport }

end AckNet

/-- What happens to the sender `me` and the members: it records events of its own and of others,
its envelopes reach members in any order and number, members claim what they hold, and sheets
arrive at any later time, again or never; the outbox moves its cursor as it likes. -/
inductive AckStep (me : String) (s : AckNet Body) : AckNet Body → Prop
  | recorded (author : String) (ts : Nat) (body : WorkspaceEvent Body) : AckStep me s (s.record me author ts body)
  | delivered (m : String) (engine : Engine (WorkspaceEvent Body)) (arrival : Arrival (WorkspaceEvent Body))
      (hsent : arrival.source = me → arrival.envelope ∈ s.log ∧ ownAckable me arrival.envelope = true) :
      AckStep me s { s with links := update s.links m (cmdNetDelivered engine (s.links m) arrival) }
  | claimed (m : String) (subjects : List String) :
      AckStep me s { s with sheets := s.sheets ++ [(m, AckNet.sheetOf m (s.links m) subjects)] }
  | acked (from_ : String) (ack : GroupAck) (hsheet : (from_, ack) ∈ s.sheets) :
      AckStep me s (s.applyGroupAck me from_ ack)
  | moved (group : Option GroupCursor) : AckStep me s { s with transport := { s.transport with group := group } }

inductive AckRun (me : String) : AckNet Body → Prop
  | opened : AckRun me AckNet.opened
  | step {s s' : AckNet Body} (h : AckRun me s) (hstep : AckStep me s s') : AckRun me s'

def FloorHolds (me : String) (s : AckNet Body) (m : String) (floor : Nat) : Prop :=
  ∀ env ∈ s.log, ownAckable me env = true → env.seq ≤ floor → env.seq ≤ (s.links m me).accepted.high

structure AckInv (me : String) (s : AckNet Body) : Prop where
  sorted : s.log.Pairwise (·.seq < ·.seq)
  below : ∀ env ∈ s.log, 0 < env.seq ∧ env.seq < s.nextSeq
  last : s.lastOwnAckable = (ackables me s.log).getLast?.getD 0
  stamped : ∀ c : Chain, c.Extends me s.log → ∀ env ∈ s.log, ownAckable me env = true → c.Stamped env
  ordered : ∀ c : Chain, c.Extends me s.log → ∀ m, Ordered c (s.links m me)
  sheets : ∀ m ack, (m, ack) ∈ s.sheets → ∀ win, ack.claims.get? me = some win →
    win.high ≤ (s.links m me).accepted.high
  floorBelow : ∀ m, s.transport.ackedFloor m < s.nextSeq
  floors : ∀ m, FloorHolds me s m (s.transport.ackedFloor m)

variable {me : String} {s s' : AckNet Body}

theorem mem_ackables {log : List (LogEntry Body)} {seq : Nat} :
    seq ∈ ackables me log ↔ ∃ env ∈ log, ownAckable me env = true ∧ env.seq = seq := by
  unfold ackables
  rw [List.mem_map]
  constructor
  · rintro ⟨env, henv, rfl⟩
    exact ⟨env, (mem_filter.mp henv).1, (mem_filter.mp henv).2, rfl⟩
  · rintro ⟨env, henv, hown, rfl⟩
    exact ⟨env, mem_filter.mpr ⟨henv, hown⟩, rfl⟩

theorem AckInv.opened : AckInv me (AckNet.opened : AckNet Body) where
  sorted := List.Pairwise.nil
  below := fun env henv => absurd henv (by simp [AckNet.opened])
  last := rfl
  stamped := fun c _ env henv => absurd henv (by simp [AckNet.opened])
  ordered := fun c _ m => ordered_empty c
  sheets := fun m ack hmem => absurd hmem (by simp [AckNet.opened])
  floorBelow := fun m => Nat.zero_lt_one
  floors := fun m env henv => absurd henv (by simp [AckNet.opened])

theorem AckInv.stamped_next (h : AckInv me s) {c : Chain} {author : String} {ts : Nat} {body : WorkspaceEvent Body}
    (hc : c.Extends me (s.record me author ts body).log)
    (hown : ownAckable me (s.makeEnv me author ts body) = true) : c.Stamped (s.makeEnv me author ts body) := by
  have hauthor : author = me := by
    exact beq_iff_eq.mp (Bool.and_eq_true_iff.mp hown).1
  have hlast : (ackables me s.log ++ [s.nextSeq])[(ackables me s.log).length]? = some s.nextSeq := by simp
  have hext : ∀ k seq, (ackables me s.log ++ [s.nextSeq])[k]? = some seq → c.seq k = seq := by
    intro k seq hk
    refine hc k seq ?_
    unfold AckNet.record
    rw [ackables_append, if_pos hown]
    exact hk
  refine ⟨(ackables me s.log).length, (hext _ _ hlast).symm, ?_⟩
  unfold AckNet.makeEnv
  rw [if_pos hauthor, h.last]
  cases hlen : (ackables me s.log).length with
  | zero =>
    rw [eq_nil_of_length_eq_zero hlen]
    rfl
  | succ n =>
    have hn : n < (ackables me s.log).length := by rw [hlen]; exact lt_succ_self n
    rw [getLast?_eq_getElem?, hlen, Nat.add_sub_cancel]
    have hget : (ackables me s.log)[n]? = some ((ackables me s.log)[n]) := getElem?_eq_getElem hn
    refine (hext n _ ?_).symm
    rw [getElem?_append_left hn, hget]
    rfl

theorem AckInv.record (h : AckInv me s) (author : String) (ts : Nat) (body : WorkspaceEvent Body) :
    AckInv me (s.record me author ts body) := by
  have hmem : ∀ env, env ∈ (s.record me author ts body).log → env ∈ s.log ∨
      env = s.makeEnv me author ts body := by
    intro env henv
    exact (mem_append.mp henv).imp_right mem_singleton.mp
  refine ⟨?_, ?_, ?_, ?_, ?_, h.sheets, ?_, ?_⟩
  · refine pairwise_append.mpr ⟨h.sorted, pairwise_singleton _ _, ?_⟩
    intro env henv env' henv'
    rw [mem_singleton.mp henv']
    exact (h.below env henv).2
  · intro env henv
    rcases hmem env henv with hold | rfl
    · exact ⟨(h.below env hold).1, lt_succ_of_lt (h.below env hold).2⟩
    · exact ⟨Nat.lt_of_le_of_lt (Nat.zero_le _) (h.floorBelow me), lt_succ_self _⟩
  · have hlast : s.lastOwnAckable < s.nextSeq := by
      rw [h.last]
      cases hget : (ackables me s.log).getLast? with
      | none => exact Nat.lt_of_le_of_lt (Nat.zero_le _) (h.floorBelow me)
      | some seq =>
        obtain ⟨env, henv, -, rfl⟩ := mem_ackables.mp (mem_of_getLast? hget)
        exact (h.below env henv).2
    unfold AckNet.record
    dsimp only
    rw [ackables_append]
    split_ifs with hboth hown hown
    · simp
    · exact absurd hboth.2 hown
    · exact absurd ⟨hlast, hown⟩ hboth
    · rw [append_nil]
      exact h.last
  · intro c hc env henv hown
    rcases hmem env henv with hold | rfl
    · exact h.stamped c hc.before env hold hown
    · exact h.stamped_next hc hown
  · exact fun c hc m => h.ordered c hc.before m
  · exact fun m => lt_succ_of_lt (h.floorBelow m)
  · intro m env henv hown hle
    rcases hmem env henv with hold | rfl
    · exact h.floors m env hold hown hle
    · exact absurd (hle.trans_lt (h.floorBelow m)) (Nat.lt_irrefl _)

variable {m : String}

theorem AckInv.deliver (h : AckInv me s) {engine : Engine (WorkspaceEvent Body)}
    {arrival : Arrival (WorkspaceEvent Body)}
    (hsent : arrival.source = me → arrival.envelope ∈ s.log ∧ ownAckable me arrival.envelope = true) :
    AckInv me { s with links := update s.links m (cmdNetDelivered engine (s.links m) arrival) } := by
  have hrises : ∀ n, (s.links n me).accepted.high ≤
      (update s.links m (cmdNetDelivered engine (s.links m) arrival) n me).accepted.high := by
    intro n
    by_cases hn : n = m
    · rw [hn, update_self]
      exact cmdNetDelivered_high _ _ _
    · rw [update_of_ne hn]
  refine ⟨h.sorted, h.below, h.last, h.stamped, ?_, ?_, h.floorBelow, ?_⟩
  · intro c hc n
    dsimp only
    by_cases hn : n = m
    · rw [hn, update_self]
      exact (h.ordered c hc m).arrive fun hsource => h.stamped c hc _ (hsent hsource).1 (hsent hsource).2
    · rw [update_of_ne hn]
      exact h.ordered c hc n
  · exact fun n ack hack win hwin => (h.sheets n ack hack win hwin).trans (hrises n)
  · exact fun n env henv hown hle => (h.floors n env henv hown hle).trans (hrises n)

theorem sheetOf_claims {links : String → Link (WorkspaceEvent Body)} {subjects : List String}
    {subject : String} {win : AcceptedWindow}
    (h : (AckNet.sheetOf m links subjects).claims.get? subject = some win) : win = (links subject).accepted := by
  have key : ∀ (l : List String) (claims : SortedMap String AcceptedWindow),
      (∀ n w, claims.get? n = some w → w = (links n).accepted) →
      ∀ n w, (l.foldl (fun claims n => claims.insert n (links n).accepted) claims).get? n = some w →
        w = (links n).accepted := by
    intro l
    induction l with
    | nil => exact fun claims h => h
    | cons a l ih =>
      intro claims hclaims
      refine ih _ fun n w hw => ?_
      rw [SortedMap.get?_insert] at hw
      split_ifs at hw with hn
      · rw [hn]
        exact (Option.some.inj hw).symm
      · exact hclaims n w hw
  refine key _ SortedMap.empty ?_ subject win h
  intro n w hw
  cases hw

theorem AckInv.claim (h : AckInv me s) (m : String) (subjects : List String) :
    AckInv me { s with sheets := s.sheets ++ [(m, AckNet.sheetOf m (s.links m) subjects)] } := by
  refine ⟨h.sorted, h.below, h.last, h.stamped, h.ordered, ?_, h.floorBelow, h.floors⟩
  intro n ack hack win hwin
  rcases mem_append.mp hack with hold | hnew
  · exact h.sheets n ack hold win hwin
  · cases mem_singleton.mp hnew
    rw [sheetOf_claims hwin]

theorem AckInv.proven (h : AckInv me s) {win : AcceptedWindow}
    (hwin : win.high ≤ (s.links m me).accepted.high) :
    ackFloor me s.log s.transport m win < s.nextSeq ∧ FloorHolds me s m (ackFloor me s.log s.transport m win) := by
  have hsorted : (readFrom s.log (s.transport.ackedFloor m + 1)).Pairwise (·.seq < ·.seq) := h.sorted.filter _
  obtain ⟨hends, hheld⟩ := @advanceAckedFloor_spec _ me win _ (s.transport.ackedFloor m) hsorted
    fun env henv => (mem_readFrom.mp henv).2
  constructor
  · rcases hends with heq | ⟨env, henv, heq⟩
    · exact lt_of_eq_of_lt heq (h.floorBelow m)
    · exact lt_of_eq_of_lt heq (h.below env (mem_readFrom.mp henv).1).2
  · intro env henv hown hle
    by_cases hold : env.seq ≤ s.transport.ackedFloor m
    · exact h.floors m env henv hown hold
    · exact (hheld env (mem_readFrom.mpr ⟨henv, not_le.mp hold⟩) hown hle).1.trans hwin

theorem applyGroupAck_cases {from_ : String} {ack : GroupAck} :
    s.applyGroupAck me from_ ack = s ∨
      ∃ win t, ack.claims.get? me = some win ∧
        recordGroupAck from_ (ackFloor me s.log s.transport from_ win) s.transport = some t ∧
        s.applyGroupAck me from_ ack = { s with transport := t } := by
  unfold AckNet.applyGroupAck
  split_ifs with hby
  · exact .inl rfl
  · unfold GroupAck.windowFor
    cases hwin : (ack.claims.get? me).filter fun w => decide (0 < w.high) with
    | none => exact .inl rfl
    | some win =>
      dsimp only
      cases hrecord : recordGroupAck from_ (ackFloor me s.log s.transport from_ win) s.transport with
      | none => exact .inl rfl
      | some t => exact .inr ⟨win, t, (filter_eq_some_iff.mp hwin).1, hrecord, rfl⟩

theorem AckInv.acked (h : AckInv me s) {from_ : String} {ack : GroupAck} (hsheet : (from_, ack) ∈ s.sheets) :
    AckInv me (s.applyGroupAck me from_ ack) := by
  rcases @applyGroupAck_cases Body me s from_ ack with heq | ⟨win, t, hwin, hrecord, heq⟩
  · rw [heq]
    exact h
  · obtain ⟨hbelow, hholds⟩ := h.proven (h.sheets from_ ack hsheet win hwin)
    obtain ⟨-, hraised, hothers⟩ := recordGroupAck_spec hrecord
    have hfloor : t.ackedFloor from_ =
        max (s.transport.ackedFloor from_) (ackFloor me s.log s.transport from_ win) := by
      unfold TransportState.ackedFloor at hraised ⊢
      rw [hraised]
      rfl
    have hsame : ∀ m, m ≠ from_ → t.ackedFloor m = s.transport.ackedFloor m := by
      intro m hm
      unfold TransportState.ackedFloor
      rw [hothers m hm]
    rw [heq]
    refine ⟨h.sorted, h.below, h.last, h.stamped, h.ordered, h.sheets, fun m => ?_, fun m => ?_⟩
    · by_cases hm : m = from_
      · rw [hm, hfloor]
        exact Nat.max_lt.mpr ⟨h.floorBelow from_, hbelow⟩
      · rw [hsame m hm]
        exact h.floorBelow m
    · dsimp only
      by_cases hm : m = from_
      · rw [hm, hfloor]
        rcases Nat.le_total (s.transport.ackedFloor from_) (ackFloor me s.log s.transport from_ win) with hle | hle
        · rw [Nat.max_eq_right hle]
          exact hholds
        · rw [Nat.max_eq_left hle]
          exact h.floors from_
      · rw [hsame m hm]
        exact h.floors m

theorem AckInv.step (h : AckInv me s) (hstep : AckStep me s s') : AckInv me s' := by
  cases hstep with
  | recorded author ts body => exact h.record author ts body
  | delivered m engine arrival hsent => exact h.deliver hsent
  | claimed m subjects => exact h.claim m subjects
  | acked from_ ack hsheet => exact h.acked hsheet
  | moved group =>
    exact ⟨h.sorted, h.below, h.last, h.stamped, h.ordered, h.sheets, h.floorBelow, h.floors⟩

theorem AckRun.inv (h : AckRun me s) : AckInv me s := by
  induction h with
  | opened => exact AckInv.opened
  | step _ hstep ih => exact ih.step hstep

theorem AckStep.floor_le (hstep : AckStep me s s') (m : String) :
    s.transport.ackedFloor m ≤ s'.transport.ackedFloor m := by
  cases hstep with
  | recorded author ts body | delivered n engine arrival hsent | claimed n subjects => exact le_refl _
  | moved group => exact le_refl _
  | acked from_ ack hsheet =>
    rcases @applyGroupAck_cases Body me s from_ ack with heq | ⟨win, t, -, hrecord, heq⟩
    · rw [heq]
    · obtain ⟨-, hraised, hothers⟩ := recordGroupAck_spec hrecord
      rw [heq]
      unfold TransportState.ackedFloor at hraised ⊢
      by_cases hm : m = from_
      · rw [hm, hraised]
        exact Nat.le_max_left _ _
      · rw [hothers m hm]

theorem AckInv.passed (h : AckInv me s) {env : LogEntry Body} (henv : env ∈ s.log)
    (hown : ownAckable me env = true) (hle : env.seq ≤ s.transport.ackedFloor m)
    (hfirst : ∀ first, (passedSeqs (s.links m me).happened).head? = some first → first ≤ env.seq) :
    env.seq ∈ passedSeqs (s.links m me).happened := by
  have hpos : ∀ seq ∈ ackables me s.log, 0 < seq := by
    intro seq hseq
    obtain ⟨e, he, -, rfl⟩ := mem_ackables.mp hseq
    exact (h.below e he).1
  have hsorted : (ackables me s.log).Pairwise (· < ·) := by
    exact pairwise_map.mpr (h.sorted.filter _)
  obtain ⟨c, hc⟩ := exists_chain hpos hsorted
  obtain ⟨k, hk, -⟩ := h.stamped c hc env henv hown
  rw [hk] at hfirst ⊢
  exact (h.ordered c hc m).passed_below (hk ▸ h.floors m env henv hown hle) hfirst

/-- An acknowledged floor is true, and a rewind offers again whatever a member that acks still
misses. -/
theorem acked_floor_true (h : AckRun me s) :
    (∀ s', AckStep me s s' → ∀ m, s.transport.ackedFloor m ≤ s'.transport.ackedFloor m) ∧
    (∀ m, ∀ env ∈ s.log, ownAckable me env = true → env.seq ≤ s.transport.ackedFloor m →
      (∀ first, (passedSeqs (s.links m me).happened).head? = some first → first ≤ env.seq) →
      env.seq ∈ passedSeqs (s.links m me).happened) ∧
    (∀ members, ∀ m ∈ members, s.transport.acking m → ∀ env ∈ s.log, ownAckable me env = true →
      (∀ first, (passedSeqs (s.links m me).happened).head? = some first → first ≤ env.seq) →
      env.seq ∉ passedSeqs (s.links m me).happened →
      env ∈ readFrom s.log ((rewindGroup s.transport members).cursor.logSeq + 1)) := by
  refine ⟨fun s' hstep m => hstep.floor_le m, fun m env henv hown hle hfirst => ?_, ?_⟩
  · exact h.inv.passed henv hown hle hfirst
  · intro members m hm hacking env henv hown hfirst hmissed
    obtain ⟨floor, hfloor⟩ := groupFloor_of_acking hm hacking
    have hle := groupFloor_eq_some hfloor m hm hacking
    have hlt : s.transport.ackedFloor m < env.seq := by
      by_contra hnot
      exact hmissed (h.inv.passed henv hown (not_lt.mp hnot) hfirst)
    refine mem_readFrom.mpr ⟨henv, ?_⟩
    rw [(rewindGroup_cursor hfloor).1]
    exact Nat.lt_of_le_of_lt ((Nat.min_le_left _ _).trans hle) hlt

end

section

def bobHears : Engine (WorkspaceEvent Unit) :=
  ⟨"bob", ["alice", "bob"], none, fun _ => none, fun _ _ _ => false, 0⟩

def firstNote : LogEntry Unit := ⟨1, 0, "alice", .other (), 0⟩

def secondNote : LogEntry Unit := ⟨2, 5, "alice", .other (), 1⟩

def noted : AckNet Unit := AckNet.opened.record "alice" "alice" 0 (.other ())

def heard : AckNet Unit :=
  let bobs := cmdNetDelivered bobHears (noted.links "bob") ⟨"alice", firstNote, none⟩
  { noted with links := update noted.links "bob" bobs }

def sheet : GroupAck := AckNet.sheetOf "bob" (heard.links "bob") ["alice"]

def trailing : AckNet Unit :=
  ({ heard with sheets := heard.sheets ++ [("bob", sheet)] }.applyGroupAck "alice" "bob" sheet).record
    "alice" "alice" 5 (.other ())

theorem trailing_run : AckRun "alice" trailing := by
  have hnoted : AckRun "alice" noted := AckRun.opened.step (.recorded "alice" 0 (.other ()))
  have hsent : firstNote ∈ noted.log ∧ ownAckable "alice" firstNote = true := ⟨.head _, rfl⟩
  have hheard : AckRun "alice" heard :=
    hnoted.step (.delivered "bob" bobHears ⟨"alice", firstNote, none⟩ fun _ => hsent)
  have hclaimed := hheard.step (.claimed "bob" ["alice"])
  exact (hclaimed.step (.acked "bob" sheet (mem_append_right _ (.head _)))).step
    (.recorded "alice" 5 (.other ()))

theorem acked_floor_true_trailing :
    firstNote.seq ∈ passedSeqs (trailing.links "bob" "alice").happened ∧ trailing.transport.ackedFloor "bob" = 1 ∧
      secondNote ∈ readFrom trailing.log ((rewindGroup trailing.transport ["bob"]).cursor.logSeq + 1) := by
  obtain ⟨-, hpassed, hoffered⟩ := acked_floor_true trailing_run
  have hfirst : ∀ first, (passedSeqs (trailing.links "bob" "alice").happened).head? = some first → first = 1 := by
    have heval : (passedSeqs (trailing.links "bob" "alice").happened).head? = some 1 := by decide +kernel
    exact fun first h => Option.some.inj (h.symm.trans heval)
  have hfloor : trailing.transport.ackedFloor "bob" = 1 := by decide +kernel
  refine ⟨?_, hfloor, ?_⟩
  · refine hpassed "bob" firstNote (List.mem_cons_self ..) rfl ?_ ?_
    · exact le_of_eq hfloor.symm
    · exact fun first h => le_of_eq (hfirst first h)
  · refine hoffered ["bob"] "bob" (List.mem_singleton_self _) ?_ secondNote ?_ rfl ?_ ?_
    · exact ⟨⟨1, true⟩, by decide +kernel, rfl⟩
    · exact List.mem_append_right _ (List.mem_singleton_self _)
    · intro first h
      rw [hfirst first h]
      decide
    · decide +kernel

end

end Molt.Net
