import Mathlib
import MoltRepublic.Engine.Decisions

/-! Every input keeps the invariants of the decision register, where no frame opens a card
under an id this node signed already and no id it mints is taken; and so does every run. -/

namespace Molt.Engine
open Molt.Core Json Chain ProposalRecord Outcome List

variable {S : Site} {e : Env} {n : Node} {log : List Entry} {id : UInt64}

theorem Outcome.Holds.cons {o : Outcome} {entry : Entry} (h : o.Holds S (log ++ [entry])) :
    Outcome.Holds S log { o with log := entry :: o.log } := by
  have hlog : log ++ entry :: o.log = log ++ [entry] ++ o.log := by simp
  exact ⟨hlog ▸ h.sane, hlog ▸ h.decided, hlog ▸ h.queued⟩

theorem Outcome.Holds.revoked {m : Node} (hs : Sane m log) (hd : Decided log)
    (hid : id ∉ m.ownApprovals) : Outcome.Holds S log ⟨m, [], [.revoked id]⟩ :=
  ⟨hs.revoke hid, hd.concat (by simp), by simp⟩

namespace Node

theorem silent_drainHeldSeals : n.drainHeldSeals.Silent := by
  refine ⟨rfl, fun t ht => ?_⟩
  obtain ⟨_, -, rfl⟩ := mem_map.mp ht
  trivial

theorem silent_relinkOntoVariant (candidate : List ChainBlock) :
    (n.relinkOntoVariant S e candidate).Silent := by
  unfold relinkOntoVariant
  dsimp only
  split
  · exact .nil _
  · refine ⟨rfl, fun t ht => ?_⟩
    obtain ⟨_, -, rfl⟩ := mem_map.mp ht
    trivial

theorem silent_adoptBranch (fork : UInt64) (candidate suffix : List ChainBlock) :
    (n.adoptBranch S e fork candidate suffix).Silent := by
  refine ⟨rfl, fun t ht => ?_⟩
  simp only [adoptBranch, mem_append, mem_map, mem_singleton] at ht
  rcases ht with ⟨_, -, rfl⟩ | rfl <;> trivial

theorem silent_tryReorg : (n.tryReorg S e).Silent := by
  unfold tryReorg
  split
  · exact .nil _
  · split
    · exact .nil _
    · dsimp only
      split
      · split_ifs
        · exact .nil _
        · exact silent_relinkOntoVariant _
        · split
          · exact .nil _
          · exact silent_adoptBranch ..
      · exact .nil _

theorem silent_swapTip (block : ChainBlock) : (n.swapTip S e block).Silent := by
  unfold swapTip
  dsimp only
  split
  · exact .nil _
  · exact ⟨rfl, by simp [Task.Plain]⟩

theorem silent_tieBreak (block : ChainBlock) : (n.tieBreak S e block).Silent := by
  unfold tieBreak
  split
  · exact .nil _
  · dsimp only
    split_ifs
    · exact .nil _
    · exact silent_tryReorg
    · exact .nil _
    · exact silent_tryReorg
    · exact silent_swapTip block
    · exact .nil _

theorem silent_reanchor (blob : CheckpointState) (blocks : List ChainBlock) (head : ChainHead) :
    (n.reanchor S e blob blocks head).Silent := by
  unfold reanchor
  extract_lets chain anchored settled walked rebased
  have hrebased : rebased.Silent := silent_rebase
  refine ⟨hrebased.log, fun t ht => ?_⟩
  rcases mem_append.mp ht with ht | ht
  · exact hrebased.plain t ht
  · obtain rfl := mem_singleton.mp ht
    trivial

theorem silent_tryAdoptFromBlob : (n.tryAdoptFromBlob S e).Silent := by
  unfold tryAdoptFromBlob
  split
  · exact .nil _
  dsimp only
  split_ifs
  · exact .nil _
  · exact .nil _
  · split
    · exact .nil _
    · exact silent_reanchor ..

theorem silent_receiveCheckpointBlob (blob : CheckpointState) :
    (n.receiveCheckpointBlob S e blob).Silent := by
  unfold receiveCheckpointBlob
  dsimp only
  split_ifs
  · exact .nil _
  · exact silent_tryAdoptFromBlob

theorem silent_buffer (head : ChainHead) (block : ChainBlock) :
    (n.buffer S e head block).Silent := by
  unfold buffer
  extract_lets anchorOk adopted
  split_ifs
  · exact .nil _
  · have hadopted : adopted.Silent := silent_tryAdoptFromBlob
    refine ⟨hadopted.log, fun t ht => ?_⟩
    rcases mem_append.mp ht with ht | ht
    · exact hadopted.plain t ht
    · obtain rfl := mem_singleton.mp ht
      trivial

theorem silent_receiveBlock (source : String) (block : ChainBlock) :
    (n.receiveBlock S e source block).Silent := by
  unfold receiveBlock
  dsimp only
  split
  · exact .nil _
  · split_ifs
    · exact silent_tryReorg
    · exact ⟨rfl, applyNextBlock_plain block⟩
    · exact silent_tieBreak block
    · exact silent_buffer _ block

theorem not_own_registerDecline {p : ProposalRecord} (hp : n.proposals.lookup id = some p)
    (hopen : p.state = .proposed) (hvoice : S.member ∉ p.decliners) (ts : UInt64) :
    id ∉ (n.registerDecline S id S.member ts (declinePayloadHash S.C p.payload)).1.ownApprovals := by
  have hretract : id ∉ (n.retract S id S.member).ownApprovals := by simp [retract]
  have hadjust : ∀ (m : Node) f, (m.adjust id f).ownApprovals = m.ownApprovals := by
    intro m f
    unfold adjust
    split <;> rfl
  unfold registerDecline
  simp only [hp, ne_eq, not_true_eq_false, and_false, if_false, hopen, hvoice, or_self]
  split_ifs
  · exact fun h => hretract (hadjust _ _ ▸ (steady_stashVoted id).own h)
  · rwa [hadjust]

theorem not_own_registerWithdraw {p : ProposalRecord} (hp : n.proposals.lookup id = some p)
    (hopen : p.state = .proposed) {member : String}
    (hseat : (n.mintingSeat id).getD p.proposer = member) (ts : UInt64) :
    id ∉ (n.registerWithdraw id member ts).1.ownApprovals := by
  simp [registerWithdraw, hp, hopen, hseat]

theorem steady_applyProposed (author : String) (surface : Surface) (payload : Value) :
    Steady (n.openCard id { surface := surface, payload := payload, proposer := author })
      (n.applyProposed S e author id surface payload) := by
  have hwiki : ∀ m : Node, Steady m (if surface = .memory then m.supersedeStaleWiki e none else m) := by
    intro m
    split_ifs
    · exact steady_supersedeStaleWiki none
    · exact .refl m
  exact (((steady_bump id).trans (steady_registerParkedDeclines id)).trans
    (steady_registerParkedWithdrawal id)).trans (hwiki _)

theorem lookup_openCard (p : ProposalRecord) (h : n.proposals.lookup id = none) :
    (n.openCard id p).proposals.lookup id = some p := by
  simp [openCard, h]

theorem chainSign_decided {surface : Surface} {payload : Value}
    (hs : Sane n (log ++ [.decided id surface payload])) (hd : Decided log)
    (hcard : ∀ p, n.proposals.lookup id = some p → p.surface = surface ∧ p.payload = payload) :
    Outcome.Holds S log { n.chainSign S e id with
      log := .decided id surface payload :: (n.chainSign S e id).log } := by
  refine (chainSign_steps hs (hd.concat (by simp)) fun p hp _ => ?_).toHolds.cons
  obtain ⟨rfl, rfl⟩ := hcard p hp
  exact .inr stands_concat

theorem cmdPropose_holds (hs : Sane n log) (hd : Decided log) (hfresh : n.mintsFresh S)
    (surface : Surface) (payload : Value) : (n.cmdPropose S e surface payload).Holds S log := by
  have hnil : Outcome.Holds S log ⟨n, [], []⟩ := (Silent.nil n).holds hs hd
  unfold cmdPropose
  split
  · exact hnil
  rename_i payload _
  split
  · exact hnil
  split
  · exact hnil
  rename_i id m hmint
  obtain ⟨hcards, hchanges, hown⟩ := mintProposalId_lookups hmint
  obtain ⟨hnone, hunregistered⟩ := lookup_minted hfresh hmint
  have hsteady : Steady _ (m.applyProposed S e S.member id surface payload) :=
    steady_applyProposed S.member surface payload
  have hs' : Sane (m.applyProposed S e S.member id surface payload)
      (log ++ [.decided id surface payload]) := by
    have hm : Sane m (log ++ [.decided id surface payload]) :=
      (hs.quiet (steady_mintProposalId hmint).toQuiet).append (by simp)
    exact (hm.openCard fun _ => .inr ⟨fun _ => stands_concat, hchanges ▸ hunregistered⟩).quiet
      hsteady.toQuiet
  split_ifs
  · refine chainSign_decided hs' hd fun p hp => ?_
    obtain ⟨q, hq, hfollows⟩ := hsteady.kept id _ (lookup_openCard _ (hcards ▸ hnone))
    obtain rfl : p = q := Option.some.inj (hp.symm.trans hq)
    exact ⟨hfollows.surface, hfollows.payload⟩
  · exact ⟨hs', hd.concat (by simp), by simp⟩

theorem cmdApprove_holds (hs : Sane n log) (hd : Decided log) (id : UInt64) :
    (n.cmdApprove S e id).Holds S log := by
  have hnil : Outcome.Holds S log ⟨n, [], []⟩ := (Silent.nil n).holds hs hd
  unfold cmdApprove
  split
  · exact hnil
  rename_i p hp
  split
  · exact hnil
  have hsteady : Steady n
      (n.adjust id fun p => { p with decliners := p.decliners.filter (· != S.member) }) :=
    steady_adjust fun p _ => ⟨rfl, rfl, rfl, fun h => h⟩
  refine chainSign_decided ((hs.quiet hsteady.toQuiet).append (by simp)) hd fun r hr => ?_
  obtain ⟨q, hq, hfollows⟩ := hsteady.kept id p hp
  obtain rfl : r = q := Option.some.inj (hr.symm.trans hq)
  exact ⟨hfollows.surface, hfollows.payload⟩

theorem cmdDecline_holds (hs : Sane n log) (hd : Decided log) (id : UInt64) :
    (n.cmdDecline S e id).Holds S log := by
  unfold cmdDecline
  split
  · exact (Silent.nil n).holds hs hd
  rename_i p hp
  split_ifs with hrefused
  · exact (Silent.nil n).holds hs hd
  · simp only [not_or, not_not] at hrefused
    obtain ⟨-, hopen, hvoice⟩ := hrefused
    exact .revoked (hs.quiet (steady_registerDecline ..).toQuiet) hd
      (not_own_registerDecline hp hopen hvoice e.now)

theorem cmdWithdraw_holds (hs : Sane n log) (hd : Decided log) (id : UInt64)
    (hseat : ∀ p, n.proposals.lookup id = some p → p.state = .proposed → p.proposer = S.member →
      (n.mintingSeat id).getD p.proposer = S.member) : (n.cmdWithdraw S e id).Holds S log := by
  unfold cmdWithdraw
  split
  · exact (Silent.nil n).holds hs hd
  rename_i p hp
  split_ifs with hrefused
  · exact (Silent.nil n).holds hs hd
  · simp only [not_or, not_not] at hrefused
    exact .revoked (hs.quiet (steady_registerWithdraw ..).toQuiet) hd
      (not_own_registerWithdraw hp hrefused.1 (hseat p hp hrefused.1 hrefused.2) e.now)

theorem Sane.of_idFreeFor (hs : Sane n log) {change : ChainChange} (h : n.idFreeFor id change)
    {p : ProposalRecord} (hp : n.proposals.lookup id = some p) : p.Settled ∨ p.reserved := by
  unfold idFreeFor at h
  split at h
  · rename_i existing hexisting
    exact (hs.registered hexisting).2 hp
  · rw [hp] at h
    dsimp only at h
    split at h
    · rename_i m
      refine .inr ?_
      unfold wearsMembership at h
      cases hop : m.op <;> simp_all [ProposalRecord.reserved]
    · simp at h

theorem receiveProposed_sane (hs : Sane n log) (source : String) (surface : Surface) (payload : Value)
    (hid : id ∈ n.ownApprovals →
      (n.proposals.lookup id).isSome ∨ (n.proposalChanges.lookup id).isSome) :
    Sane (n.receiveProposed S e source id surface payload).1 log ∧
      ((n.receiveProposed S e source id surface payload).2 →
        ∃ p, (n.receiveProposed S e source id surface payload).1.proposals.lookup id = some p) := by
  unfold receiveProposed
  dsimp only
  split
  · exact ⟨hs, by simp⟩
  have hbump : Sane (n.bump id) log := hs.quiet (steady_bump id).toQuiet
  split
  · exact ⟨hbump, by simp⟩
  rename_i hnew
  simp only [Bool.or_eq_true, not_or, Option.not_isSome_iff_eq_none] at hnew
  obtain ⟨⟨hunregistered, -⟩, hnone⟩ := hnew
  have hwalks : ∀ m : Node, Steady m ((if surface = .memory then
      (if surface = .vault then m.supersedeStaleVaultCards e else m).supersedeStaleWiki e none
      else if surface = .vault then m.supersedeStaleVaultCards e else m).reverifyPending S id) := by
    intro m
    refine Steady.trans ?_ (steady_reverifyPending id)
    split_ifs
    · exact steady_supersedeStaleVaultCards.trans (steady_supersedeStaleWiki none)
    · exact steady_supersedeStaleWiki none
    · exact steady_supersedeStaleVaultCards
    · exact .refl m
  refine ⟨(hbump.openCard fun _ => .inr ⟨fun hown => ?_, hunregistered⟩).quiet (hwalks _).toQuiet,
    fun _ => ?_⟩
  · exact absurd (hid hown) (by simpa using ⟨hnone, hunregistered⟩)
  · obtain ⟨q, hq, -⟩ := (hwalks _).kept id _ (lookup_openCard (n := n.bump id) _ hnone)
    exact ⟨q, hq⟩

theorem deliverProposed_sane (hs : Sane n log) (source : String) (surface : Surface) (payload : Value)
    (hid : id ∈ n.ownApprovals →
      (n.proposals.lookup id).isSome ∨ (n.proposalChanges.lookup id).isSome) :
    Sane (n.deliverProposed S e source id surface payload) log := by
  obtain ⟨hreceived, hcard⟩ :=
    receiveProposed_sane (S := S) (e := e) hs source surface payload hid
  unfold deliverProposed
  split <;> rename_i m h <;> rw [h] at hreceived hcard
  · exact hreceived
  have hvoices : Steady m ((m.registerParkedWithdrawal id).1.registerParkedDeclines S id) :=
    (steady_registerParkedWithdrawal id).trans (steady_registerParkedDeclines id)
  obtain ⟨p, hp⟩ := hcard rfl
  obtain ⟨q, hq, -⟩ := hvoices.kept id p hp
  -- the card is there, so the log's copy of the frame opens none
  have hlogged : Sane (((m.registerParkedWithdrawal id).1.registerParkedDeclines S id).applyProposed S e
      source id surface payload) log :=
    ((hreceived.quiet hvoices.toQuiet).openCard fun hnone => absurd (hnone.symm.trans hq) (by simp)).quiet
      (steady_applyProposed source surface payload).toQuiet
  split_ifs
  · exact hlogged.quiet (steady_walletReview id).toQuiet
  · exact hlogged

theorem deliverApproved_holds (hs : Sane n log) (hd : Decided log) {source : String}
    (hsource : source ≠ S.member) (member : String) (height : UInt64) (sig : String) :
    (n.deliverApproved S source id member height sig).Holds S log := by
  have hstance : ∀ m : Node, Steady m (if member = source then
      m.adjust id fun p =>
        if p.state = .proposed then { p with decliners := p.decliners.filter (· != member) } else p
      else m) := by
    intro m
    split_ifs
    · refine steady_adjust fun p _ => ?_
      split_ifs
      · exact ⟨rfl, rfl, rfl, fun h => h⟩
      · exact .refl p
    · exact .refl m
  unfold deliverApproved
  extract_lets m keep ahead verified collected marked
  have hs' : Sane m log := hs.quiet (hstance n).toQuiet
  have hmarked : Steady m marked := by
    change Steady m (if verified then collected.markVerified id member else collected)
    split_ifs
    · exact (steady_collectSig ..).trans (steady_markVerified ..)
    · exact steady_collectSig ..
  have hkeep : ∀ k, Queued S k log keep := fun _ => hsource
  split
  · exact ⟨by simpa using hs', by simpa using hd, by simpa using hkeep m⟩
  · exact ⟨by simpa using hs'.quiet hmarked.toQuiet, by simpa using hd,
      by simpa using ⟨trivial, hkeep marked⟩⟩

theorem deliverCheckpointProposed_holds (hs : Sane n log) (hd : Decided log) (source : String)
    (upto : UInt64) (stateHash : String) (folded : Bool) :
    (n.deliverCheckpointProposed S e source id upto stateHash folded).Holds S log := by
  unfold deliverCheckpointProposed
  extract_lets m bumped kind change doubled registered
  have hs' : Sane m log := hs.quiet (steady_notePeerHeight ..).toQuiet
  have hbumped : Sane bumped log := hs'.quiet (steady_bump id).toQuiet
  have hnil : Outcome.Holds S log ⟨bumped, [], []⟩ := (Silent.nil _).holds hbumped hd
  split
  · exact (Silent.nil _).holds hs' hd
  split
  · split
    · exact hnil
    · rename_i hadmitted
      simp only [not_or, Bool.not_eq_true', Bool.not_eq_false] at hadmitted
      have hregistered : Sane registered log :=
        hbumped.register (cutChange_ne_applied kind upto stateHash) fun p => Sane.of_idFreeFor hbumped hadmitted.2.2.1
      split
      · exact (Silent.nil _).holds hregistered hd
      · exact (chainSign_registered hregistered hd).toHolds
  · exact hnil

theorem applyMembershipProposed_sane (hs : Sane n log) (author : String) (m : Membership) :
    Sane (n.applyMembershipProposed S author id m) log := by
  unfold applyMembershipProposed
  extract_lets op payload opened
  have hreserved : ProposalRecord.reserved
      { surface := .organization, payload := payload, proposer := author } := by
    have hop : payload.getStr "op" = some op := by
      simp [payload, Value.getStr, Value.get, lookup_cons, Value.asStr]
    cases hm : m.op <;> simp [ProposalRecord.reserved, hop, op, hm]
  have hopened : Sane opened log := hs.openCard fun _ => Or.inl hreserved
  have hbumped : Sane (if opened.plausibleWireId id then opened.bump id else opened) log := by
    split_ifs
    · exact hopened.quiet (steady_bump id).toQuiet
    · exact hopened
  exact hbumped.quiet ((steady_registerParkedDeclines id).trans
    (steady_registerParkedWithdrawal id)).toQuiet

theorem deliverMembershipProposed_holds (hs : Sane n log) (hd : Decided log) (source : String)
    (m : Membership) : (n.deliverMembershipProposed S source id m).Holds S log := by
  unfold deliverMembershipProposed
  extract_lets carded bumped
  have hcarded : Sane carded log := applyMembershipProposed_sane hs source m
  have hbumped : Sane bumped log := hcarded.quiet (steady_bump id).toQuiet
  split
  · exact (Silent.nil _).holds hs hd
  split
  · exact (Silent.nil _).holds hcarded hd
  rename_i hadmitted
  have hfree : carded.idFreeFor id (.membership m) := by
    simp only [admitsMembershipProposal, Bool.not_eq_true', Bool.not_eq_false, Bool.and_eq_true] at hadmitted
    exact hadmitted.2
  split
  · refine (Silent.nil _).holds (hbumped.quiet (steady_adjust fun p _ => ?_).toQuiet) hd
    split_ifs
    · exact follows_settleApplied p
    · exact .refl p
  · have hregistered : Sane (bumped.register id (.membership m)) log :=
      hbumped.register (by simp) fun p => Sane.of_idFreeFor hcarded hfree
    exact Silent.holds ⟨rfl, by simp [Task.Plain]⟩
      (hregistered.quiet (steady_reverifyPending id).toQuiet) hd

/-- What an input needs of the node it reaches: a minted id is fresh, a card that opens is
none of an id this node has signed for something else, and a card of the operator lies on
the operator's own ids. -/
def admits (S : Site) (n : Node) : Input → Bool
  | .command (.propose ..) | .command .proposeCheckpoint => n.mintsFresh S
  | .command (.withdraw id) => (n.proposals.lookup id).all fun p =>
      p.state != .proposed || p.proposer != S.member || (n.mintingSeat id).getD p.proposer == S.member
  | .frame _ (.proposed id _ _) => decide (id ∉ n.ownApprovals) ||
      (n.proposals.lookup id).isSome || (n.proposalChanges.lookup id).isSome
  | _ => true

theorem command_holds (hs : Sane n log) (hd : Decided log) (c : Command)
    (hadmits : n.admits S (.command c)) : (n.command S e c).Holds S log := by
  cases c with
  | propose surface payload => exact cmdPropose_holds hs hd hadmits surface payload
  | approve id => exact cmdApprove_holds hs hd id
  | decline id => exact cmdDecline_holds hs hd id
  | withdraw id =>
    refine cmdWithdraw_holds hs hd id fun p hp hopen hproposer => ?_
    simpa [admits, hp, hopen, hproposer] using hadmits
  | proposeCheckpoint => exact (proposeCheckpoint_steps hs hd hadmits).toHolds

theorem deliver_holds (hs : Sane n log) (hd : Decided log) {source : String}
    (hsource : source ≠ S.member) (f : Frame) (hadmits : n.admits S (.frame source f)) :
    (n.deliver S e source f).Holds S log := by
  cases f with
  | proposed id surface payload =>
    refine (Silent.nil _).holds (deliverProposed_sane hs source surface payload fun hown => ?_) hd
    simpa [admits, hown] using hadmits
  | approved id member height sig => exact deliverApproved_holds hs hd hsource member height sig
  | declined id member ts hash =>
    simp only [deliver]
    split_ifs
    · exact (Silent.nil _).holds hs hd
    · exact (Silent.nil _).holds (hs.quiet (steady_registerDecline ..).toQuiet) hd
  | withdrawn id member ts =>
    simp only [deliver]
    split_ifs
    · exact (Silent.nil _).holds hs hd
    · exact (Silent.nil _).holds (hs.quiet (steady_registerWithdraw ..).toQuiet) hd
  | checkpointProposed id upto stateHash folded =>
    exact deliverCheckpointProposed_holds hs hd source upto stateHash folded
  | membershipProposed id m => exact deliverMembershipProposed_holds hs hd source m
  | committed block =>
    exact (silent_receiveBlock source block).holds (hs.quiet (quiet_receiveBlock source block)) hd
  | checkpointServed blob =>
    exact (silent_receiveCheckpointBlob blob).holds
      (hs.quiet (steady_receiveCheckpointBlob blob).toQuiet) hd

theorem handle_holds (hs : Sane n log) (hd : Decided log) (i : Input) (hadmits : n.admits S i) :
    (n.handle S e i).Holds S log := by
  cases i with
  | command c =>
    simp only [handle]
    split_ifs
    · exact (Silent.nil _).holds hs hd
    · exact command_holds hs hd c hadmits
  | frame source f =>
    simp only [handle]
    split_ifs with hdropped
    · exact (Silent.nil _).holds hs hd
    · simp only [not_or] at hdropped
      exact deliver_holds hs hd hdropped.2.2 f hadmits
  | tick =>
    refine silent_drainHeldSeals.holds (hs.quiet ?_) hd
    exact .of_eq rfl rfl subset_rfl

end Node

namespace Machine

structure Holds (S : Site) (m : Machine) : Prop where
  sane : Sane m.node m.log
  decided : Decided m.log
  queued : ∀ t ∈ m.calls, Queued S m.node m.log t

/-- A node that holds a chain and has taken part in nothing yet: every card it knows is a
block's. -/
structure Opened (m : Machine) : Prop where
  calls : m.calls = []
  log : m.log = []
  own : m.node.ownApprovals = ∅
  changes : m.node.proposalChanges = ∅
  cards : ∀ {id p}, m.node.proposals.lookup id = some p → p.Settled

def admits (S : Site) (m : Machine) (i : Input) : Bool :=
  match m.calls with
  | [] => m.node.admits S i
  | .autoCheckpoint :: _ => m.node.mintsFresh S
  | _ => true

def admitsAll (S : Site) : Machine → List (Env × Input) → Bool
  | _, [] => true
  | m, t :: turns => m.admits S t.2 && (m.turn S t).admitsAll S turns

variable {m : Machine}

theorem Opened.holds (h : m.Opened) : m.Holds S where
  sane := ⟨by simp [h.own], by simp [h.changes]⟩
  decided := by simp [Decided, h.log]
  queued := by simp [h.calls]

theorem Holds.turn (h : m.Holds S) {t : Env × Input} (hadmits : m.admits S t.2) :
    (m.turn S t).Holds S := by
  unfold Machine.turn
  split
  · rename_i call calls hcalls
    have hqueued := h.queued
    simp only [hcalls, forall_mem_cons] at hqueued
    have hsteps : (exec S t.1 m.node call).Steps S m.node m.log := by
      refine exec_steps h.sane h.decided hqueued.1 ?_
      rintro rfl
      simpa [admits, hcalls] using hadmits
    refine ⟨hsteps.sane, hsteps.decided, fun c hc => ?_⟩
    rcases mem_append.mp hc with hc | hc
    · exact hsteps.queued c hc
    · exact (hqueued.2 c hc).kept hsteps.kept hsteps.unrevoked
  · rename_i hcalls
    have hholds := Node.handle_holds (e := t.1) h.sane h.decided t.2 (by simpa [admits, hcalls] using hadmits)
    exact ⟨hholds.sane, hholds.decided, hholds.queued⟩

theorem Holds.run {turns : List (Env × Input)} (h : m.Holds S) (hadmits : m.admitsAll S turns) :
    (m.run S turns).Holds S := by
  induction turns generalizing m with
  | nil => exact h
  | cons t turns ih =>
    simp only [admitsAll, Bool.and_eq_true] at hadmits
    exact ih (h.turn hadmits.1) hadmits.2

/-- In every run whose turns are all admitted, each signature over a surface proposal was
made on the operator's standing decision of exactly that proposal. -/
theorem run_decided (S : Site) (m : Machine) (turns : List (Env × Input)) (hopened : m.Opened)
    (hadmits : m.admitsAll S turns) : Decided (m.run S turns).log :=
  (hopened.holds.run hadmits).decided

end Machine

namespace Sample
open Chain.Sample

def pair : Genesis := founding 1 [seat "ann" 1, seat "ben" 2]

def opening : List ChainBlock := [next pair [("ann", 1), ("ben", 2)] [] (.genesis pair)]

def site : Site :=
  { C := Crypto.toy
    member := "ann"
    sign := some (Crypto.toySign (key 1))
    selfCosign := true
    sealPaceSecs := 0 }

def env : Env :=
  { now := 0
    chainDurable := true
    wikiDurable := true
    vaultDurable := true
    order := fun ids => ids
    order_perm := fun _ => List.Perm.refl _
    prepare := fun _ payload => some payload
    admitsVote := fun _ => true
    admitsFrame := fun _ _ _ => true
    vaultApproves := fun _ => true
    walletApproves := fun _ => false
    walletRefuses := fun _ => false
    vaultBasePending := false
    wikiBasePending := false
    wikiVerdict := fun _ _ _ => none
    vaultReplaced := fun _ _ => none
    walletDead := fun _ _ => false }

def start : Machine where
  node :=
    { chain := ⟨none, opening, none, pair.republicId, {}⟩
      head := (verifyChain Crypto.toy opening).toOption
      headMovedAt := 0
      sealHeld := []
      identities := pair.identities
      ruleM := 1
      nextId := 1
      proposals := ∅
      proposalChanges := ∅
      pendingSigs := ∅
      ownApprovals := ∅
      pendingDeclines := ∅
      pendingWithdrawals := ∅
      pendingBlocks := ∅
      forkCandidates := ∅
      catchupFrom := none
      peerHeights := ∅ }
  calls := []
  log := []

theorem start_opened : start.Opened := ⟨rfl, rfl, rfl, rfl, by simp [start]⟩

def rename (name : String) : Value := .obj [("op", .str "set_name"), ("value", .str name)]

def applied (blocks : List ChainBlock) (id : UInt64) (name : String) : ChainBlock :=
  next pair [("ben", 2)] blocks (.applied id .organization (rename name))

def turnsOf (inputs : List Input) : List (Env × Input) := inputs.map fun i => (env, i)

def outrun : List Input :=
  [.command (.propose .organization (rename "C")),
    .frame "ben" (.committed (applied opening 4 "A")), .tick]

end Sample

open Sample in
theorem run_decided_sample :
    (start.run site (turnsOf outrun)).log = [.decided 1 .organization (rename "C"),
      .signed (.applied 1 .organization (rename "C")) 1] ∧
    Decided (start.run site (turnsOf outrun)).log :=
  ⟨by decide +kernel, Machine.run_decided site start (turnsOf outrun) start_opened (by decide +kernel)⟩

namespace Sample
open Chain.Sample

/-- "ben" has a cut co-signed, lets it go stale, proposes a card under its id and lets the
next block re-base it. -/
def collision : List Input :=
  [.frame "ben" (.checkpointProposed 7 0 (cutHash {} opening) false), .tick,
    .frame "ben" (.committed (applied opening 4 "A")), .tick, .tick, .tick, .tick, .tick,
    .frame "ben" (.proposed 7 .organization (rename "C")),
    .frame "ben" (.approved 7 "ben" 2 "junk"), .tick, .tick,
    .frame "ben" (.committed (applied (opening ++ [applied opening 4 "A"]) 6 "B")), .tick, .tick]

end Sample

open Sample Chain.Sample in
theorem run_signs_undecided :
    start.Opened ∧ ¬ Decided (start.run site (turnsOf collision)).log := by
  refine ⟨start_opened, fun h => ?_⟩
  have hlog : (start.run site (turnsOf collision)).log =
      [.signed (.checkpoint 0 (cutHash {} opening)) 1] ++
        .signed (.applied 7 .organization (rename "C")) 3 :: [] := by decide +kernel
  obtain ⟨before, after, heq, -⟩ := h _ _ _ _ _ _ hlog
  have hmem : Entry.decided 7 .organization (rename "C") ∈
      before ++ .decided 7 .organization (rename "C") :: after := by simp
  rw [← heq] at hmem
  simp at hmem

end Molt.Engine
