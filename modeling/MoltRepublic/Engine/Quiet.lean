import Mathlib
import MoltRepublic.Engine.Ingest

/-! What the bookkeeping of a node leaves alone: a card keeps its content, no change is
registered and no decision is made. -/

namespace Molt.Engine
open Molt.Core Json Chain

namespace ProposalRecord

def Settled (p : ProposalRecord) : Prop := p.proposer = "" ∧ p.state = .applied

structure Follows (p q : ProposalRecord) : Prop where
  surface : q.surface = p.surface
  payload : q.payload = p.payload
  proposer : q.proposer = p.proposer
  settled : p.Settled → q.Settled

theorem Follows.refl (p : ProposalRecord) : Follows p p := ⟨rfl, rfl, rfl, id⟩

theorem Follows.trans {p q r : ProposalRecord} (h : Follows p q) (k : Follows q r) : Follows p r :=
  ⟨k.surface.trans h.surface, k.payload.trans h.payload, k.proposer.trans h.proposer,
    fun hp => k.settled (h.settled hp)⟩

theorem Follows.reserved {p q : ProposalRecord} (h : Follows p q) : q.reserved = p.reserved := by
  simp [ProposalRecord.reserved, h.payload]

theorem Follows.of_state {p q : ProposalRecord} (hs : q.surface = p.surface)
    (hp : q.payload = p.payload) (hb : q.proposer = p.proposer) (h : p.state ≠ .applied) :
    Follows p q :=
  ⟨hs, hp, hb, fun hp => absurd hp.2 h⟩

theorem follows_settleApplied (p : ProposalRecord) : Follows p p.settleApplied :=
  ⟨rfl, rfl, rfl, fun h => ⟨h.1, rfl⟩⟩

theorem follows_stash (members : List String) (p : ProposalRecord) : Follows p (p.stash members) :=
  ⟨rfl, rfl, rfl, id⟩

theorem follows_retire (p : ProposalRecord) :
    Follows p (if p.state = .proposed then p.retire else p) := by
  split_ifs with h
  · exact .of_state rfl rfl rfl (by simp [h])
  · exact .refl p

theorem follows_decline {p : ProposalRecord} (h : p.state = .proposed) (member : String)
    (ts : UInt64) (vetoRoom : Nat) : Follows p (p.decline member ts vetoRoom) := by
  unfold ProposalRecord.decline
  dsimp only
  split_ifs <;> exact .of_state rfl rfl rfl (by simp [h])

end ProposalRecord

open ProposalRecord

structure Quiet (n m : Node) : Prop where
  own : m.ownApprovals ⊆ n.ownApprovals
  changes : ∀ {id c}, m.proposalChanges.lookup id = some c → n.proposalChanges.lookup id = some c
  cards : ∀ {id q}, m.proposals.lookup id = some q →
    q.Settled ∨ ∃ p, n.proposals.lookup id = some p ∧ Follows p q

def Kept (n m : Node) : Prop :=
  ∀ id p, n.proposals.lookup id = some p → ∃ q, m.proposals.lookup id = some q ∧ Follows p q

structure Steady (n m : Node) : Prop extends Quiet n m where
  kept : Kept n m

theorem Quiet.refl (n : Node) : Quiet n n :=
  ⟨subset_rfl, fun h => h, fun {_ q} h => .inr ⟨q, h, .refl q⟩⟩

theorem Quiet.trans {n m k : Node} (h : Quiet n m) (h' : Quiet m k) : Quiet n k where
  own := h'.own.trans h.own
  changes hc := h.changes (h'.changes hc)
  cards hq := by
    rcases h'.cards hq with hs | ⟨p, hp, hpq⟩
    · exact .inl hs
    rcases h.cards hp with hs | ⟨o, ho, hop⟩
    · exact .inl (hpq.settled hs)
    · exact .inr ⟨o, ho, hop.trans hpq⟩

theorem Kept.refl (n : Node) : Kept n n := fun _ p h => ⟨p, h, .refl p⟩

theorem Kept.trans {n m k : Node} (h : Kept n m) (h' : Kept m k) : Kept n k := by
  intro id p hp
  obtain ⟨q, hq, hpq⟩ := h id p hp
  obtain ⟨r, hr, hqr⟩ := h' id q hq
  exact ⟨r, hr, hpq.trans hqr⟩

namespace Steady

theorem refl (n : Node) : Steady n n := ⟨.refl n, .refl n⟩

theorem trans {n m k : Node} (h : Steady n m) (h' : Steady m k) : Steady n k :=
  ⟨h.toQuiet.trans h'.toQuiet, h.kept.trans h'.kept⟩

theorem foldl {α : Type} {f : Node → α → Node} (hf : ∀ n a, Steady n (f n a)) (l : List α) (n : Node) :
    Steady n (l.foldl f n) := by
  induction l generalizing n with
  | nil => exact refl n
  | cons a l ih => exact (hf n a).trans (ih _)

theorem of_eq {n m : Node} (hp : m.proposals = n.proposals)
    (hc : m.proposalChanges = n.proposalChanges) (ho : m.ownApprovals ⊆ n.ownApprovals) : Steady n m := by
  refine ⟨⟨ho, fun h => hc ▸ h, fun {id q} h => .inr ⟨q, hp ▸ h, .refl q⟩⟩, fun id p h => ?_⟩
  exact ⟨p, by rw [hp]; exact h, .refl p⟩

theorem of_cards {n m : Node} (hc : m.proposalChanges = n.proposalChanges)
    (ho : m.ownApprovals = n.ownApprovals) {id : UInt64}
    (hother : ∀ j, j ≠ id → m.proposals.lookup j = n.proposals.lookup j)
    (hcard : ∀ {q}, m.proposals.lookup id = some q →
      q.Settled ∨ ∃ p, n.proposals.lookup id = some p ∧ Follows p q)
    (hkept : ∀ {p}, n.proposals.lookup id = some p →
      ∃ q, m.proposals.lookup id = some q ∧ Follows p q) : Steady n m := by
  refine ⟨⟨ho.subset, fun h => hc ▸ h, fun {j q} h => ?_⟩, fun j p h => ?_⟩
  · by_cases hj : j = id
    · subst hj
      exact hcard h
    · exact .inr ⟨q, hother j hj ▸ h, .refl q⟩
  · by_cases hj : j = id
    · subst hj
      exact hkept h
    · exact ⟨p, by rw [hother j hj]; exact h, .refl p⟩

end Steady

theorem Quiet.of_eq {n m : Node} (hp : m.proposals = n.proposals)
    (hc : m.proposalChanges = n.proposalChanges) (ho : m.ownApprovals ⊆ n.ownApprovals) : Quiet n m :=
  (Steady.of_eq hp hc ho).toQuiet

namespace Node

variable {S : Site} {e : Env} {n : Node}

variable {id : UInt64}

theorem steady_adjust {f : ProposalRecord → ProposalRecord}
    (hf : ∀ p, n.proposals.lookup id = some p → Follows p (f p)) : Steady n (n.adjust id f) := by
  unfold adjust
  cases hp : n.proposals.lookup id with
  | none => exact .refl n
  | some p =>
    refine .of_cards rfl rfl (fun j hj => AList.lookup_insert_ne hj) (fun {q} hq => ?_) (fun {r} hr => ?_)
    · rw [AList.lookup_insert, Option.some.injEq] at hq
      exact .inr ⟨p, hp, hq ▸ hf p hp⟩
    · obtain rfl : p = r := Option.some.inj (hp.symm.trans hr)
      exact ⟨f p, AList.lookup_insert _, hf p hp⟩

theorem steady_openCard {p : ProposalRecord} (hp : p.Settled) :
    Steady n (n.openCard id p) := by
  unfold openCard
  cases hn : n.proposals.lookup id with
  | some r => exact .refl n
  | none =>
    refine .of_cards rfl rfl (fun j hj => AList.lookup_insert_ne hj) (fun {q} hq => ?_) (fun {r} hr => ?_)
    · rw [AList.lookup_insert, Option.some.injEq] at hq
      exact .inl (hq ▸ hp)
    · exact absurd (hn.symm.trans hr) (by simp)

theorem steady_adjustSigs (id : UInt64) (f : PendingApproval → PendingApproval) :
    Steady n (n.adjustSigs id f) := by
  unfold adjustSigs
  split
  · exact .of_eq rfl rfl subset_rfl
  · exact .refl n

theorem steady_dropSigs (id : UInt64) : Steady n (n.dropSigs id) := .of_eq rfl rfl subset_rfl

theorem steady_bump (id : UInt64) : Steady n (n.bump id) := .of_eq rfl rfl subset_rfl

theorem steady_dropChange (id : UInt64) : Steady n (n.dropChange id) := by
  refine ⟨⟨subset_rfl, fun {j c} h => ?_, fun {j q} h => .inr ⟨q, h, .refl q⟩⟩, .refl n⟩
  by_cases hj : j = id
  · subst hj
    exact absurd ((AList.lookup_erase j n.proposalChanges).symm.trans h) (by simp)
  · exact (AList.lookup_erase_ne hj).symm.trans h

theorem steady_stashVoted (id : UInt64) : Steady n (n.stashVoted id) := by
  unfold stashVoted
  split
  · exact .refl n
  · exact steady_adjust fun p _ => follows_stash _ p

theorem steady_forgetVote (id : UInt64) : Steady n (n.forgetVote id) :=
  ((steady_stashVoted id).trans (steady_dropSigs id)).trans (steady_dropChange id)

theorem steady_forgetVotesFor (sealed : ChainChange) : Steady n (n.forgetVotesFor e sealed) :=
  .foldl (fun _ id => steady_forgetVote id) _ n

theorem steady_collectSig (id height : UInt64) (member sig : String) (verified : Bool) :
    Steady n (n.collectSig S id height member sig verified) := by
  unfold collectSig
  split
  · exact .refl n
  · exact .of_eq rfl rfl subset_rfl

theorem steady_markVerified (id : UInt64) (member : String) : Steady n (n.markVerified id member) :=
  steady_adjustSigs id _

theorem steady_reverifyPending (id : UInt64) : Steady n (n.reverifyPending S id) := by
  unfold reverifyPending
  split
  · exact .refl n
  · refine .foldl (fun m s => ?_) _ n
    split
    · exact steady_markVerified id _
    · exact .refl m

theorem steady_notePeerHeight (source : String) (height : UInt64) :
    Steady n (n.notePeerHeight S source height) := by
  unfold notePeerHeight
  split_ifs
  · exact .refl n
  · exact .of_eq rfl rfl subset_rfl

theorem mintProposalId_lookups {m : Node} (h : n.mintProposalId S = some (id, m)) :
    m.proposals = n.proposals ∧ m.proposalChanges = n.proposalChanges ∧
      m.ownApprovals = n.ownApprovals := by
  unfold mintProposalId at h
  simp only [Option.ite_none_right_eq_some, Option.some.injEq, Prod.mk.injEq] at h
  obtain ⟨-, -, rfl⟩ := h
  exact ⟨rfl, rfl, rfl⟩

theorem steady_mintProposalId {m : Node} (h : n.mintProposalId S = some (id, m)) :
    Steady n m := by
  obtain ⟨hcards, hchanges, hown⟩ := mintProposalId_lookups h
  exact .of_eq hcards hchanges hown.subset

theorem steady_parkDecline (id : UInt64) (member : String) (ts : UInt64) (hash : String) :
    Steady n (n.parkDecline id member ts hash).1 := by
  unfold parkDecline
  split_ifs
  · exact .refl n
  · dsimp only
    split_ifs <;> exact .of_eq rfl rfl subset_rfl

theorem retract_proposals (id : UInt64) (member : String) :
    (n.retract S id member).proposals = n.proposals := by
  unfold retract adjustSigs
  split_ifs <;> split <;> rfl

theorem steady_retract (id : UInt64) (member : String) : Steady n (n.retract S id member) := by
  unfold retract
  split_ifs
  · exact (steady_adjustSigs id _).trans (.of_eq rfl rfl (Finset.erase_subset ..))
  · exact steady_adjustSigs id _

theorem steady_registerDecline (id : UInt64) (member : String) (ts : UInt64) (hash : String) :
    Steady n (n.registerDecline S id member ts hash).1 := by
  unfold registerDecline
  cases hp : n.proposals.lookup id with
  | none => exact steady_parkDecline id member ts hash
  | some p =>
    dsimp only
    split_ifs with hhash hopen hrejected
    · exact .refl n
    · exact .refl n
    all_goals
      have hstate : p.state = .proposed := by
        by_contra hne
        exact hopen (.inl hne)
      have hdecline : Steady n ((n.retract S id member).adjust id
          (·.decline member ts (n.vetoRoom p))) := by
        refine (steady_retract id member).trans (steady_adjust fun q hq => ?_)
        rw [retract_proposals, hp, Option.some.injEq] at hq
        exact follows_decline (hq ▸ hstate) member ts _
    · exact hdecline.trans (steady_stashVoted id)
    · exact hdecline

theorem steady_registerParkedDeclines (id : UInt64) : Steady n (n.registerParkedDeclines S id) := by
  unfold registerParkedDeclines
  split
  · exact .refl n
  · refine Steady.trans (m := { n with pendingDeclines := n.pendingDeclines.erase id })
      (.of_eq rfl rfl subset_rfl) (.foldl (fun m d => ?_) _ _)
    exact steady_registerDecline id d.1 d.2.1 d.2.2

theorem steady_parkWithdraw (id : UInt64) (member : String) (ts : UInt64) :
    Steady n (n.parkWithdraw id member ts).1 := by
  unfold parkWithdraw
  split_ifs
  · exact .refl n
  · dsimp only
    split
    · exact steady_bump id
    · split_ifs <;> exact .of_eq rfl rfl subset_rfl

theorem steady_registerWithdraw (id : UInt64) (member : String) (ts : UInt64) :
    Steady n (n.registerWithdraw id member ts).1 := by
  unfold registerWithdraw
  cases hp : n.proposals.lookup id with
  | none => exact steady_parkWithdraw id member ts
  | some p =>
    dsimp only
    split_ifs with hstate hproposer
    · exact .refl n
    · exact .refl n
    · have hpull : Steady n (n.adjust id (·.pullBack ts)) := by
        refine steady_adjust fun q hq => .of_state rfl rfl rfl ?_
        obtain rfl : p = q := Option.some.inj (hp.symm.trans hq)
        simp [not_not.mp hstate]
      exact ((hpull.trans (steady_stashVoted id)).trans (steady_dropSigs id)).trans
        (.of_eq rfl rfl (Finset.erase_subset ..))

theorem steady_registerParkedWithdrawal (id : UInt64) :
    Steady n (n.registerParkedWithdrawal id).1 := by
  unfold registerParkedWithdrawal
  split
  · exact .refl n
  · refine Steady.trans ?_ (steady_registerWithdraw id _ _)
    exact .of_eq rfl rfl subset_rfl

theorem steady_supersedeStaleWiki (moved : Option Value) : Steady n (n.supersedeStaleWiki e moved) := by
  refine .foldl (fun m id => ?_) _ n
  split
  · exact .refl m
  · exact steady_adjust fun p _ => ⟨rfl, rfl, rfl, fun h => h⟩
  · exact (steady_adjust fun p _ => follows_retire p).trans (steady_stashVoted id)

theorem steady_markOpenWikiPatchesRebased : Steady n n.markOpenWikiPatchesRebased := by
  refine .foldl (fun m id => ?_) _ n
  exact steady_adjust fun p _ => ⟨rfl, rfl, rfl, fun h => h⟩

theorem steady_supersedeStaleVaultCards : Steady n (n.supersedeStaleVaultCards e) := by
  refine .foldl (fun m id => ?_) _ n
  split
  · exact .refl m
  · exact (steady_adjust fun p _ => follows_retire p).trans (steady_stashVoted id)
  · refine steady_adjust fun p _ => ?_
    split_ifs with h
    · exact .of_state rfl rfl rfl (by simp [h.1])
    · exact .refl p

theorem steady_walletSupersedeDead : Steady n (n.walletSupersedeDead e) :=
  .foldl (fun _ id => ((steady_adjust fun p _ => follows_retire p).trans
    (steady_stashVoted id)).trans (steady_dropSigs id)) _ n

theorem steady_ensureAppliedRecord (id : UInt64) (surface : Surface) (payload : Value) :
    Steady n (n.ensureAppliedRecord id surface payload) := steady_openCard ⟨rfl, rfl⟩

theorem steady_settleMembershipRecords (sealed : ChainChange) :
    Steady n (n.settleMembershipRecords e sealed) := by
  unfold settleMembershipRecords
  split
  · exact (Steady.foldl (fun _ _ => steady_adjust fun p _ => follows_settleApplied p) _ n).trans
      (steady_forgetVotesFor _)
  · exact .refl n

theorem steady_settleCardsAgainstChain : Steady n (n.settleCardsAgainstChain e) := by
  refine (Steady.foldl (fun m c => ?_) _ n).trans ((Steady.foldl (fun m id => ?_) _ _).trans
    (.foldl (fun _ sealed => steady_settleMembershipRecords sealed) _ _))
  · exact (steady_ensureAppliedRecord ..).trans (steady_forgetVote _)
  · exact (steady_adjust fun p _ => follows_settleApplied p).trans (steady_forgetVote _)

theorem steady_adoptHeadRoster : Steady n n.adoptHeadRoster := by
  unfold adoptHeadRoster
  split
  · exact .of_eq rfl rfl subset_rfl
  · exact .refl n

theorem steady_applyChainToState : Steady n (n.applyChainToState e) :=
  ((steady_settleCardsAgainstChain.trans (steady_supersedeStaleWiki none)).trans
    steady_supersedeStaleVaultCards).trans steady_adoptHeadRoster

theorem steady_bumpNextIdPastChain : Steady n n.bumpNextIdPastChain := by
  unfold bumpNextIdPastChain
  split
  · exact .refl n
  · split_ifs
    · exact .refl n
    · exact steady_bump _

theorem steady_adoptChain (blocks : List ChainBlock) : Steady n (n.adoptChain S e blocks) := by
  unfold adoptChain
  split
  · refine Steady.trans ?_ (steady_bumpNextIdPastChain.trans steady_applyChainToState)
    exact .of_eq rfl rfl subset_rfl
  · exact .of_eq rfl rfl subset_rfl

theorem steady_applyApproved {author member : String}
    (h : member = S.member → author = S.member → id ∈ n.ownApprovals) (height : UInt64) (sig : String) :
    Steady n (n.applyApproved S author id member height sig) := by
  have hown : Steady n (if member == S.member && author == S.member
      then { n with ownApprovals := insert id n.ownApprovals } else n) := by
    split_ifs with hmine
    · simp only [Bool.and_eq_true, beq_iff_eq] at hmine
      exact .of_eq rfl rfl (Finset.insert_eq_of_mem (h hmine.1 hmine.2)).subset
    · exact .refl n
  refine Steady.trans (hown.trans ?_) (steady_adjust fun p _ => ?_)
  · dsimp only
    split_ifs
    · exact .refl _
    · exact (steady_collectSig ..).trans (steady_markVerified ..)
    · exact .refl _
    · exact steady_collectSig ..
  · split_ifs
    · exact ⟨rfl, rfl, rfl, fun h => h⟩
    · exact .refl p

theorem steady_appendCommittedBlock (block : ChainBlock) :
    Steady n (n.appendCommittedBlock S e block).1 := by
  unfold appendCommittedBlock
  split
  · refine Steady.trans ?_ (steady_adoptHeadRoster.trans steady_bumpNextIdPastChain)
    exact .of_eq rfl rfl subset_rfl
  · exact .of_eq rfl rfl subset_rfl

theorem steady_applyNextBlock (block : ChainBlock) : Steady n (n.applyNextBlock S e block).1 := by
  have happend := steady_appendCommittedBlock (S := S) (e := e) (n := n) block
  unfold applyNextBlock
  split <;> rename_i h <;> rw [h] at happend <;> exact happend

theorem steady_tryCommit (id : UInt64) : Steady n (n.tryCommit S e id).node := by
  unfold tryCommit
  split
  · exact .refl n
  · dsimp only
    split_ifs
    · exact .of_eq rfl rfl subset_rfl
    · rename_i block _ _
      have happend : Steady { n with sealHeld := n.sealHeld.erase id } _ :=
        steady_appendCommittedBlock (S := S) (e := e) block
      have hsealed : Steady n { n with sealHeld := n.sealHeld.erase id } := .of_eq rfl rfl subset_rfl
      split <;> rename_i h <;> rw [h] at happend <;> exact hsealed.trans happend

theorem steady_prune (block : ChainBlock) (upto : UInt64) (kind : CutKind) :
    Steady n (n.prune S e block upto kind) := by
  unfold prune
  split
  · exact .refl n
  · split_ifs
    · exact .refl n
    · refine Steady.trans ?_ (steady_applyChainToState.trans steady_markOpenWikiPatchesRebased)
      exact .of_eq rfl rfl subset_rfl

theorem follows_settleCard (payload : Value) (p : ProposalRecord) : Follows p (settleCard payload p) := by
  unfold settleCard
  split_ifs
  · exact follows_settleApplied p
  · exact .refl p

theorem steady_supersedeStaleCards (surface : Surface) :
    Steady n (n.supersedeStaleCards e surface) := by
  unfold supersedeStaleCards
  split
  · exact steady_supersedeStaleVaultCards
  · exact steady_walletSupersedeDead
  · exact .refl n

theorem steady_afterApplied (id : UInt64) (surface : Surface) (payload : Value) :
    Steady n (n.afterApplied e id surface payload) := by
  have hwiki : ∀ m : Node,
      Steady m (if surface = .memory then m.supersedeStaleWiki e (some payload) else m) := by
    intro m
    split_ifs
    · exact steady_supersedeStaleWiki _
    · exact .refl m
  have hsettle : Steady n ((n.ensureAppliedRecord id surface payload).adjust id (settleCard payload)) :=
    (steady_ensureAppliedRecord id surface payload).trans
      (steady_adjust fun p _ => follows_settleCard payload p)
  exact (hsettle.trans (hwiki _)).trans
    (((steady_stashVoted id).trans (steady_dropSigs id)).trans (steady_supersedeStaleCards surface))

theorem steady_afterChange (block : ChainBlock) : Steady n (n.afterChange S e block) := by
  unfold afterChange
  split
  · exact steady_afterApplied ..
  · exact steady_settleMembershipRecords _
  · exact .refl n
  · split
    · exact .refl n
    · exact (steady_forgetVotesFor _).trans (steady_prune ..)

theorem steady_rebase : Steady n (n.rebase e).node := by
  unfold rebase
  split
  · exact .refl n
  · exact .foldl (fun _ id => (steady_dropChange id).trans (steady_dropSigs id)) _ n

theorem steady_sweepRestores : Steady n (n.sweepRestores S e).node := by
  unfold sweepRestores
  split
  · exact .refl n
  · exact .foldl (fun _ id => steady_forgetVote id) _ n

theorem steady_caughtUp (height : UInt64) : Steady n (n.caughtUp height) := by
  unfold caughtUp
  split_ifs
  · exact .of_eq rfl rfl subset_rfl
  · exact .refl n

theorem steady_trimBuffer : Steady n n.trimBuffer := .of_eq rfl rfl subset_rfl

theorem steady_drain : Steady n (n.drain S e).node := by
  unfold drain
  split
  · exact steady_trimBuffer
  · split
    · exact steady_trimBuffer
    · rename_i head _ _ block _
      have hbuffer : Steady n { n with pendingBlocks := n.pendingBlocks.erase (head.height + 1) } :=
        .of_eq rfl rfl subset_rfl
      have happly : Steady { n with pendingBlocks := n.pendingBlocks.erase (head.height + 1) } _ :=
        steady_applyNextBlock (S := S) (e := e) block
      dsimp only
      split <;> rename_i h <;> rw [h] at happly
      · exact hbuffer.trans (happly.trans steady_trimBuffer)
      · exact hbuffer.trans happly

theorem steady_requestCatchup (height : UInt64) : Steady n (n.requestCatchup height) := by
  unfold requestCatchup
  split_ifs
  · exact .refl n
  · exact .of_eq rfl rfl subset_rfl

theorem steady_endReorg : Steady n n.endReorg := by
  unfold endReorg
  dsimp only
  split
  · exact .of_eq rfl rfl subset_rfl
  · refine Steady.trans ?_ (steady_requestCatchup _)
    exact .of_eq rfl rfl subset_rfl

theorem steady_keepApproved {source : String} (h : source ≠ S.member) (id : UInt64) (member : String)
    (height : UInt64) (sig : String) : Steady n (n.keepApproved S source id member height sig) := by
  unfold keepApproved
  dsimp only
  split_ifs
  · exact steady_applyApproved (fun _ hs => absurd hs h) height sig
  · exact .refl n

theorem steady_cmdDecline (id : UInt64) : Steady n (n.cmdDecline S e id).node := by
  unfold cmdDecline
  split
  · exact .refl n
  · split_ifs
    · exact .refl n
    · exact steady_registerDecline ..

theorem steady_walletReview (id : UInt64) : Steady n (n.walletReview S e id) := by
  have hdead : Steady n (n.walletSupersedeDead e) := steady_walletSupersedeDead
  unfold walletReview
  dsimp only
  split_ifs
  · exact hdead.trans (.foldl (fun _ id => steady_cmdDecline id) _ _)
  · exact hdead

theorem quiet_displace (id : UInt64) : Quiet n (n.displace id) := by
  unfold displace
  split
  · exact .refl n
  · rename_i p hp
    split_ifs with hempty
    · refine ⟨subset_rfl, fun h => h, fun {j q} h => ?_⟩
      by_cases hj : j = id
      · subst hj
        exact absurd ((AList.lookup_erase j n.proposals).symm.trans h) (by simp)
      · exact .inr ⟨q, (AList.lookup_erase_ne hj).symm.trans h, .refl q⟩
    · apply Steady.toQuiet
      refine steady_adjust fun q hq => ⟨rfl, rfl, rfl, fun hs => ?_⟩
      obtain rfl : p = q := Option.some.inj (hp.symm.trans hq)
      exact absurd hs.1 hempty

theorem quiet_displaceAll (ids : List UInt64) : Quiet n (ids.foldl displace n) := by
  induction ids generalizing n with
  | nil => exact .refl n
  | cons id ids ih => exact (quiet_displace id).trans ih

theorem steady_stashForkCandidate (block : ChainBlock) : Steady n (n.stashForkCandidate block) := by
  unfold stashForkCandidate
  exact .of_eq rfl rfl subset_rfl

theorem steady_relinkOntoVariant (candidate : List ChainBlock) :
    Steady n (n.relinkOntoVariant S e candidate).node := by
  unfold relinkOntoVariant
  dsimp only
  split
  · exact .of_eq rfl rfl subset_rfl
  · refine Steady.trans ?_ (steady_adoptChain _)
    exact .of_eq rfl rfl subset_rfl

theorem steady_requestBelow (anchor : UInt64) : Steady n (n.requestBelow anchor) := by
  unfold requestBelow
  split
  · split_ifs
    · exact steady_requestCatchup _
    · exact .refl n
  · exact .refl n

theorem quiet_adoptBranch (fork : UInt64) (candidate suffix : List ChainBlock) :
    Quiet n (n.adoptBranch S e fork candidate suffix).node :=
  (steady_adoptChain candidate).toQuiet.trans (quiet_displaceAll _)

theorem quiet_tryReorg : Quiet n (n.tryReorg S e).node := by
  unfold tryReorg
  split
  · exact .refl n
  · split
    · exact (steady_requestBelow _).toQuiet
    · dsimp only
      split
      · split_ifs
        · exact .of_eq rfl rfl subset_rfl
        · exact (steady_relinkOntoVariant _).toQuiet
        · split
          · exact .of_eq rfl rfl subset_rfl
          · exact quiet_adoptBranch ..
      · exact .refl n

theorem steady_adoptTip (blocks : List ChainBlock) (head : ChainHead) :
    Steady n (n.adoptTip e blocks head) := by
  refine Steady.trans ?_ steady_applyChainToState
  exact .of_eq rfl rfl subset_rfl

theorem quiet_swapTip (block : ChainBlock) : Quiet n (n.swapTip S e block).node := by
  unfold swapTip
  dsimp only
  split
  · exact .refl n
  · exact (steady_adoptTip _ _).toQuiet.trans (quiet_displaceAll _)

theorem quiet_tieBreak (block : ChainBlock) : Quiet n (n.tieBreak S e block).node := by
  have hreorg : Quiet n ((n.stashForkCandidate block).tryReorg S e).node :=
    (steady_stashForkCandidate block).toQuiet.trans quiet_tryReorg
  unfold tieBreak
  split
  · exact .refl n
  · dsimp only
    split_ifs
    · exact .refl n
    · exact hreorg
    · exact .refl n
    · exact hreorg
    · exact quiet_swapTip block
    · exact .refl n

theorem steady_dropStaleBases : Steady n (n.dropStaleBases S) := .of_eq rfl rfl subset_rfl

theorem steady_supersedeBehind (block : ChainBlock) : Steady n (n.supersedeBehind e block) := by
  unfold supersedeBehind
  split
  · exact steady_supersedeStaleVaultCards
  · exact .refl n

theorem steady_reanchor (blob : CheckpointState) (blocks : List ChainBlock) (head : ChainHead) :
    Steady n (n.reanchor S e blob blocks head).node := by
  unfold reanchor
  extract_lets chain anchored settled walked rebased
  have hanchored : Steady n anchored := .of_eq rfl rfl subset_rfl
  have hsettled : Steady anchored settled :=
    (steady_trimBuffer.trans steady_applyChainToState).trans steady_dropStaleBases
  have hwalked : Steady settled walked := .foldl (fun _ block => steady_supersedeBehind block) _ _
  exact ((hanchored.trans hsettled).trans hwalked).trans
    (steady_walletSupersedeDead.trans steady_rebase)

theorem steady_tryAdoptFromBlob : Steady n (n.tryAdoptFromBlob S e).node := by
  have hcleared : Steady n { n with pendingServedBlob := none } := .of_eq rfl rfl subset_rfl
  unfold tryAdoptFromBlob
  split
  · exact .refl n
  dsimp only
  split_ifs
  · exact hcleared
  · exact .refl n
  · split
    · exact hcleared
    · exact hcleared.trans (steady_reanchor ..)

theorem steady_receiveCheckpointBlob (blob : CheckpointState) :
    Steady n (n.receiveCheckpointBlob S e blob).node := by
  unfold receiveCheckpointBlob
  dsimp only
  split_ifs
  · exact .refl n
  · refine Steady.trans ?_ steady_tryAdoptFromBlob
    exact .of_eq rfl rfl subset_rfl

theorem steady_keepPending (block : ChainBlock) : Steady n (n.keepPending block) := by
  unfold keepPending
  exact .of_eq rfl rfl subset_rfl

theorem steady_buffer (head : ChainHead) (block : ChainBlock) :
    Steady n (n.buffer S e head block).node := by
  have hkept : Steady n (n.trimBuffer.keepPending block) :=
    steady_trimBuffer.trans (steady_keepPending block)
  have hadopted : Steady n ((n.trimBuffer.keepPending block).tryAdoptFromBlob S e).node :=
    hkept.trans steady_tryAdoptFromBlob
  unfold buffer
  dsimp only
  split_ifs
  · exact .refl n
  · exact hadopted

theorem quiet_receiveBlock (source : String) (block : ChainBlock) :
    Quiet n (n.receiveBlock S e source block).node := by
  unfold receiveBlock
  refine (steady_notePeerHeight (S := S) source block.height).toQuiet.trans ?_
  dsimp only
  split
  · exact .refl _
  · split_ifs
    · exact (steady_stashForkCandidate block).toQuiet.trans quiet_tryReorg
    · exact (steady_applyNextBlock block).toQuiet
    · exact quiet_tieBreak block
    · exact (steady_buffer _ block).toQuiet

end Node

end Molt.Engine
