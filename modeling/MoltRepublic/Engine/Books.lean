import Mathlib
import MoltRepublic.Engine.Runs

/-! What the bookkeeping of a node leaves of its books: it moves no chain, never lowers the
mint counter, and has no card of a proposer read applied that did not before, but for those
it settles. -/

namespace Molt.Engine
open Molt.Core Json Chain ProposalRecord

theorem toNat_max (a b : UInt64) : (max a b).toNat = max a.toNat b.toNat := by
  have hmax : max a b = if a ≤ b then b else a := rfl
  rw [hmax]
  split_ifs with h
  · exact (max_eq_right (UInt64.le_iff_toNat_le.mp h)).symm
  · have hle : b.toNat ≤ a.toNat := by
      rw [UInt64.le_iff_toNat_le] at h
      omega
    exact (max_eq_left hle).symm

abbrev Settling := UInt64 → Surface → Value → Prop

def Settling.none : Settling := fun _ _ _ => False

def Settling.any : Settling := fun _ _ _ => True

def Settling.known (n : Node) : Settling := fun id surface payload =>
  ∃ p, n.proposals.lookup id = some p ∧ p.proposer ≠ "" ∧ p.surface = surface ∧ p.payload = payload

structure Books (Q : Settling) (n m : Node) : Prop where
  nextId : n.nextId.toNat ≤ m.nextId.toNat
  cards : ∀ {id q}, m.proposals.lookup id = some q → q.state = .applied → q.proposer ≠ "" →
    Q id q.surface q.payload ∨ ∃ p, n.proposals.lookup id = some p ∧ p.state = .applied ∧
      p.proposer ≠ "" ∧ p.surface = q.surface ∧ p.payload = q.payload

structure Still (Q : Settling) (n m : Node) : Prop extends Books Q n m where
  chain : m.chain = n.chain
  head : m.head = n.head

structure Keeps (settled : Prop) (p q : ProposalRecord) : Prop where
  surface : q.surface = p.surface
  payload : q.payload = p.payload
  proposer : q.proposer = p.proposer
  state : q.state = .applied → q.proposer ≠ "" → p.state = .applied ∨ settled

variable {settled : Prop}

theorem Keeps.of_state {p q : ProposalRecord} (hs : q.surface = p.surface) (hp : q.payload = p.payload)
    (hb : q.proposer = p.proposer) (h : q.state = p.state) :
    Keeps settled p q :=
  ⟨hs, hp, hb, fun hq _ => .inl (h ▸ hq)⟩

theorem Keeps.refl (p : ProposalRecord) : Keeps settled p p :=
  .of_state rfl rfl rfl rfl

theorem Keeps.of_open {p q : ProposalRecord} (hs : q.surface = p.surface) (hp : q.payload = p.payload)
    (hb : q.proposer = p.proposer) (h : q.state ≠ .applied) :
    Keeps settled p q :=
  ⟨hs, hp, hb, fun hq _ => absurd hq h⟩

theorem Keeps.settle (p : ProposalRecord) (h : settled) :
    Keeps settled p p.settleApplied :=
  ⟨rfl, rfl, rfl, fun _ _ => .inr h⟩

theorem keeps_stash (members : List String) (p : ProposalRecord) :
    Keeps settled p (p.stash members) := .of_state rfl rfl rfl rfl

theorem keeps_retire (p : ProposalRecord) :
    Keeps settled p (if p.state = .proposed then p.retire else p) := by
  split_ifs
  · exact .of_open rfl rfl rfl (by simp [ProposalRecord.retire])
  · exact .refl p

theorem keeps_decline (p : ProposalRecord) (member : String) (ts : UInt64) (vetoRoom : Nat) :
    Keeps settled p (p.decline member ts vetoRoom) := by
  unfold ProposalRecord.decline
  dsimp only
  split_ifs
  · exact .of_open rfl rfl rfl (by simp)
  · exact .of_state rfl rfl rfl rfl

namespace Books

variable {Q : Settling} {n m k : Node}

theorem refl (n : Node) : Books Q n n :=
  ⟨le_rfl, fun h ha hp => .inr ⟨_, h, ha, hp, rfl, rfl⟩⟩

theorem trans (h : Books Q n m) (h' : Books Q m k) : Books Q n k where
  nextId := h.nextId.trans h'.nextId
  cards hq ha hp := by
    rcases h'.cards hq ha hp with hsettled | ⟨p, hm, hma, hmp, hsurface, hpayload⟩
    · exact .inl hsettled
    rw [← hsurface, ← hpayload]
    exact h.cards hm hma hmp

theorem mono {R : Settling} (h : Books Q n m) (hQR : ∀ id s v, Q id s v → R id s v) : Books R n m :=
  ⟨h.nextId, fun hq ha hp => (h.cards hq ha hp).imp_left (hQR _ _ _)⟩

theorem of_eq (hi : m.nextId = n.nextId) (hp : m.proposals = n.proposals) : Books Q n m := by
  refine ⟨hi ▸ le_rfl, fun {id q} hq ha hb => .inr ⟨q, ?_, ha, hb, rfl, rfl⟩⟩
  rwa [hp] at hq

theorem known (h : Books Q n m) (hq : Quiet n m) :
    Books (fun id s v => Q id s v ∧ Settling.known n id s v) n m where
  nextId := h.nextId
  cards {id q} hlookup ha hp := by
    rcases h.cards hlookup ha hp with hsettled | hbefore
    · left
      refine ⟨hsettled, ?_⟩
      rcases hq.cards hlookup with hs | ⟨p, hn, hfollows⟩
      · exact absurd hs.1 hp
      · exact ⟨p, hn, hfollows.proposer ▸ hp, hfollows.surface.symm, hfollows.payload.symm⟩
    · exact .inr hbefore

end Books

namespace Still

variable {Q : Settling} {n m k : Node}

theorem refl (n : Node) : Still Q n n := ⟨.refl n, rfl, rfl⟩

theorem trans (h : Still Q n m) (h' : Still Q m k) : Still Q n k :=
  ⟨h.toBooks.trans h'.toBooks, h'.chain.trans h.chain, h'.head.trans h.head⟩

theorem mono {R : Settling} (h : Still Q n m) (hQR : ∀ id s v, Q id s v → R id s v) : Still R n m :=
  ⟨h.toBooks.mono hQR, h.chain, h.head⟩

theorem known (h : Still Q n m) (hq : Quiet n m) :
    Still (fun id s v => Q id s v ∧ Settling.known n id s v) n m :=
  ⟨h.toBooks.known hq, h.chain, h.head⟩

theorem of_none (h : Still .none n m) : Still Q n m := h.mono fun _ _ _ hfalse => hfalse.elim

theorem foldl {α : Type} {f : Node → α → Node} {l : List α} (hf : ∀ n, ∀ a ∈ l, Still Q n (f n a))
    (n : Node) : Still Q n (l.foldl f n) := by
  induction l generalizing n with
  | nil => exact refl n
  | cons a l ih =>
    exact (hf n a (.head _)).trans
      (ih (fun n b hb => hf n b (.tail _ hb)) _)

theorem of_eq (hc : m.chain = n.chain) (hh : m.head = n.head) (hi : m.nextId = n.nextId)
    (hp : m.proposals = n.proposals) : Still Q n m :=
  ⟨.of_eq hi hp, hc, hh⟩

end Still

namespace Node

variable {S : Site} {e : Env} {Q : Settling} {n : Node}

variable {id : UInt64}

theorem still_insert {q : ProposalRecord}
    (h : q.state = .applied → q.proposer ≠ "" → Q id q.surface q.payload ∨ ∃ p, n.proposals.lookup id = some p ∧ p.state = .applied ∧ p.proposer ≠ "" ∧ p.surface = q.surface ∧ p.payload = q.payload) :
    Still Q n { n with proposals := n.proposals.insert id q } := by
  refine ⟨⟨le_rfl, fun {j r} hr ha hp => ?_⟩, rfl, rfl⟩
  by_cases hj : j = id
  · subst hj
    obtain rfl : q = r := Option.some.inj ((AList.lookup_insert _).symm.trans hr)
    exact h ha hp
  · exact .inr ⟨r, (AList.lookup_insert_ne hj).symm.trans hr, ha, hp, rfl, rfl⟩

theorem still_adjust {f : ProposalRecord → ProposalRecord}
    (hf : ∀ p, n.proposals.lookup id = some p → Keeps (Q id p.surface p.payload) p (f p)) :
    Still Q n (n.adjust id f) := by
  unfold adjust
  cases hp : n.proposals.lookup id with
  | none => exact .refl n
  | some p =>
    have hkeeps := hf p hp
    apply still_insert
    intro ha hb
    rw [hkeeps.surface, hkeeps.payload]
    rcases hkeeps.state ha hb with ha | hsettled
    · exact .inr ⟨p, hp, ha, hkeeps.proposer ▸ hb, rfl, rfl⟩
    · exact .inl hsettled

theorem still_openCard {p : ProposalRecord} (h : p.state = .applied → p.proposer = "") :
    Still Q n (n.openCard id p) := by
  unfold openCard
  split
  · exact .refl n
  · exact still_insert fun ha hb => absurd (h ha) hb

theorem still_adjustSigs (id : UInt64) (f : PendingApproval → PendingApproval) :
    Still Q n (n.adjustSigs id f) := by
  unfold adjustSigs
  split
  · exact .of_eq rfl rfl rfl rfl
  · exact .refl n

theorem still_dropSigs (id : UInt64) : Still Q n (n.dropSigs id) := .of_eq rfl rfl rfl rfl

theorem still_dropChange (id : UInt64) : Still Q n (n.dropChange id) := .of_eq rfl rfl rfl rfl

theorem still_register (id : UInt64) (change : ChainChange) : Still Q n (n.register id change) :=
  .of_eq rfl rfl rfl rfl

theorem bump_nextId (n : Node) (id : UInt64) :
    (n.bump id).nextId.toNat = max n.nextId.toNat (saturatingSucc id).toNat := toNat_max ..

theorem still_bump (id : UInt64) : Still Q n (n.bump id) := by
  have hid : n.nextId.toNat ≤ (n.bump id).nextId.toNat := by
    rw [bump_nextId]
    exact le_max_left _ _
  exact ⟨⟨hid, fun {j q} hq ha hp => .inr ⟨q, hq, ha, hp, rfl, rfl⟩⟩, rfl, rfl⟩

theorem still_stashVoted (id : UInt64) : Still Q n (n.stashVoted id) := by
  unfold stashVoted
  split
  · exact .refl n
  · exact still_adjust fun p _ => keeps_stash _ p

theorem still_forgetVote (id : UInt64) : Still Q n (n.forgetVote id) :=
  ((still_stashVoted id).trans (still_dropSigs id)).trans (still_dropChange id)

theorem still_forgetVotesFor (sealed : ChainChange) : Still Q n (n.forgetVotesFor e sealed) :=
  .foldl (fun _ id _ => still_forgetVote id) n

theorem still_collectSig (id height : UInt64) (member sig : String) (verified : Bool) :
    Still Q n (n.collectSig S id height member sig verified) := by
  unfold collectSig
  split
  · exact .refl n
  · exact .of_eq rfl rfl rfl rfl

theorem still_markVerified (id : UInt64) (member : String) : Still Q n (n.markVerified id member) :=
  still_adjustSigs id _

theorem still_reverifyPending (id : UInt64) : Still Q n (n.reverifyPending S id) := by
  unfold reverifyPending
  split
  · exact .refl n
  · refine .foldl (fun m s _ => ?_) n
    split
    · exact still_markVerified id _
    · exact .refl m

theorem still_notePeerHeight (source : String) (height : UInt64) :
    Still Q n (n.notePeerHeight S source height) := by
  unfold notePeerHeight
  split_ifs
  · exact .refl n
  · exact .of_eq rfl rfl rfl rfl

theorem toNat_saturatingSucc (id : UInt64) :
    (saturatingSucc id).toNat = min (id.toNat + 1) (2 ^ 64 - 1) := by
  have hlt : id.toNat < 2 ^ 64 := id.toNat_lt
  unfold saturatingSucc
  split_ifs with h
  · have hsum : (id + 1).toNat = (id.toNat + 1) % 2 ^ 64 := UInt64.toNat_add id 1
    omega
  · omega

theorem le_saturatingSucc (id : UInt64) : id.toNat ≤ (saturatingSucc id).toNat := by
  have hlt : id.toNat < 2 ^ 64 := id.toNat_lt
  rw [toNat_saturatingSucc]
  omega

theorem still_mintProposalId {m : Node} (h : n.mintProposalId S = some (id, m)) :
    Still Q n m := by
  unfold mintProposalId at h
  simp only [Option.ite_none_right_eq_some, Option.some.injEq, Prod.mk.injEq] at h
  obtain ⟨hlt, hid, rfl⟩ := h
  refine ⟨⟨?_, fun {j q} hq ha hp => .inr ⟨q, hq, ha, hp, rfl, rfl⟩⟩, rfl, rfl⟩
  refine le_trans ?_ (le_saturatingSucc _)
  rw [UInt64.toNat_ofNat_of_lt' (by simpa [UInt64.size] using hlt)]
  exact (le_max_left _ _).trans (Nat.le_add_right _ _)

theorem still_parkDecline (id : UInt64) (member : String) (ts : UInt64) (hash : String) :
    Still Q n (n.parkDecline id member ts hash).1 := by
  unfold parkDecline
  split_ifs
  · exact .refl n
  · dsimp only
    split_ifs
    · exact still_bump id
    · refine (still_bump id).trans ?_
      exact .of_eq rfl rfl rfl rfl
    · refine (still_bump id).trans ?_
      exact .of_eq rfl rfl rfl rfl

theorem still_retract (id : UInt64) (member : String) : Still Q n (n.retract S id member) := by
  unfold retract
  split_ifs
  · exact (still_adjustSigs id _).trans (.of_eq rfl rfl rfl rfl)
  · exact still_adjustSigs id _

theorem still_registerDecline (id : UInt64) (member : String) (ts : UInt64) (hash : String) :
    Still Q n (n.registerDecline S id member ts hash).1 := by
  have hdecline : ∀ room, Still Q n ((n.retract S id member).adjust id (·.decline member ts room)) :=
    fun room => (still_retract id member).trans (still_adjust fun p _ => keeps_decline p member ts room)
  unfold registerDecline
  split
  · exact still_parkDecline id member ts hash
  · dsimp only
    split_ifs
    · exact .refl n
    · exact .refl n
    · exact (hdecline _).trans (still_stashVoted id)
    · exact hdecline _

theorem still_registerParkedDeclines (id : UInt64) : Still Q n (n.registerParkedDeclines S id) := by
  unfold registerParkedDeclines
  split
  · exact .refl n
  · refine Still.trans (m := { n with pendingDeclines := n.pendingDeclines.erase id })
      (.of_eq rfl rfl rfl rfl) (.foldl (fun m d _ => ?_) _)
    exact still_registerDecline id d.1 d.2.1 d.2.2

theorem still_parkWithdraw (id : UInt64) (member : String) (ts : UInt64) :
    Still Q n (n.parkWithdraw id member ts).1 := by
  unfold parkWithdraw
  split_ifs
  · exact .refl n
  · dsimp only
    split
    · exact still_bump id
    · split_ifs
      · exact still_bump id
      · refine (still_bump id).trans ?_
        exact .of_eq rfl rfl rfl rfl

theorem still_registerWithdraw (id : UInt64) (member : String) (ts : UInt64) :
    Still Q n (n.registerWithdraw id member ts).1 := by
  unfold registerWithdraw
  split
  · exact still_parkWithdraw id member ts
  · dsimp only
    split_ifs
    · exact .refl n
    · exact .refl n
    · have hpull : Still Q n (n.adjust id (·.pullBack ts)) :=
        still_adjust fun p _ => .of_open rfl rfl rfl (by simp [ProposalRecord.pullBack])
      refine ((hpull.trans (still_stashVoted id)).trans (still_dropSigs id)).trans ?_
      exact .of_eq rfl rfl rfl rfl

theorem still_registerParkedWithdrawal (id : UInt64) :
    Still Q n (n.registerParkedWithdrawal id).1 := by
  unfold registerParkedWithdrawal
  split
  · exact .refl n
  · refine Still.trans ?_ (still_registerWithdraw id _ _)
    exact .of_eq rfl rfl rfl rfl

theorem still_supersedeStaleWiki (moved : Option Value) : Still Q n (n.supersedeStaleWiki e moved) := by
  refine .foldl (fun m id _ => ?_) n
  split
  · exact .refl m
  · exact still_adjust fun p _ => .of_state rfl rfl rfl rfl
  · exact (still_adjust fun p _ => keeps_retire p).trans (still_stashVoted id)

theorem still_markOpenWikiPatchesRebased : Still Q n n.markOpenWikiPatchesRebased := by
  refine .foldl (fun m id _ => ?_) n
  exact still_adjust fun p _ => .of_state rfl rfl rfl rfl

theorem still_supersedeStaleVaultCards : Still Q n (n.supersedeStaleVaultCards e) := by
  refine .foldl (fun m id _ => ?_) n
  split
  · exact .refl m
  · exact (still_adjust fun p _ => keeps_retire p).trans (still_stashVoted id)
  · refine still_adjust fun p _ => ?_
    split_ifs
    · exact .of_open rfl rfl rfl (by simp [ProposalRecord.revive])
    · exact .refl p

theorem still_walletSupersedeDead : Still Q n (n.walletSupersedeDead e) := by
  refine .foldl (fun m id _ => ?_) n
  exact ((still_adjust fun p _ => keeps_retire p).trans (still_stashVoted id)).trans
    (still_dropSigs id)

variable (block : ChainBlock)

theorem still_supersedeBehind : Still Q n (n.supersedeBehind e block) := by
  unfold supersedeBehind
  split
  · exact still_supersedeStaleVaultCards
  · exact .refl n

theorem still_supersedeStaleCards (surface : Surface) : Still Q n (n.supersedeStaleCards e surface) := by
  unfold supersedeStaleCards
  split
  · exact still_supersedeStaleVaultCards
  · exact still_walletSupersedeDead
  · exact .refl n

theorem still_ensureAppliedRecord (id : UInt64) (surface : Surface) (payload : Value) :
    Still Q n (n.ensureAppliedRecord id surface payload) := still_openCard fun _ => rfl

theorem still_adoptHeadRoster : Still Q n n.adoptHeadRoster := by
  unfold adoptHeadRoster
  split
  · exact .of_eq rfl rfl rfl rfl
  · exact .refl n

theorem still_bumpNextIdPastChain : Still Q n n.bumpNextIdPastChain := by
  unfold bumpNextIdPastChain
  split
  · exact .refl n
  · split_ifs
    · exact .refl n
    · exact still_bump _

theorem still_applyApproved (author member : String) (id height : UInt64) (sig : String) :
    Still Q n (n.applyApproved S author id member height sig) := by
  have hown : Still Q n (if member == S.member && author == S.member
      then { n with ownApprovals := insert id n.ownApprovals } else n) := by
    split_ifs
    · exact .of_eq rfl rfl rfl rfl
    · exact .refl n
  unfold applyApproved
  refine Still.trans (hown.trans ?_) (still_adjust fun p _ => ?_)
  · dsimp only
    split_ifs
    · exact .refl _
    · exact (still_collectSig ..).trans (still_markVerified ..)
    · exact .refl _
    · exact still_collectSig ..
  · split_ifs
    · exact .of_state rfl rfl rfl rfl
    · exact .refl p

def membershipCards (n : Node) (m : Membership) : Settling := fun id _ _ =>
  ∃ p, n.proposals.lookup id = some p ∧ p.state = .proposed ∧ wearsMembership m.op m.member p

theorem still_settleMembershipRecords (m : Membership) :
    Still (n.membershipCards m) n (n.settleMembershipRecords e (.membership m)) := by
  refine Still.trans (.foldl (fun k id hid => ?_) n) (still_forgetVotesFor _)
  obtain ⟨p, hp, hopen⟩ := mem_cardsWhere hid
  simp only [Bool.and_eq_true, beq_iff_eq] at hopen
  exact still_adjust fun q _ => .settle q ⟨p, hp, hopen⟩

theorem still_settleAny (sealed : ChainChange) :
    Still .any n (n.settleMembershipRecords e sealed) := by
  unfold settleMembershipRecords
  split
  · exact (Still.foldl (fun k id _ => still_adjust fun q _ => .settle q trivial) n).trans
      (still_forgetVotesFor _)
  · exact .refl n

theorem still_settleCardsAgainstChain : Still .any n (n.settleCardsAgainstChain e) := by
  refine (Still.foldl (fun m c _ => ?_) n).trans ((Still.foldl (fun m id _ => ?_) _).trans
    (.foldl (fun _ sealed _ => still_settleAny sealed) _))
  · exact (still_ensureAppliedRecord ..).trans (still_forgetVote _)
  · exact (still_adjust fun p _ => .settle p trivial).trans (still_forgetVote _)

theorem still_applyChainToState : Still .any n (n.applyChainToState e) :=
  ((still_settleCardsAgainstChain.trans (still_supersedeStaleWiki none)).trans
    still_supersedeStaleVaultCards).trans still_adoptHeadRoster

def blockCard (id : UInt64) (payload : Value) : Settling := fun j _ v => j = id ∧ v = payload

theorem still_afterApplied (id : UInt64) (surface : Surface) (payload : Value) :
    Still (blockCard id payload) n (n.afterApplied e id surface payload) := by
  have hwiki : ∀ m : Node, Still (blockCard id payload) m
      (if surface = .memory then m.supersedeStaleWiki e (some payload) else m) := by
    intro m
    split_ifs
    · exact still_supersedeStaleWiki _
    · exact .refl m
  have hsettle : Still (blockCard id payload) n
      ((n.ensureAppliedRecord id surface payload).adjust id (settleCard payload)) := by
    refine (still_ensureAppliedRecord id surface payload).trans (still_adjust fun p _ => ?_)
    unfold settleCard
    split_ifs with h
    · refine ⟨rfl, rfl, rfl, fun _ hproposer => .inr ⟨rfl, ?_⟩⟩
      exact h.resolve_right hproposer
    · exact .refl p
  exact (hsettle.trans (hwiki _)).trans
    (((still_stashVoted id).trans (still_dropSigs id)).trans (still_supersedeStaleCards surface))

theorem still_rebase : Still Q n (n.rebase e).node := by
  unfold rebase
  split
  · exact .refl n
  · exact .foldl (fun _ id _ => (still_dropChange id).trans (still_dropSigs id)) n

theorem still_chainSign (id : UInt64) : Still Q n (n.chainSign S e id).node := by
  unfold chainSign
  split
  · split_ifs
    · exact .refl n
    · refine Still.trans ?_ (still_applyApproved ..)
      refine Still.trans ?_ (still_markVerified ..)
      refine Still.trans ?_ (still_collectSig ..)
      exact .of_eq rfl rfl rfl rfl
  · exact .refl n

theorem still_resign (id : UInt64) : Still Q n (n.resign S e id).node := by
  unfold resign
  dsimp only
  split_ifs
  · exact (still_dropSigs id).trans (still_chainSign id)
  · exact still_dropSigs id

theorem still_sweepRestores : Still Q n (n.sweepRestores S e).node := by
  unfold sweepRestores
  split
  · exact .refl n
  · exact .foldl (fun _ id _ => still_forgetVote id) n

theorem still_autoApprove (id : UInt64) : Still Q n (n.autoApprove S e id).node := by
  unfold autoApprove
  split
  · split_ifs
    · exact still_chainSign id
    · exact .refl n
  · exact .refl n

theorem still_proposeCheckpoint : Still Q n (n.proposeCheckpoint S e).node := by
  unfold proposeCheckpoint
  split
  · exact .refl n
  split
  · exact .refl n
  split
  · exact .refl n
  dsimp only
  split
  · rename_i hmint
    apply Still.trans (still_mintProposalId hmint)
    split_ifs
    · exact (still_register ..).trans (still_chainSign _)
    · exact still_register ..
  · exact .refl n

theorem still_autoCheckpoint : Still Q n (n.autoCheckpoint S e).node := by
  unfold autoCheckpoint
  split
  · exact .refl n
  · dsimp only
    split_ifs
    · exact .refl n
    · exact still_proposeCheckpoint

theorem still_caughtUp (height : UInt64) : Still Q n (n.caughtUp height) := by
  unfold caughtUp
  split_ifs
  · exact .of_eq rfl rfl rfl rfl
  · exact .refl n

theorem still_requestCatchup (height : UInt64) : Still Q n (n.requestCatchup height) := by
  unfold requestCatchup
  split_ifs
  · exact .refl n
  · exact .of_eq rfl rfl rfl rfl

theorem still_requestBelow (anchor : UInt64) : Still Q n (n.requestBelow anchor) := by
  unfold requestBelow
  split
  · split_ifs
    · exact still_requestCatchup _
    · exact .refl n
  · exact .refl n

theorem still_trimBuffer : Still Q n n.trimBuffer := .of_eq rfl rfl rfl rfl

theorem still_keepPending : Still Q n (n.keepPending block) := by
  unfold keepPending
  exact .of_eq rfl rfl rfl rfl

theorem still_stashForkCandidate : Still Q n (n.stashForkCandidate block) := by
  unfold stashForkCandidate
  exact .of_eq rfl rfl rfl rfl

theorem still_keepApproved (source member : String) (id height : UInt64) (sig : String) :
    Still Q n (n.keepApproved S source id member height sig) := by
  unfold keepApproved
  dsimp only
  split_ifs
  · exact still_applyApproved ..
  · exact .refl n

theorem still_signOwn (ids : List UInt64) : Still Q n (n.signOwn S e ids).node := by
  cases ids with
  | nil => exact .refl n
  | cons id ids => exact still_chainSign id

theorem still_endReorg : Still Q n n.endReorg := by
  unfold endReorg
  dsimp only
  split
  · exact .of_eq rfl rfl rfl rfl
  · refine Still.trans ?_ (still_requestCatchup _)
    exact .of_eq rfl rfl rfl rfl

theorem still_applyProposed (author : String) (id : UInt64) (surface : Surface) (payload : Value) :
    Still Q n (n.applyProposed S e author id surface payload) := by
  have hopened : Still Q n ((n.openCard id
      { surface := surface, payload := payload, proposer := author }).bump id) :=
    (still_openCard (by simp)).trans (still_bump id)
  have hvoices : ∀ m : Node, Still Q m ((m.registerParkedDeclines S id).registerParkedWithdrawal id).1 :=
    fun m => (still_registerParkedDeclines id).trans (still_registerParkedWithdrawal id)
  unfold applyProposed
  split_ifs
  · exact (hopened.trans (hvoices _)).trans (still_supersedeStaleWiki none)
  · exact hopened.trans (hvoices _)

theorem still_applyMembershipProposed (author : String) (id : UInt64) (m : Membership) :
    Still Q n (n.applyMembershipProposed S author id m) := by
  unfold applyMembershipProposed
  extract_lets op payload opened bumped
  have hopened : Still Q n opened := still_openCard (by simp)
  have hbumped : Still Q opened bumped := by
    change Still Q opened (if opened.plausibleWireId id then opened.bump id else opened)
    split_ifs
    · exact still_bump id
    · exact .refl opened
  exact (hopened.trans hbumped).trans
    ((still_registerParkedDeclines id).trans (still_registerParkedWithdrawal id))

theorem still_cmdPropose (surface : Surface) (payload : Value) :
    Still Q n (n.cmdPropose S e surface payload).node := by
  unfold cmdPropose
  split
  · exact .refl n
  rename_i payload _
  split
  · exact .refl n
  split
  · exact .refl n
  rename_i id m hmint
  dsimp only
  have happlied : Still Q n (m.applyProposed S e S.member id surface payload) :=
    (still_mintProposalId hmint).trans (still_applyProposed S.member id surface payload)
  split_ifs
  · exact happlied.trans (still_chainSign _)
  · exact happlied

theorem still_cmdApprove (id : UInt64) : Still Q n (n.cmdApprove S e id).node := by
  unfold cmdApprove
  split
  · exact .refl n
  split
  · exact .refl n
  refine Still.trans ?_ (still_chainSign id)
  exact still_adjust fun p _ => .of_state rfl rfl rfl rfl

theorem still_cmdDecline (id : UInt64) : Still Q n (n.cmdDecline S e id).node := by
  unfold cmdDecline
  split
  · exact .refl n
  · split_ifs
    · exact .refl n
    · exact still_registerDecline ..

theorem still_cmdWithdraw (id : UInt64) : Still Q n (n.cmdWithdraw S e id).node := by
  unfold cmdWithdraw
  split
  · exact .refl n
  · split_ifs
    · exact .refl n
    · exact still_registerWithdraw ..

theorem still_command (c : Command) : Still Q n (n.command S e c).node := by
  cases c with
  | propose surface payload => exact still_cmdPropose surface payload
  | approve id => exact still_cmdApprove id
  | decline id => exact still_cmdDecline id
  | withdraw id => exact still_cmdWithdraw id
  | proposeCheckpoint => exact still_proposeCheckpoint

theorem still_walletReview (id : UInt64) : Still Q n (n.walletReview S e id) := by
  have hdead : Still Q n (n.walletSupersedeDead e) := still_walletSupersedeDead
  unfold walletReview
  dsimp only
  split_ifs
  · exact hdead.trans (.foldl (fun _ id _ => still_cmdDecline id) _)
  · exact hdead

theorem still_receiveProposed (source : String) (id : UInt64) (surface : Surface) (payload : Value) :
    Still Q n (n.receiveProposed S e source id surface payload).1 := by
  unfold receiveProposed
  dsimp only
  split
  · exact .refl n
  split
  · exact still_bump id
  refine Still.trans ?_ (still_reverifyPending id)
  have hopened : Still Q n ((n.bump id).openCard id
      { surface := surface, payload := payload, proposer := source }) :=
    (still_bump id).trans (still_openCard (by simp))
  split_ifs
  · exact hopened.trans (still_supersedeStaleVaultCards.trans (still_supersedeStaleWiki none))
  · exact hopened.trans (still_supersedeStaleWiki none)
  · exact hopened.trans still_supersedeStaleVaultCards
  · exact hopened

theorem still_deliverProposed (source : String) (id : UInt64) (surface : Surface) (payload : Value) :
    Still Q n (n.deliverProposed S e source id surface payload) := by
  have hreceived : Still Q n _ := still_receiveProposed (S := S) (e := e) source id surface payload
  unfold deliverProposed
  split <;> rename_i m h <;> rw [h] at hreceived
  · exact hreceived
  · have hlogged : Still Q m (((m.registerParkedWithdrawal id).1.registerParkedDeclines S id).applyProposed
        S e source id surface payload) :=
      ((still_registerParkedWithdrawal id).trans (still_registerParkedDeclines id)).trans
        (still_applyProposed source id surface payload)
    dsimp only
    split_ifs
    · exact (hreceived.trans hlogged).trans (still_walletReview id)
    · exact hreceived.trans hlogged

theorem still_deliverApproved (source : String) (id : UInt64) (member : String) (height : UInt64)
    (sig : String) : Still Q n (n.deliverApproved S source id member height sig).node := by
  have hstance : Still Q n (if member = source then
      n.adjust id fun p =>
        if p.state = .proposed then { p with decliners := p.decliners.filter (· != member) } else p
      else n) := by
    split_ifs
    · refine still_adjust fun p _ => ?_
      split_ifs
      · exact .of_state rfl rfl rfl rfl
      · exact .refl p
    · exact .refl n
  unfold deliverApproved
  extract_lets m keep ahead verified collected marked
  have hmarked : Still Q m marked := by
    change Still Q m (if verified then collected.markVerified id member else collected)
    split_ifs
    · exact (still_collectSig ..).trans (still_markVerified ..)
    · exact still_collectSig ..
  split
  · exact hstance
  · exact hstance.trans hmarked

theorem still_deliverCheckpointProposed (source : String) (id upto : UInt64) (stateHash : String)
    (folded : Bool) :
    Still Q n (n.deliverCheckpointProposed S e source id upto stateHash folded).node := by
  unfold deliverCheckpointProposed
  extract_lets m bumped kind change doubled registered
  have hnoted : Still Q n m := still_notePeerHeight ..
  have hbumped : Still Q n bumped := hnoted.trans (still_bump id)
  have hregistered : Still Q n registered := hbumped.trans (still_register id change)
  split
  · exact hnoted
  split
  · split
    · exact hbumped
    · split
      · exact hregistered
      · exact hregistered.trans (still_chainSign id)
  · exact hbumped

def membershipPayload (m : Membership) : Value :=
  .obj [("member", .str m.member), ("op", .str (match m.op with
    | .restored => "restore_member"
    | .joined => "add_member"))]

def frameCards (S : Site) (n : Node) : Frame → Settling
  | .membershipProposed id m => fun j surface payload => j = id ∧ n.admitsMembershipProposal S id m ∧
      n.restoreSealed m ∧ (Settling.known n id surface payload ∨
        surface = .organization ∧ payload = membershipPayload m)
  | _ => .none

theorem quiet_applyMembershipProposed (author : String) (id : UInt64) (m : Membership) :
    Quiet (n.openCard id
      { surface := .organization, payload := membershipPayload m, proposer := author })
      (n.applyMembershipProposed S author id m) := by
  unfold applyMembershipProposed
  extract_lets op payload opened bumped
  have hbumped : Steady opened bumped := by
    change Steady opened (if opened.plausibleWireId id then opened.bump id else opened)
    split_ifs
    · exact steady_bump id
    · exact .refl opened
  exact (hbumped.trans ((steady_registerParkedDeclines id).trans
    (steady_registerParkedWithdrawal id))).toQuiet

theorem applyMembershipProposed_card {author : String} {m : Membership} {p : ProposalRecord}
    (h : (n.applyMembershipProposed S author id m).proposals.lookup id = some p) (hproposer : p.proposer ≠ "") :
    Settling.known n id p.surface p.payload ∨
      p.surface = .organization ∧ p.payload = membershipPayload m := by
  rcases (quiet_applyMembershipProposed author id m).cards h with hs | ⟨q, hq, hfollows⟩
  · exact absurd hs.1 hproposer
  rw [hfollows.surface, hfollows.payload]
  unfold openCard at hq
  split at hq
  · exact .inl ⟨q, hq, hfollows.proposer ▸ hproposer, rfl, rfl⟩
  · rw [AList.lookup_insert, Option.some.injEq] at hq
    rw [← hq]
    exact .inr ⟨rfl, rfl⟩

theorem still_deliverMembershipProposed (source : String) (id : UInt64) (m : Membership) :
    Still (n.frameCards S (.membershipProposed id m)) n
      (n.deliverMembershipProposed S source id m).node := by
  have hcarded : Still (n.frameCards S (.membershipProposed id m)) n
      (n.applyMembershipProposed S source id m) := still_applyMembershipProposed source id m
  have hbumped := hcarded.trans (still_bump id)
  unfold deliverMembershipProposed
  extract_lets carded bumped
  split
  · exact .refl n
  rename_i hadmitted
  split
  · exact hcarded
  split
  · rename_i hsealed
    refine hbumped.trans (still_adjust fun p hp => ?_)
    split_ifs
    · refine ⟨rfl, rfl, rfl, fun _ hproposer => .inr ⟨rfl, by simpa using hadmitted, ?_, ?_⟩⟩
      · have hchain : bumped.chain = n.chain := hbumped.chain
        unfold restoreSealed at hsealed ⊢
        rwa [hchain] at hsealed
      · exact applyMembershipProposed_card hp hproposer
    · exact .refl p
  · exact hbumped.trans ((still_register ..).trans (still_reverifyPending id))

end Node

end Molt.Engine
