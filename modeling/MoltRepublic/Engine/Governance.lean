import Mathlib
import MoltRepublic.Engine.Cards

/-! Live threshold governance: the signatures a node gives, the blocks it seals and the
bookkeeping behind every block. The calls that run into each other (a seal re-bases, a
re-base signs, a signature may seal) are tasks on a stack, in the order of the code's own
calls (`governance`, `membership`, `checkpoint`). -/

namespace Molt.Engine
open Molt.Core Json Chain Vault

inductive Entry where
  | decided (id : UInt64) (surface : Surface) (payload : Value)
  | revoked (id : UInt64)
  | signed (change : ChainChange) (height : UInt64)
  deriving DecidableEq

inductive Task where
  | tryCommit (id : UInt64)
  | sealed (block : ChainBlock) (id : UInt64)
  | afterBlock (block : ChainBlock)
  /-- The body of the loop of `rebase_pending_approvals`. -/
  | resign (id : UInt64)
  | sweepRestores
  | autoApprove (id : UInt64)
  | autoCheckpoint
  | caughtUp (height : UInt64)
  | requestCatchup (height : UInt64)
  | drain
  /-- A peer's vote into the log, once it was tried. -/
  | keepApproved (source : String) (id : UInt64) (member : String) (height : UInt64) (sig : String)
  /-- The end of `try_reorg`: the collected signatures go, the own ones are made again. -/
  | resignAll
  | signOwn (ids : List UInt64)
  | endReorg

structure Outcome where
  node : Node
  calls : List Task := []
  log : List Entry := []

namespace Node

def anchoredIdentity (n : Node) (member : String) : Option String := do
  let head ← n.head
  let seat ← head.identities.find? fun i => i.member == member
  return seat.identityPk

def workingNostrPk (n : Node) (member : String) : String :=
  let restored := n.chain.blocks.reverse.findSome? fun b =>
    match b.change with
    | .membership m => if m.member = member then m.nostrPk.filter (· != "") else none
    | _ => none
  let summarized := n.chain.checkpointBlob.bind fun blob => blob.anchors.lookup member
  let founding := (n.identities.find? fun i => i.member == member).map MemberIdentity.nostrPk
  ((restored <|> summarized) <|> founding).getD ""

def restoreConsentAt (S : Site) (n : Node) (m : Membership) (height : UInt64) :
    Except String ConsentKind :=
  match m.consent, n.anchoredIdentity m.member with
  | none, _ => .error "no consent"
  | some _, none => .error "not an anchored seat"
  | some consent, some anchored => do
    let kind ← verifyRestoreConsent S.C n.chain.republicId anchored height m.member m.nostrPk m.relays
      consent
    consentSpends (.membership m) n.workingNostrPk
    return kind

def nextChainHeight (n : Node) : UInt64 :=
  match n.head with
  | some head => saturatingSucc head.height
  | none => 1

def consentAnchor (m : Membership) : Option UInt64 :=
  match m.consent.bind parseRestoreConsent with
  | some (.v2 anchorHeight _ _) => some anchorHeight
  | _ => none

def refusal {α : Type} : Except String α → Option String
  | .ok _ => none
  | .error why => some why

/-- `consent_never_seals`: why a consent can seal at no height from the next one on. -/
def consentNeverSeals (S : Site) (n : Node) (m : Membership) : Option String :=
  let next := n.nextChainHeight
  match consentAnchor m, m.consent with
  | some anchorHeight, some consent =>
    if next ≤ anchorHeight then
      if restoreConsentWindow ≤ anchorHeight - next then some "consent is ahead of the chain"
      else
        match n.anchoredIdentity m.member with
        | none => some "not an anchored seat"
        | some anchored => refusal <| verifyRestoreConsent S.C n.chain.republicId anchored
            (saturatingSucc anchorHeight) m.member m.nostrPk m.relays consent
    else refusal (n.restoreConsentAt S m next)
  | _, _ => refusal (n.restoreConsentAt S m next)

def restoreSealed (n : Node) (m : Membership) : Bool :=
  match m.op, m.nostrPk with
  | .restored, some pk =>
    (n.chain.blocks.any fun b =>
      match b.change with
      | .membership k => k.op == .restored && k.member == m.member && k.nostrPk == some pk
      | _ => false) ||
    n.chain.checkpointBlob.any fun blob => blob.anchors.any fun a => a.1 == m.member && a.2 == pk
  | _, _ => false

def anchorSeenInChain (n : Node) (pk : String) : Bool :=
  pk != "" && ((n.identities.any fun i => i.nostrPk == pk) ||
    (n.chain.blocks.any fun b =>
      match b.change with
      | .membership k => k.op == .restored && k.nostrPk == some pk
      | _ => false) ||
    n.chain.checkpointBlob.any fun blob => blob.anchors.any fun a => a.2 == pk)

def consentedPerSeat : Nat := 3

def seatCardsFull (n : Node) (m : Membership) : Bool :=
  m.consent.isSome && consentedPerSeat ≤ n.proposalChanges.entries.countP fun c =>
    match c.2 with
    | .membership k => k.member == m.member && k.consent.isSome
    | _ => false

def sealableMembership (S : Site) (n : Node) (id : UInt64) (m : Membership) : Bool :=
  m.op != .joined && n.anchoredIdentity m.member == some m.identityPk &&
    if m.consent.isSome then (n.consentNeverSeals S m).isNone
    else
      let pending := n.proposalChanges.entries.any fun c => c.1 != id &&
        match c.2 with
        | .membership k => k.op == .restored && k.member == m.member && k.consent.isNone
        | _ => false
      !pending || n.restoreSealed m

def admitsMembershipProposal (S : Site) (n : Node) (id : UInt64) (m : Membership) : Bool :=
  n.plausibleWireId id && n.sealableMembership S id m &&
    ((n.proposalChanges.lookup id).isSome || !n.seatCardsFull m) && n.idFreeFor id (.membership m)

def signGate (e : Env) : ChainChange → Bool
  | .applied _ .vault payload => e.vaultApproves payload
  | .applied _ .wallet payload => e.walletApproves payload
  | change => (CutKind.of change).isNone || !(e.vaultBasePending || e.wikiBasePending)

/-- `chain_sign_and_gossip_approval`: signs what the id resolves to at the next height. -/
def chainSign (S : Site) (e : Env) (n : Node) (id : UInt64) : Outcome :=
  match S.sign, n.head, n.proposalChange id with
  | some sign, some head, some change =>
    if !signGate e change then ⟨n, [], []⟩
    else
      let height := head.height + 1
      let sig := sign (approvalBytes n.chain.republicId height change)
      let n := { n with ownApprovals := insert id n.ownApprovals }
      let n := (n.collectSig S id height S.member sig true).markVerified id S.member
      let n := n.applyApproved S S.member id S.member height sig
      ⟨n, [.tryCommit id], [.signed change height]⟩
  | _, _, _ => ⟨n, [], []⟩

def validVotes (S : Site) (n : Node) (head : ChainHead) (change : ChainChange)
    (decliners : List String) (sigs : List RosterAttestation) : List RosterAttestation :=
  let bytes := approvalBytes n.chain.republicId (head.height + 1) change
  let valid := sigs.filter fun a => !decliners.contains a.member && head.identities.any fun i =>
    i.member == a.member && S.C.identityVerify i.identityPk bytes a.sig
  (valid.insertionSort fun a b => a.member ≤ b.member).destutter fun a b => a.member ≠ b.member

def countedVotes (S : Site) (n : Node) (height : UInt64) (change : ChainChange)
    (valid : List RosterAttestation) : Option (List RosterAttestation × Nat) :=
  match change with
  | .membership m =>
    if m.op = .restored ∧ m.consent.isSome then
      -- the member's own signature is not counted beside its consent
      if (refusal (n.restoreConsentAt S m height)).isNone then
        some (valid.filter fun a => a.member != m.member, 1)
      else none
    else some (valid, 0)
  | _ => some (valid, 0)

def sealOf (S : Site) (n : Node) (id : UInt64) : Option ChainBlock := do
  let head ← n.head
  if n.isTerminal id then none
  let change ← n.proposalChange id
  let pending ← n.pendingSigs.lookup id
  let target := head.height + 1
  if pending.height ≠ target then none
  let decliners := ((n.proposals.lookup id).map ProposalRecord.decliners).getD []
  let valid := n.validVotes S head change decliners pending.sigs
  let (valid, consented) ← n.countedVotes S target change valid
  -- a cut needs every seat
  let need := if (CutKind.of change).isSome then head.identities.length else head.ruleM.toNat
  if valid.length + consented < need then none
  return ⟨target, head.hash, change, valid.take need⟩

def appendCommittedBlock (S : Site) (e : Env) (n : Node) (block : ChainBlock) : Node × Bool :=
  match n.chain.extendOwn S.C block with
  | (chain, .ok head) =>
    let n := { n with
      chain := { chain with blocks := chain.blocks ++ [block] }
      head := some head
      headMovedAt := e.now }
    (n.adoptHeadRoster.bumpNextIdPastChain, true)
  | (chain, .error _) => ({ n with chain := chain }, false)

def tryCommit (S : Site) (e : Env) (n : Node) (id : UInt64) : Outcome :=
  match n.sealOf S id with
  | none => ⟨n, [], []⟩
  | some block =>
    -- a fresh head holds the seal for the pacing round
    if 0 < S.sealPaceSecs ∧ e.now.toNat - n.headMovedAt.toNat < S.sealPaceSecs.toNat then
      ⟨{ n with sealHeld := sortIds (n.sealHeld.insert id) }, [], []⟩
    else
      let n := { n with sealHeld := n.sealHeld.erase id }
      match n.appendCommittedBlock S e block with
      | (n, true) => ⟨n, [.afterBlock block, .sealed block id], []⟩
      | (n, false) => ⟨n, [], []⟩

def isVaultPrepared (n : Node) : Bool :=
  n.head.isSome &&
    match n.chain.checkpointBlob, n.chain.blocks.map ChainBlock.change with
    | some blob, _ => (ctxFromFounding blob.ruleM blob.foundingIdentities).isSome
    | none, .genesis g :: _ => (ctxFromFounding g.ruleM g.identities).isSome
    | none, _ => false

/-- `cut_kind`: the variant comes from the genesis, the wiki choice from the proposer. -/
def cutKind (n : Node) (wiki : Bool) : CutKind := ⟨wiki, n.isVaultPrepared⟩

def ownCutState (S : Site) (n : Node) (upto : UInt64) (kind : CutKind) : Except String FoldedCut := do
  let state ← match n.chain.checkpointBlob with
    | none => checkpointState S.C n.chain.blocks upto
    | some blob => foldState S.C blob n.chain.blocks upto
  foldCut S.C state kind n.chain.held

def cutChange (kind : CutKind) (upto : UInt64) (hash : String) : ChainChange :=
  if kind.vault then .checkpointVault upto hash kind.wiki
  else if kind.wiki then .checkpointFolded upto hash
  else .checkpoint upto hash

def prune (S : Site) (e : Env) (n : Node) (block : ChainBlock) (upto : UInt64) (kind : CutKind) :
    Node :=
  match n.ownCutState S upto kind with
  | .error _ => n
  | .ok folded =>
    -- history below the cut goes only once the folded bases are on disk
    if (folded.tree.isSome ∧ !e.wikiDurable) ∨ (folded.vault.isSome ∧ !e.vaultDurable) then n
    else
      let n := { n with chain := { n.chain with
        held := ⟨folded.tree <|> n.chain.held.wiki, folded.vault <|> n.chain.held.vault⟩
        checkpointBlob := some folded.state
        walk := none
        blocks := n.chain.blocks.filter fun b => block.height ≤ b.height } }
      (n.applyChainToState e).markOpenWikiPatchesRebased

def settleCard (payload : Value) (p : ProposalRecord) : ProposalRecord :=
  if p.payload = payload ∨ p.proposer = "" then p.settleApplied else p

def supersedeStaleCards (e : Env) (n : Node) : Surface → Node
  | .vault => n.supersedeStaleVaultCards e
  | .wallet => n.walletSupersedeDead e
  | _ => n

def afterApplied (e : Env) (n : Node) (id : UInt64) (surface : Surface) (payload : Value) : Node :=
  let n := (n.ensureAppliedRecord id surface payload).adjust id (settleCard payload)
  let n := if surface = .memory then n.supersedeStaleWiki e (some payload) else n
  ((n.stashVoted id).dropSigs id).supersedeStaleCards e surface

def afterChange (S : Site) (e : Env) (n : Node) (block : ChainBlock) : Node :=
  match block.change with
  | .applied id surface payload => n.afterApplied e id surface payload
  | .membership _ => n.settleMembershipRecords e block.change
  | .genesis _ => n
  | change =>
    match CutKind.of change with
    | none => n
    | some (upto, _, kind) => (n.forgetVotesFor e change).prune S e block upto kind

def staleCut (head : ChainHead) (change : ChainChange) : Bool :=
  match CutKind.of change with
  | none => false
  | some (upto, _, _) => decide (upto < head.height)

/-- `rebase_pending_approvals`: collections below the next height are stale, cuts below
the head are swept, and every stale proposal is looked at in turn. -/
def rebase (e : Env) (n : Node) : Outcome :=
  match n.head with
  | none => ⟨n, [], []⟩
  | some head =>
    let stale := (n.pendingSigs.entries.filter fun c => c.2.height < head.height + 1).map Sigma.fst
    -- a cut below the head can never seal; its id stays an own approval
    let swept := n.changesWhere (staleCut head)
    let n := swept.foldl (fun n id => (n.dropChange id).dropSigs id) n
    ⟨n, (e.order stale).map .resign ++ [.sweepRestores], []⟩

def resign (S : Site) (e : Env) (n : Node) (id : UInt64) : Outcome :=
  -- never the collected set: a peer can put junk under this seat's name there
  let mine := id ∈ n.ownApprovals
  let n := n.dropSigs id
  if mine ∧ n.isOpen id then n.chainSign S e id else ⟨n, [], []⟩

/-- `sweep_consented_restores`: restores that can no longer seal go, and those the head
made reachable are looked at. -/
def sweepRestores (S : Site) (e : Env) (n : Node) : Outcome :=
  match n.head with
  | none => ⟨n, [], []⟩
  | some head =>
    let anchor : ChainChange → Option (Membership × UInt64)
      | .membership m => (consentAnchor m).map fun h => (m, h)
      | _ => none
    let anchored := e.order (n.changesWhere fun c => (anchor c).isSome)
    let judged := anchored.filterMap fun id =>
      ((n.proposalChanges.lookup id).bind anchor).map fun a => (id, a)
    let dead := judged.filter fun c => (n.consentNeverSeals S c.2.1).isSome
    let reachable := judged.filter fun c => (n.consentNeverSeals S c.2.1).isNone ∧
      c.2.2 ≤ head.height ∧ c.1 ∉ n.ownApprovals ∧
      !(n.proposals.lookup c.1).any fun p => p.decliners.contains S.member
    ⟨(dead.map Prod.fst).foldl forgetVote n, (reachable.map Prod.fst).map .autoApprove, []⟩

def autoApproves (S : Site) (n : Node) (id : UInt64) (m : Membership) : Bool :=
  m.op == .restored && m.consent.isSome && !n.isTerminal id && S.member != m.member &&
    n.anchoredIdentity m.member == some m.identityPk &&
    (m.nostrPk.all fun npk =>
      (S.C.canonicalNostrPk npk).toOption == some npk && !n.anchorSeenInChain npk) &&
    (!(n.proposals.lookup id).any fun p => p.decliners.contains S.member) &&
    (match n.head.map fun h => n.restoreConsentAt S m (saturatingSucc h.height) with
      | some (.ok (.v2 _)) => true
      | _ => false) &&
    !n.ownSignatureStands S id

def autoApprove (S : Site) (e : Env) (n : Node) (id : UInt64) : Outcome :=
  match n.proposalChanges.lookup id with
  | some (.membership m) => if n.autoApproves S id m then n.chainSign S e id else ⟨n, [], []⟩
  | _ => ⟨n, [], []⟩

def worthFolding (state : CheckpointState) : Bool :=
  (groupOf state.applied .memory).any fun g => g.any fun c =>
    c.2.getStr "op" == some "wiki_patch" || c.2.getStr "op" == some "wiki_base"

def proposeCheckpoint (S : Site) (e : Env) (n : Node) : Outcome :=
  match n.head with
  | none => ⟨n, [], []⟩
  | some head =>
    if e.vaultBasePending then ⟨n, [], []⟩
    else
      match n.ownCutState S head.height (n.cutKind false) with
      | .error _ => ⟨n, [], []⟩
      | .ok unfolded =>
        let kind := n.cutKind (worthFolding unfolded.state)
        match n.ownCutState S head.height kind, n.mintProposalId S with
        | .ok folded, some (id, n) =>
          let n := n.register id (cutChange kind head.height folded.hash)
          if S.selfCosign then n.chainSign S e id else ⟨n, [], []⟩
        | _, _ => ⟨n, [], []⟩

def autoCheckpointMinLen : Nat := 32

def autoCheckpoint (S : Site) (e : Env) (n : Node) : Outcome :=
  match n.head with
  | none => ⟨n, [], []⟩
  | some head =>
    -- one proposer: the lowest-named seat, behind its own seal
    let lowest := (head.identities.any fun i => i.member == S.member) &&
      head.identities.all fun i => S.member ≤ i.member
    let voteOpen := !(n.cardsWhere fun _ p => p.state == .proposed).isEmpty ||
      !n.pendingSigs.entries.isEmpty || !(n.changesWhere fun c => (CutKind.of c).isSome).isEmpty
    if n.chain.blocks.length < autoCheckpointMinLen ∨ n.catchupFrom.isSome ∨
        (n.pendingBlocks.lookup (head.height + 1)).isSome ∨ !lowest ∨ voteOpen ∨
        e.vaultBasePending ∨ e.wikiBasePending then ⟨n, [], []⟩
    else n.proposeCheckpoint S e

/-- `adopt_committed_block` behind the bookkeeping: only a durable seal goes on. -/
def afterSeal (e : Env) (n : Node) (id : UInt64) : Outcome :=
  ⟨n.forgetVote id, if e.chainDurable then [.autoCheckpoint] else [], []⟩

def caughtUp (n : Node) (height : UInt64) : Node :=
  if n.catchupFrom.any fun h => h ≤ height then { n with catchupFrom := none } else n

def trimBuffer (n : Node) : Node :=
  let height := (n.head.map ChainHead.height).getD 0
  let stale := n.pendingBlocks.keys.filter fun h => h ≤ height
  { n with pendingBlocks := stale.foldl (fun m h => m.erase h) n.pendingBlocks }

def applyNextBlock (S : Site) (e : Env) (n : Node) (block : ChainBlock) : Node × List Task :=
  match n.appendCommittedBlock S e block with
  | (n, true) => (n, [.afterBlock block, .caughtUp block.height, .drain])
  | (n, false) => (n, [])

def drain (S : Site) (e : Env) (n : Node) : Outcome :=
  match n.head with
  | none => ⟨n.trimBuffer, [], []⟩
  | some head =>
    match n.pendingBlocks.lookup (head.height + 1) with
    | none => ⟨n.trimBuffer, [], []⟩
    | some block =>
      let n := { n with pendingBlocks := n.pendingBlocks.erase (head.height + 1) }
      match n.applyNextBlock S e block with
      | (n, []) => ⟨n.trimBuffer, [], []⟩
      | (n, calls) => ⟨n, calls, []⟩

def keepApproved (S : Site) (n : Node) (source : String) (id : UInt64) (member : String)
    (height : UInt64) (sig : String) : Node :=
  let landed := (n.pendingSigs.lookup id).any fun a =>
    a.sigs.any fun s => s.member == member && s.sig == sig
  -- kept under the peer's name, so never as an own decision
  if landed then n.applyApproved S source id member height sig else n

def requestCatchup (n : Node) (height : UInt64) : Node :=
  if n.head.isNone then n else { n with catchupFrom := some height }

/-- `try_reorg` behind the bookkeeping: the old branch's signatures go, and the standing
decisions are signed again in id order. -/
def resignAll (n : Node) : Outcome :=
  let n := { n with pendingSigs := ∅ }
  let open_ := (sortIds (n.cardsWhere fun _ p => p.state == .proposed)).filter (· ∈ n.ownApprovals)
  ⟨n, [.signOwn open_, .endReorg], []⟩

def signOwn (S : Site) (e : Env) (n : Node) : List UInt64 → Outcome
  | [] => ⟨n, [], []⟩
  | id :: ids =>
    let signed := n.chainSign S e id
    { signed with calls := signed.calls ++ [.signOwn ids] }

def endReorg (n : Node) : Node :=
  let n := { n with forkCandidates := ∅ }
  match n.head with
  | none => n
  | some head => { n with catchupFrom := none }.requestCatchup (saturatingSucc head.height)

end Node

def exec (S : Site) (e : Env) (n : Node) : Task → Outcome
  | .tryCommit id => n.tryCommit S e id
  | .sealed _ id => n.afterSeal e id
  | .afterBlock block => (n.afterChange S e block).rebase e
  | .resign id => n.resign S e id
  | .sweepRestores => n.sweepRestores S e
  | .autoApprove id => n.autoApprove S e id
  | .autoCheckpoint => n.autoCheckpoint S e
  | .caughtUp height => ⟨n.caughtUp height, [], []⟩
  | .requestCatchup height => ⟨n.requestCatchup height, [], []⟩
  | .drain => n.drain S e
  | .keepApproved source id member height sig => ⟨n.keepApproved S source id member height sig, [], []⟩
  | .resignAll => n.resignAll
  | .signOwn ids => n.signOwn S e ids
  | .endReorg => ⟨n.endReorg, [], []⟩

end Molt.Engine
