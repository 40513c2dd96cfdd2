import Mathlib
import MoltRepublic.Engine.Governance

/-! What reaches a node: the operator's commands, the frames of its peers and the blocks
they serve, with the tie-break and the reorg; and the runs of a node over them
(`proposals`, `ingest`, `sync`). -/

namespace Molt.Engine
open Molt.Core Json Chain

inductive Command where
  | propose (surface : Surface) (payload : Value)
  | approve (id : UInt64)
  | decline (id : UInt64)
  | withdraw (id : UInt64)
  | proposeCheckpoint
  deriving DecidableEq

inductive Frame where
  | proposed (id : UInt64) (surface : Surface) (payload : Value)
  | approved (id : UInt64) (member : String) (height : UInt64) (sig : String)
  | declined (id : UInt64) (member : String) (ts : UInt64) (hash : String)
  | withdrawn (id : UInt64) (member : String) (ts : UInt64)
  | checkpointProposed (id upto : UInt64) (stateHash : String) (folded : Bool)
  | membershipProposed (id : UInt64) (m : Membership)
  | committed (block : ChainBlock)
  | checkpointServed (blob : CheckpointState)
  deriving DecidableEq

inductive Input where
  | command (c : Command)
  | frame (source : String) (f : Frame)
  | tick
  deriving DecidableEq

def openCardsPerProposerMax : Nat := 64

def catchupBufferWindow : Nat := 4096

def reservedOp (payload : Value) : Bool :=
  payload.getStr "op" == some "restore_member" || payload.getStr "op" == some "add_member"

def isBaseEntryOp (payload : Value) : Bool :=
  payload.getStr "op" == some "wiki_base" || payload.getStr "op" == some "vault_base"

namespace Node

def cmdPropose (S : Site) (e : Env) (n : Node) (surface : Surface) (payload : Value) : Outcome :=
  match e.prepare surface payload with
  | none => ⟨n, [], []⟩
  | some payload =>
    if !surface.isGated || reservedOp payload || isBaseEntryOp payload then ⟨n, [], []⟩
    else
      match n.mintProposalId S with
      | none => ⟨n, [], []⟩
      | some (id, n) =>
        let n := n.applyProposed S e S.member id surface payload
        let decided := Entry.decided id surface payload
        if S.selfCosign then
          let signed := n.chainSign S e id
          { signed with log := decided :: signed.log }
        else ⟨n, [], [decided]⟩

def cmdApprove (S : Site) (e : Env) (n : Node) (id : UInt64) : Outcome :=
  match n.proposals.lookup id with
  | none => ⟨n, [], []⟩
  | some p =>
    if n.lags ∨ p.state ≠ .proposed ∨ !e.admitsVote p then ⟨n, [], []⟩
    else
      -- an approve over the own standing decline retracts it
      let n := n.adjust id fun p => { p with decliners := p.decliners.filter (· != S.member) }
      let signed := n.chainSign S e id
      { signed with log := .decided id p.surface p.payload :: signed.log }

def cmdDecline (S : Site) (e : Env) (n : Node) (id : UInt64) : Outcome :=
  match n.proposals.lookup id with
  | none => ⟨n, [], []⟩
  | some p =>
    if n.lags ∨ p.state ≠ .proposed ∨ S.member ∈ p.decliners then ⟨n, [], []⟩
    else
      ⟨(n.registerDecline S id S.member e.now (declinePayloadHash S.C p.payload)).1, [], [.revoked id]⟩

def cmdWithdraw (S : Site) (e : Env) (n : Node) (id : UInt64) : Outcome :=
  match n.proposals.lookup id with
  | none => ⟨n, [], []⟩
  | some p =>
    if p.state ≠ .proposed ∨ p.proposer ≠ S.member then ⟨n, [], []⟩
    else ⟨(n.registerWithdraw id S.member e.now).1, [], [.revoked id]⟩

def drainHeldSeals (n : Node) : Outcome :=
  let held := n.sealHeld.filter fun id => !n.isTerminal id
  ⟨{ n with sealHeld := [] }, held.map .tryCommit, []⟩

/-- `receive_proposed`, and whether the card is new here. -/
def receiveProposed (S : Site) (e : Env) (n : Node) (source : String) (id : UInt64)
    (surface : Surface) (payload : Value) : Node × Bool :=
  let known := n.proposals.lookup id
  let openBy := (n.cardsWhere fun _ p => p.state == .proposed && p.proposer == source).length
  if !n.plausibleWireId id || isBaseEntryOp payload || !e.admitsFrame id surface payload ||
      (known.isNone && openCardsPerProposerMax ≤ openBy) then (n, false)
  else
    let n := n.bump id
    -- an id that names a chain change must not also become a surface proposal, and an id
    -- the chain consumed can only be a stale resend
    if (n.proposalChanges.lookup id).isSome || (n.chain.walk.any fun w => id ∈ w.seen) ||
        known.isSome then (n, false)
    else
      let n := n.openCard id { surface := surface, payload := payload, proposer := source }
      let n := if surface = .vault then n.supersedeStaleVaultCards e else n
      let n := if surface = .memory then n.supersedeStaleWiki e none else n
      (n.reverifyPending S id, true)

/-- `after_wallet_proposed` and `wallet_review`, on a purse that holds no record and asked
no daemon: it signs nothing, and declines the init cards no purse here could honour. -/
def walletReview (S : Site) (e : Env) (n : Node) (id : UInt64) : Node :=
  let n := n.walletSupersedeDead e
  let isInit := fun p : ProposalRecord => p.state == .proposed && p.isWalletInit
  if (n.proposals.lookup id).any isInit then
    (n.cardsWhere fun _ p => isInit p && e.walletRefuses p.payload).foldl
      (fun n id => (n.cmdDecline S e id).node) n
  else n

/-- The ingest of a `Proposed`: a new card takes the voices that outran it, and goes into
the own log under its proposer; the voices go there too and find themselves known. -/
def deliverProposed (S : Site) (e : Env) (n : Node) (source : String) (id : UInt64)
    (surface : Surface) (payload : Value) : Node :=
  match n.receiveProposed S e source id surface payload with
  | (n, false) => n
  | (n, true) =>
    let n := (n.registerParkedWithdrawal id).1
    let n := n.registerParkedDeclines S id
    let n := n.applyProposed S e source id surface payload
    if surface = .wallet then n.walletReview S e id else n

def deliverApproved (S : Site) (n : Node) (source : String) (id : UInt64) (member : String)
    (height : UInt64) (sig : String) : Outcome :=
  let n := if member = source then
      n.adjust id fun p =>
        if p.state = .proposed then { p with decliners := p.decliners.filter (· != member) } else p
    else n
  let keep := Task.keepApproved source id member height sig
  let ahead := n.head.any fun h => h.height.toNat + 1 < height.toNat
  if sig = "" || !n.plausibleWireId id || ahead then ⟨n, [keep], []⟩
  else
    let verified := n.approvalVerifies S id height member sig
    let n := n.collectSig S id height member sig verified
    let n := if verified then n.markVerified id member else n
    ⟨n, [.tryCommit id, keep], []⟩

/-- `receive_checkpoint_proposal`: verify before sign, at the own head only. -/
def deliverCheckpointProposed (S : Site) (e : Env) (n : Node) (source : String) (id upto : UInt64)
    (stateHash : String) (folded : Bool) : Outcome :=
  let n := n.notePeerHeight S source upto
  if !n.plausibleWireId id then ⟨n, [], []⟩
  else
    let n := n.bump id
    let kind := n.cutKind folded
    let change := cutChange kind upto stateHash
    match n.head, n.ownCutState S upto kind with
    | some head, .ok cut =>
      -- one cut per head: the first id is the cut
      let doubled := n.proposalChanges.entries.any fun c => c.1 != id && c.2 == change
      if head.height ≠ upto ∨ cut.hash ≠ stateHash ∨ !n.idFreeFor id change ∨ doubled then ⟨n, [], []⟩
      else
        let n := n.register id change
        if n.ownSignatureStands S id then ⟨n, [], []⟩ else n.chainSign S e id
    | _, _ => ⟨n, [], []⟩

def deliverMembershipProposed (S : Site) (n : Node) (source : String) (id : UInt64) (m : Membership) :
    Outcome :=
  if !n.admitsMembershipProposal S id m then ⟨n, [], []⟩
  else
    let n := n.applyMembershipProposed S source id m
    -- the parked voices may have moved the node, so the gates are asked again
    if !n.admitsMembershipProposal S id m then ⟨n, [], []⟩
    else
      let n := n.bump id
      if n.restoreSealed m then
        ⟨n.adjust id fun p => if p.state = .proposed then p.settleApplied else p, [], []⟩
      else ⟨(n.register id (.membership m)).reverifyPending S id, [.autoApprove id], []⟩

def shed (m : Map ChainBlock) : Map ChainBlock :=
  let surplus := m.keys.length - catchupBufferWindow
  ((sortIds m.keys).reverse.take surplus).foldl (fun m h => m.erase h) m

def stashForkCandidate (n : Node) (block : ChainBlock) : Node :=
  { n with forkCandidates := shed (n.forkCandidates.insert block.height block) }

def blockAt (n : Node) (height : UInt64) : Option ChainBlock :=
  n.chain.blocks.find? fun b => b.height == height

/-- A displaced decision is a vote again where this node deliberated on it; a card that
only a block brought is forgotten. -/
def displace (n : Node) (id : UInt64) : Node :=
  match n.proposals.lookup id with
  | none => n
  | some p =>
    if p.proposer = "" then { n with proposals := n.proposals.erase id }
    else n.adjust id fun p => { p with state := .proposed }

def appliedIds (blocks : List ChainBlock) : List UInt64 := blocks.filterMap appliedId

/-- `relink_onto_variant`: the same decisions under other attestations, with the own blocks
above linked on. -/
def relinkOntoVariant (S : Site) (e : Env) (n : Node) (candidate : List ChainBlock) : Outcome :=
  let oldHead := (n.head.map ChainHead.height).getD 0
  let top := (candidate.getLast?.map ChainBlock.height).getD 0
  let relinked := (n.chain.blocks.filter fun b => top < b.height).foldl (fun c b =>
    c ++ [{ b with prev := (c.getLast?.map (S.C.blockHash n.chain.republicId)).getD "" }]) candidate
  let n := { n with forkCandidates := ∅ }
  match n.chain.walkOwn S.C relinked with
  | .error _ => ⟨n, [], []⟩
  | .ok _ =>
    let fresh := relinked.filter fun b => oldHead < b.height
    ⟨n.adoptChain S e relinked, fresh.map .afterBlock, []⟩

def forkRun (S : Site) (n : Node) (height : UInt64) : Nat → List ChainBlock → List ChainBlock
  | 0, run => run
  | fuel + 1, run =>
    match n.forkCandidates.lookup height with
    | none => run
    | some c =>
      if run.getLast?.all fun below => c.prev == S.C.blockHash n.chain.republicId below then
        forkRun S n (saturatingSucc height) fuel (run ++ [c])
      else run

def forkPoint (S : Site) (n : Node) (anchor : UInt64) : Option UInt64 :=
  (sortIds n.forkCandidates.keys).find? fun h => anchor < h &&
    match n.forkCandidates.lookup h, n.blockAt (h - 1) with
    | some c, some below => S.C.blockHash n.chain.republicId below == c.prev
    | _, _ => false

def requestBelow (n : Node) (anchor : UInt64) : Node :=
  match (sortIds n.forkCandidates.keys).head? with
  | some lowest =>
    if saturatingSucc anchor < lowest then n.requestCatchup (max (lowest - 1) (saturatingSucc anchor))
    else n
  | none => n

def adoptBranch (S : Site) (e : Env) (n : Node) (fork : UInt64) (candidate suffix : List ChainBlock) :
    Outcome :=
  let dropped := n.chain.blocks.filter fun b => fork ≤ b.height
  -- what the own suffix decided and the branch does not is a vote again
  let returned := (appliedIds dropped).filter (· ∉ appliedIds suffix)
  let n := returned.foldl displace (n.adoptChain S e candidate)
  ⟨n, suffix.map .afterBlock ++ [.resignAll], []⟩

def tryReorg (S : Site) (e : Env) (n : Node) : Outcome :=
  match n.chain.blocks.head? with
  | none => ⟨n, [], []⟩
  | some first =>
    match n.forkPoint S first.height with
    | none => ⟨n.requestBelow first.height, [], []⟩
    | some fork =>
      let suffix := n.forkRun S fork n.forkCandidates.keys.length []
      match n.blockAt fork, suffix.head? with
      | some ours, some theirs =>
        let rid := n.chain.republicId
        -- the smaller hash at the fork wins, whatever stands above it
        if S.C.blockHash rid ours ≤ S.C.blockHash rid theirs then
          ⟨{ n with forkCandidates := ∅ }, [], []⟩
        else
          let candidate := (n.chain.blocks.filter fun b => b.height < fork) ++ suffix
          let sameDecisions := suffix.all fun c =>
            (n.blockAt c.height).all fun o => o.change == c.change
          if sameDecisions then n.relinkOntoVariant S e candidate
          else
            match n.chain.walkOwn S.C candidate with
            | .error _ => ⟨{ n with forkCandidates := ∅ }, [], []⟩
            | .ok _ => n.adoptBranch S e fork candidate suffix
      | _, _ => ⟨n, [], []⟩

def adoptTip (e : Env) (n : Node) (blocks : List ChainBlock) (head : ChainHead) : Node :=
  { n with chain := { n.chain with blocks := blocks }, head := some head, headMovedAt := e.now
    }.applyChainToState e

def swapTip (S : Site) (e : Env) (n : Node) (block : ChainBlock) : Outcome :=
  let blocks := n.chain.blocks.dropLast ++ [block]
  match n.chain.walkOwn S.C blocks with
  | .error _ => ⟨n, [], []⟩
  | .ok w =>
    -- the mint counter is not raised past the contender's id here
    let displaced := (n.chain.blocks.getLast?.bind appliedId).toList
    ⟨displaced.foldl displace (n.adoptTip e blocks w.head), [.afterBlock block], []⟩

def tieBreak (S : Site) (e : Env) (n : Node) (block : ChainBlock) : Outcome :=
  match n.blockAt block.height with
  | none => ⟨n, [], []⟩
  | some existing =>
    if existing = block then ⟨n, [], []⟩
    else
      let rid := n.chain.republicId
      let wins := S.C.blockHash rid block < S.C.blockHash rid existing
      let isTip := n.chain.blocks.getLast?.any fun b => b.height == block.height
      let below := n.chain.blocks.find? fun b => saturatingSucc b.height == block.height
      let sharedPrev := below.all fun b => S.C.blockHash rid b == block.prev
      let signed := n.head.any fun h =>
        match blockSigners S.C rid h.identities block with
        | .ok signers => decide (h.ruleM.toNat ≤ signers.card)
        | .error _ => false
      -- the same decision under other attestations
      if sharedPrev ∧ existing.change = block.change then
        if wins ∧ signed then (n.stashForkCandidate block).tryReorg S e else ⟨n, [], []⟩
      else if !sharedPrev ∨ !isTip then (n.stashForkCandidate block).tryReorg S e
      else if wins ∧ signed then n.swapTip S e block
      else ⟨n, [], []⟩

def appliedPayloads (n : Node) (surface : Surface) : List Value :=
  (n.consumed.filter fun c => c.2.1 == surface).map fun c => c.2.2

def wikiBaseCommitted (n : Node) : Option String :=
  (n.appliedPayloads .memory).findSome? fun payload =>
    if payload.getStr "op" = some "wiki_base" then some ((payload.getStr "hash").getD "") else none

def vaultBaseCommitted (n : Node) : Option String :=
  if n.isVaultPrepared then
    ((n.appliedPayloads .vault).findSome? Vault.baseCommitmentOf).map Prod.fst
  else none

/-- `vault_base_now`: the base that answers the commitment, the empty one included. -/
def vaultBaseNow (S : Site) (n : Node) : Option Vault.VaultBase := do
  let want ← n.vaultBaseCommitted
  let kept := n.chain.held.vault.filter fun base => (Vault.commitment S.C base).1 == want
  kept <|> if (Vault.commitment S.C ⟨[]⟩).1 = want then some ⟨[]⟩ else none

/-- `drop_a_stale_wiki_base` and `drop_a_stale_vault_base`. -/
def dropStaleBases (S : Site) (n : Node) : Node :=
  let wiki := n.chain.held.wiki.filter fun tree =>
    some (wikiCommitment S.C tree).1 == n.wikiBaseCommitted
  { n with chain := { n.chain with held := ⟨wiki, n.vaultBaseNow S⟩ } }

def supersedeBehind (e : Env) (n : Node) (block : ChainBlock) : Node :=
  match block.change with
  | .applied _ .vault _ => n.supersedeStaleVaultCards e
  | _ => n

/-- A verified blob and its suffix take the place of the chain. The walk goes with the old
blob, and neither the mint counter nor the pacing clock moves. -/
def reanchor (S : Site) (e : Env) (n : Node) (blob : CheckpointState) (blocks : List ChainBlock)
    (head : ChainHead) : Outcome :=
  let n := { n with
    chain := { n.chain with checkpointBlob := some blob, walk := none, blocks := blocks }
    head := some head }
  let n := (n.trimBuffer.applyChainToState e).dropStaleBases S
  let n := blocks.foldl (supersedeBehind e) n
  let rebased := (n.walletSupersedeDead e).rebase e
  { rebased with calls := rebased.calls ++ [.caughtUp head.height] }

def bufferedRun (n : Node) (height : UInt64) : Nat → List ChainBlock
  | 0 => []
  | fuel + 1 =>
    match n.pendingBlocks.lookup height with
    | none => []
    | some block =>
      if height.toNat + 1 = 2 ^ 64 then [block] else block :: n.bufferedRun (height + 1) fuel

/-- `try_adopt_from_blob`: nothing of the stash is trusted until blob and suffix verify. -/
def tryAdoptFromBlob (S : Site) (e : Env) (n : Node) : Outcome :=
  match n.pendingServedBlob with
  | none => ⟨n, [], []⟩
  | some blob =>
    let cleared := { n with pendingServedBlob := none }
    if (n.head.any fun h => decide (blob.upto < h.height)) || blob.upto.toNat + 1 == 2 ^ 64 then
      ⟨cleared, [], []⟩
    else if (n.pendingBlocks.lookup (blob.upto + 1)).isNone then ⟨n, [], []⟩
    else
      let candidate := n.bufferedRun (blob.upto + 1) n.pendingBlocks.keys.length
      match walkSuffixChain S.C blob candidate n.chain.republicId n.chain.held with
      | .error _ => ⟨cleared, [], []⟩
      | .ok w => cleared.reanchor S e blob candidate w.head

/-- `receive_checkpoint_blob`: the first blob of this republic above the head is kept. -/
def receiveCheckpointBlob (S : Site) (e : Env) (n : Node) (blob : CheckpointState) : Outcome :=
  let behind := n.head.all fun h => decide (h.height < blob.upto)
  let rid := S.C.republicId blob.foundingName blob.ruleM blob.ruleN blob.foundingIdentities
  if !behind ∨ n.pendingServedBlob.isSome ∨ rid ≠ n.chain.republicId ∨ rid ≠ blob.republicId then
    ⟨n, [], []⟩
  else { n with pendingServedBlob := some blob }.tryAdoptFromBlob S e

def keepPending (n : Node) (block : ChainBlock) : Node :=
  { n with pendingBlocks := shed (n.pendingBlocks.insert block.height block) }

def buffer (S : Site) (e : Env) (n : Node) (head : ChainHead) (block : ChainBlock) : Outcome :=
  -- what the drain could reach, or the run of a blob that waits for its anchor
  let anchorOk := n.pendingServedBlob.any fun blob => decide (blob.upto < block.height) &&
    decide (block.height.toNat ≤ blob.upto.toNat + catchupBufferWindow)
  if head.height.toNat + catchupBufferWindow < block.height.toNat ∧ !anchorOk then ⟨n, [], []⟩
  else
    let adopted := (n.trimBuffer.keepPending block).tryAdoptFromBlob S e
    { adopted with calls := adopted.calls ++ [.requestCatchup (head.height + 1)] }

def receiveBlock (S : Site) (e : Env) (n : Node) (source : String) (block : ChainBlock) : Outcome :=
  let n := n.notePeerHeight S source block.height
  match n.head with
  | none => ⟨n, [], []⟩
  | some head =>
    if block.height.toNat = head.height.toNat + 1 then
      if block.prev ≠ head.hash then (n.stashForkCandidate block).tryReorg S e
      else
        match n.applyNextBlock S e block with
        | (n, calls) => ⟨n, calls, []⟩
    else if block.height ≤ head.height then n.tieBreak S e block
    else n.buffer S e head block

def command (S : Site) (e : Env) (n : Node) : Command → Outcome
  | .propose surface payload => n.cmdPropose S e surface payload
  | .approve id => n.cmdApprove S e id
  | .decline id => n.cmdDecline S e id
  | .withdraw id => n.cmdWithdraw S e id
  | .proposeCheckpoint => n.proposeCheckpoint S e

/-- The ingest of a frame from another seat of the roster. A decline and a withdraw carry
no signature: the link must be the claimed author. -/
def deliver (S : Site) (e : Env) (n : Node) (source : String) : Frame → Outcome
  | .proposed id surface payload => ⟨n.deliverProposed S e source id surface payload, [], []⟩
  | .approved id member height sig => n.deliverApproved S source id member height sig
  | .declined id member ts hash =>
    if member ≠ source ∨ n.declineWouldShed id member then ⟨n, [], []⟩
    else ⟨(n.registerDecline S id member ts hash).1, [], []⟩
  | .withdrawn id member ts =>
    if member ≠ source then ⟨n, [], []⟩ else ⟨(n.registerWithdraw id member ts).1, [], []⟩
  | .checkpointProposed id upto stateHash folded =>
    n.deliverCheckpointProposed S e source id upto stateHash folded
  | .membershipProposed id m => n.deliverMembershipProposed S source id m
  | .committed block => n.receiveBlock S e source block
  | .checkpointServed blob => n.receiveCheckpointBlob S e blob

def handle (S : Site) (e : Env) (n : Node) : Input → Outcome
  | .command c => if n.head.isNone then ⟨n, [], []⟩ else n.command S e c
  | .frame source f =>
    if n.head.isNone ∨ source ∉ n.roster ∨ source = S.member then ⟨n, [], []⟩
    else n.deliver S e source f
  | .tick => n.drainHeldSeals

end Node

structure Machine where
  node : Node
  calls : List Task
  log : List Entry

def Machine.turn (S : Site) (m : Machine) (t : Env × Input) : Machine :=
  match m.calls with
  | call :: calls =>
    let o := exec S t.1 m.node call
    ⟨o.node, o.calls ++ calls, m.log ++ o.log⟩
  | [] =>
    let o := m.node.handle S t.1 t.2
    ⟨o.node, o.calls, m.log ++ o.log⟩

def Machine.run (S : Site) (m : Machine) (turns : List (Env × Input)) : Machine :=
  turns.foldl (Machine.turn S) m

end Molt.Engine
