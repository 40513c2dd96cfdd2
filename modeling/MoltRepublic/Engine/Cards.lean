import Mathlib
import MoltRepublic.Engine.State

/-! How a card changes: declines and withdrawals, parked ones included, the walks that
supersede it, and the chain that settles it (`proposals`, `projection`). -/

namespace Molt.Engine
open Molt.Core Json Chain Vault

inductive DeclineOutcome where
  | known
  | parked
  | voice
  | rejected
  deriving DecidableEq

inductive WithdrawOutcome where
  | ignored
  | parked
  | withdrawn
  deriving DecidableEq

def parkedDeclineIdsMax : Nat := 1024

def parkedDeclinesPerMemberMax : Nat := 64

def declinePayloadHash (C : Crypto) (payload : Value) : String :=
  C.contentHash (tag "molt-decline-payload-v1" ++ toVec payload)

def ProposalRecord.isWalletInit (p : ProposalRecord) : Bool :=
  p.surface == .wallet && p.payload.getStr "op" == some "wallet_init"

def ProposalRecord.decline (p : ProposalRecord) (member : String) (ts : UInt64) (vetoRoom : Nat) :
    ProposalRecord :=
  let p := { p with decliners := p.decliners ++ [member] }
  if vetoRoom < p.decliners.length then
    { p with state := .rejected, declinedAt := ts, declinedBy := member }
  else p

def ProposalRecord.pullBack (p : ProposalRecord) (ts : UInt64) : ProposalRecord :=
  { p with state := .rejected, withdrawn := true, declinedAt := ts }

def ProposalRecord.retire (p : ProposalRecord) : ProposalRecord :=
  { p with state := .rejected, superseded := true, supersededKind := some .conflict }

def ProposalRecord.revive (p : ProposalRecord) : ProposalRecord :=
  { p with state := .proposed, superseded := false, supersededKind := none }

def ProposalRecord.materialized (surface : Surface) (payload : Value) : ProposalRecord :=
  { surface := surface, payload := payload, state := .applied, proposer := "" }

namespace Node

def parkFull (n : Node) (id : UInt64) (member : String) : Bool :=
  let memberParked := n.pendingDeclines.entries.countP fun c => c.2.any fun d => d.1 == member
  (n.pendingDeclines.lookup id).isNone &&
    (parkedDeclineIdsMax ≤ n.pendingDeclines.entries.length || parkedDeclinesPerMemberMax ≤ memberParked)

def declineWouldShed (n : Node) (id : UInt64) (member : String) : Bool :=
  n.head.isSome && (n.proposals.lookup id).isNone && n.plausibleWireId id && n.parkFull id member

def parkDecline (n : Node) (id : UInt64) (member : String) (ts : UInt64) (hash : String) :
    Node × DeclineOutcome :=
  if !n.plausibleWireId id then (n, .known)
  else
    let n := n.bump id
    if n.parkFull id member then (n, .known)
    else
      let voices := (n.pendingDeclines.lookup id).getD []
      let voices := if voices.any fun d => d.1 == member then voices
        else voices ++ [(member, ts, hash)]
      ({ n with pendingDeclines := n.pendingDeclines.insert id voices }, .parked)

def vetoRoom (n : Node) (p : ProposalRecord) : Nat :=
  -- one decline kills the purse's init card
  if p.isWalletInit then 0 else n.identities.length - max n.ruleM.toNat 1

/-- One member, one stance: a decline takes the member's signature back, and the own
decision with it. -/
def retract (S : Site) (n : Node) (id : UInt64) (member : String) : Node :=
  let n := n.adjustSigs id fun a => { a with
    sigs := a.sigs.filter fun s => s.member != member, verified := a.verified.erase member }
  if member = S.member then { n with ownApprovals := n.ownApprovals.erase id } else n

def registerDecline (S : Site) (n : Node) (id : UInt64) (member : String) (ts : UInt64)
    (hash : String) : Node × DeclineOutcome :=
  match n.proposals.lookup id with
  | none => n.parkDecline id member ts hash
  | some p =>
    -- the voice binds the payload its member saw
    if hash ≠ "" ∧ declinePayloadHash S.C p.payload ≠ hash then (n, .known)
    else if p.state ≠ .proposed ∨ member ∈ p.decliners then (n, .known)
    else
      let room := n.vetoRoom p
      let n := (n.retract S id member).adjust id (·.decline member ts room)
      if (p.decline member ts room).state = .rejected then (n.stashVoted id, .rejected)
      else (n, .voice)

def registerParkedDeclines (S : Site) (n : Node) (id : UInt64) : Node :=
  match n.pendingDeclines.lookup id with
  | none => n
  | some parked =>
    parked.foldl (fun n d => (n.registerDecline S id d.1 d.2.1 d.2.2).1)
      { n with pendingDeclines := n.pendingDeclines.erase id }

def parkWithdraw (n : Node) (id : UInt64) (member : String) (ts : UInt64) : Node × WithdrawOutcome :=
  if !n.plausibleWireId id then (n, .ignored)
  else
    let n := n.bump id
    match n.pendingWithdrawals.lookup id with
    | some _ => (n, .parked)
    | none =>
      if parkedDeclineIdsMax ≤ n.pendingWithdrawals.entries.length then (n, .ignored)
      else ({ n with pendingWithdrawals := n.pendingWithdrawals.insert id (member, ts) }, .parked)

def registerWithdraw (n : Node) (id : UInt64) (member : String) (ts : UInt64) :
    Node × WithdrawOutcome :=
  match n.proposals.lookup id with
  | none => n.parkWithdraw id member ts
  | some p =>
    if p.state ≠ .proposed then (n, .ignored)
    -- the card belongs to the seat whose stride its id lies on
    else if (n.mintingSeat id).getD p.proposer ≠ member then (n, .ignored)
    else
      let n := ((n.adjust id (·.pullBack ts)).stashVoted id).dropSigs id
      ({ n with
        ownApprovals := n.ownApprovals.erase id
        pendingDeclines := n.pendingDeclines.erase id }, .withdrawn)

def registerParkedWithdrawal (n : Node) (id : UInt64) : Node × WithdrawOutcome :=
  match n.pendingWithdrawals.lookup id with
  | none => (n, .ignored)
  | some (member, ts) =>
    { n with pendingWithdrawals := n.pendingWithdrawals.erase id }.registerWithdraw id member ts

def supersedeStaleWiki (e : Env) (n : Node) (moved : Option Value) : Node :=
  let open_ := n.cardsWhere fun _ p =>
    p.surface == .memory && p.state == .proposed && p.payload.getStr "op" == some "wiki_patch"
  open_.foldl (fun m id =>
    match e.wikiVerdict n moved id with
    | none => m
    | some .rebase => m.adjust id fun p => { p with supersededKind := some .rebase }
    | some .conflict => (m.adjust id fun p => if p.state = .proposed then p.retire else p).stashVoted id) n

def markOpenWikiPatchesRebased (n : Node) : Node :=
  let open_ := n.cardsWhere fun _ p =>
    p.surface == .memory && p.state == .proposed && p.payload.getStr "op" == some "wiki_patch"
  open_.foldl (fun m id => m.adjust id fun p => { p with supersededKind := some .rebase }) n

/-- `supersede_stale_vault_cards`: cards the vault moved past close, and those a reorg
made current again are votes again. -/
def supersedeStaleVaultCards (e : Env) (n : Node) : Node :=
  (n.cardsWhere fun _ p => p.surface == .vault).foldl (fun m id =>
    match (n.proposals.lookup id).bind (e.vaultReplaced n) with
    | none => m
    | some true => (m.adjust id fun p => if p.state = .proposed then p.retire else p).stashVoted id
    | some false => m.adjust id fun p =>
      if p.state = .rejected ∧ p.superseded ∧ p.supersededKind = some .conflict then p.revive
      else p) n

def walletSupersedeDead (e : Env) (n : Node) : Node :=
  let dead := n.cardsWhere fun id p => p.surface == .wallet && p.state == .proposed && e.walletDead n id
  dead.foldl (fun m id =>
    ((m.adjust id fun p => if p.state = .proposed then p.retire else p).stashVoted id).dropSigs id) n

def ensureAppliedRecord (n : Node) (id : UInt64) (surface : Surface) (payload : Value) : Node :=
  n.openCard id (.materialized surface payload)

/-- `settle_membership_records`: a membership block carries no id, so its open cards and
its vote are found by content. -/
def settleMembershipRecords (e : Env) (n : Node) (sealed : ChainChange) : Node :=
  match sealed with
  | .membership m =>
    let ids := n.cardsWhere fun _ p => p.state == .proposed && wearsMembership m.op m.member p
    (ids.foldl (fun n id => n.adjust id (·.settleApplied)) n).forgetVotesFor e sealed
  | _ => n

def consumed (n : Node) : List (UInt64 × Surface × Value) :=
  let below := match n.chain.checkpointBlob with
    | none => []
    | some blob => blob.applied.flatMap fun g => g.2.map fun c => (c.1, g.1, c.2)
  below ++ n.chain.blocks.filterMap fun b =>
    match b.change with
    | .applied id surface payload => some (id, surface, payload)
    | _ => none

def consumedIds (n : Node) : List UInt64 :=
  (n.chain.checkpointBlob.map CheckpointState.consumedIds).getD []

def settleCardsAgainstChain (e : Env) (n : Node) : Node :=
  let missing := n.consumed.filter fun c => (n.proposals.lookup c.1).isNone
  let stale := ((n.consumed.map Prod.fst) ++ n.consumedIds).filter fun id =>
    (n.proposals.lookup id).any fun p => p.state != .applied
  let n := missing.foldl (fun n c => (n.ensureAppliedRecord c.1 c.2.1 c.2.2).forgetVote c.1) n
  let n := stale.foldl (fun n id => (n.adjust id (·.settleApplied)).forgetVote id) n
  (n.chain.blocks.map ChainBlock.change).foldl (settleMembershipRecords e) n

def adoptHeadRoster (n : Node) : Node :=
  match n.head with
  | some head => { n with identities := head.identities }
  | none => n

/-- `apply_chain_to_state`, whose projections are read off the chain. -/
def applyChainToState (e : Env) (n : Node) : Node :=
  ((n.settleCardsAgainstChain e).supersedeStaleWiki e none |>.supersedeStaleVaultCards e).adoptHeadRoster

def bumpNextIdPastChain (n : Node) : Node :=
  match n.chain.walk with
  | none => n
  | some w => if w.seen = ∅ then n else n.bump (UInt64.ofNat (w.seen.sup UInt64.toNat))

def adoptChain (S : Site) (e : Env) (n : Node) (blocks : List ChainBlock) : Node :=
  match n.chain.walkOwn S.C blocks with
  | .ok w =>
    let n := { n with
      chain := { n.chain with blocks := blocks, walk := some w }
      head := some w.head
      headMovedAt := e.now }
    n.bumpNextIdPastChain.applyChainToState e
  | .error _ =>
    { n with chain := { n.chain with blocks := [], walk := none, checkpointBlob := none }, head := none }

/-- The applier of a recorded `Proposed`: a card under a fresh id, and what was parked
for it. -/
def applyProposed (S : Site) (e : Env) (n : Node) (author : String) (id : UInt64) (surface : Surface)
    (payload : Value) : Node :=
  let n := (n.openCard id { surface := surface, payload := payload, proposer := author }).bump id
  let n := ((n.registerParkedDeclines S id).registerParkedWithdrawal id).1
  if surface = .memory then n.supersedeStaleWiki e none else n

/-- The applier of a recorded `Approved`: a vote under the seat's own envelope is its own
decision, and the newest stance wins. -/
def applyApproved (S : Site) (n : Node) (author : String) (id : UInt64) (member : String)
    (height : UInt64) (sig : String) : Node :=
  let mine := member == S.member && author == S.member
  let n := if mine then { n with ownApprovals := insert id n.ownApprovals } else n
  let n := if sig = "" then n
    else
      let n := n.collectSig S id height member sig mine
      if mine then n.markVerified id member else n
  n.adjust id fun p =>
    if p.state = .proposed then { p with decliners := p.decliners.filter (· != member) } else p

def applyMembershipProposed (S : Site) (n : Node) (author : String) (id : UInt64) (m : Membership) :
    Node :=
  let op := match m.op with
    | .restored => "restore_member"
    | .joined => "add_member"
  let payload : Value := .obj [("member", .str m.member), ("op", .str op)]
  let n := n.openCard id { surface := .organization, payload := payload, proposer := author }
  let n := if n.plausibleWireId id then n.bump id else n
  ((n.registerParkedDeclines S id).registerParkedWithdrawal id).1

end Node

end Molt.Engine
