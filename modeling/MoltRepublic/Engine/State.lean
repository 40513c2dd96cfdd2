import Mathlib
import MoltRepublic.Chain.Incremental

/-! A chain-governed node: the cards it knows, the signatures it collects and its own
decisions, beside the chain it holds (`molt-engine`). -/

namespace Molt.Engine
open Molt.Core Json Chain

inductive ProposalState where
  | proposed
  | applied
  | rejected
  deriving DecidableEq

inductive SupersededKind where
  | rebase
  | conflict
  deriving DecidableEq

structure ProposalRecord where
  surface : Surface
  payload : Value
  state : ProposalState := .proposed
  declinedAt : UInt64 := 0
  declinedBy : String := ""
  decliners : List String := []
  voted : List String := []
  /-- The seat that delivered the card first; empty where a block materialized it. -/
  proposer : String
  superseded : Bool := false
  supersededKind : Option SupersededKind := none
  withdrawn : Bool := false

namespace ProposalRecord

def settleApplied (p : ProposalRecord) : ProposalRecord :=
  { p with state := .applied, superseded := false, supersededKind := none }

def reserved (p : ProposalRecord) : Bool :=
  p.payload.getStr "op" == some "restore_member" || p.payload.getStr "op" == some "add_member"

def stash (members : List String) (p : ProposalRecord) : ProposalRecord :=
  { p with voted := members.foldl (fun voted m => if m ∈ voted then voted else voted ++ [m]) p.voted }

end ProposalRecord

structure PendingApproval where
  height : UInt64 := 0
  sigs : List RosterAttestation := []
  verified : Finset String := ∅

/-- One signature into a collection: stale heights are ignored, a newer one starts over,
and junk never evicts what verified. -/
def PendingApproval.collect (a : PendingApproval) (height : UInt64) (member sig : String)
    (verified : Bool) : PendingApproval :=
  let a := if a.height < height then { height := height } else a
  if height < a.height ∨ (¬verified ∧ member ∈ a.verified) then a
  else { a with
    verified := a.verified.erase member
    sigs := (a.sigs.filter fun s => s.member != member) ++ [⟨member, sig⟩] }

abbrev Map (α : Type) := AList fun _ : UInt64 => α

structure Node where
  chain : Holder
  head : Option ChainHead
  headMovedAt : UInt64
  sealHeld : List UInt64
  /-- The replica's identity table, whose names are the roster. -/
  identities : List MemberIdentity
  ruleM : UInt8
  nextId : UInt64
  proposals : Map ProposalRecord
  /-- The registered change of an open membership or checkpoint proposal. -/
  proposalChanges : Map ChainChange
  pendingSigs : Map PendingApproval
  /-- The proposals this node signed. -/
  ownApprovals : Finset UInt64
  pendingDeclines : Map (List (String × UInt64 × String))
  pendingWithdrawals : Map (String × UInt64)
  pendingBlocks : Map ChainBlock
  forkCandidates : Map ChainBlock
  catchupFrom : Option UInt64
  peerHeights : AList fun _ : String => UInt64
  /-- A served blob that waits for its anchor. -/
  pendingServedBlob : Option CheckpointState := none

structure Site where
  C : Crypto
  member : String
  sign : Option (List UInt8 → String)
  selfCosign : Bool
  sealPaceSecs : UInt64

/-- What one step reads of the engine around the node: its clock, its disk and the
verdicts of the vault, the purse, the wiki and the payload checks, which decide whether a
card opens, closes or is signed and write nothing else of a node. -/
structure Env where
  now : UInt64
  chainDurable : Bool
  wikiDurable : Bool
  vaultDurable : Bool
  /-- The order in which a hash map yields its keys. -/
  order : List UInt64 → List UInt64
  order_perm : ∀ l, (order l).Perm l
  /-- The payload as the propose gates record it. -/
  prepare : Surface → Value → Option Value
  admitsVote : ProposalRecord → Bool
  admitsFrame : UInt64 → Surface → Value → Bool
  vaultApproves : Value → Bool
  walletApproves : Value → Bool
  /-- Whether an init card is out of the purse's bounds, so that its review declines it. -/
  walletRefuses : Value → Bool
  vaultBasePending : Bool
  wikiBasePending : Bool
  /-- The wiki walk on an open patch, after a change that moved the tree or over all. -/
  wikiVerdict : Node → Option Value → UInt64 → Option SupersededKind
  /-- Whether the vault has moved past a card, where its walk runs and judges it. -/
  vaultReplaced : Node → ProposalRecord → Option Bool
  walletDead : Node → UInt64 → Bool

namespace Node

def roster (n : Node) : List String := n.identities.map MemberIdentity.member

def adjust (n : Node) (id : UInt64) (f : ProposalRecord → ProposalRecord) : Node :=
  match n.proposals.lookup id with
  | some p => { n with proposals := n.proposals.insert id (f p) }
  | none => n

def adjustSigs (n : Node) (id : UInt64) (f : PendingApproval → PendingApproval) : Node :=
  match n.pendingSigs.lookup id with
  | some a => { n with pendingSigs := n.pendingSigs.insert id (f a) }
  | none => n

def openCard (n : Node) (id : UInt64) (p : ProposalRecord) : Node :=
  match n.proposals.lookup id with
  | some _ => n
  | none => { n with proposals := n.proposals.insert id p }

def register (n : Node) (id : UInt64) (change : ChainChange) : Node :=
  { n with proposalChanges := n.proposalChanges.insert id change }

def dropSigs (n : Node) (id : UInt64) : Node := { n with pendingSigs := n.pendingSigs.erase id }

def dropChange (n : Node) (id : UInt64) : Node :=
  { n with proposalChanges := n.proposalChanges.erase id }

def bump (n : Node) (id : UInt64) : Node := { n with nextId := max n.nextId (saturatingSucc id) }

def cardsWhere (n : Node) (q : UInt64 → ProposalRecord → Bool) : List UInt64 :=
  (n.proposals.entries.filter fun c => q c.1 c.2).map Sigma.fst

def changesWhere (n : Node) (q : ChainChange → Bool) : List UInt64 :=
  (n.proposalChanges.entries.filter fun c => q c.2).map Sigma.fst

def isOpen (n : Node) (id : UInt64) : Bool :=
  (n.proposals.lookup id).any fun p => p.state == .proposed

def isTerminal (n : Node) (id : UInt64) : Bool :=
  (n.proposals.lookup id).any fun p => p.state != .proposed

def proposalChange (n : Node) (id : UInt64) : Option ChainChange :=
  match n.proposalChanges.lookup id with
  | some change => some change
  | none =>
    match n.proposals.lookup id with
    | none => none
    | some p => if p.reserved then none else some (.applied id p.surface p.payload)

def wearsMembership (op : MembershipOp) (member : String) (p : ProposalRecord) : Bool :=
  let want := match op with
    | .restored => "restore_member"
    | .joined => "add_member"
  p.surface == .organization && p.payload.getStr "op" == some want &&
    p.payload.getStr "member" == some member

/-- `id_free_for`: whether a peer-chosen id may register this change. -/
def idFreeFor (n : Node) (id : UInt64) (change : ChainChange) : Bool :=
  match n.proposalChanges.lookup id with
  | some existing => existing == change
  | none =>
    match n.proposals.lookup id with
    | none => true
    | some p =>
      match change with
      | .membership m => wearsMembership m.op m.member p
      | _ => false

def ownSignatureStands (S : Site) (n : Node) (id : UInt64) : Bool :=
  match n.head with
  | none => false
  | some head =>
    (n.pendingSigs.lookup id).any fun a =>
      a.height == head.height + 1 && a.sigs.any fun s => s.member == S.member

def stashVoted (n : Node) (id : UInt64) : Node :=
  match n.pendingSigs.lookup id with
  | none => n
  | some a => n.adjust id (·.stash (a.sigs.map RosterAttestation.member))

def forgetVote (n : Node) (id : UInt64) : Node := ((n.stashVoted id).dropSigs id).dropChange id

def forgetVotesFor (e : Env) (n : Node) (sealed : ChainChange) : Node :=
  (e.order (n.changesWhere (· == sealed))).foldl forgetVote n

def isRostered (n : Node) (member : String) : Bool :=
  match n.head with
  | some h => h.identities.any fun i => i.member == member
  | none => n.roster.contains member

def collectSig (S : Site) (n : Node) (id height : UInt64) (member sig : String) (verified : Bool) :
    Node :=
  -- junk under the node's own name is dropped
  if n.isTerminal id || !n.isRostered member || (!verified && member == S.member) then n
  else
    let a := (n.pendingSigs.lookup id).getD {}
    { n with pendingSigs := n.pendingSigs.insert id (a.collect height member sig verified) }

def markVerified (n : Node) (id : UInt64) (member : String) : Node :=
  n.adjustSigs id fun a => { a with verified := insert member a.verified }

def approvalVerifies (S : Site) (n : Node) (id height : UInt64) (member sig : String) : Bool :=
  match n.head, n.proposalChange id with
  | some head, some change =>
    height == head.height + 1 && head.identities.any fun i =>
      i.member == member &&
        S.C.identityVerify i.identityPk (approvalBytes n.chain.republicId height change) sig
  | _, _ => false

def reverifyPending (S : Site) (n : Node) (id : UInt64) : Node :=
  match n.pendingSigs.lookup id with
  | none => n
  | some a =>
    (a.sigs.filter fun s => s.member ∉ a.verified).foldl
      (fun n s => if n.approvalVerifies S id a.height s.member s.sig
        then n.markVerified id s.member else n) n

/-- `seat_stride` and `mint_proposal_id`: the next id of this seat's class. Where the sum
leaves 64 bits the code aborts and nothing is minted. -/
def mintProposalId (S : Site) (n : Node) : Option (UInt64 × Node) :=
  let roster := n.roster.insertionSort (· ≤ ·)
  let stride := max roster.length 1
  let k := if S.member ∈ roster then roster.idxOf S.member else 0
  let floor := max n.nextId.toNat 1
  let want := (k + 1) % stride
  let id := floor + (want + stride - floor % stride) % stride
  if id < 2 ^ 64 then
    some (UInt64.ofNat id, { n with nextId := saturatingSucc (UInt64.ofNat id) })
  else none

def mintingSeat (n : Node) (id : UInt64) : Option String :=
  let roster := n.roster.insertionSort (· ≤ ·)
  let stride := roster.length
  if stride = 0 then none else roster[(id.toNat % stride + stride - 1) % stride]?

def parkedDeclineIdWindow : Nat := 1024

def plausibleWireId (n : Node) (id : UInt64) : Bool :=
  decide (id.toNat ≤ n.nextId.toNat + parkedDeclineIdWindow)

def notePeerHeight (S : Site) (n : Node) (source : String) (height : UInt64) : Node :=
  if source = "" ∨ source = S.member then n
  else
    let claimed := (n.peerHeights.lookup source).getD 0
    { n with peerHeights := n.peerHeights.insert source (max claimed height) }

def lags (n : Node) : Bool :=
  let head := (n.head.map ChainHead.height).getD 0
  n.peerHeights.entries.any fun p => head < p.2

end Node

end Molt.Engine
