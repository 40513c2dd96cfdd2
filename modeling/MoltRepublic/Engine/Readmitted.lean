import Mathlib
import MoltRepublic.Engine.Ballots

/-! What a membership block leaves of the open membership cards: its own are applied and
their votes gone, the others stay on the vote at the new height. -/

namespace Molt.Engine
open Molt.Core Json Chain List

/-- The calls of a block's bookkeeping in their order, where no vote signed on the way
seals a further block. -/
def Outcome.settle (S : Site) (e : Env) (o : Outcome) : Node :=
  o.calls.foldl (fun n call => (exec S e n call).node) o.node

structure Beside (id : UInt64) (n m : Node) : Prop where
  alike : Alike id n m
  own : id ∈ m.ownApprovals ↔ id ∈ n.ownApprovals
  chain : m.chain = n.chain

namespace Beside

variable {id : UInt64} {n m k : Node}

theorem refl (n : Node) : Beside id n n := ⟨.refl n, .rfl, rfl⟩

theorem trans (h : Beside id n m) (h' : Beside id m k) : Beside id n k :=
  ⟨h.alike.trans h'.alike, h'.own.trans h.own, h'.chain.trans h.chain⟩

end Beside

namespace Node

variable {S : Site} {e : Env} {n : Node} {id : UInt64}

variable {j : UInt64}

def CardKept (id : UInt64) (n m : Node) : Prop :=
  ∀ p, n.proposals.lookup id = some p → ∃ q, m.proposals.lookup id = some q ∧
    q.state = p.state ∧ q.surface = p.surface ∧ q.payload = p.payload

theorem CardKept.of_eq {m : Node} (h : m.proposals.lookup id = n.proposals.lookup id) : CardKept id n m :=
  fun p hp => ⟨p, h.trans hp, rfl, rfl, rfl⟩

theorem CardKept.trans {m k : Node} (h : CardKept id n m) (h' : CardKept id m k) : CardKept id n k := by
  intro p hp
  obtain ⟨q, hq, hstate, hsurface, hpayload⟩ := h p hp
  obtain ⟨r, hr, hstate', hsurface', hpayload'⟩ := h' q hq
  exact ⟨r, hr, hstate'.trans hstate, hsurface'.trans hsurface, hpayload'.trans hpayload⟩

variable {p : ProposalRecord}

theorem consentNeverSeals_congr {k : Node} (hhead : k.head = n.head) (hchain : k.chain = n.chain)
    (hidentities : k.identities = n.identities) (m : Membership) :
    k.consentNeverSeals S m = n.consentNeverSeals S m := by
  have hworking : k.workingNostrPk = n.workingNostrPk := by
    funext member
    unfold workingNostrPk
    rw [hchain, hidentities]
  unfold consentNeverSeals restoreConsentAt nextChainHeight anchoredIdentity
  rw [hhead, hchain, hworking]

end Node

def Dropped (S : Site) (n : Node) (m : Membership) : Prop :=
  (Node.consentAnchor m).isSome ∧ (n.consentNeverSeals S m).isSome

/-- A card under a registered membership change describes it, unless a block brought it: so
`id_free_for` asks where the change is registered. -/
def Worn (n : Node) : Prop :=
  ∀ id m p, n.proposalChanges.lookup id = some (.membership m) → n.proposals.lookup id = some p →
    p.Settled ∨ Node.wearsMembership m.op m.member p = true

theorem Worn.open {n : Node} (h : Worn n) {id : UInt64} {m : Membership} {p : ProposalRecord}
    (hm : n.proposalChanges.lookup id = some (.membership m)) (hp : n.proposals.lookup id = some p)
    (hopen : p.state = .proposed) : Node.wearsMembership m.op m.member p = true :=
  (h id m p hm hp).resolve_left fun hs => by simp [hs.2] at hopen

namespace Node

variable {S : Site} {e : Env} {n : Node} {id : UInt64}

def Rest (n m : Node) : Prop :=
  ∃ own sigs cards, m = { n with ownApprovals := own, pendingSigs := sigs, proposals := cards }

theorem Rest.refl (n : Node) : Rest n n := ⟨_, _, _, rfl⟩

theorem Rest.trans {n m k : Node} (h : Rest n m) (h' : Rest m k) : Rest n k := by
  obtain ⟨_, _, _, rfl⟩ := h
  obtain ⟨own, sigs, cards, rfl⟩ := h'
  exact ⟨own, sigs, cards, rfl⟩

def Around (n m : Node) : Prop :=
  ∃ changes own sigs cards, m = { n with
    proposalChanges := changes, ownApprovals := own, pendingSigs := sigs, proposals := cards }

theorem Around.trans {n m k : Node} (h : Around n m) (h' : Around m k) : Around n k := by
  obtain ⟨_, _, _, _, rfl⟩ := h
  obtain ⟨changes, own, sigs, cards, rfl⟩ := h'
  exact ⟨changes, own, sigs, cards, rfl⟩

variable {p : ProposalRecord}

theorem Around.head {n m : Node} (h : Around n m) : m.head = n.head := by
  obtain ⟨_, _, _, _, rfl⟩ := h
  rfl

theorem Around.dropped {n m : Node} (h : Around n m) (k : Membership) : Dropped S m k ↔ Dropped S n k := by
  obtain ⟨_, _, _, _, rfl⟩ := h
  exact and_congr_right' (iff_of_eq (congrArg (fun why : Option String => why.isSome = true)
    (consentNeverSeals_congr rfl rfl rfl k)))

variable {block : ChainBlock}

end Node

namespace Sample
open Chain.Sample

def restoreOf (member : String) (n : UInt8) : Membership where
  op := .restored
  member := member
  identityPk := Text.hexEncode (key n)
  nostrPk := some "cd01"
  relays := []
  consent := none

def restoreCard (member : String) : ProposalRecord where
  surface := .organization
  payload := .obj [("member", .str member), ("op", .str "restore_member")]
  proposer := "ben"

def readmitting : Node :=
  { start.node with
    proposals := (∅ : Map ProposalRecord).insert 5 (restoreCard "ann") |>.insert 6 (restoreCard "ben")
    proposalChanges := (∅ : Map ChainChange).insert 5 (.membership (restoreOf "ann" 1)) |>.insert 6
      (.membership (restoreOf "ben" 2))
    pendingSigs := (∅ : Map PendingApproval).insert 6 ⟨1, [⟨"ben", "5e"⟩], ∅⟩ }

def readmitted : ChainBlock := next pair [("ben", 2)] opening (.membership (restoreOf "ann" 1))

def behind : Node := (readmitting.appendCommittedBlock site env readmitted).1

end Sample

end Molt.Engine
