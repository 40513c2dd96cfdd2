import Mathlib
import MoltRepublic.Engine.Consumed

/-! A card reads applied only for the change the chain applied, where no settlement meets a
card whose id the chain consumed for another change. -/

namespace Molt.Engine
open Molt.Core Json Chain List

def appliedBy (h : Holder) : List (UInt64 × Surface × Value) :=
  (match h.checkpointBlob with
    | none => []
    | some blob => blob.applied.flatMap fun g => g.2.map fun c => (c.1, g.1, c.2)) ++
  h.blocks.filterMap fun b =>
    match b.change with
    | .applied id surface payload => some (id, surface, payload)
    | _ => none

theorem consumed_eq (n : Node) : n.consumed = appliedBy n.chain := by
  cases n.chain.checkpointBlob <;> rfl

def Accounts (h : Holder) (id : UInt64) (surface : Surface) (payload : Value) : Prop :=
  ∀ c ∈ appliedBy h, c.1 = id → c.2 = (surface, payload)

/-- Every card that reads applied came from the chain, or carries the change the chain
applied under its id. -/
def Truthful (n : Node) : Prop :=
  ∀ id p, n.proposals.lookup id = some p → p.state = .applied →
    p.proposer = "" ∨ Accounts n.chain id p.surface p.payload

def Agrees (n : Node) (h : Holder) : Prop :=
  ∀ id p, n.proposals.lookup id = some p → p.proposer ≠ "" → Accounts h id p.surface p.payload

/-- Where a move leaves the cards truthful. `settle_cards_against_chain` settles every card
whose id the chain consumed, whatever it carries; a block's own bookkeeping compares the
payload alone. -/
def Move.cardsAgree (n : Node) (Q : Settling) : Move → Prop
  | .still => ∀ id surface payload, Q id surface payload → Accounts n.chain id surface payload
  | .refused _ => True
  | .appended block => ∀ id surface payload, block.change = .applied id surface payload →
      ∀ p, n.proposals.lookup id = some p → p.state = .applied → p.proposer ≠ "" →
        p.surface = surface ∧ p.payload = payload
  | .adopted blocks => Agrees n { n.chain with blocks := blocks }
  | .swapped block => ∀ id p, n.proposals.lookup id = some p → p.proposer ≠ "" →
      n.chain.blocks.getLast?.bind appliedId ≠ some id →
        Accounts { n.chain with blocks := n.chain.blocks.dropLast ++ [block] } id p.surface p.payload
  | .reanchored blob blocks => Agrees n (anchoredOn n.chain blob blocks)
  | .pruned cut folded => Agrees n (prunedAt n.chain cut folded)

instance (h : Holder) (id : UInt64) (surface : Surface) (payload : Value) :
    Decidable (Accounts h id surface payload) :=
  inferInstanceAs (Decidable (∀ c ∈ appliedBy h, c.1 = id → c.2 = (surface, payload)))

section

variable {S : Site} {Q : Settling} {n m : Node} {o : Outcome}

theorem agrees_of_entries {h : Holder} (hcards : ∀ c ∈ n.proposals.entries, c.2.proposer ≠ "" →
    Accounts h c.1 c.2.surface c.2.payload) : Agrees n h := by
  intro id p hp hne
  exact hcards ⟨id, p⟩ (AList.mem_lookup_iff.mp hp) hne

theorem Accounts.congr {h k : Holder} (hblob : k.checkpointBlob = h.checkpointBlob)
    (hblocks : k.blocks = h.blocks) {id : UInt64} {surface : Surface} {payload : Value}
    (haccounts : Accounts h id surface payload) : Accounts k id surface payload := by
  unfold Accounts appliedBy
  rw [hblob, hblocks]
  exact haccounts

theorem Accounts.concat {h k : Holder} {b : ChainBlock} (hblob : k.checkpointBlob = h.checkpointBlob)
    (hblocks : k.blocks = h.blocks ++ [b]) {id : UInt64} {surface : Surface} {payload : Value}
    (haccounts : Accounts h id surface payload)
    (hb : ∀ s v, b.change = .applied id s v → (s, v) = (surface, payload)) :
    Accounts k id surface payload := by
  intro c hc hid
  unfold appliedBy at hc
  rw [hblob, hblocks, filterMap_append, ← append_assoc] at hc
  rcases mem_append.mp hc with hbefore | hlast
  · exact haccounts c hbefore hid
  · cases hchange : b.change with
    | applied j s v =>
      simp only [filterMap_cons, hchange, filterMap_nil, mem_singleton] at hlast
      subst hlast hid
      exact hb s v hchange
    | _ => simp [hchange] at hlast

theorem Books.truthful (hbooks : Books (.known n) n m) (hagrees : Agrees n m.chain) :
    Truthful m := by
  intro id p hp happlied
  by_cases hproposer : p.proposer = ""
  · exact .inl hproposer
  right
  rcases hbooks.cards hp happlied hproposer with ⟨q, hq, hne, hsurface, hpayload⟩ |
    ⟨q, hq, -, hne, hsurface, hpayload⟩
  · rw [← hsurface, ← hpayload]
    exact hagrees id q hq hne
  · rw [← hsurface, ← hpayload]
    exact hagrees id q hq hne

theorem Truthful.moves (h : Truthful n) {mv : Move} (hmv : Moves S Q n o mv)
    (hagree : mv.cardsAgree n Q) : Truthful o.node := by
  cases hmv with
  | still hstill _ =>
    intro id p hp happlied
    by_cases hproposer : p.proposer = ""
    · exact .inl hproposer
    rw [hstill.chain]
    rcases hstill.cards hp happlied hproposer with hsettled | ⟨q, hq, hqa, hne, hsurface, hpayload⟩
    · exact .inr (hagree id p.surface p.payload hsettled)
    · rw [← hsurface, ← hpayload]
      exact .inr ((h id q hq hqa).resolve_left hne)
  | refused htried _ hbooks _ =>
    intro id p hp happlied
    by_cases hproposer : p.proposer = ""
    · exact .inl hproposer
    obtain ⟨q, hq, hqa, hne, hsurface, hpayload⟩ :=
      (hbooks.cards hp happlied hproposer).resolve_left not_false
    right
    rw [← hsurface, ← hpayload]
    have hchain : ∃ walk, o.node.chain = { n.chain with walk := walk } := by
      rcases extendOwn_refused htried with ⟨w, -, hkept⟩ | ⟨-, hkept⟩
      all_goals exact ⟨_, hkept⟩
    obtain ⟨walk, hchain⟩ := hchain
    exact Accounts.congr (by rw [hchain]) (by rw [hchain]) ((h id q hq hqa).resolve_left hne)
  | @appended block chain head htried hchain _ _ hbooks _ =>
    obtain ⟨w, w', -, -, rfl, -⟩ := extendOwn_ok htried
    intro id p hp happlied
    by_cases hproposer : p.proposer = ""
    · exact .inl hproposer
    obtain ⟨q, hq, hqa, hne, hsurface, hpayload⟩ :=
      (hbooks.cards hp happlied hproposer).resolve_left not_false
    right
    rw [← hsurface, ← hpayload]
    refine Accounts.concat (h := n.chain) (b := block) (by rw [hchain]) (by rw [hchain])
      ((h id q hq hqa).resolve_left hne) fun s v hchange => ?_
    obtain ⟨hs, hv⟩ := hagree id s v hchange q hq hqa hne
    rw [hs, hv]
  | @adopted blocks w _ _ hchain _ _ hbooks =>
    refine hbooks.truthful fun id p hp hne => ?_
    refine Accounts.congr ?_ ?_ (hagree id p hp hne) <;> rw [hchain]
  | @swapped block w _ _ hchain _ hbooks hdisplaced _ =>
    intro id p hp happlied
    by_cases hproposer : p.proposer = ""
    · exact .inl hproposer
    have hother : n.chain.blocks.getLast?.bind appliedId ≠ some id :=
      fun hid => hproposer (hdisplaced id hid p hp happlied)
    have haccounts : ∀ q, n.proposals.lookup id = some q → q.proposer ≠ "" →
        Accounts o.node.chain id q.surface q.payload := by
      intro q hq hne
      refine Accounts.congr ?_ ?_ (hagree id q hq hne hother) <;> rw [hchain]
    right
    rcases hbooks.cards hp happlied hproposer with ⟨q, hq, hne, hsurface, hpayload⟩ |
      ⟨q, hq, -, hne, hsurface, hpayload⟩
    · rw [← hsurface, ← hpayload]
      exact haccounts q hq hne
    · rw [← hsurface, ← hpayload]
      exact haccounts q hq hne
  | @reanchored blob blocks w k _ _ hanchored _ hchain _ hbooks _ =>
    have hblob : o.node.chain.checkpointBlob = k.chain.checkpointBlob := by rw [hchain]; rfl
    have hblocks : o.node.chain.blocks = k.chain.blocks := by rw [hchain]; rfl
    refine hbooks.truthful fun id p hp hne => ?_
    refine Accounts.congr ?_ ?_ (hagree id p hp hne)
    · rw [hblob, hanchored]
    · rw [hblocks, hanchored]
  | pruned _ _ hchain _ hbooks _ =>
    refine hbooks.truthful fun id p hp hne => ?_
    rw [hchain]
    exact hagree id p hp hne

end

/-- A chain that is opened over a log whose cards agree with it, and every run of moves
whose cards agree, leaves no card that reads applied for another change. -/
theorem run_cards_truthful (S : Site) (e : Env) (k : Node) (blocks : List ChainBlock) (w : ChainWalk)
    (turns : List (Env × Input)) (hw : k.chain.walkOwn S.C blocks = .ok w)
    (hcards : Agrees k { k.chain with blocks := blocks })
    (hagree : Machine.AllMoves S (fun m t mv => mv.cardsAgree m.node (m.settles S t.2))
      ⟨k.adoptChain S e blocks, [], []⟩ turns) :
    ∀ id p, (Machine.run S ⟨k.adoptChain S e blocks, [], []⟩ turns).node.proposals.lookup id = some p →
      p.state = .applied → p.proposer = "" ∨
        ∀ c ∈ (Machine.run S ⟨k.adoptChain S e blocks, [], []⟩ turns).node.consumed, c.1 = id →
          c.2 = (p.surface, p.payload) := by
  have hopened : Truthful (k.adoptChain S e blocks) := by
    obtain ⟨hchain, -, -, hbooks⟩ := Node.adoptChain_ok (e := e) hw
    have hknown : Books (.known k) k (k.adoptChain S e blocks) :=
      (hbooks.known (Node.steady_adoptChain blocks).toQuiet).mono fun _ _ _ h => h.2
    refine hknown.truthful fun id p hp hne => ?_
    refine Accounts.congr ?_ ?_ (hcards id p hp hne) <;> rw [hchain]
  have htruthful : Truthful (Machine.run S ⟨k.adoptChain S e blocks, [], []⟩ turns).node := by
    refine Machine.AllMoves.keeps (I := fun m => Truthful m.node) (fun m t mv hm hmv hP => ?_)
      hopened hagree
    rw [Machine.turn_node]
    exact hm.moves hmv hP
  intro id p hp happlied
  rw [consumed_eq]
  exact htruthful id p hp happlied

namespace Sample

def card (name proposer : String) : ProposalRecord :=
  { surface := .organization, payload := rename name, proposer := proposer }

def carded : Node := { replayed with proposals := (∅ : AList _).insert 4 (card "A" "ben") }

def decided : List ChainBlock := founded ++ [decision 1 "7ac4" 4 "A"]

def recarded : Machine := ⟨carded.adoptChain annSite env decided, [], []⟩

theorem decided_verifies : ∃ w, carded.chain.walkOwn annSite.C decided = .ok w :=
  isOk_exists (by decide +kernel)

theorem recarded_agrees {mv : Move} (hmv : Moves annSite
    (recarded.settles annSite (served (decision 2 "b214" 5 "A")).2) recarded.node
    (recarded.outcome annSite (served (decision 2 "b214" 5 "A"))) mv) :
    mv.cardsAgree recarded.node (recarded.settles annSite (served (decision 2 "b214" 5 "A")).2) := by
  have hbefore : recarded.node.chain.blocks = decided ∧ recarded.node.chain.checkpointBlob = none ∧
      recarded.node.proposals.lookup 5 = none ∧
      ∀ c ∈ recarded.node.proposals.entries, c.2.proposer ≠ "" → Accounts
        { recarded.node.chain with blocks := decided ++ [decision 2 "b214" 5 "A"] }
        c.1 c.2.surface c.2.payload := by decide +kernel
  have hafter : (recarded.outcome annSite (served (decision 2 "b214" 5 "A"))).node.chain.blocks =
      decided ++ [decision 2 "b214" 5 "A"] ∧
      (recarded.outcome annSite (served (decision 2 "b214" 5 "A"))).node.chain.checkpointBlob =
        none := by decide +kernel
  obtain ⟨hblocks, hblob⟩ := hafter
  obtain ⟨hold, -, hfresh, hcards⟩ := hbefore
  cases hmv with
  | still => exact fun _ _ _ hsettled => absurd hsettled not_false
  | refused => trivial
  | @appended block chain head htried hchain =>
    obtain ⟨w, w', -, -, rfl, -⟩ := extendOwn_ok htried
    rw [hchain] at hblocks
    simp only [hold, append_cancel_left_eq, List.cons.injEq, and_true] at hblocks
    subst hblocks
    intro id surface payload hchange p hp
    obtain ⟨rfl, -, -⟩ := ChainChange.applied.inj hchange
    simpa using hp.symm.trans hfresh
  | @adopted blocks w _ _ hchain =>
    rw [hchain] at hblocks
    change blocks = _ at hblocks
    rw [hblocks]
    exact agrees_of_entries hcards
  | @swapped block w _ _ hchain =>
    rw [hchain, hold] at hblocks
    have hlength := congrArg List.length hblocks
    simp [decided, founded] at hlength
  | @reanchored blob blocks w k _ _ hanchored _ hchain =>
    have hsome : (recarded.outcome annSite
        (served (decision 2 "b214" 5 "A"))).node.chain.checkpointBlob = k.chain.checkpointBlob := by
      rw [hchain]
      rfl
    rw [hblob, hanchored] at hsome
    simp [anchoredOn] at hsome
  | pruned _ _ hchain =>
    rw [hchain] at hblob
    simp [prunedAt] at hblob

end Sample

open Sample in
theorem run_cards_truthful_sample :
    let n := (recarded.run annSite [served (decision 2 "b214" 5 "A")]).node
    (n.consumed.map Prod.fst = [4, 5] ∧
      (n.proposals.lookup 4).map (fun p => (p.proposer, p.state)) = some ("ben", .applied)) ∧
    ∀ id p, n.proposals.lookup id = some p → p.state = .applied → p.proposer = "" ∨
      ∀ c ∈ n.consumed, c.1 = id → c.2 = (p.surface, p.payload) := by
  obtain ⟨w, hw⟩ := decided_verifies
  refine ⟨by decide +kernel, ?_⟩
  have hagree : recarded.AllMoves annSite
      (fun m t mv => mv.cardsAgree m.node (m.settles annSite t.2))
      [served (decision 2 "b214" 5 "A")] := ⟨fun _ hmv => recarded_agrees hmv, trivial⟩
  unfold recarded at hagree ⊢
  exact run_cards_truthful annSite env carded decided w _ hw (agrees_of_entries (by decide +kernel))
    hagree

namespace Sample

/-- "ben" proposes a card, commits another change under its id and then two contenders for
the next slot. -/
def miscarded : List Input :=
  [.frame "ben" (.proposed 4 .organization (rename "C")),
    .frame "ben" (.committed (decision 1 "7ac4" 4 "A")), .tick, .tick, .tick, .tick,
    .frame "ben" (.committed (decision 2 "b214" 5 "A")), .tick, .tick, .tick, .tick,
    .frame "ben" (.committed (decision 2 "b214" 6 "A"))]

end Sample

open Sample in
/-- The block leaves the colliding card open; the tip swap behind it settles the card as the
change of the block. -/
theorem run_cards_untruthful :
    let n := (reopened.run annSite (turnsOf miscarded)).node
    reopened.Reopened annSite ∧
      (n.proposals.lookup 4).map (fun p => (p.state, p.proposer, p.surface, p.payload)) =
        some (.applied, "ben", .organization, rename "C") ∧
      (4, .organization, rename "A") ∈ n.consumed := by
  intro n
  refine ⟨reopened_reopened, ?_⟩
  decide +kernel

end Molt.Engine
