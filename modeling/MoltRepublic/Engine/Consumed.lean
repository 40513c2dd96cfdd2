import Mathlib
import MoltRepublic.Engine.Moves

/-! A decided id is no open vote again: where every chain move renews the kept walk or
consumes the same ids, `receive_proposed` refuses exactly the ids the chain consumed. -/

namespace Molt.Engine
open Molt.Core Json Chain Check List
open Option hiding guard or_assoc

def consumedBy (h : Holder) : List UInt64 :=
  (h.checkpointBlob.map CheckpointState.consumedIds).getD [] ++ Node.appliedIds h.blocks

/-- What `receive_proposed` refuses as decided. -/
def refusesDecided (n : Node) (id : UInt64) : Bool := n.chain.walk.any fun w => id ∈ w.seen

structure GuardExact (n : Node) : Prop where
  guard : ∀ id, refusesDecided n id = true ↔ id ∈ consumedBy n.chain
  counter : ∀ id ∈ consumedBy n.chain, id.toNat < n.nextId.toNat

section

variable {C : Crypto}

variable {b : ChainBlock}

theorem advance_seen {held : Held} {w w' : ChainWalk} (h : advance C held w b = .ok w') (id : UInt64) :
    id ∈ w'.seen ↔ id ∈ w.seen ∨ appliedId b = some id := by
  obtain ⟨head, consumed, wiki, running, hnext, -, -, -, rfl⟩ := advance_eq_ok.mp h
  obtain ⟨-, -, hchange, -⟩ := verifyNext_eq_ok.mp hnext
  cases consumed with
  | none =>
    have hnone : appliedId b ≠ some id := by
      intro hid
      unfold appliedId at hid
      split at hid
      · exact checkChange_eq_none hchange ‹_›
      · simp at hid
    simp [hnone]
  | some j =>
    obtain ⟨-, surface, payload, hc⟩ := checkChange_eq_some hchange
    have hj : appliedId b = some j := by simp [appliedId, hc]
    simp only [elim_some, Finset.mem_insert, hj, Option.some.injEq, eq_comm (a := j)]
    exact or_comm

theorem foldlM_seen {held : Held} {w w' : ChainWalk} {rest : List ChainBlock}
    (h : rest.foldlM (advance C held) w = .ok w') (id : UInt64) :
    id ∈ w'.seen ↔ id ∈ w.seen ∨ id ∈ Node.appliedIds rest := by
  induction rest generalizing w with
  | nil =>
    obtain rfl := foldlM_nil_eq_ok.mp h
    simp [Node.appliedIds]
  | cons b rest ih =>
    obtain ⟨v, hv, hrest⟩ := foldlM_cons_eq_ok.mp h
    rw [ih hrest, advance_seen hv]
    simp only [Node.appliedIds, filterMap_cons]
    cases appliedId b <;> simp [or_assoc, eq_comm]

theorem appliedIds_cut {anchor : ChainBlock} {upto : UInt64} {hash : String} {kind : CutKind}
    (h : CutKind.of anchor.change = some (upto, hash, kind)) : appliedId anchor = none := by
  unfold appliedId
  cases hc : anchor.change <;> simp_all [CutKind.of]

theorem walkOwn_seen {h : Holder} {blocks : List ChainBlock} {w : ChainWalk}
    (hw : h.walkOwn C blocks = .ok w) (id : UInt64) :
    id ∈ w.seen ↔ id ∈ consumedBy { h with blocks := blocks } := by
  unfold Holder.walkOwn at hw
  unfold consumedBy
  cases hblob : h.checkpointBlob with
  | none =>
    rw [hblob] at hw
    obtain ⟨g, hwalked⟩ := walkChain_walked hw
    simp [hwalked.seen, Node.appliedIds]
  | some blob =>
    rw [hblob] at hw
    obtain ⟨anchor, rest, w₀, rfl, hanchor, hrest⟩ := walkSuffixChain_eq_ok.mp hw
    obtain ⟨hash, kind, hcut, -, -, -, -, -, -, -, -, -, rfl⟩ := verifyAnchor_eq_ok.mp hanchor
    rw [foldlM_seen hrest]
    simp [anchorWalk, Node.appliedIds, appliedIds_cut hcut]

def TriedOn (C : Crypto) (h : Holder) (w : ChainWalk) : Prop :=
  h.walk = some w ∨ h.walkOwn C h.blocks = .ok w

theorem extendOwn_ok {h k : Holder} {head : ChainHead} (htried : h.extendOwn C b = (k, .ok head)) :
    ∃ w w', TriedOn C h w ∧ advance C h.held w b = .ok w' ∧ k = { h with walk := some w' } ∧
      head = w'.head := by
  unfold Holder.extendOwn at htried
  simp only at htried
  split at htried
  · simp at htried
  · rename_i w hkept
    simp only [Prod.mk.injEq] at htried
    obtain ⟨rfl, hhead⟩ := htried
    have hon : TriedOn C h w := by
      cases hwalk : h.walk.filter fun w => w.describes C h.blocks h.checkpointBlob with
      | none =>
        rw [hwalk] at hkept
        exact .inr hkept
      | some v =>
        rw [hwalk] at hkept
        cases hkept
        exact .inl (filter_eq_some_iff.mp hwalk).1
    cases hstep : (step C w b h.held).2 with
    | error why => simp [hstep, Except.map] at hhead
    | ok =>
      simp only [hstep, Except.map, Except.ok.injEq] at hhead
      exact ⟨w, _, hon, by simp [advance, hstep, Except.map], rfl, hhead.symm⟩

theorem extendOwn_refused {h k : Holder} {why : String} (htried : h.extendOwn C b = (k, .error why)) :
    (∃ w, TriedOn C h w ∧ k = { h with walk := some w }) ∨
      ((∃ e, h.walkOwn C h.blocks = .error e) ∧ k = { h with walk := none }) := by
  unfold Holder.extendOwn at htried
  cases hwalk : h.walk.filter fun w => w.describes C h.blocks h.checkpointBlob with
  | none =>
    rw [hwalk] at htried
    cases hown : h.walkOwn C h.blocks with
    | error e =>
      simp only [elim_none, hown, Prod.mk.injEq] at htried
      exact .inr ⟨⟨e, rfl⟩, htried.1.symm⟩
    | ok w =>
      simp only [elim_none, hown, Prod.mk.injEq] at htried
      obtain ⟨rfl, hstep⟩ := htried
      cases hresult : (step C w b h.held).2 with
      | ok => simp [hresult, Except.map] at hstep
      | error e => exact .inl ⟨w, .inr hown, by rw [step_of_error hresult]⟩
  | some w =>
    rw [hwalk] at htried
    simp only [elim_some, Prod.mk.injEq] at htried
    obtain ⟨rfl, hstep⟩ := htried
    cases hresult : (step C w b h.held).2 with
    | ok => simp [hresult, Except.map] at hstep
    | error e =>
      exact .inl ⟨w, .inl (filter_eq_some_iff.mp hwalk).1, by rw [step_of_error hresult]⟩

end

def topId : UInt64 := UInt64.ofNat (2 ^ 64 - 1)

/-- Where a move keeps the guard exact. A cut and a new anchor drop the kept walk and a tip
swap leaves it on the old tip; a chain that does not verify any more loses it at the next
block. Only the last id of all has no id above it. -/
def Move.guardSafe (S : Site) (n : Node) : Move → Prop
  | .still => True
  | .refused _ => (∃ w, n.chain.walkOwn S.C n.chain.blocks = .ok w) ∨ consumedBy n.chain = []
  | .appended block => appliedId block ≠ some topId
  | .adopted blocks => topId ∉ Node.appliedIds blocks
  | .swapped block => appliedId block = n.chain.blocks.getLast?.bind appliedId
  | .reanchored blob blocks => consumedBy (anchoredOn n.chain blob blocks) = []
  | .pruned cut folded => consumedBy (prunedAt n.chain cut folded) = []

section

variable {S : Site} {Q : Settling} {n : Node} {o : Outcome}

theorem consumedBy_congr {h k : Holder} (hblob : k.checkpointBlob = h.checkpointBlob)
    (hblocks : k.blocks = h.blocks) : consumedBy k = consumedBy h := by
  unfold consumedBy
  rw [hblob, hblocks]

theorem mem_consumedBy_concat {h k : Holder} {b : ChainBlock}
    (hblob : k.checkpointBlob = h.checkpointBlob) (hblocks : k.blocks = h.blocks ++ [b]) (id : UInt64) :
    id ∈ consumedBy k ↔ id ∈ consumedBy h ∨ appliedId b = some id := by
  unfold consumedBy
  rw [hblob, hblocks]
  simp [Node.appliedIds, or_assoc]

theorem GuardExact.seen (h : GuardExact n) {w : ChainWalk} (hw : TriedOn S.C n.chain w) (id : UInt64) :
    id ∈ w.seen ↔ id ∈ consumedBy n.chain := by
  rcases hw with hkept | hwalk
  · rw [← h.guard, refusesDecided, hkept]
    simp
  · exact walkOwn_seen hwalk id

theorem guardExact_empty (hwalk : n.chain.walk = none) (hnone : consumedBy n.chain = []) :
    GuardExact n := by
  refine ⟨fun id => ?_, ?_⟩
  · simp [refusesDecided, hwalk, hnone]
  · simp [hnone]

theorem lt_of_bumped {id bound : UInt64} (hne : id ≠ topId)
    (h : (saturatingSucc id).toNat ≤ bound.toNat) : id.toNat < bound.toNat := by
  have hlt : id.toNat < 2 ^ 64 - 1 := by
    have hle : id.toNat < 2 ^ 64 := id.toNat_lt
    by_contra hge
    apply hne
    have heq : id.toNat = 2 ^ 64 - 1 := by omega
    rw [topId, ← heq, UInt64.ofNat_toNat]
  rw [Node.toNat_saturatingSucc] at h
  omega

theorem guardExact_walked {w : ChainWalk} (hwalk : n.chain.walk = some w)
    (hseen : ∀ id, id ∈ w.seen ↔ id ∈ consumedBy n.chain) (hbumped : Bumped n)
    (htop : topId ∉ consumedBy n.chain) : GuardExact n := by
  refine ⟨fun id => ?_, fun id hid => ?_⟩
  · rw [refusesDecided, hwalk, ← hseen]
    simp
  · exact lt_of_bumped (fun heq => htop (heq ▸ hid)) (hbumped w hwalk id ((hseen id).mpr hid))

theorem GuardExact.not_top (h : GuardExact n) : topId ∉ consumedBy n.chain := by
  intro hmem
  have hlt : topId.toNat < n.nextId.toNat := h.counter _ hmem
  have hbound : n.nextId.toNat < 2 ^ 64 := n.nextId.toNat_lt
  have htop : topId.toNat = 2 ^ 64 - 1 := by decide
  omega

theorem GuardExact.moves (h : GuardExact n) {mv : Move} (hmv : Moves S Q n o mv)
    (hsafe : mv.guardSafe S n) : GuardExact o.node := by
  cases hmv with
  | still hstill _ =>
    refine ⟨fun id => ?_, fun id hid => ?_⟩
    · rw [refusesDecided, hstill.chain]
      exact h.guard id
    · rw [hstill.chain] at hid
      exact (h.counter id hid).trans_le hstill.nextId
  | refused htried _ hbooks _ =>
    rcases extendOwn_refused htried with ⟨w, hon, hchain⟩ | ⟨⟨e, herr⟩, hchain⟩
    · have hsame : consumedBy o.node.chain = consumedBy n.chain := by rw [hchain]; rfl
      refine ⟨fun id => ?_, fun id hid => ?_⟩
      · rw [hsame, ← h.seen hon, refusesDecided, hchain]
        simp
      · rw [hsame] at hid
        exact (h.counter id hid).trans_le hbooks.nextId
    · rcases hsafe with ⟨w, hw⟩ | hnone
      · simp [hw] at herr
      · exact guardExact_empty (by rw [hchain]) (by rw [hchain]; exact hnone)
  | @appended block chain head htried hchain hhead hbumped hbooks _ =>
    obtain ⟨w, w', hon, hstep, rfl, -⟩ := extendOwn_ok htried
    have hconsumed : ∀ id, id ∈ consumedBy o.node.chain ↔
        id ∈ consumedBy n.chain ∨ appliedId block = some id :=
      mem_consumedBy_concat (by rw [hchain]) (by rw [hchain])
    refine guardExact_walked (w := w') (by rw [hchain]) (fun id => ?_) hbumped ?_
    · rw [hconsumed, advance_seen hstep, h.seen hon]
    · rw [hconsumed]
      exact not_or.mpr ⟨h.not_top, hsafe⟩
  | @adopted blocks w hw _ hchain _ hbumped _ =>
    have hconsumed : consumedBy o.node.chain = consumedBy { n.chain with blocks := blocks } :=
      consumedBy_congr (by rw [hchain]) (by rw [hchain])
    refine guardExact_walked (w := w) (by rw [hchain]) (fun id => ?_) hbumped ?_
    · rw [hconsumed]
      exact walkOwn_seen hw id
    · rw [hconsumed]
      intro hmem
      rcases mem_append.mp hmem with hblob | hblocks
      · exact h.not_top (mem_append_left _ hblob)
      · exact hsafe hblocks
  | @swapped block w _ hcontends hchain _ hbooks _ _ =>
    have hconsumed : ∀ id, id ∈ consumedBy o.node.chain ↔ id ∈ consumedBy n.chain := by
      intro id
      obtain ⟨tip, htip, -⟩ := hcontends.tip
      have hold : n.chain.blocks = n.chain.blocks.dropLast ++ [tip] :=
        (dropLast_append_getLast? tip htip).symm
      have hsame : appliedId block = appliedId tip := by
        have := hsafe
        simp only [Move.guardSafe, htip, bind_some] at this
        exact this
      have hnew : o.node.chain.blocks = n.chain.blocks.dropLast ++ [block] := by rw [hchain]
      unfold consumedBy
      rw [hnew, hchain]
      conv_rhs => rw [hold]
      simp [Node.appliedIds, hsame]
    refine ⟨fun id => ?_, fun id hid => ?_⟩
    · rw [hconsumed, ← h.guard, refusesDecided, refusesDecided, hchain]
    · exact (h.counter id ((hconsumed id).mp hid)).trans_le hbooks.nextId
  | @reanchored blob blocks w k _ _ hanchored _ hchain _ _ _ =>
    have hsame : consumedBy o.node.chain = consumedBy k.chain := by rw [hchain]; rfl
    have hwalk : o.node.chain.walk = k.chain.walk := by rw [hchain]; rfl
    refine guardExact_empty ?_ ?_
    · rw [hwalk, hanchored]
      rfl
    · rw [hsame, hanchored]
      exact hsafe
  | pruned _ _ hchain _ _ _ =>
    refine guardExact_empty (by rw [hchain]; rfl) ?_
    rw [hchain]
    exact hsafe

end

/-- The gates of `receive_proposed` but for the decided ids. -/
structure PassesGates (e : Env) (n : Node) (source : String) (id : UInt64) (surface : Surface)
    (payload : Value) : Prop where
  within : n.plausibleWireId id = true
  unreserved : isBaseEntryOp payload = false
  admitted : e.admitsFrame id surface payload = true
  fresh : n.proposals.lookup id = none
  room : (n.cardsWhere fun _ p => p.state == .proposed && p.proposer == source).length <
    openCardsPerProposerMax
  unregistered : n.proposalChanges.lookup id = none

theorem receiveProposed_refuses {S : Site} {e : Env} {n : Node} {source : String} {id : UInt64}
    {surface : Surface} {payload : Value} (h : PassesGates e n source id surface payload) :
    (n.receiveProposed S e source id surface payload).2 = false ↔ refusesDecided n id = true := by
  have hroom := not_le.mpr h.room
  have hguard : (n.bump id).chain.walk = n.chain.walk := rfl
  have hregistered : (n.bump id).proposalChanges.lookup id = none := h.unregistered
  unfold Node.receiveProposed refusesDecided
  simp only [h.within, h.unreserved, h.admitted, h.fresh, hregistered, hguard,
    Bool.not_true, Bool.false_or, isNone_none, Bool.true_and, hroom, decide_false,
    Bool.false_eq_true, if_false, isSome_none, Bool.or_false]
  split_ifs with hdecided
  all_goals simpa using hdecided

theorem Machine.Reopened.guardExact {S : Site} {m : Machine} (h : m.Reopened S)
    (htop : topId ∉ consumedBy m.node.chain) : GuardExact m.node := by
  obtain ⟨e, k, blocks, w, hw, hnode⟩ := h.adopted
  obtain ⟨hchain, -, hbumped, -⟩ := Node.adoptChain_ok (e := e) hw
  rw [← hnode] at hchain hbumped
  refine guardExact_walked (w := w) (by rw [hchain]) (fun id => ?_) hbumped htop
  rw [walkOwn_seen hw, hchain]
  exact .rfl

/-- In every run of safe moves from an opened chain, `receive_proposed` refuses an id as
decided exactly where the chain consumed it, and the mint counter is above every such id. -/
theorem run_refuses_decided (S : Site) (m : Machine) (turns : List (Env × Input))
    (hopened : m.Reopened S) (htop : topId ∉ consumedBy m.node.chain)
    (hsafe : m.AllMoves S (fun m _ mv => mv.guardSafe S m.node) turns) :
    let n := (m.run S turns).node
    (∀ id, refusesDecided n id = true ↔ id ∈ consumedBy n.chain) ∧
    (∀ e source id surface payload, PassesGates e n source id surface payload →
      ((n.receiveProposed S e source id surface payload).2 = false ↔ id ∈ consumedBy n.chain)) ∧
    ∀ id ∈ consumedBy n.chain, id.toNat < n.nextId.toNat := by
  have hexact : GuardExact (m.run S turns).node := by
    refine Machine.AllMoves.keeps (I := fun m => GuardExact m.node) (fun m t mv hm hmv hP => ?_)
      (hopened.guardExact htop) hsafe
    rw [Machine.turn_node]
    exact hm.moves hmv hP
  refine ⟨hexact.guard, fun e source id surface payload hgates => ?_, hexact.counter⟩
  rw [receiveProposed_refuses hgates]
  exact hexact.guard id

namespace Sample

def served (block : ChainBlock) : Env × Input := (env, .frame "ben" (.committed block))

theorem appended_safe {mv : Move} (hmv : Moves annSite
    (reopened.settles annSite (served (decision 1 "7ac4" 4 "A")).2) reopened.node
    (reopened.outcome annSite (served (decision 1 "7ac4" 4 "A"))) mv) :
    mv.guardSafe annSite reopened.node := by
  have hbefore : reopened.node.chain.blocks = founded ∧ consumedBy reopened.node.chain = [] := by
    decide +kernel
  have hafter : (reopened.outcome annSite (served (decision 1 "7ac4" 4 "A"))).node.chain.blocks =
      founded ++ [decision 1 "7ac4" 4 "A"] ∧
      (reopened.outcome annSite (served (decision 1 "7ac4" 4 "A"))).node.chain.checkpointBlob =
        none := by decide +kernel
  obtain ⟨hblocks, hblob⟩ := hafter
  cases hmv with
  | still => trivial
  | refused => exact .inr hbefore.2
  | @appended block chain head htried hchain =>
    obtain ⟨w, w', -, -, rfl, -⟩ := extendOwn_ok htried
    rw [hchain] at hblocks
    simp only [hbefore.1, append_cancel_left_eq, List.cons.injEq, and_true] at hblocks
    rw [hblocks]
    show some 4 ≠ some topId
    decide
  | @adopted blocks w _ _ hchain =>
    rw [hchain] at hblocks
    change blocks = _ at hblocks
    rw [hblocks]
    show topId ∉ [4]
    decide
  | @swapped block w _ _ hchain =>
    rw [hchain, hbefore.1] at hblocks
    have hlength := congrArg List.length hblocks
    simp [founded] at hlength
  | @reanchored blob blocks w k _ _ hanchored _ hchain =>
    have hsome : (reopened.outcome annSite
        (served (decision 1 "7ac4" 4 "A"))).node.chain.checkpointBlob = k.chain.checkpointBlob := by
      rw [hchain]
      rfl
    rw [hblob, hanchored] at hsome
    simp [anchoredOn] at hsome
  | pruned _ _ hchain =>
    rw [hchain] at hblob
    simp [prunedAt] at hblob

end Sample

open Sample in
theorem run_refuses_decided_sample :
    consumedBy (reopened.run annSite [served (decision 1 "7ac4" 4 "A")]).node.chain = [4] ∧
    ∀ id, refusesDecided (reopened.run annSite [served (decision 1 "7ac4" 4 "A")]).node id = true ↔
      id ∈ consumedBy (reopened.run annSite [served (decision 1 "7ac4" 4 "A")]).node.chain := by
  have hsafe : reopened.AllMoves annSite (fun m _ mv => mv.guardSafe annSite m.node)
      [served (decision 1 "7ac4" 4 "A")] := ⟨fun _ hmv => appended_safe hmv, trivial⟩
  refine ⟨by decide +kernel, ?_⟩
  exact (run_refuses_decided annSite reopened _ reopened_reopened (by decide +kernel) hsafe).1

namespace Sample

def overtaken : List Input :=
  [.frame "ben" (.committed (decision 1 "7ac4" 4 "A")), .tick, .tick, .tick, .tick,
    .frame "ben" (.committed (decision 1 "7ac4" 7 "A")), .tick, .tick]

end Sample

open Sample in
/-- Behind a tip swap the guard answers for the old tip, and the counter is below the new
one's id. -/
theorem run_refuses_undecided :
    let n := (reopened.run annSite (turnsOf overtaken)).node
    reopened.Reopened annSite ∧ (7 ∈ consumedBy n.chain ∧ refusesDecided n 7 = false) ∧
      (4 ∉ consumedBy n.chain ∧ PassesGates env n "ben" 4 .organization (rename "B") ∧
        (n.receiveProposed annSite env "ben" 4 .organization (rename "B")).2 = false) ∧
      n.nextId = 5 := by
  intro n
  have hrun : (7 ∈ consumedBy n.chain ∧ refusesDecided n 7 = false) ∧ 4 ∉ consumedBy n.chain ∧
      (n.receiveProposed annSite env "ben" 4 .organization (rename "B")).2 = false ∧ n.nextId = 5 ∧
      n.plausibleWireId 4 = true ∧ n.proposals.lookup 4 = none ∧
      (n.cardsWhere fun _ p => p.state == .proposed && p.proposer == "ben").length <
        openCardsPerProposerMax ∧ n.proposalChanges.lookup 4 = none := by decide +kernel
  obtain ⟨hnew, hold, hrefused, hnext, hwithin, hfresh, hroom, hunregistered⟩ := hrun
  have hgates : PassesGates env n "ben" 4 .organization (rename "B") :=
    ⟨hwithin, by decide +kernel, rfl, hfresh, hroom, hunregistered⟩
  exact ⟨reopened_reopened, hnew, ⟨hold, hgates, hrefused⟩, hnext⟩

end Molt.Engine
