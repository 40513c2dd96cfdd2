import Mathlib
import MoltRepublic.Engine.Books

/-! What a node holds of one vote: the card as far as a vote turns on it, the signatures
collected for it and the voices parked under its id. What a node does for other ids, and
the walks that leave the card alone, does not touch it. -/

namespace Molt.Engine
open Molt.Core Json Chain List Option

structure Standing where
  surface : Surface
  payload : Value
  state : ProposalState
  decliners : List String
  withdrawn : Bool
  proposer : String
  deriving DecidableEq

def ProposalRecord.standing (p : ProposalRecord) : Standing :=
  ⟨p.surface, p.payload, p.state, p.decliners, p.withdrawn, p.proposer⟩

structure Alike (id : UInt64) (n m : Node) : Prop where
  head : m.head = n.head
  identities : m.identities = n.identities
  ruleM : m.ruleM = n.ruleM
  republicId : m.chain.republicId = n.chain.republicId
  change : m.proposalChanges.lookup id = n.proposalChanges.lookup id
  card : (m.proposals.lookup id).map ProposalRecord.standing =
    (n.proposals.lookup id).map ProposalRecord.standing
  sigs : m.pendingSigs.lookup id = n.pendingSigs.lookup id
  declines : m.pendingDeclines.lookup id = n.pendingDeclines.lookup id
  withdrawal : m.pendingWithdrawals.lookup id = n.pendingWithdrawals.lookup id
  nextId : n.nextId.toNat ≤ m.nextId.toNat

namespace Alike

variable {id : UInt64} {n m k : Node}

theorem refl (n : Node) : Alike id n n := ⟨rfl, rfl, rfl, rfl, rfl, rfl, rfl, rfl, rfl, le_rfl⟩

theorem trans (h : Alike id n m) (h' : Alike id m k) : Alike id n k where
  head := h'.head.trans h.head
  identities := h'.identities.trans h.identities
  ruleM := h'.ruleM.trans h.ruleM
  republicId := h'.republicId.trans h.republicId
  change := h'.change.trans h.change
  card := h'.card.trans h.card
  sigs := h'.sigs.trans h.sigs
  declines := h'.declines.trans h.declines
  withdrawal := h'.withdrawal.trans h.withdrawal
  nextId := h.nextId.trans h'.nextId

theorem unknown (h : Alike id n m) (hn : n.proposals.lookup id = none) :
    m.proposals.lookup id = none := by
  have hcard := h.card
  rwa [hn, map_none, map_eq_none_iff] at hcard

theorem known (h : Alike id n m) {p : ProposalRecord} (hn : n.proposals.lookup id = some p) :
    ∃ q, m.proposals.lookup id = some q ∧ q.standing = p.standing := by
  have hcard := h.card
  rwa [hn, map_some, map_eq_some_iff] at hcard

end Alike

namespace Node

variable {S : Site} {e : Env} {n : Node} {id : UInt64}

variable {j : UInt64}

theorem alike_adjust {f : ProposalRecord → ProposalRecord}
    (hf : j = id → ∀ p, n.proposals.lookup id = some p → (f p).standing = p.standing) :
    Alike id n (n.adjust j f) := by
  unfold adjust
  cases hp : n.proposals.lookup j with
  | none => exact .refl n
  | some p =>
    refine ⟨rfl, rfl, rfl, rfl, rfl, ?_, rfl, rfl, rfl, le_rfl⟩
    by_cases hj : j = id
    · subst hj
      simp [hp, hf rfl p hp]
    · simp [AList.lookup_insert_ne (Ne.symm hj)]

theorem alike_adjustSigs (hj : j ≠ id) (f : PendingApproval → PendingApproval) :
    Alike id n (n.adjustSigs j f) := by
  unfold adjustSigs
  split
  · refine ⟨rfl, rfl, rfl, rfl, rfl, rfl, ?_, rfl, rfl, le_rfl⟩
    exact AList.lookup_insert_ne (Ne.symm hj)
  · exact .refl n

theorem alike_dropSigs (hj : j ≠ id) : Alike id n (n.dropSigs j) :=
  ⟨rfl, rfl, rfl, rfl, rfl, rfl, AList.lookup_erase_ne (Ne.symm hj), rfl, rfl, le_rfl⟩

theorem alike_bump (j : UInt64) : Alike id n (n.bump j) :=
  ⟨rfl, rfl, rfl, rfl, rfl, rfl, rfl, rfl, rfl, (still_bump (Q := .none) j).nextId⟩

theorem alike_stashVoted (j : UInt64) : Alike id n (n.stashVoted j) := by
  unfold stashVoted
  split
  · exact .refl n
  · exact alike_adjust fun _ _ _ => rfl

theorem alike_retract (hj : j ≠ id) (member : String) :
    Alike id n (n.retract S j member) := by
  unfold retract
  split_ifs
  · exact (alike_adjustSigs hj _).trans ⟨rfl, rfl, rfl, rfl, rfl, rfl, rfl, rfl, rfl, le_rfl⟩
  · exact alike_adjustSigs hj _

theorem alike_cmdDecline (hj : j ≠ id) : Alike id n (n.cmdDecline S e j).node := by
  unfold cmdDecline
  split
  · exact .refl n
  · rename_i p hp
    split_ifs
    · exact .refl n
    · have hdecline : ∀ f, Alike id n ((n.retract S j S.member).adjust j f) := fun f =>
        (alike_retract hj S.member).trans (alike_adjust fun h => absurd h hj)
      unfold registerDecline
      rw [hp]
      dsimp only
      split_ifs
      · exact .refl n
      · exact .refl n
      · exact (hdecline _).trans (alike_stashVoted j)
      · exact hdecline _

def retireCard (n : Node) (id : UInt64) : Node :=
  (n.adjust id fun p => if p.state = .proposed then p.retire else p).stashVoted id

theorem alike_retireCard (hj : j ≠ id) : Alike id n (n.retireCard j) :=
  (alike_adjust fun h => absurd h hj).trans (alike_stashVoted j)

section

variable {P : Node → Prop} (halike : ∀ n m, Alike id n m → P n → P m)

include halike

theorem supersedeStaleWiki_keeps {moved : Option Value}
    (hretire : e.wikiVerdict n moved id = some .conflict → ∀ m, P m → P (m.retireCard id))
    (hn : P n) : P (n.supersedeStaleWiki e moved) := by
  refine List.foldlRecOn _ _ hn fun m hm j _ => ?_
  split
  · exact hm
  · exact halike _ _ (alike_adjust fun _ _ _ => rfl) hm
  · rename_i hverdict
    by_cases hj : j = id
    · subst hj
      exact hretire hverdict m hm
    · exact halike _ _ (alike_retireCard hj) hm

theorem supersedeStaleVaultCards_keeps
    (hretire : (n.proposals.lookup id).bind (e.vaultReplaced n) = some true →
      ∀ m, P m → P (m.retireCard id))
    (hrevive : (n.proposals.lookup id).bind (e.vaultReplaced n) = some false →
      ∀ m, P m → P (m.adjust id fun p =>
        if p.state = .rejected ∧ p.superseded ∧ p.supersededKind = some .conflict then p.revive else p))
    (hn : P n) : P (n.supersedeStaleVaultCards e) := by
  refine List.foldlRecOn _ _ hn fun m hm j _ => ?_
  by_cases hj : j = id
  · subst hj
    split
    · exact hm
    · rename_i hverdict
      exact hretire hverdict m hm
    · rename_i hverdict
      exact hrevive hverdict m hm
  · split
    · exact hm
    · exact halike _ _ (alike_retireCard hj) hm
    · exact halike _ _ (alike_adjust fun h => absurd h hj) hm

theorem walletSupersedeDead_keeps
    (hretire : e.walletDead n id = true → ∀ m, P m → P ((m.retireCard id).dropSigs id))
    (hn : P n) : P (n.walletSupersedeDead e) := by
  refine List.foldlRecOn _ _ hn fun m hm j hj => ?_
  obtain ⟨p, -, hdead⟩ := mem_cardsWhere hj
  by_cases hid : j = id
  · subst hid
    simp only [Bool.and_eq_true] at hdead
    exact hretire hdead.2 m hm
  · exact halike _ _ ((alike_retireCard hid).trans (alike_dropSigs hid)) hm

theorem walletReview_keeps {j : UInt64}
    (hretire : e.walletDead n id = true → ∀ m, P m → P ((m.retireCard id).dropSigs id))
    (hdecline : ∀ k p, P k → k.proposals.lookup id = some p → e.walletRefuses p.payload = true →
      ∀ m, P m → P (m.cmdDecline S e id).node)
    (hn : P n) : P (n.walletReview S e j) := by
  have hdead := walletSupersedeDead_keeps halike hretire hn
  unfold walletReview
  dsimp only
  split_ifs
  · refine List.foldlRecOn _ _ hdead fun m hm i hi => ?_
    by_cases hid : i = id
    · subst hid
      obtain ⟨p, hp, hq⟩ := mem_cardsWhere hi
      simp only [Bool.and_eq_true] at hq
      exact hdecline _ p hdead hp hq.2 m hm
    · exact halike _ _ (alike_cmdDecline hid) hm
  · exact hdead

end

/-- The node behind a `Proposed` it takes, before the parked voices: the card is open and
the walks of its surface have run. -/
def opened (e : Env) (n : Node) (source : String) (id : UInt64) (surface : Surface)
    (payload : Value) : Node :=
  let n := (n.bump id).openCard id { surface := surface, payload := payload, proposer := source }
  let n := if surface = .vault then n.supersedeStaleVaultCards e else n
  if surface = .memory then n.supersedeStaleWiki e none else n

/-- The gates a `Proposed` of an unknown card passes. -/
structure Takes (e : Env) (n : Node) (source : String) (id : UInt64) (surface : Surface)
    (payload : Value) : Prop where
  within : n.plausibleWireId id
  notBase : isBaseEntryOp payload = false
  admitted : e.admitsFrame id surface payload
  room : (n.cardsWhere fun _ p => p.state == .proposed && p.proposer == source).length <
    openCardsPerProposerMax
  unregistered : n.proposalChanges.lookup id = none
  unconsumed : (n.chain.walk.any fun w => id ∈ w.seen) = false

theorem receiveProposed_known (source : String) (surface : Surface) (payload : Value)
    (hknown : (n.proposals.lookup id).isSome) :
    (n.receiveProposed S e source id surface payload).2 = false ∧
      Alike id n (n.receiveProposed S e source id surface payload).1 := by
  unfold receiveProposed
  dsimp only
  split_ifs with hgate hid
  · exact ⟨rfl, .refl n⟩
  · exact ⟨rfl, alike_bump id⟩
  all_goals exact absurd (by simp [hknown]) hid

variable {surface : Surface} {payload : Value}

theorem deliverProposed_known {source : String} (hknown : (n.proposals.lookup id).isSome) :
    Alike id n (n.deliverProposed S e source id surface payload) := by
  obtain ⟨hfalse, halike⟩ := receiveProposed_known (S := S) (e := e) source surface payload
    hknown
  unfold deliverProposed
  split
  · rename_i m hm
    rwa [hm] at halike
  · rename_i m hm
    simp [hm] at hfalse

theorem deliverProposed_taken {source : String} (hnew : n.proposals.lookup id = none)
    (ht : Takes e n source id surface payload) :
    n.deliverProposed S e source id surface payload =
      let m := (((n.opened e source id surface payload).reverifyPending S id).registerParkedWithdrawal
        id).1.registerParkedDeclines S id
      let m := m.applyProposed S e source id surface payload
      if surface = .wallet then m.walletReview S e id else m := by
  have hbump : (n.bump id).proposalChanges.lookup id = none := ht.unregistered
  have hseen : ((n.bump id).chain.walk.any fun w => id ∈ w.seen) = false := ht.unconsumed
  have hroom : ¬ openCardsPerProposerMax ≤
      (n.cardsWhere fun _ p => p.state == .proposed && p.proposer == source).length := not_le.mpr ht.room
  have hreceive : n.receiveProposed S e source id surface payload =
      ((n.opened e source id surface payload).reverifyPending S id, true) := by
    unfold receiveProposed
    simp only [ht.within, ht.notBase, ht.admitted, hnew, hroom, hbump, hseen, opened]
    simp
  unfold deliverProposed
  rw [hreceive]

theorem applyProposed_keeps {P : Node → Prop} (halike : ∀ n m, Alike id n m → P n → P m) {author : String}
    (hknown : (n.proposals.lookup id).isSome) (hdeclines : n.pendingDeclines.lookup id = none)
    (hwithdrawal : n.pendingWithdrawals.lookup id = none)
    (hretire : ∀ k, e.wikiVerdict k none id = some .conflict → ∀ m, P m → P (m.retireCard id)) (hn : P n) :
    P (n.applyProposed S e author id surface payload) := by
  obtain ⟨p, hp⟩ := isSome_iff_exists.mp hknown
  have hopen : ∀ q, n.openCard id q = n := by
    intro q
    unfold openCard
    rw [hp]
  have hdeclines' : (n.bump id).pendingDeclines.lookup id = none := hdeclines
  have hwithdrawal' : (n.bump id).pendingWithdrawals.lookup id = none := hwithdrawal
  have hbump : P (n.bump id) := halike _ _ (alike_bump id) hn
  unfold applyProposed
  rw [hopen]
  dsimp only
  unfold registerParkedDeclines
  rw [hdeclines']
  dsimp only
  unfold registerParkedWithdrawal
  rw [hwithdrawal']
  dsimp only
  split_ifs
  · exact supersedeStaleWiki_keeps halike (hretire _) hbump
  · exact hbump

theorem foldl_markVerified (height : UInt64) {a : PendingApproval} (l : List RosterAttestation)
    (ha : n.pendingSigs.lookup id = some a) :
    ∃ sigs verified, l.foldl (fun n s => if n.approvalVerifies S id height s.member s.sig
        then n.markVerified id s.member else n) n = { n with pendingSigs := sigs } ∧
      sigs.lookup id = some { a with verified := verified } ∧
      ∀ x, x ∈ verified ↔ x ∈ a.verified ∨
        ∃ s ∈ l, s.member = x ∧ n.approvalVerifies S id height s.member s.sig := by
  induction l generalizing n a with
  | nil => exact ⟨n.pendingSigs, a.verified, rfl, ha, by simp⟩
  | cons s l ih =>
    rw [foldl_cons]
    by_cases hs : n.approvalVerifies S id height s.member s.sig
    · obtain ⟨marked, hmark, hlookup⟩ : ∃ marked : Map PendingApproval,
          n.markVerified id s.member = { n with pendingSigs := marked } ∧
            marked.lookup id = some { a with verified := insert s.member a.verified } := by
        unfold markVerified adjustSigs
        rw [ha]
        exact ⟨_, rfl, AList.lookup_insert _⟩
      rw [if_pos hs, hmark]
      obtain ⟨sigs, verified, heq, hsigs, hmem⟩ := ih (n := { n with pendingSigs := marked }) hlookup
      refine ⟨sigs, verified, heq, hsigs, fun x => ?_⟩
      rw [hmem x, Finset.mem_insert, exists_mem_cons_iff]
      have hsame : ∀ t : RosterAttestation, Node.approvalVerifies S { n with pendingSigs := marked }
          id height t.member t.sig = n.approvalVerifies S id height t.member t.sig := fun _ => rfl
      simp only [hsame]
      constructor
      · rintro ((rfl | hx) | hx)
        · exact .inr (.inl ⟨rfl, hs⟩)
        · exact .inl hx
        · exact .inr (.inr hx)
      · rintro (hx | ⟨rfl, -⟩ | hx)
        · exact .inl (.inr hx)
        · exact .inl (.inl rfl)
        · exact .inr hx
    · rw [if_neg hs]
      obtain ⟨sigs, verified, heq, hlookup, hmem⟩ := ih ha
      refine ⟨sigs, verified, heq, hlookup, fun x => ?_⟩
      rw [hmem x, exists_mem_cons_iff]
      simp [hs]

theorem reverifyPending_none (h : n.pendingSigs.lookup id = none) : n.reverifyPending S id = n := by
  unfold reverifyPending
  rw [h]

theorem reverifyPending_some {a : PendingApproval} (ha : n.pendingSigs.lookup id = some a) :
    ∃ sigs verified, n.reverifyPending S id = { n with pendingSigs := sigs } ∧
      sigs.lookup id = some { a with verified := verified } ∧
      ∀ x, x ∈ verified ↔ x ∈ a.verified ∨ ∃ s ∈ a.sigs, s.member = x ∧ x ∉ a.verified ∧
        n.approvalVerifies S id a.height x s.sig := by
  unfold reverifyPending
  rw [ha]
  obtain ⟨sigs, verified, heq, hlookup, hmem⟩ := foldl_markVerified (S := S) a.height
    (a.sigs.filter fun s => s.member ∉ a.verified) ha
  refine ⟨sigs, verified, heq, hlookup, fun x => ?_⟩
  rw [hmem x]
  refine or_congr_right ⟨?_, ?_⟩
  · rintro ⟨s, hs, rfl, hverifies⟩
    obtain ⟨hs, hnot⟩ := mem_filter.mp hs
    exact ⟨s, hs, rfl, by simpa using hnot, hverifies⟩
  · rintro ⟨s, hs, rfl, hnot, hverifies⟩
    exact ⟨s, mem_filter.mpr ⟨hs, by simpa using hnot⟩, rfl, hverifies⟩

end Node

structure Env.Spares (e : Env) (id : UInt64) (payload : Value) : Prop where
  wiki : ∀ n moved, e.wikiVerdict n moved id ≠ some .conflict
  vault : ∀ n p, p.payload = payload → e.vaultReplaced n p ≠ some true
  wallet : ∀ n, e.walletDead n id = false
  init : e.walletRefuses payload = false

namespace Node

variable {S : Site} {e : Env} {n : Node} {id : UInt64}

theorem lookup_opened {p : ProposalRecord} (hnew : n.proposals.lookup id = none) :
    ((n.bump id).openCard id p).proposals.lookup id = some p :=
  lookup_openCard p hnew

theorem opened_spared (source : String) (surface : Surface) {payload : Value}
    (hnew : n.proposals.lookup id = none) (hspares : e.Spares id payload) :
    Alike id ((n.bump id).openCard id { surface := surface, payload := payload, proposer := source })
      (n.opened e source id surface payload) := by
  have hcard := lookup_opened (p := { surface := surface, payload := payload, proposer := source }) hnew
  unfold opened
  dsimp only
  generalize (n.bump id).openCard id
    { surface := surface, payload := payload, proposer := source } = k at hcard
  have halike : ∀ m m', Alike id m m' → Alike id k m → Alike id k m' := fun _ _ h h' => h'.trans h
  have hvault : Alike id k (if surface = .vault then k.supersedeStaleVaultCards e else k) := by
    split_ifs
    · refine supersedeStaleVaultCards_keeps halike (fun hbad => ?_) (fun _ m hm => ?_) (.refl k)
      · rw [hcard] at hbad
        exact absurd hbad (hspares.vault k _ rfl)
      · -- the card is open, so there is nothing to revive
        refine hm.trans (alike_adjust fun _ p hp => ?_)
        obtain ⟨q, hq, hstanding⟩ := hm.known hcard
        obtain rfl : q = p := Option.some.inj (hq.symm.trans hp)
        have hopen : q.state = .proposed := congrArg Standing.state hstanding
        rw [if_neg (by simp [hopen])]
    · exact .refl k
  generalize (if surface = .vault then k.supersedeStaleVaultCards e else k) = k' at hvault ⊢
  split_ifs
  · exact supersedeStaleWiki_keeps halike (fun hbad => absurd hbad (hspares.wiki _ _)) hvault
  · exact hvault

theorem settled_spared {source : String} {surface : Surface} {payload : Value} {p : ProposalRecord}
    (hcard : n.proposals.lookup id = some p) (hpayload : p.payload = payload)
    (hdeclines : n.pendingDeclines.lookup id = none)
    (hwithdrawal : n.pendingWithdrawals.lookup id = none) (hspares : e.Spares id payload) :
    Alike id n (let m := n.applyProposed S e source id surface payload
      if surface = .wallet then m.walletReview S e id else m) := by
  have halike : ∀ m m', Alike id m m' → Alike id n m → Alike id n m' := fun _ _ h h' => h'.trans h
  have happly : Alike id n (n.applyProposed S e source id surface payload) :=
    applyProposed_keeps halike (by simp [hcard]) hdeclines hwithdrawal
      (fun k hbad => absurd hbad (hspares.wiki k none)) (.refl n)
  split_ifs
  · refine walletReview_keeps halike (fun hbad => ?_) (fun k q hk hq hrefuses => ?_) happly
    · simp [hspares.wallet] at hbad
    · obtain ⟨r, hr, hstanding⟩ := hk.known hcard
      obtain rfl : r = q := Option.some.inj (hr.symm.trans hq)
      have hsame : r.payload = payload := (congrArg Standing.payload hstanding).trans hpayload
      rw [hsame, hspares.init] at hrefuses
      simp at hrefuses
  · exact happly

end Node

namespace Node

variable {S : Site} {e : Env} {n : Node} {id : UInt64}

end Node

namespace Machine

def taken (S : Site) : Machine → List (Env × Input) → List (Env × Input)
  | _, [] => []
  | m, t :: turns => match m.calls with
    | [] => t :: taken S (m.turn S t) turns
    | _ :: _ => taken S (m.turn S t) turns

def Stands (S : Site) : Machine → List (Env × Input) → Prop
  | _, [] => True
  | m, t :: turns => (m.turn S t).node.chain.blocks = m.node.chain.blocks ∧
      Stands S (m.turn S t) turns

end Machine

end Molt.Engine
