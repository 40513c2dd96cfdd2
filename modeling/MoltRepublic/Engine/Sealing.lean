import Mathlib
import MoltRepublic.Engine.Runs

/-! The sealer's count of a vote against the verifier's: what passes the threshold test
seals a block that is backed, and what stops there could not have been. -/

namespace Molt.Engine
open Molt.Core Json Chain Check List
open Option hiding any_eq_true mem_map mem_map_of_mem mem_toFinset

section

variable {α β : Type} [DecidableEq β] {f : α → β}

variable {l : List α}

theorem exists_mem_destutter' {a b : α} (h : b ∈ a :: l) :
    ∃ c ∈ l.destutter' (fun x y => f x ≠ f y) a, f c = f b := by
  induction l generalizing a b with
  | nil =>
    obtain rfl := mem_singleton.mp h
    exact ⟨b, mem_singleton_self b, rfl⟩
  | cons x l ih =>
    by_cases hax : f a ≠ f x
    · rw [destutter'_cons, if_pos hax]
      rcases mem_cons.mp h with rfl | hl
      · exact ⟨b, .head _, rfl⟩
      · obtain ⟨c, hc, hcb⟩ := ih hl
        exact ⟨c, .tail _ hc, hcb⟩
    · rw [destutter'_cons, if_neg hax]
      rcases mem_cons.mp h with rfl | hl
      · exact ih (.head _)
      · rcases mem_cons.mp hl with rfl | hl
        · obtain ⟨c, hc, hca⟩ := ih (mem_cons_self (a := a) (l := l))
          exact ⟨c, hc, hca.trans (not_not.mp hax)⟩
        · exact ih (.tail _ hl)

theorem exists_mem_destutter {b : α} (h : b ∈ l) :
    ∃ c ∈ l.destutter fun x y => f x ≠ f y, f c = f b := by
  cases l with
  | nil => exact absurd h not_mem_nil
  | cons a l => exact exists_mem_destutter' h

theorem nodup_destutter [LinearOrder β] (h : l.Pairwise fun x y => f x ≤ f y) :
    ((l.destutter fun x y => f x ≠ f y).map f).Nodup := by
  have hle := h.sublist (destutter_sublist (fun x y => f x ≠ f y) l)
  have hne := isChain_destutter (fun x y => f x ≠ f y) l
  have hlt : ((l.destutter fun x y => f x ≠ f y).map f).IsChain (· < ·) := by
    rw [isChain_map, isChain_iff_forall_rel_of_append_cons_cons]
    intro a b before after heq
    rw [isChain_iff_forall_rel_of_append_cons_cons] at hne
    exact lt_of_le_of_ne (isChain_iff_forall_rel_of_append_cons_cons.mp hle.isChain heq) (hne heq)
  exact (isChain_iff_pairwise.mp hlt).imp ne_of_lt

end

/-- What `try_commit` has in hand when it comes to its threshold test. -/
structure Tally where
  head : ChainHead
  change : ChainChange
  collected : List RosterAttestation
  decliners : List String
  valid : List RosterAttestation
  consented : Nat

namespace Tally

def need (t : Tally) : Nat :=
  if (CutKind.of t.change).isSome then t.head.identities.length else t.head.ruleM.toNat

def Reached (t : Tally) : Prop := t.need ≤ t.valid.length + t.consented

def sealed (t : Tally) : ChainBlock :=
  ⟨t.head.height + 1, t.head.hash, t.change, t.valid.take t.need⟩

end Tally

/-- The walk of `try_commit` up to its threshold test. -/
def Node.tally (S : Site) (n : Node) (id : UInt64) : Option Tally := do
  let head ← n.head
  if n.isTerminal id then none
  let change ← n.proposalChange id
  let pending ← n.pendingSigs.lookup id
  let target := head.height + 1
  if pending.height ≠ target then none
  let decliners := ((n.proposals.lookup id).map ProposalRecord.decliners).getD []
  let (valid, consented) ← n.countedVotes S target change
    (n.validVotes S head change decliners pending.sigs)
  return ⟨head, change, pending.sigs, decliners, valid, consented⟩

structure HeadOf (n : Node) (head : ChainHead) : Prop where
  republicId : head.republicId = n.chain.republicId
  seats : (head.identities.map MemberIdentity.member).Nodup

variable {S : Site} {n : Node} {id : UInt64} {t : Tally}

theorem sealOf_eq_tally (S : Site) (n : Node) (id : UInt64) :
    n.sealOf S id = (n.tally S id).bind fun t =>
      if t.valid.length + t.consented < t.need then none else some t.sealed := by
  unfold Node.sealOf Node.tally
  cases n.head with
  | none => rfl
  | some head =>
    dsimp only [bind_eq_bind, bind_some]
    by_cases hterminal : n.isTerminal id = true
    · rw [if_pos hterminal, if_pos hterminal]
      rfl
    rw [if_neg hterminal, if_neg hterminal]
    cases n.proposalChange id with
    | none => rfl
    | some change =>
      cases n.pendingSigs.lookup id with
      | none => rfl
      | some pending =>
        dsimp only [bind_some]
        by_cases hheight : pending.height ≠ head.height + 1
        · rw [if_pos hheight, if_pos hheight]
          rfl
        rw [if_neg hheight, if_neg hheight]
        generalize n.countedVotes S (head.height + 1) change (n.validVotes S head change
          (((n.proposals.lookup id).map ProposalRecord.decliners).getD []) pending.sigs) = counted
        cases counted with
        | none | some counted => rfl

theorem tally_eq_some (h : n.tally S id = some t) :
    n.head = some t.head ∧ n.proposalChange id = some t.change ∧
      n.countedVotes S (t.head.height + 1) t.change
        (n.validVotes S t.head t.change t.decliners t.collected) = some (t.valid, t.consented) := by
  unfold Node.tally at h
  cases hhead : n.head with
  | none => simp [hhead] at h
  | some head =>
    rw [hhead] at h
    dsimp only [bind_eq_bind, bind_some] at h
    by_cases hterminal : n.isTerminal id = true
    · simp [if_pos hterminal] at h
    rw [if_neg hterminal] at h
    obtain ⟨change, hchange, h⟩ := bind_eq_some_iff.mp h
    obtain ⟨pending, -, h⟩ := bind_eq_some_iff.mp h
    by_cases hheight : pending.height ≠ head.height + 1
    · simp [if_pos hheight] at h
    rw [if_neg hheight] at h
    obtain ⟨counted, hcounted, h⟩ := bind_eq_some_iff.mp h
    obtain rfl := Option.some.inj h
    exact ⟨rfl, hchange, hcounted⟩

variable {head : ChainHead} {change : ChainChange} {sigs : List RosterAttestation}
    {a : RosterAttestation}

theorem mem_validVotes {decliners : List String} (h : a ∈ n.validVotes S head change decliners sigs) :
    a.member ∉ decliners ∧ ∃ i ∈ head.identities, i.member = a.member ∧
      S.C.identityVerify i.identityPk (approvalBytes n.chain.republicId (head.height + 1) change) a.sig := by
  have hvalid := (perm_insertionSort _ _).mem_iff.mp ((destutter_sublist _ _).subset h)
  simp only [mem_filter, Bool.and_eq_true, Bool.not_eq_true', contains_eq_mem,
    decide_eq_false_iff_not, any_eq_true, beq_iff_eq] at hvalid
  obtain ⟨-, hstands, i, hi, hmember, hverify⟩ := hvalid
  exact ⟨hstands, i, hi, hmember, hverify⟩

theorem exists_validVotes {decliners : List String} (ha : a ∈ sigs) (hstands : a.member ∉ decliners)
    {i : MemberIdentity} (hi : i ∈ head.identities) (hmember : i.member = a.member)
    (hverify : S.C.identityVerify i.identityPk (approvalBytes n.chain.republicId (head.height + 1) change) a.sig = true) :
    ∃ b ∈ n.validVotes S head change decliners sigs, b.member = a.member := by
  refine exists_mem_destutter ((perm_insertionSort _ _).mem_iff.mpr ?_)
  simp only [mem_filter, Bool.and_eq_true, Bool.not_eq_true', contains_eq_mem,
    decide_eq_false_iff_not, any_eq_true, beq_iff_eq]
  exact ⟨ha, hstands, i, hi, hmember, hverify⟩

theorem nodup_validVotes (head : ChainHead) (change : ChainChange) (decliners : List String)
    (sigs : List RosterAttestation) :
    ((n.validVotes S head change decliners sigs).map RosterAttestation.member).Nodup :=
  nodup_destutter (pairwise_insertionSort _ _)

variable {height : UInt64}

theorem countedVotes_cases {votes valid : List RosterAttestation} {consented : Nat}
    (h : n.countedVotes S height change votes = some (valid, consented)) :
    (∃ m kind, change = .membership m ∧ m.op = .restored ∧ n.restoreConsentAt S m height = .ok kind ∧
        m.consent.isSome ∧ valid = votes.filter (fun a => a.member != m.member) ∧ consented = 1) ∨
      ((∀ m, change = .membership m → m.op = .restored → m.consent = none) ∧ valid = votes ∧
        consented = 0) := by
  unfold Node.countedVotes at h
  cases change with
  | membership m =>
    dsimp only at h
    by_cases hm : m.op = .restored ∧ m.consent.isSome
    · rw [if_pos hm] at h
      cases hconsent : n.restoreConsentAt S m height with
      | error why => simp [hconsent, Node.refusal] at h
      | ok kind =>
        simp only [hconsent, Node.refusal, isNone_none, if_true, Option.some.injEq, Prod.mk.injEq] at h
        exact .inl ⟨m, kind, rfl, hm.1, hconsent, hm.2, h.1.symm, h.2.symm⟩
    · simp only [if_neg hm, Option.some.injEq, Prod.mk.injEq] at h
      refine .inr ⟨?_, h.1.symm, h.2.symm⟩
      rintro m' hm' hop
      obtain rfl := ChainChange.membership.inj hm'
      exact not_isSome_iff_eq_none.mp fun hsome => hm ⟨hop, hsome⟩
  | genesis | applied | checkpoint | checkpointFolded | checkpointVault =>
    simp only [Option.some.injEq, Prod.mk.injEq] at h
    exact .inr ⟨by simp, h.1.symm, h.2.symm⟩

theorem restoreConsentAt_eq_ok {m : Membership} {kind : ConsentKind}
    (h : n.restoreConsentAt S m height = .ok kind) (hhead : n.head = some head) :
    ∃ consent seat, m.consent = some consent ∧
      (head.identities.find? fun i => i.member == m.member) = some seat ∧
      verifyRestoreConsent S.C n.chain.republicId seat.identityPk height m.member m.nostrPk m.relays
        consent = .ok kind := by
  unfold Node.restoreConsentAt Node.anchoredIdentity at h
  cases hconsent : m.consent with
  | none => simp [hconsent] at h
  | some consent =>
    cases hseat : head.identities.find? fun i => i.member == m.member with
    | none => simp [hconsent, hhead, hseat] at h
    | some seat =>
      simp only [hconsent, hhead, bind_eq_bind, bind_some, hseat, Option.pure_def] at h
      simp only [bind_eq_ok] at h
      obtain ⟨kind', hkind, -, -, h⟩ := h
      obtain rfl := pure_eq_ok.mp h
      exact ⟨consent, seat, rfl, rfl, hkind⟩

theorem validSigners_of_votes {identities : List MemberIdentity} {bytes : List UInt8}
    (hseats : (identities.map MemberIdentity.member).Nodup)
    (hnodup : (sigs.map RosterAttestation.member).Nodup)
    (hvalid : ∀ a ∈ sigs, ∃ i ∈ identities, i.member = a.member ∧ S.C.identityVerify i.identityPk bytes a.sig) :
    validSigners S.C identities bytes sigs = (sigs.map RosterAttestation.member).toFinset ∧
      (validSigners S.C identities bytes sigs).card = sigs.length := by
  have hall : sigs.filter (attests S.C identities bytes) = sigs := by
    refine filter_eq_self.mpr fun a ha => ?_
    obtain ⟨i, hi, hmember, hverify⟩ := hvalid a ha
    have hfind := find?_member hseats hi
    rw [hmember] at hfind
    simp only [attests, hfind]
    exact hverify
  have heq : validSigners S.C identities bytes sigs = (sigs.map RosterAttestation.member).toFinset := by
    unfold validSigners
    rw [hall]
  refine ⟨heq, ?_⟩
  rw [heq, toFinset_card_of_nodup hnodup, length_map]

theorem validSigners_subset (hsub : sigs.Sublist (t.collected.filter fun a => a.member ∉ t.decliners)) :
    validSigners S.C t.head.identities
        (approvalBytes n.chain.republicId (t.head.height + 1) t.change) sigs ⊆
      ((n.validVotes S t.head t.change t.decliners t.collected).map RosterAttestation.member).toFinset := by
  intro m hm
  obtain ⟨i, hi, a, ha, rfl, hverify⟩ := mem_validSigners.mp hm
  have hmember : i.member = a.member := by simpa using find?_some hi
  obtain ⟨hcollected, hstands⟩ := mem_filter.mp (hsub.subset ha)
  obtain ⟨b, hb, hba⟩ := exists_validVotes hcollected (by simpa using hstands)
    (mem_of_find?_eq_some hi) hmember hverify
  exact mem_toFinset.mpr (mem_map.mpr ⟨b, hb, hba⟩)

theorem decliner_not_sealed (ht : n.tally S id = some t) (ha : a ∈ t.valid) :
    a ∈ n.validVotes S t.head t.change t.decliners t.collected := by
  obtain ⟨-, -, hcounted⟩ := tally_eq_some ht
  rcases countedVotes_cases hcounted with ⟨m, kind, -, -, -, -, hvalid, -⟩ | ⟨-, hvalid, -⟩
  · rw [hvalid] at ha
    exact mem_of_mem_filter ha
  · rwa [hvalid] at ha

theorem blockSigners_sealed (ht : n.tally S id = some t) (hhead : HeadOf n t.head)
    (hop : ∀ m, t.change = .membership m → m.op ≠ .joined) :
    ∃ voices, blockSigners S.C t.head.republicId t.head.identities t.sealed = .ok voices ∧
      voices.card = (t.valid.take t.need).length + t.consented := by
  obtain ⟨hown, -, hcounted⟩ := tally_eq_some ht
  have hnodup : ((t.valid.take t.need).map RosterAttestation.member).Nodup := by
    have hvotes := nodup_validVotes (S := S) (n := n) t.head t.change t.decliners t.collected
    have hsub : t.valid.Sublist (n.validVotes S t.head t.change t.decliners t.collected) := by
      rcases countedVotes_cases hcounted with ⟨m, kind, -, -, -, -, hvalid, -⟩ | ⟨-, hvalid, -⟩
      · rw [hvalid]
        exact filter_sublist
      · rw [hvalid]
    exact hvotes.sublist (((take_sublist _ _).trans hsub).map _)
  have hverified : ∀ a ∈ t.valid.take t.need, ∃ i ∈ t.head.identities, i.member = a.member ∧
      S.C.identityVerify i.identityPk
        (approvalBytes t.head.republicId t.sealed.height t.sealed.change) a.sig := by
    intro a ha
    obtain ⟨-, i, hi, hmember, hverify⟩ := mem_validVotes (decliner_not_sealed ht (mem_of_mem_take ha))
    rw [← hhead.republicId] at hverify
    exact ⟨i, hi, hmember, hverify⟩
  obtain ⟨hsigners, hcard⟩ := validSigners_of_votes (S := S) hhead.seats hnodup hverified
  unfold blockSigners
  rcases countedVotes_cases hcounted with ⟨m, kind, hm, hrestored, hconsent, -, hvalid, hone⟩ |
    ⟨hnone, -, hzero⟩
  · obtain ⟨consent, seat, hc, hseat, hverify⟩ := restoreConsentAt_eq_ok hconsent hown
    have hfresh : m.member ∉ validSigners S.C t.head.identities
        (approvalBytes t.head.republicId t.sealed.height t.sealed.change) t.sealed.sigs := by
      change m.member ∉ validSigners S.C t.head.identities _ (t.valid.take t.need)
      rw [hsigners, mem_toFinset, mem_map]
      rintro ⟨a, ha, hmember⟩
      have hfiltered := mem_of_mem_take ha
      rw [hvalid] at hfiltered
      simpa [hmember] using (mem_filter.mp hfiltered).2
    refine ⟨insert m.member (validSigners S.C t.head.identities
      (approvalBytes t.head.republicId t.sealed.height t.sealed.change) t.sealed.sigs), ?_, ?_⟩
    · rw [← hhead.republicId] at hverify
      have hchange : t.sealed.change = .membership m := hm
      simp only [hchange, hc, countConsent]
      rw [← hchange]
      simp only [hseat, bind_eq_ok, ensure_eq_ok, exists_const]
      exact ⟨hrestored, hfresh, kind, mapError_eq_ok.mpr hverify, rfl⟩
    · rw [Finset.card_insert_of_notMem hfresh, hone]
      exact congrArg (· + 1) hcard
  · refine ⟨validSigners S.C t.head.identities
      (approvalBytes t.head.republicId t.sealed.height t.sealed.change) t.sealed.sigs, ?_, ?_⟩
    · cases hchange : t.change with
      | membership m =>
        have hrestored : m.op = .restored := by
          cases hm : m.op with
          | joined => exact absurd hm (hop m hchange)
          | restored => rfl
        have hsealed : t.sealed.change = .membership m := hchange
        simp [hsealed, hnone m hchange hrestored]
      | genesis | applied | checkpoint | checkpointFolded | checkpointVault =>
        have hsealed : t.sealed.change = t.change := rfl
        simp [hsealed, hchange]
    · rw [hzero]
      exact hcard

theorem countConsent_eq_ok {rid : String} {identities : List MemberIdentity} {m : Membership}
    {consent : String} {signers voices : Finset String}
    (h : countConsent S.C rid identities height m consent signers = .ok voices) :
    m.member ∉ signers ∧ voices = insert m.member signers := by
  simp only [countConsent, bind_eq_ok, ensure_eq_ok, exists_const] at h
  obtain ⟨-, hfresh, h⟩ := h
  split at h
  · simp [throw, throwThe, MonadExceptOf.throw] at h
  · obtain ⟨-, -, h⟩ := bind_eq_ok.mp h
    exact ⟨hfresh, (pure_eq_ok.mp h).symm⟩

theorem blockSigners_le (ht : n.tally S id = some t) (hhead : HeadOf n t.head) {block : ChainBlock}
    (hheight : block.height = t.head.height + 1) (hchange : block.change = t.change)
    (hsub : block.sigs.Sublist (t.collected.filter fun a => a.member ∉ t.decliners)) {voices : Finset String}
    (h : blockSigners S.C t.head.republicId t.head.identities block = .ok voices) :
    voices.card ≤ t.valid.length + t.consented := by
  obtain ⟨-, -, hcounted⟩ := tally_eq_some ht
  have hsigners := validSigners_subset (S := S) (n := n) hsub
  unfold blockSigners at h
  rw [hheight, hchange, hhead.republicId] at h
  rcases countedVotes_cases hcounted with ⟨m, kind, hm, hrestored, -, hsome, hvalid, hone⟩ |
    ⟨hnone, hvalid, hzero⟩
  · obtain ⟨consent, hc⟩ := isSome_iff_exists.mp hsome
    simp only [hm, hc] at h
    obtain ⟨hfresh, rfl⟩ := countConsent_eq_ok h
    have hbeside : validSigners S.C t.head.identities
        (approvalBytes n.chain.republicId (t.head.height + 1) t.change) block.sigs ⊆
          (t.valid.map RosterAttestation.member).toFinset := by
      intro v hv
      obtain ⟨a, ha, rfl⟩ := mem_map.mp (mem_toFinset.mp (hsigners hv))
      have hne : a.member ≠ m.member := fun heq => hfresh (heq ▸ hm ▸ hv)
      rw [hvalid]
      exact mem_toFinset.mpr (mem_map_of_mem (mem_filter.mpr ⟨ha, by simpa using hne⟩))
    have hle := (Finset.card_le_card hbeside).trans (toFinset_card_le _)
    rw [length_map] at hle
    rw [Finset.card_insert_of_notMem hfresh, hone, ← hm]
    exact Nat.succ_le_succ hle
  · have hvoices : voices = validSigners S.C t.head.identities
        (approvalBytes n.chain.republicId (t.head.height + 1) t.change) block.sigs := by
      cases hm : t.change with
      | membership m =>
        cases hc : m.consent with
        | none =>
          simp only [hm, hc, Except.ok.injEq] at h
          exact h.symm
        | some consent =>
          simp only [hm, hc, countConsent, bind_eq_ok, ensure_eq_ok, exists_const] at h
          exact absurd (hnone m hm h.1) (by simp [hc])
      | genesis | applied | checkpoint | checkpointFolded | checkpointVault =>
        simp only [hm, Except.ok.injEq] at h
        exact h.symm
    have hle := (Finset.card_le_card hsigners).trans (toFinset_card_le _)
    rw [length_map] at hle
    rw [hvoices, hvalid, hzero]
    exact hle

/-- Past the threshold test the sealed block has the voices the verifier asks for, and no
decliner's among them; where the test stops, no block of the standing votes has them. -/
theorem sealer_counts_as_verifier (ht : n.tally S id = some t) (hhead : HeadOf n t.head)
    (hop : ∀ m, t.change = .membership m → m.op ≠ .joined) :
    (t.Reached → n.sealOf S id = some t.sealed ∧
      (∃ voices, blockSigners S.C t.head.republicId t.head.identities t.sealed = .ok voices ∧
        t.need ≤ voices.card) ∧ ∀ a ∈ t.sealed.sigs, a.member ∉ t.decliners) ∧
    (¬ t.Reached → n.sealOf S id = none ∧ ∀ block : ChainBlock,
      block.height = t.head.height + 1 → block.change = t.change →
      block.sigs.Sublist (t.collected.filter fun a => a.member ∉ t.decliners) →
      ∀ voices, blockSigners S.C t.head.republicId t.head.identities block = .ok voices →
        voices.card < t.need) := by
  constructor
  · intro hreached
    refine ⟨?_, ?_, ?_⟩
    · rw [sealOf_eq_tally, ht, Option.bind_some, if_neg (Nat.not_lt.mpr hreached)]
    · obtain ⟨voices, hvoices, hcard⟩ := blockSigners_sealed ht hhead hop
      refine ⟨voices, hvoices, ?_⟩
      rw [hcard, List.length_take]
      unfold Tally.Reached at hreached
      omega
    · intro a ha
      exact (mem_validVotes (decliner_not_sealed ht (List.mem_of_mem_take ha))).1
  · intro hstopped
    refine ⟨?_, fun block hheight hchange hsub voices hvoices => ?_⟩
    · rw [sealOf_eq_tally, ht, Option.bind_some, if_pos (Nat.not_le.mp hstopped)]
    · exact lt_of_le_of_lt (blockSigners_le ht hhead hheight hchange hsub hvoices)
        (Nat.not_le.mp hstopped)

namespace Sample
open Chain.Sample

def signed : Node := (start.run site (turnsOf [.command (.propose .organization (rename "C"))])).node

end Sample

open Sample Chain.Sample in
theorem sealer_counts_as_verifier_sample : ∃ t, signed.tally site 1 = some t ∧ t.need = 1 ∧
    signed.sealOf site 1 = some t.sealed ∧
      ∃ voices, blockSigners Crypto.toy t.head.republicId t.head.identities t.sealed = .ok voices ∧
        t.need ≤ voices.card := by
  have hchange : signed.proposalChange 1 = some (.applied 1 .organization (rename "C")) := by decide +kernel
  have hseats : (signed.head.all fun h => h.republicId == signed.chain.republicId &&
      decide (h.identities.map MemberIdentity.member).Nodup) = true := by decide +kernel
  have htally : ((signed.tally site 1).any fun t =>
      t.need == 1 && decide (t.need ≤ t.valid.length + t.consented)) = true := by decide +kernel
  obtain ⟨t, ht⟩ : ∃ t, signed.tally site 1 = some t := by
    cases ht : signed.tally site 1 with
    | none => simp [ht] at htally
    | some t => exact ⟨t, rfl⟩
  obtain ⟨hhead, htchange, -⟩ := tally_eq_some ht
  simp only [ht, Option.any_some, Bool.and_eq_true, beq_iff_eq, decide_eq_true_eq] at htally
  rw [hhead] at hseats
  simp only [Option.all_some, Bool.and_eq_true, beq_iff_eq, decide_eq_true_eq] at hseats
  have hop : ∀ m, t.change = .membership m → m.op ≠ .joined := by
    intro m hm
    rw [htchange, Option.some.injEq] at hchange
    exact absurd (hchange.symm.trans hm) (by simp)
  obtain ⟨hsealed, hvoices, -⟩ := (sealer_counts_as_verifier ht ⟨hseats.1, hseats.2⟩ hop).1 htally.2
  exact ⟨t, ht, htally.1, hsealed, hvoices⟩

end Molt.Engine
