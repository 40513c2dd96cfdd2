import Mathlib
import MoltRepublic.Chain.Walk

/-! What an accepted genesis, an accepted block and an accepted anchor have passed. -/

namespace Molt.Chain
open Molt.Core Json Check Vault

variable {C : Crypto}

variable {b : ChainBlock}

theorem verifyGenesis_eq_ok {head : ChainHead} :
    verifyGenesis C b = .ok head ↔ ∃ g, b.change = .genesis g ∧ b.height = 0 ∧
      b.prev = genesisPrev ∧ (g.ruleM ≠ 0 ∧ g.ruleM ≤ g.ruleN) ∧
      g.ruleN.toNat = g.identities.length ∧
      (∃ keyed, checkRosterKeys C g.ruleM g.ruleN g.identities g.features = .ok keyed) ∧
      C.republicId g.name g.ruleM g.ruleN g.identities = g.republicId ∧
      (validSigners C g.identities (approvalBytes g.republicId 0 b.change) b.sigs).card =
        g.identities.length ∧
      head = ⟨0, C.blockHash g.republicId b, g.republicId, g.ruleM, g.identities⟩ := by
  unfold verifyGenesis
  simp only [bind_eq_ok, ensure_eq_ok, exists_const]
  cases hc : b.change with
  | genesis g =>
    simp only [bind_eq_ok, ensure_eq_ok, exists_const, pure_eq_ok, ChainChange.genesis.injEq]
    constructor
    · rintro ⟨hheight, hprev, hrule, hsize, keyed, hkeys, hrid, hall, rfl⟩
      exact ⟨g, rfl, hheight, hprev, hrule, hsize, ⟨keyed, hkeys⟩, hrid, hall, rfl⟩
    · rintro ⟨_, rfl, hheight, hprev, hrule, hsize, ⟨keyed, hkeys⟩, hrid, hall, rfl⟩
      exact ⟨hheight, hprev, hrule, hsize, keyed, hkeys, hrid, hall, rfl⟩
  | applied | membership | checkpoint | checkpointFolded => simp [throw, throwThe, MonadExceptOf.throw]
  | checkpointVault => simp [throw, throwThe, MonadExceptOf.throw]

variable {seen : Finset UInt64}

theorem verifyNext_eq_ok {head next : ChainHead} {consumed : Option UInt64} :
    verifyNext C head b seen = .ok (next, consumed) ↔
      b.height.toNat = head.height.toNat + 1 ∧ b.prev = head.hash ∧
      checkChange seen b = .ok consumed ∧
      (∃ signers, blockSigners C head.republicId head.identities b = .ok signers ∧
        head.ruleM.toNat ≤ signers.card) ∧
      ∃ identities, rosterAfter head.identities b.change = .ok identities ∧
        next = ⟨b.height, C.blockHash head.republicId b, head.republicId, head.ruleM, identities⟩ := by
  unfold verifyNext
  simp only [bind_eq_ok, ensure_eq_ok, exists_const, pure_eq_ok, Prod.mk.injEq]
  constructor
  · rintro ⟨hheight, hprev, c, hc, signers, hs, hm, identities, hi, rfl, rfl⟩
    exact ⟨hheight, hprev, hc, ⟨signers, hs, hm⟩, identities, hi, rfl⟩
  · rintro ⟨hheight, hprev, hc, ⟨signers, hs, hm⟩, identities, hi, rfl⟩
    exact ⟨hheight, hprev, consumed, hc, signers, hs, hm, identities, hi, rfl, rfl⟩

theorem applyMembership_eq_ok {identities after : List MemberIdentity} {op : MembershipOp}
    {member pk : String} (h : applyMembership identities op member pk = .ok after) :
    op = .restored ∧ after = identities := by
  unfold applyMembership at h
  cases op with
  | joined => simp at h
  | restored =>
    refine ⟨rfl, ?_⟩
    simp only at h
    split at h
    · simp at h
    · split_ifs at h
      simpa using h.symm

theorem rosterAfter_eq_ok {identities after : List MemberIdentity} {change : ChainChange}
    (h : rosterAfter identities change = .ok after) : after = identities := by
  unfold rosterAfter at h
  split at h
  · exact (applyMembership_eq_ok h).2
  · simpa using h.symm

theorem toNat_pred {n : UInt64} {k : Nat} (h : n.toNat = k + 1) : (n - 1).toNat = k := by
  have hle : 1 ≤ n := by
    rw [UInt64.le_iff_toNat_le, h]
    simp
  rw [UInt64.toNat_sub_of_le _ _ hle, h]
  simp

theorem checkChange_eq_some {id : UInt64} (h : checkChange seen b = .ok (some id)) :
    id ∉ seen ∧ ∃ surface payload, b.change = .applied id surface payload := by
  unfold checkChange at h
  split at h <;> rename_i hc <;>
    simp only [bind_eq_ok, ensure_eq_ok, exists_const, pure_eq_ok, Option.some.injEq, reduceCtorEq,
      and_false, Except.ok.injEq] at h
  obtain ⟨hseen, rfl⟩ := h
  exact ⟨hseen, _, _, hc⟩

theorem checkChange_eq_none (h : checkChange seen b = .ok none) {id : UInt64} {surface : Surface}
    {payload : Value} :
    b.change ≠ .applied id surface payload := by
  intro hc
  simp only [checkChange, hc, bind_eq_ok, pure_eq_ok, reduceCtorEq, and_false, exists_false] at h

theorem checkChange_of_cut {consumed : Option UInt64} (h : checkChange seen b = .ok consumed) {upto : UInt64}
    {hash : String} {kind : CutKind} (hcut : CutKind.of b.change = some (upto, hash, kind)) :
    consumed = none ∧ b.height ≠ 0 ∧ upto = b.height - 1 := by
  unfold checkChange at h
  split at h <;> rename_i hc <;> simp only [hc, CutKind.of, reduceCtorEq, Option.some.injEq,
    Prod.mk.injEq] at hcut
  all_goals
    obtain ⟨rfl, rfl, rfl⟩ := hcut
    simp only [bind_eq_ok, ensure_eq_ok, exists_const, pure_eq_ok] at h
    exact ⟨h.2.symm, h.1⟩

variable {vault : Option VaultCtx}

theorem foldOne_of_cut {state : CheckpointState} (h : (CutKind.of b.change).isSome) :
    foldOne C state b vault = (state, .ok ()) := by
  unfold foldOne
  cases hc : b.change with
  | genesis | applied | membership => simp [CutKind.of, hc] at h
  | checkpoint | checkpointFolded | checkpointVault => rfl

theorem foldOne_of_error {state : CheckpointState} {e : String} (h : (foldOne C state b vault).2 = .error e) :
    (foldOne C state b vault).1 = state := by
  unfold foldOne at h ⊢
  split at h
  · split at h
    · rfl
    · simp at h
  · split at h
    · rfl
    · simp at h
  all_goals simp at h

variable {w : ChainWalk} {held : Held}

theorem checkCut_of_not_cut (h : CutKind.of b.change = none) : checkCut C w b held = .ok false := by
  unfold checkCut
  rw [h]

theorem checkCut_eq_ok {wiki : Bool} {upto : UInt64} {hash : String} {kind : CutKind}
    (hcut : CutKind.of b.change = some (upto, hash, kind)) :
    checkCut C w b held = .ok wiki ↔ w.vault.isSome = kind.vault ∧
      (w.foldedCut = true → kind.wiki = true) ∧ checkFloor w.floor upto = .ok () ∧
      hashWalkState C w.running upto kind held = .ok hash ∧ wiki = kind.wiki := by
  unfold checkCut
  rw [hcut]
  simp only [bind_eq_ok, ensure_eq_ok, exists_const, pure_eq_ok]
  constructor
  · rintro ⟨hv, hf, _, hfloor, got, hgot, rfl, rfl⟩
    exact ⟨hv, hf, hfloor, hgot, rfl⟩
  · rintro ⟨hv, hf, hfloor, hgot, rfl⟩
    exact ⟨hv, hf, (), hfloor, hash, hgot, rfl, rfl⟩

theorem advance_eq_ok {w' : ChainWalk} :
    advance C held w b = .ok w' ↔ ∃ head consumed wiki running,
      verifyNext C w.head b w.seen = .ok (head, consumed) ∧
      consentSpends b.change (walkWorkingAnchor w.running) = .ok () ∧
      checkCut C w b held = .ok wiki ∧
      foldOne C w.running b w.vault = (running, .ok ()) ∧
      w' = { w with
        head := head
        seen := consumed.elim w.seen fun id => insert id w.seen
        running := running
        folded := w.folded + 1
        foldedCut := w.foldedCut || wiki } := by
  unfold advance step
  cases hn : verifyNext C w.head b w.seen with
  | error e => simp [Except.map]
  | ok next =>
    cases hs : consentSpends b.change (walkWorkingAnchor w.running) with
    | error e => simp [Except.map]
    | ok =>
      cases hc : checkCut C w b held with
      | error e => simp [Except.map]
      | ok wiki =>
        rcases hf : foldOne C w.running b w.vault with ⟨running, result⟩
        cases result with
        | error e => simp [Except.map, hf]
        | ok =>
          obtain ⟨head, consumed⟩ := next
          simp [Except.map, hf, eq_comm]

theorem step_of_error {e : String} (h : (step C w b held).2 = .error e) : (step C w b held).1 = w := by
  unfold step at h ⊢
  cases hn : verifyNext C w.head b w.seen with
  | error e => rfl
  | ok next =>
    cases hs : consentSpends b.change (walkWorkingAnchor w.running) with
    | error e => simp
    | ok =>
      cases hc : checkCut C w b held with
      | error e => simp
      | ok wiki =>
        cases hcut : CutKind.of b.change with
        | none =>
          -- the block is no cut, so the flag that is set before the fold stays
          have hwiki : wiki = false := by
            rw [checkCut_of_not_cut hcut] at hc
            exact (Except.ok.inj hc).symm
          rcases hf : foldOne C w.running b w.vault with ⟨running, result⟩
          cases result with
          | ok => simp [hn, hs, hc, hf] at h
          | error e =>
            have hstate : running = w.running := by
              have hsame : (foldOne C w.running b w.vault).2 = .error e := by rw [hf]
              rw [← foldOne_of_error hsame, hf]
            simp [hf, hwiki, hstate]
        | some cut =>
          -- a cut is state-neutral: the fold behind the flag cannot refuse it
          rw [hn, hs, hc] at h
          simp [foldOne_of_cut (b := b) (by rw [hcut]; rfl)] at h

theorem foldNext_eq_ok {s t : CheckpointState} :
    foldNext C vault s b = .ok t ↔ foldOne C s b vault = (t, .ok ()) := by
  unfold foldNext
  rcases foldOne C s b vault with ⟨state, result⟩
  cases result <;> simp [Except.map]

structure SameFounding (s t : CheckpointState) : Prop where
  foundingName : t.foundingName = s.foundingName
  ruleM : t.ruleM = s.ruleM
  ruleN : t.ruleN = s.ruleN
  foundingIdentities : t.foundingIdentities = s.foundingIdentities
  agenda : t.agenda = s.agenda
  relays : t.relays = s.relays
  foundingFeatures : t.foundingFeatures = s.foundingFeatures
  republicId : t.republicId = s.republicId
  roster : t.roster = s.roster
  upto : t.upto = s.upto

theorem SameFounding.refl (s : CheckpointState) : SameFounding s s :=
  ⟨rfl, rfl, rfl, rfl, rfl, rfl, rfl, rfl, rfl, rfl⟩

theorem SameFounding.trans {s t u : CheckpointState} (h : SameFounding s t) (k : SameFounding t u) :
    SameFounding s u where
  foundingName := k.foundingName.trans h.foundingName
  ruleM := k.ruleM.trans h.ruleM
  ruleN := k.ruleN.trans h.ruleN
  foundingIdentities := k.foundingIdentities.trans h.foundingIdentities
  agenda := k.agenda.trans h.agenda
  relays := k.relays.trans h.relays
  foundingFeatures := k.foundingFeatures.trans h.foundingFeatures
  republicId := k.republicId.trans h.republicId
  roster := k.roster.trans h.roster
  upto := k.upto.trans h.upto

theorem foldOne_sameFounding {s t : CheckpointState} (h : foldOne C s b vault = (t, .ok ())) :
    SameFounding s t := by
  unfold foldOne at h
  split at h
  · split at h <;> simp only [Prod.mk.injEq, reduceCtorEq, and_false, and_true] at h
    subst h
    exact ⟨rfl, rfl, rfl, rfl, rfl, rfl, rfl, rfl, rfl, rfl⟩
  · split at h <;> simp only [Prod.mk.injEq, reduceCtorEq, and_false, and_true] at h
    rename_i roster hroster
    subst h
    exact ⟨rfl, rfl, rfl, rfl, rfl, rfl, rfl, rfl, (applyMembership_eq_ok hroster).2, rfl⟩
  all_goals
    simp only [Prod.mk.injEq, and_true] at h
    exact h ▸ SameFounding.refl s

theorem verifyAnchor_eq_ok {blob : CheckpointState} {anchor : ChainBlock} {rid : String} :
    verifyAnchor C blob anchor rid = .ok w ↔ ∃ hash kind,
      CutKind.of anchor.change = some (blob.upto, hash, kind) ∧
      C.checkpointStateHash blob = hash ∧ (anchor.height ≠ 0 ∧ anchor.height - 1 = blob.upto) ∧
      (C.republicId blob.foundingName blob.ruleM blob.ruleN blob.foundingIdentities = rid ∧
        C.republicId blob.foundingName blob.ruleM blob.ruleN blob.foundingIdentities =
          blob.republicId) ∧
      (blob.ruleM ≠ 0 ∧ blob.ruleM ≤ blob.ruleN ∧ blob.roster ≠ []) ∧
      blob.ruleN.toNat = blob.foundingIdentities.length ∧
      (blob.foundingIdentities.any fun i => i.vaultPk != "") = kind.vault ∧
      checkAnchorKeys C (blob.foundingIdentities.any fun i => i.vaultPk != "") blob = .ok () ∧
      checkAnchored blob.foundingIdentities blob.roster = .ok () ∧
      blob.ruleM.toNat ≤ (validSigners C blob.foundingIdentities
        (approvalBytes blob.republicId anchor.height anchor.change) anchor.sigs).card ∧
      w = anchorWalk C blob anchor kind := by
  unfold verifyAnchor
  cases hcut : CutKind.of anchor.change with
  | none => simp [throw, throwThe, MonadExceptOf.throw]
  | some cut =>
    obtain ⟨upto, hash, kind⟩ := cut
    simp only [bind_eq_ok, ensure_eq_ok, exists_const, pure_eq_ok, Option.some.injEq, Prod.mk.injEq]
    constructor
    · rintro ⟨rfl, hhash, hheight, hrid, hrule, hsize, hkeyed, _, hkeys, _, hroster, hm, rfl⟩
      exact ⟨hash, kind, ⟨rfl, rfl, rfl⟩, hhash, hheight, hrid, hrule, hsize, hkeyed, hkeys, hroster,
        hm, rfl⟩
    · rintro ⟨_, _, ⟨rfl, rfl, rfl⟩, hhash, hheight, hrid, hrule, hsize, hkeyed, hkeys, hroster,
        hm, rfl⟩
      exact ⟨rfl, hhash, hheight, hrid, hrule, hsize, hkeyed, (), hkeys, (), hroster, hm, rfl⟩

theorem walkSuffixChain_eq_ok {blob : CheckpointState} {blocks : List ChainBlock} {rid : String} :
    walkSuffixChain C blob blocks rid held = .ok w ↔ ∃ anchor rest w₀, blocks = anchor :: rest ∧
      verifyAnchor C blob anchor rid = .ok w₀ ∧ rest.foldlM (advance C held) w₀ = .ok w := by
  cases blocks with
  | nil => simp [walkSuffixChain]
  | cons anchor rest =>
    simp only [walkSuffixChain, bind_eq_ok]
    constructor
    · rintro ⟨w₀, hanchor, h⟩
      exact ⟨anchor, rest, w₀, rfl, hanchor, h⟩
    · rintro ⟨anchor', rest', w₀, heq, hanchor, h⟩
      obtain ⟨rfl, rfl⟩ := List.cons.inj heq
      exact ⟨w₀, hanchor, h⟩

end Molt.Chain
