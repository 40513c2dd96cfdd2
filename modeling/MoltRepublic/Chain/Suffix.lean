import Mathlib
import MoltRepublic.Chain.Refold
import MoltRepublic.Chain.Soundness

/-! A holder that pruned its history at a cut and a holder that kept it walk on alike.
Their states differ in the groups the cut folded and in the order of the ids, and in
nothing that a later block is checked against. -/

namespace Molt.Chain
open Molt.Core Json Check Vault List

variable {C : Crypto}

theorem sortIds_perm {l k : List UInt64} (h : l.Perm k) : sortIds l = sortIds k := by
  have hl := perm_insertionSort (· ≤ ·) l
  have hk := perm_insertionSort (· ≤ ·) k
  exact (hl.trans (h.trans hk.symm)).eq_of_pairwise (fun a b _ _ hab hba => UInt64.le_antisymm hab hba)
    (pairwise_insertionSort _ _) (pairwise_insertionSort _ _)

/-- A full holder's state and that of one pruned at a cut of `kind`. -/
structure Pruned (C : Crypto) (kind : CutKind) (held : Held) (s t : CheckpointState) : Prop where
  rest : t = { s with applied := t.applied, consumedIds := t.consumedIds, upto := t.upto }
  ids : t.consumedIds.Perm s.consumedIds
  groups : List.Forall₂ (GroupRefolds C kind held s.republicId) s.applied t.applied
  surfaces : (s.applied.map Prod.fst).Nodup

section

variable {kind : CutKind} {held : Held} {s t : CheckpointState}

theorem Pruned.atCut (h : Pruned C kind held s t) (upto : UInt64) :
    Refolds C kind held (atCut s upto) (atCut t upto) where
  rest := by
    unfold Chain.atCut
    rw [sortIds_perm h.ids, h.rest]
  groups := h.groups
  surfaces := h.surfaces

theorem Pruned.republicId (h : Pruned C kind held s t) : t.republicId = s.republicId := by
  rw [h.rest]

theorem Pruned.roster (h : Pruned C kind held s t) : t.roster = s.roster := by rw [h.rest]

theorem Pruned.sameFounding (h : Pruned C kind held s t) :
    SameFounding s { t with upto := s.upto } := by
  rw [h.rest]
  exact ⟨rfl, rfl, rfl, rfl, rfl, rfl, rfl, rfl, rfl, rfl⟩

theorem Pruned.walkWorkingAnchor (h : Pruned C kind held s t) :
    walkWorkingAnchor t = walkWorkingAnchor s := by
  funext member
  unfold Chain.walkWorkingAnchor
  rw [h.rest]

theorem Pruned.checkVaultEntry (h : Pruned C kind held s t) (height : UInt64)
    (vault : Option VaultCtx) (id : UInt64) (surface : Surface) (payload : Value) :
    checkVaultEntry C t height vault id surface payload =
      checkVaultEntry C s height vault id surface payload := by
  have henabled : ∀ ctx, walkEnabled t ctx = walkEnabled s ctx := by
    intro ctx
    unfold walkEnabled
    rw [refold_organization h.groups, show t.foundingFeatures = s.foundingFeatures by rw [h.rest]]
  unfold Chain.checkVaultEntry
  simp only [henabled, h.republicId]

theorem Pruned.foldNext (h : Pruned C kind held s t) (vault : Option VaultCtx) (b : ChainBlock) :
    Agree (fun s' t' => appliesBase b = false → Pruned C kind held s' t') (foldNext C vault s b)
      (foldNext C vault t b) := by
  unfold Chain.foldNext foldOne
  cases hc : b.change with
  | applied id surface payload =>
    simp only [h.checkVaultEntry]
    cases Chain.checkVaultEntry C s b.height vault id surface payload with
    | error e => trivial
    | ok =>
      intro hfree
      have hentry : wearsBase surface payload = false := by simpa [appliesBase, hc] using hfree
      refine ⟨?_, h.ids.append_right [id], refold_pushEntry (refold_birthGroup h.groups surface) hentry,
        ?_⟩
      · rw [h.rest]
      · rw [pushEntry_surfaces]
        exact birthGroup_nodup h.surfaces
  | membership m =>
    simp only [h.roster]
    cases applyMembership s.roster m.op m.member m.identityPk with
    | error e => trivial
    | ok roster =>
      intro _
      refine ⟨?_, h.ids, h.groups, h.surfaces⟩
      rw [h.rest]
      rfl
  | genesis g | checkpoint | checkpointFolded | checkpointVault => exact fun _ => h

end

/-- The walk of a full holder and that of one pruned at a cut of `kind`. -/
structure Twins (C : Crypto) (kind : CutKind) (held : Held) (w v : ChainWalk) : Prop where
  head : v.head = w.head
  seen : v.seen = w.seen
  vault : v.vault = w.vault
  foldedCut : v.foldedCut = w.foldedCut
  full : w.floor = none
  floor : ∃ upto, v.floor = some upto ∧ upto ≤ w.head.height
  running : Pruned C kind held w.running v.running
  wiki : kind.wiki = true → w.foldedCut = true
  base : kind.wiki = false → held.wiki = none
  keyed : w.vault.isSome = kind.vault

section

variable {kind : CutKind} {held : Held} {w v : ChainWalk} {b : ChainBlock}

theorem Twins.checkCut (h : Twins C kind held w v) (hheight : b.height.toNat = w.head.height.toNat + 1)
    {consumed : Option UInt64} (hchange : checkChange w.seen b = .ok consumed) {wiki : Bool} :
    checkCut C w b {} = .ok wiki ↔ checkCut C v b held = .ok wiki := by
  cases hcut : CutKind.of b.change with
  | none => rw [checkCut_of_not_cut hcut, checkCut_of_not_cut hcut]
  | some cut =>
    obtain ⟨upto, hash, kind'⟩ := cut
    obtain ⟨-, hne, rfl⟩ := checkChange_of_cut hchange hcut
    rw [checkCut_eq_ok hcut, checkCut_eq_ok hcut, h.vault, h.foldedCut, h.full]
    have hfloor : checkFloor v.floor (b.height - 1) = .ok () := by
      obtain ⟨f, hf, hle⟩ := h.floor
      rw [hf]
      refine ensure_eq_ok.mpr ?_
      rw [UInt64.le_iff_toNat_le, toNat_pred hheight]
      exact UInt64.le_iff_toNat_le.mp hle
    have hhash : w.vault.isSome = kind'.vault → (w.foldedCut = true → kind'.wiki = true) →
        (hashWalkState C w.running (b.height - 1) kind' {} = .ok hash ↔
          hashWalkState C v.running (b.height - 1) kind' held = .ok hash) := by
      intro hvault hwiki
      apply Agree.eq_ok_iff
      refine ((h.running.atCut _).foldCut (fun hk => hwiki (h.wiki hk)) h.base
        (hvault.symm.trans h.keyed)).bind fun c d hcd => ?_
      exact hcd.symm
    constructor
    · rintro ⟨hvault, hwiki, -, hgot, rfl⟩
      exact ⟨hvault, hwiki, hfloor, (hhash hvault hwiki).mp hgot, rfl⟩
    · rintro ⟨hvault, hwiki, -, hgot, rfl⟩
      exact ⟨hvault, hwiki, rfl, (hhash hvault hwiki).mpr hgot, rfl⟩

theorem Twins.advance (h : Twins C kind held w v) (b : ChainBlock) :
    Agree (fun w' v' => v'.head = w'.head ∧ (appliesBase b = false → Twins C kind held w' v'))
      (advance C {} w b) (advance C held v b) := by
  have hnext : verifyNext C v.head b v.seen = verifyNext C w.head b w.seen := by
    rw [h.head, h.seen]
  have hspends : consentSpends b.change (walkWorkingAnchor v.running) =
      consentSpends b.change (walkWorkingAnchor w.running) := by rw [h.running.walkWorkingAnchor]
  have hfold := h.running.foldNext w.vault b
  refine Agree.of_ok (fun w' hw' => ?_) fun v' hv' => ?_
  · obtain ⟨head, consumed, wiki, running, hn, hs, hc, hf, rfl⟩ := advance_eq_ok.mp hw'
    obtain ⟨hheight, -, hchange, -, identities, -, rfl⟩ := verifyNext_eq_ok.mp hn
    obtain ⟨running', hf', hpruned⟩ := hfold.exists_ok (foldNext_eq_ok.mpr hf)
    refine ⟨_, advance_eq_ok.mpr ⟨_, consumed, wiki, running', hnext.trans hn, hspends.trans hs,
      (h.checkCut hheight hchange).mp hc, foldNext_eq_ok.mp (h.vault ▸ hf'), rfl⟩, rfl, fun hfree => ?_⟩
    refine ⟨rfl, by rw [h.seen], h.vault, by rw [h.foldedCut], h.full, ?_, hpruned hfree,
      fun hk => by simp [h.wiki hk], h.base, h.keyed⟩
    obtain ⟨upto, hupto, hle⟩ := h.floor
    refine ⟨upto, hupto, ?_⟩
    rw [UInt64.le_iff_toNat_le] at hle ⊢
    simp only [hheight]
    omega
  · obtain ⟨head, consumed, wiki, running', hn, hs, hc, hf, rfl⟩ := advance_eq_ok.mp hv'
    rw [hnext] at hn
    obtain ⟨hheight, -, hchange, -⟩ := verifyNext_eq_ok.mp hn
    rw [h.vault] at hf
    obtain ⟨running, hf', -⟩ := hfold.exists_ok' (foldNext_eq_ok.mpr hf)
    exact ⟨_, advance_eq_ok.mpr ⟨head, consumed, wiki, running, hn, hspends.symm.trans hs,
      (h.checkCut hheight hchange).mpr hc, foldNext_eq_ok.mp hf', rfl⟩⟩

end

section

variable {kind : CutKind} {s : CheckpointState}

theorem foldWikiPart_refolds (hfree : BaseFree s.applied) (hnodup : (s.applied.map Prod.fst).Nodup)
    {wiki : CheckpointState × Option Wiki.Tree} (h : foldWikiPart C s kind {} = .ok wiki)
    (vault : Option VaultBase) : Refolds C ⟨kind.wiki, false⟩ ⟨wiki.2, vault⟩ s wiki.1 := by
  have hto : ∀ other ≠ Surface.memory, ∀ raw folded,
      EntriesRefold C {} ⟨wiki.2, vault⟩ s.republicId other raw folded →
        EntriesRefold C ⟨kind.wiki, false⟩ ⟨wiki.2, vault⟩ s.republicId other raw folded := by
    intro other hne raw folded hentries
    simpa [EntriesRefold, hne] using hentries
  unfold foldWikiPart at h
  split_ifs at h with hkind
  · unfold foldMemoryGroup at h
    cases hraw : groupOf s.applied .memory with
    | none =>
      rw [hraw] at h
      cases h
      exact ⟨rfl, refold_mono (refold_refl _) hto (not_mem_of_groupOf hraw), hnodup⟩
    | some raw =>
      rw [hraw] at h
      obtain ⟨folded, hfolded, heq⟩ := bind_eq_ok.mp h
      obtain rfl := pure_eq_ok.mp heq
      refine ⟨rfl, refold_setRight (refold_refl _) hnodup hto fun raw' hraw' => ?_, hnodup⟩
      obtain rfl : raw = raw' := Option.some.inj (hraw.symm.trans hraw')
      unfold EntriesRefold
      rw [if_pos ⟨rfl, hkind⟩]
      exact summarizeMemory_refolds (hfree _ (mem_of_groupOf hraw)) hfolded
  · cases h
    have hoff : kind.wiki = false := by simpa using hkind
    rw [hoff]
    exact ⟨rfl, refold_refl _, hnodup⟩

theorem foldVaultPart_refolds (hfree : BaseFree s.applied) {wiki : Bool} {held : Held}
    {s' : CheckpointState} (hs : Refolds C ⟨wiki, false⟩ held s s')
    (hgroup : groupOf s'.applied .vault = groupOf s.applied .vault)
    {vault : CheckpointState × Option VaultBase} (h : foldVaultPart C s' kind {} = .ok vault)
    (hheld : held.vault = vault.2) : Refolds C ⟨wiki, kind.vault⟩ held s vault.1 := by
  unfold foldVaultPart at h
  split_ifs at h with hkind
  · rw [hkind]
    unfold foldVaultGroup at h
    obtain ⟨folded, hfolded, heq⟩ := bind_eq_ok.mp h
    obtain rfl := pure_eq_ok.mp heq
    rw [hgroup] at hfolded
    split at hfolded
    · simp at hfolded
    · rename_i raw hraw
      obtain ⟨summary, hsummary, heq⟩ := bind_eq_ok.mp hfolded
      obtain rfl := pure_eq_ok.mp heq
      refine ⟨?_, refold_setRight hs.groups hs.surfaces ?_ fun raw' hraw' => ?_, hs.surfaces⟩
      · rw [hs.rest]
      · intro other hne raw folded hentries
        simpa [EntriesRefold, hne] using hentries
      · obtain rfl : raw = raw' := Option.some.inj (hraw.symm.trans hraw')
        unfold EntriesRefold
        rw [if_neg (by simp), if_pos ⟨rfl, rfl⟩, hheld]
        refine summarizeVault_refolds (hfree _ (mem_of_groupOf hraw)) ?_
        rw [show s.republicId = s'.republicId by rw [hs.rest]]
        exact hsummary
  · cases h
    have hoff : kind.vault = false := by simpa using hkind
    rw [hoff]
    exact hs

theorem foldCut_pruned (hfree : BaseFree s.applied) (hnodup : (s.applied.map Prod.fst).Nodup)
    {upto : UInt64} {folded : FoldedCut} (h : foldCut C (atCut s upto) kind {} = .ok folded) :
    Pruned C kind ⟨folded.tree, folded.vault⟩ s folded.state ∧ folded.state.upto = upto := by
  obtain ⟨wiki, hwiki, h⟩ := bind_eq_ok.mp h
  obtain ⟨vault, hvault, heq⟩ := bind_eq_ok.mp h
  obtain rfl := pure_eq_ok.mp heq
  have hgroup : groupOf wiki.1.applied .vault = groupOf (atCut s upto).applied .vault := by
    unfold foldWikiPart at hwiki
    split_ifs at hwiki
    · exact foldMemoryGroup_vault hwiki
    · rw [← Except.ok.inj hwiki]
  have hfree' : BaseFree (atCut s upto).applied := hfree
  have hrefolds := foldVaultPart_refolds hfree'
    (foldWikiPart_refolds hfree' hnodup hwiki vault.2) hgroup hvault rfl
  refine ⟨⟨?_, ?_, hrefolds.groups, hnodup⟩, by rw [hrefolds.rest]; rfl⟩
  · rw [hrefolds.rest]
    rfl
  · have hids : vault.1.consumedIds = sortIds s.consumedIds := by rw [hrefolds.rest]; rfl
    rw [hids]
    exact perm_insertionSort _ _

theorem foldCut_hash {held : Held} {folded : FoldedCut} (h : foldCut C s kind held = .ok folded) :
    folded.hash = C.checkpointStateHash folded.state ∧ (kind.wiki = false → folded.tree = none) := by
  obtain ⟨wiki, hwiki, h⟩ := bind_eq_ok.mp h
  obtain ⟨vault, hvault, heq⟩ := bind_eq_ok.mp h
  obtain rfl := pure_eq_ok.mp heq
  refine ⟨rfl, fun hoff => ?_⟩
  simp only [foldWikiPart, hoff, Bool.false_eq_true, if_false, Except.ok.injEq] at hwiki
  rw [← hwiki]

end

variable {g : Genesis} {w : ChainWalk}

theorem Walked.baseFree {blocks : List ChainBlock} (hw : Walked C g blocks w)
    (hfree : ∀ b ∈ blocks, appliesBase b = false) :
    BaseFree w.running.applied :=
  BaseFree.foldlM (fun b hb => hfree b (mem_of_mem_tail hb)) hw.running

theorem foldOne_nodup {vault : Option VaultCtx} {s t : CheckpointState} {b : ChainBlock}
    (hs : (s.applied.map Prod.fst).Nodup) (h : foldOne C s b vault = (t, .ok ())) :
    (t.applied.map Prod.fst).Nodup := by
  unfold foldOne at h
  split at h
  · split at h <;> simp only [Prod.mk.injEq, reduceCtorEq, and_false, and_true] at h
    subst h
    rw [pushEntry_surfaces]
    exact birthGroup_nodup hs
  · split at h <;> simp only [Prod.mk.injEq, reduceCtorEq, and_false, and_true] at h
    subst h
    exact hs
  all_goals
    simp only [Prod.mk.injEq, and_true] at h
    exact h ▸ hs

theorem Walked.surfaces {blocks : List ChainBlock} (hw : Walked C g blocks w) :
    (w.running.applied.map Prod.fst).Nodup :=
  foldlM_invariant (P := fun s : CheckpointState => (s.applied.map Prod.fst).Nodup)
    (fun _ _ _ _ hs h => foldOne_nodup hs (foldNext_eq_ok.mp h))
    (by change Surface.checkpointV7Surfaces.Nodup; decide) hw.running

theorem checkAnchored_self {founding roster : List MemberIdentity} (h : roster ⊆ founding) :
    checkAnchored founding roster = .ok () := by
  induction roster with
  | nil => rfl
  | cons entry roster ih =>
    rw [cons_subset] at h
    refine bind_eq_ok.mpr ⟨(), ensure_eq_ok.mpr ?_, ih h.2⟩
    exact any_eq_true.mpr ⟨entry, h.1, by simp⟩

theorem ctxFromFounding_isSome (m : UInt8) (founding : List MemberIdentity) :
    (ctxFromFounding m founding).isSome = founding.any fun i => i.vaultPk != "" := by
  have hany : (founding.any fun i => i.vaultPk != "") = !founding.all fun i => i.vaultPk == "" :=
    not_all_eq_any_not.symm
  rw [hany]
  unfold ctxFromFounding
  split_ifs with hall <;> simp [hall]

theorem blockSigners_of_cut {republicId : String} {identities : List MemberIdentity} {b : ChainBlock}
    {cut : UInt64 × String × CutKind} (hcut : CutKind.of b.change = some cut) :
    blockSigners C republicId identities b =
      .ok (validSigners C identities (approvalBytes republicId b.height b.change) b.sigs) := by
  unfold blockSigners
  cases hc : b.change with
  | membership m => simp [hc, CutKind.of] at hcut
  | genesis | applied | checkpoint | checkpointFolded | checkpointVault => rfl

theorem verifyAnchor_twin {before : List ChainBlock} {cut : ChainBlock} {w' : ChainWalk} {upto : UInt64}
    {hash : String} {kind : CutKind} {folded : FoldedCut} (hwalk : walkChain C before = .ok w)
    (hw : Walked C g before w) (hfree : ∀ b ∈ before, appliesBase b = false)
    (hstep : advance C {} w cut = .ok w') (hcut : CutKind.of cut.change = some (upto, hash, kind))
    (hfolded : foldCut C (atCut w.running upto) kind {} = .ok folded) :
    ∃ v, verifyAnchor C folded.state cut g.republicId = .ok v ∧
      Twins C kind ⟨folded.tree, folded.vault⟩ w' v := by
  obtain ⟨hpruned, hupto⟩ := foldCut_pruned (hw.baseFree hfree) hw.surfaces hfolded
  obtain ⟨hfoldedHash, htree⟩ := foldCut_hash hfolded
  obtain ⟨hrule, hsize, ⟨keyed, hkeys⟩, hrid⟩ := hw.founding hwalk
  obtain ⟨head, consumed, wiki, running, hnext, -, hcheck, hfold, rfl⟩ := advance_eq_ok.mp hstep
  obtain ⟨hheight, -, hchange, ⟨voices, hvoices, hm⟩, identities, hroster, rfl⟩ :=
    verifyNext_eq_ok.mp hnext
  obtain ⟨rfl, hne, rfl⟩ := checkChange_of_cut hchange hcut
  obtain ⟨hvault, hwiki, -, hhash, rfl⟩ := (checkCut_eq_ok hcut).mp hcheck
  rw [foldOne_of_cut (by rw [hcut]; rfl)] at hfold
  obtain rfl : w.running = running := (Prod.mk.inj hfold).1
  -- the blob carries the founding of the chain
  have hblob := hw.roster.trans hpruned.sameFounding
  have hname : folded.state.foundingName = g.name := hblob.foundingName
  have hruleM : folded.state.ruleM = g.ruleM := hblob.ruleM
  have hruleN : folded.state.ruleN = g.ruleN := hblob.ruleN
  have hids : folded.state.foundingIdentities = g.identities := hblob.foundingIdentities
  have hfeatures : folded.state.foundingFeatures = g.features := hblob.foundingFeatures
  have hblobRid : folded.state.republicId = g.republicId := hblob.republicId
  have hblobRoster : folded.state.roster = g.identities := hblob.roster
  have hctx : ctxFromFounding folded.state.ruleM folded.state.foundingIdentities = w.vault := by
    rw [hruleM, hids, hw.vault]
  have hkeyed : (g.identities.any fun i => i.vaultPk != "") = kind.vault := by
    rw [← hvault, hw.vault, ctxFromFounding_isSome]
  refine ⟨anchorWalk C folded.state cut kind, verifyAnchor_eq_ok.mpr ⟨hash, kind, ?_⟩, ?_⟩
  · rw [hupto, hname, hruleM, hruleN, hids, hblobRid, hblobRoster, hkeyed]
    refine ⟨hcut, ?_, ⟨hne, rfl⟩, ⟨hrid, hrid⟩, ⟨hrule.1, hrule.2, ?_⟩, hsize, rfl, ?_,
      checkAnchored_self (List.Subset.refl _), ?_, rfl⟩
    · obtain ⟨folded', hfolded', heq⟩ := bind_eq_ok.mp hhash
      obtain rfl : folded = folded' := Except.ok.inj (hfolded.symm.trans hfolded')
      rw [← hfoldedHash]
      exact pure_eq_ok.mp heq
    · rintro hnil
      rw [hnil, length_nil] at hsize
      have hle := UInt8.le_iff_toNat_le.mp hrule.2
      have hpos : g.ruleM.toNat ≠ 0 := fun h => hrule.1 (UInt8.toNat_inj.mp h)
      omega
    · unfold checkAnchorKeys
      split_ifs
      · rw [hruleM, hruleN, hids, hfeatures]
        exact bind_eq_ok.mpr ⟨keyed, hkeys, rfl⟩
      · rfl
    · rw [hw.republicId, hw.identities] at hvoices
      rw [hw.ruleM] at hm
      cases (blockSigners_of_cut hcut).symm.trans hvoices
      exact hm
  · refine ⟨?_, ?_, hctx, ?_, hw.floor, ⟨_, rfl, ?_⟩, hpruned, ?_, htree, hvault⟩
    · rw [rosterAfter_eq_ok hroster, hw.republicId, hw.ruleM, hw.identities]
      unfold anchorWalk
      rw [hblobRid, hruleM, hblobRoster]
    · change folded.state.consumedIds.toFinset = w.seen
      rw [hw.seen, ← hw.consumedIds]
      exact toFinset_eq_of_perm _ _ hpruned.ids
    · change kind.wiki = (w.foldedCut || kind.wiki)
      cases hf : w.foldedCut with
      | false => rfl
      | true => rw [hwiki hf]; rfl
    · rw [hupto, UInt64.le_iff_toNat_le, toNat_pred hheight, hheight]
      exact Nat.le_succ _
    · intro hk
      simp [hk]

theorem Twins.step {kind : CutKind} {held : Held} {v : ChainWalk} (h : Twins C kind held w v) (b : ChainBlock) :
    (step C v b held).2.isOk = (step C w b {}).2.isOk ∧
      (step C v b held).1.head = (step C w b {}).1.head := by
  have hagree := h.advance b
  unfold Chain.advance at hagree
  cases hw : (Chain.step C w b {}).2 <;> cases hv : (Chain.step C v b held).2 <;>
    rw [hw, hv] at hagree
  · rw [step_of_error hw, step_of_error hv]
    exact ⟨rfl, h.head⟩
  · exact hagree.elim
  · exact hagree.elim
  · exact ⟨rfl, hagree.1⟩

/-- A pruned holder and a full holder verify alike. -/
theorem walkSuffixChain_twin {before after : List ChainBlock} {cut : ChainBlock} {w : ChainWalk}
    (h : walkChain C (before ++ cut :: after) = .ok w)
    (hfree : ∀ b ∈ before ++ cut :: after, appliesBase b = false)
    {upto : UInt64} {hash : String} {kind : CutKind}
    (hcut : CutKind.of cut.change = some (upto, hash, kind)) :
    ∃ state folded v, checkpointState C before upto = .ok state ∧
      foldCut C state kind {} = .ok folded ∧
      walkSuffixChain C folded.state (cut :: after) w.head.republicId
        ⟨folded.tree, folded.vault⟩ = .ok v ∧
      v.head = w.head ∧ v.seen = w.seen ∧
      ∀ b, (step C v b ⟨folded.tree, folded.vault⟩).2.isOk = (step C w b {}).2.isOk ∧
        (step C v b ⟨folded.tree, folded.vault⟩).1.head = (step C w b {}).1.head := by
  have hne : before ≠ [] := by
    rintro rfl
    obtain ⟨b, rest, head, g, heq, -, hc, -⟩ := walkChain_eq_ok.mp h
    obtain ⟨rfl, -⟩ := List.cons.inj heq
    simp [hc, CutKind.of] at hcut
  obtain ⟨w₁, hw₁, hrest⟩ := (walkChain_append_eq_ok hne).mp h
  obtain ⟨w₂, hstep, hafter⟩ := foldlM_cons_eq_ok.mp hrest
  obtain ⟨g, hwalked⟩ := walkChain_walked hw₁
  obtain ⟨head, consumed, wiki, -, hnext, -, hcheck, -⟩ := advance_eq_ok.mp hstep
  obtain ⟨hheight, -, hchange, -⟩ := verifyNext_eq_ok.mp hnext
  obtain ⟨-, hzero, rfl⟩ := checkChange_of_cut hchange hcut
  obtain ⟨-, -, -, hhash, -⟩ := (checkCut_eq_ok hcut).mp hcheck
  obtain ⟨folded, hfolded, -⟩ := bind_eq_ok.mp hhash
  have hcovers : (cut.height - 1).toNat + 1 = before.length := by
    rw [toNat_pred hheight, hwalked.height]
  obtain ⟨v₀, hanchor, htwins⟩ := verifyAnchor_twin hw₁ hwalked
    (fun b hb => hfree b (List.mem_append_left _ hb)) hstep hcut hfolded
  -- behind the cut the two walks take every block together
  obtain ⟨v, hv, htwins⟩ := foldlM_simulation
    (R := Twins C kind ⟨folded.tree, folded.vault⟩) (g := advance C ⟨folded.tree, folded.vault⟩)
    (fun s s' b t hb hs hst => by
      obtain ⟨t', ht', -, hnext⟩ := (hs.advance b).exists_ok hst
      exact ⟨t', ht', hnext (hfree b (List.mem_append_right _ (List.mem_cons_of_mem _ hb)))⟩)
    htwins hafter
  have hrid : w.head.republicId = g.republicId := by
    obtain ⟨g', hw'⟩ := walkChain_walked h
    rw [hw'.republicId, hwalked.unique hw']
  refine ⟨atCut w₁.running (cut.height - 1), folded, v,
    checkpointState_of_walked hw₁ hwalked hcovers, hfolded, ?_, htwins.head, htwins.seen, htwins.step⟩
  rw [hrid]
  exact walkSuffixChain_eq_ok.mpr ⟨cut, after, v₀, rfl, hanchor, hv⟩

theorem walkSuffixChain_twin_sample : ∃ (folded : FoldedCut) (v : ChainWalk),
    walkSuffixChain Crypto.toy folded.state [Sample.cut] Sample.solo.republicId
      ⟨folded.tree, folded.vault⟩ = .ok v := by
  obtain ⟨w, hw⟩ := Sample.chain_accepted
  obtain ⟨g, hwalked⟩ := walkChain_walked hw
  have hcut : CutKind.of Sample.cut.change =
      some (1, Sample.cutHash { wiki := true } Sample.moved, { wiki := true }) := rfl
  obtain ⟨-, folded, v, -, -, hv, -⟩ := walkSuffixChain_twin hw (by decide) hcut
  refine ⟨folded, v, ?_⟩
  obtain ⟨b, rest, heq, hc⟩ := hwalked.opens
  obtain ⟨rfl, -⟩ := List.cons.inj heq
  obtain rfl : Sample.solo = g := ChainChange.genesis.inj hc
  rwa [hwalked.republicId] at hv

end Molt.Chain
