import Mathlib
import MoltRepublic.Chain.Steps

/-! What an accepted chain is. A walk is described by the blocks behind it; every block
of an accepted chain was accepted on such a walk. -/

namespace Molt.Chain
open Molt.Core Json Check Vault List

variable {C : Crypto}

def appliedId (b : ChainBlock) : Option UInt64 :=
  match b.change with
  | .applied id _ _ => some id
  | _ => none

def Signed (C : Crypto) (republicId : String) (id : MemberIdentity) (b : ChainBlock) : Prop :=
  ∃ att ∈ b.sigs, att.member = id.member ∧
    C.identityVerify id.identityPk (approvalBytes republicId b.height b.change) att.sig = true

def Consented (C : Crypto) (republicId : String) (id : MemberIdentity) (b : ChainBlock) : Prop :=
  ∃ m consent kind, b.change = .membership m ∧ m.op = .restored ∧ m.member = id.member ∧
    m.consent = some consent ∧
    verifyRestoreConsent C republicId id.identityPk b.height m.member m.nostrPk m.relays consent =
      .ok kind

variable {b : ChainBlock}

theorem foldOne_consumedIds {vault : Option VaultCtx} {s t : CheckpointState}
    (h : foldOne C s b vault = (t, .ok ())) :
    t.consumedIds = s.consumedIds ++ [b].filterMap appliedId := by
  unfold foldOne at h
  split at h <;> rename_i hc
  · split at h <;> simp only [Prod.mk.injEq, reduceCtorEq, and_false, and_true] at h
    subst h
    simp [appliedId, hc]
  · split at h <;> simp only [Prod.mk.injEq, reduceCtorEq, and_false, and_true] at h
    subst h
    simp [appliedId, hc, declare]
  all_goals
    simp only [Prod.mk.injEq, and_true] at h
    subst h
    simp [appliedId, hc]

variable {identities : List MemberIdentity}

theorem mem_validSigners {bytes : List UInt8} {sigs : List RosterAttestation} {m : String} :
    m ∈ validSigners C identities bytes sigs ↔
      ∃ id, (identities.find? fun i => i.member == m) = some id ∧
        ∃ att ∈ sigs, att.member = m ∧ C.identityVerify id.identityPk bytes att.sig = true := by
  simp only [validSigners, mem_toFinset, mem_map, mem_filter]
  constructor
  · rintro ⟨att, ⟨hatt, hok⟩, rfl⟩
    unfold attests at hok
    split at hok
    · simp at hok
    · exact ⟨_, ‹_›, att, hatt, rfl, hok⟩
  · rintro ⟨id, hid, att, hatt, rfl, hok⟩
    exact ⟨att, ⟨hatt, by unfold attests; rw [hid]; exact hok⟩, rfl⟩

theorem mem_validSigners_iff_signed {republicId m : String} :
    m ∈ validSigners C identities (approvalBytes republicId b.height b.change) b.sigs ↔
      ∃ id, (identities.find? fun i => i.member == m) = some id ∧ Signed C republicId id b := by
  rw [mem_validSigners]
  constructor
  · rintro ⟨id, hid, att, hatt, hm, hok⟩
    have hmember : id.member = m := by simpa using find?_some hid
    exact ⟨id, hid, att, hatt, hm.trans hmember.symm, hok⟩
  · rintro ⟨id, hid, att, hatt, hm, hok⟩
    have hmember : id.member = m := by simpa using find?_some hid
    exact ⟨id, hid, att, hatt, hm.trans hmember, hok⟩

theorem blockSigners_eq_ok {republicId : String} {voices : Finset String}
    (h : blockSigners C republicId identities b = .ok voices) :
    ∀ v ∈ voices, ∃ id, (identities.find? fun i => i.member == v) = some id ∧
      ((Signed C republicId id b ∧ ¬ Consented C republicId id b) ∨
        (Consented C republicId id b ∧ ¬ Signed C republicId id b)) := by
  intro v hv
  -- a member that signed, in a block whose consent is not its own
  have hsigner : (∀ m consent, b.change = .membership m → m.consent = some consent →
      m.member ≠ v) → v ∈ validSigners C identities (approvalBytes republicId b.height b.change)
        b.sigs → ∃ id, (identities.find? fun i => i.member == v) = some id ∧
          Signed C republicId id b ∧ ¬ Consented C republicId id b := by
    intro hnot hmem
    obtain ⟨id, hid, hsigned⟩ := mem_validSigners_iff_signed.mp hmem
    have hmember : id.member = v := by simpa using find?_some hid
    refine ⟨id, hid, hsigned, ?_⟩
    rintro ⟨m, consent, kind, hc, -, hm, hconsent, -⟩
    exact hnot m consent hc hconsent (hm.trans hmember)
  unfold blockSigners at h
  split at h
  · rename_i m hc
    split at h
    · rename_i consent hconsent
      simp only [countConsent, bind_eq_ok, ensure_eq_ok, exists_const] at h
      obtain ⟨hop, hfresh, h⟩ := h
      split at h
      · simp [throw, throwThe, MonadExceptOf.throw] at h
      · rename_i id hid
        obtain ⟨kind, hkind, h⟩ := bind_eq_ok.mp h
        rw [mapError_eq_ok] at hkind
        rw [pure_eq_ok] at h
        subst h
        have hmember : id.member = m.member := by simpa using find?_some hid
        rcases Finset.mem_insert.mp hv with rfl | hv
        · refine ⟨id, hid, .inr ⟨⟨m, consent, kind, hc, hop, hmember.symm, hconsent, hkind⟩, ?_⟩⟩
          intro hsigned
          exact hfresh (mem_validSigners_iff_signed.mpr ⟨id, hid, hsigned⟩)
        · obtain ⟨id', hid', hvoice⟩ := hsigner (fun m' consent' hc' hconsent' heq => by
            obtain rfl : m = m' := ChainChange.membership.inj (hc.symm.trans hc')
            exact hfresh (heq ▸ hv)) hv
          exact ⟨id', hid', .inl hvoice⟩
    · rename_i hconsent
      cases h
      obtain ⟨id, hid, hvoice⟩ := hsigner (fun m' consent' hc' hconsent' => by
        obtain rfl : m = m' := ChainChange.membership.inj (hc.symm.trans hc')
        simp [hconsent] at hconsent') hv
      exact ⟨id, hid, .inl hvoice⟩
  · rename_i hnot
    cases h
    obtain ⟨id, hid, hvoice⟩ := hsigner (fun m' _ hc' => absurd hc' (hnot m')) hv
    exact ⟨id, hid, .inl hvoice⟩

/-- A walk by the blocks behind it: its head stands on the last one, its guard holds
their ids and its projection is their fold from the genesis. -/
structure Walked (C : Crypto) (g : Genesis) (blocks : List ChainBlock) (w : ChainWalk) : Prop where
  opens : ∃ b rest, blocks = b :: rest ∧ b.change = .genesis g
  height : w.head.height.toNat + 1 = blocks.length
  hash : ∃ b, blocks.getLast? = some b ∧ w.head.hash = C.blockHash g.republicId b
  republicId : w.head.republicId = g.republicId
  ruleM : w.head.ruleM = g.ruleM
  identities : w.head.identities = g.identities
  seen : w.seen = (blocks.filterMap appliedId).toFinset
  once : (blocks.filterMap appliedId).Nodup
  running : blocks.tail.foldlM (foldNext C w.vault) (genesisBase g) = .ok w.running
  vault : w.vault = ctxFromFounding g.ruleM g.identities
  floor : w.floor = none
  folded : w.folded = blocks.length

variable {g : Genesis}

theorem Walked.of_genesis {head : ChainHead} (h : verifyGenesis C b = .ok head) (hc : b.change = .genesis g) :
    Walked C g [b] (genesisWalk head g) := by
  obtain ⟨g', hc', -, -, -, -, -, -, -, rfl⟩ := verifyGenesis_eq_ok.mp h
  obtain rfl : g = g' := ChainChange.genesis.inj (hc.symm.trans hc')
  have hid : appliedId b = none := by simp [appliedId, hc]
  refine ⟨⟨b, [], rfl, hc⟩, rfl, ⟨b, rfl, rfl⟩, rfl, rfl, rfl, ?_, ?_, rfl, rfl, rfl, rfl⟩
  · simp [hid, genesisWalk]
  · simp [hid]

variable {blocks : List ChainBlock} {held : Held} {w : ChainWalk}

variable {w' : ChainWalk}

theorem Walked.advance (hw : Walked C g blocks w) (h : advance C held w b = .ok w') :
    Walked C g (blocks ++ [b]) w' := by
  obtain ⟨head, consumed, wiki, running, hnext, -, -, hfold, rfl⟩ := advance_eq_ok.mp h
  obtain ⟨hheight, -, hchange, -, identities, hroster, rfl⟩ := verifyNext_eq_ok.mp hnext
  obtain ⟨b₀, rest, rfl, hg⟩ := hw.opens
  have hids : identities = g.identities := (rosterAfter_eq_ok hroster).trans hw.identities
  have hid : appliedId b = consumed := by
    cases consumed with
    | none =>
      unfold appliedId
      split
      · exact absurd ‹_› (checkChange_eq_none hchange)
      · rfl
    | some id =>
      obtain ⟨-, surface, payload, hc⟩ := checkChange_eq_some hchange
      simp [appliedId, hc]
  refine ⟨⟨b₀, rest ++ [b], rfl, hg⟩, ?_, ⟨b, getLast?_concat, ?_⟩, hw.republicId,
    hw.ruleM, hids, ?_, ?_, ?_, hw.vault, hw.floor, ?_⟩
  · have := hw.height
    simp only [length_append, length_singleton]
    omega
  · rw [hw.republicId]
  · rw [filterMap_append, toFinset_append, ← hw.seen]
    cases consumed with
    | none => simp [hid]
    | some id =>
      ext i
      simp [hid]
  · rw [filterMap_append, nodup_append]
    refine ⟨hw.once, ?_, ?_⟩
    · cases consumed <;> simp [hid]
    · intro i hi j hj
      cases consumed with
      | none => simp [hid] at hj
      | some id =>
        obtain ⟨hfresh, -⟩ := checkChange_eq_some hchange
        obtain rfl : j = id := by simpa [hid] using hj
        rintro rfl
        rw [hw.seen, mem_toFinset] at hfresh
        exact hfresh hi
  · change (rest ++ [b]).foldlM (foldNext C w.vault) (genesisBase g) = .ok running
    exact foldlM_concat_eq_ok.mpr ⟨w.running, hw.running, foldNext_eq_ok.mpr hfold⟩
  · simp [hw.folded]

theorem walkChain_eq_ok :
    walkChain C blocks = .ok w ↔ ∃ b rest head g, blocks = b :: rest ∧
      verifyGenesis C b = .ok head ∧ b.change = .genesis g ∧
      rest.foldlM (advance C {}) (genesisWalk head g) = .ok w := by
  cases blocks with
  | nil => simp [walkChain]
  | cons b rest =>
    simp only [walkChain, bind_eq_ok]
    constructor
    · rintro ⟨head, hgen, h⟩
      split at h
      · exact ⟨b, rest, head, _, rfl, hgen, ‹_›, h⟩
      · simp [throw, throwThe, MonadExceptOf.throw] at h
    · rintro ⟨b', rest', head, g, heq, hgen, hc, h⟩
      obtain ⟨rfl, rfl⟩ := List.cons.inj heq
      refine ⟨head, hgen, ?_⟩
      rw [hc]
      exact h

theorem walkChain_walked (h : walkChain C blocks = .ok w) : ∃ g, Walked C g blocks w := by
  obtain ⟨b, rest, head, g, rfl, hgen, hc, h⟩ := walkChain_eq_ok.mp h
  exact ⟨g, foldlM_history (P := Walked C g) (fun _ _ _ _ hw ha => hw.advance ha)
    (Walked.of_genesis hgen hc) h⟩

variable {before : List ChainBlock}

variable {after : List ChainBlock}

theorem walkChain_append_eq_ok (hne : before ≠ []) :
    walkChain C (before ++ after) = .ok w ↔
      ∃ w', walkChain C before = .ok w' ∧ after.foldlM (advance C {}) w' = .ok w := by
  cases before with
  | nil => exact absurd rfl hne
  | cons b rest =>
    simp only [cons_append, walkChain_eq_ok]
    constructor
    · rintro ⟨b', rest', head, g, heq, hgen, hc, h⟩
      obtain ⟨rfl, rfl⟩ := List.cons.inj heq
      obtain ⟨w', hw', h⟩ := foldlM_append_eq_ok.mp h
      exact ⟨w', ⟨b, rest, head, g, rfl, hgen, hc, hw'⟩, h⟩
    · rintro ⟨w', ⟨b', rest', head, g, heq, hgen, hc, hw'⟩, h⟩
      obtain ⟨rfl, rfl⟩ := List.cons.inj heq
      exact ⟨b, rest ++ after, head, g, rfl, hgen, hc, foldlM_append_eq_ok.mpr ⟨w', hw', h⟩⟩

/-- A block after the genesis that carries at least the threshold of distinct voices, each
of a seat of the genesis and each counted one way only. -/
def Backed (C : Crypto) (g : Genesis) (b : ChainBlock) : Prop :=
  ∃ voices : Finset String, g.ruleM.toNat ≤ voices.card ∧
    ∀ v ∈ voices, ∃ id ∈ g.identities, id.member = v ∧
      ((Signed C g.republicId id b ∧ ¬ Consented C g.republicId id b) ∨
        (Consented C g.republicId id b ∧ ¬ Signed C g.republicId id b))

def CutsFold (C : Crypto) (g : Genesis) (before : List ChainBlock) (b : ChainBlock) : Prop :=
  ∀ upto hash kind, CutKind.of b.change = some (upto, hash, kind) →
    upto.toNat + 1 = b.height.toNat ∧ ∃ state cut, checkpointState C before upto = .ok state ∧
      state.roster = g.identities ∧ foldCut C state kind {} = .ok cut ∧ cut.hash = hash

/-- What a chain is that starts with the genesis `g`. -/
structure Sound (C : Crypto) (g : Genesis) (blocks : List ChainBlock) : Prop where
  republicId : C.republicId g.name g.ruleM g.ruleN g.identities = g.republicId
  opens : ∃ b rest, blocks = b :: rest ∧ b.change = .genesis g ∧ b.prev = genesisPrev ∧
    ∀ id ∈ g.identities, Signed C g.republicId id b
  seats : (g.identities.map MemberIdentity.member).Nodup
  heights : ∀ before b after, blocks = before ++ b :: after → b.height.toNat = before.length
  links : ∀ before a b after, blocks = before ++ a :: b :: after →
    b.prev = C.blockHash g.republicId a
  backed : ∀ before b after, blocks = before ++ b :: after → before ≠ [] → Backed C g b
  roster : ∀ before after, blocks = before ++ after → before ≠ [] →
    ∃ head, verifyChain C before = .ok head ∧ head.identities = g.identities
  once : (blocks.filterMap appliedId).Nodup
  cuts : ∀ before b after, blocks = before ++ b :: after → CutsFold C g before b

theorem validSigners_all {bytes : List UInt8} {sigs : List RosterAttestation}
    (h : (validSigners C identities bytes sigs).card = identities.length) :
    (identities.map MemberIdentity.member).Nodup ∧
      ∀ id ∈ identities, id.member ∈ validSigners C identities bytes sigs := by
  have hsub : validSigners C identities bytes sigs ⊆
      (identities.map MemberIdentity.member).toFinset := by
    intro m hm
    obtain ⟨id, hid, -⟩ := mem_validSigners.mp hm
    have hmember : id.member = m := by simpa using find?_some hid
    exact mem_toFinset.mpr (mem_map.mpr ⟨id, mem_of_find?_eq_some hid, hmember⟩)
  have hle := toFinset_card_le (identities.map MemberIdentity.member)
  rw [length_map, ← h] at hle
  have heq := Finset.eq_of_subset_of_card_le hsub hle
  constructor
  · apply Multiset.coe_nodup.mp
    apply Multiset.toFinset_card_eq_card_iff_nodup.mp
    rw [Multiset.coe_card, length_map, ← h, heq]
    rfl
  · intro id hid
    rw [heq]
    exact mem_toFinset.mpr (mem_map_of_mem hid)

theorem find?_member {id : MemberIdentity} (hnd : (identities.map MemberIdentity.member).Nodup)
    (hid : id ∈ identities) :
    (identities.find? fun i => i.member == id.member) = some id := by
  induction identities with
  | nil => simp at hid
  | cons i l ih =>
    rw [map_cons, nodup_cons] at hnd
    rcases mem_cons.mp hid with rfl | hl
    · simp
    · have hne : i.member ≠ id.member := fun heq => hnd.1 (heq ▸ mem_map_of_mem hl)
      rw [find?_cons_of_neg (by simpa using hne)]
      exact ih hnd.2 hl

theorem Walked.founding (h : walkChain C blocks = .ok w) (hw : Walked C g blocks w) :
    (g.ruleM ≠ 0 ∧ g.ruleM ≤ g.ruleN) ∧ g.ruleN.toNat = g.identities.length ∧
      (∃ keyed, checkRosterKeys C g.ruleM g.ruleN g.identities g.features = .ok keyed) ∧
      C.republicId g.name g.ruleM g.ruleN g.identities = g.republicId := by
  obtain ⟨b, rest, head, -, rfl, hgen, -⟩ := walkChain_eq_ok.mp h
  obtain ⟨g', hc, -, -, hrule, hsize, hkeys, hrid, -⟩ := verifyGenesis_eq_ok.mp hgen
  obtain ⟨b', rest', heq, hc'⟩ := hw.opens
  obtain ⟨rfl, -⟩ := List.cons.inj heq
  obtain rfl : g = g' := ChainChange.genesis.inj (hc'.symm.trans hc)
  exact ⟨hrule, hsize, hkeys, hrid⟩

theorem Walked.consumedIds (hw : Walked C g blocks w) : w.running.consumedIds = blocks.filterMap appliedId := by
  obtain ⟨b, rest, rfl, hc⟩ := hw.opens
  have hids := foldlM_history (k := [])
    (P := fun (k : List ChainBlock) (s : CheckpointState) => s.consumedIds = k.filterMap appliedId)
    (fun k s c t hs h => by
      rw [filterMap_append, ← hs]
      exact foldOne_consumedIds (foldNext_eq_ok.mp h)) rfl hw.running
  simpa [appliedId, hc] using hids

theorem walkChain_block (h : walkChain C (before ++ b :: after) = .ok w) (hne : before ≠ []) :
    ∃ w₁ w₂, walkChain C before = .ok w₁ ∧ advance C {} w₁ b = .ok w₂ := by
  obtain ⟨w₁, hw₁, h⟩ := (walkChain_append_eq_ok hne).mp h
  obtain ⟨w₂, hw₂, -⟩ := foldlM_cons_eq_ok.mp h
  exact ⟨w₁, w₂, hw₁, hw₂⟩

theorem Walked.unique {g' : Genesis} (h : Walked C g blocks w) {more : List ChainBlock}
    (h' : Walked C g' (blocks ++ more) w') :
    g' = g := by
  obtain ⟨b, rest, rfl, hc⟩ := h.opens
  obtain ⟨b', rest', heq, hc'⟩ := h'.opens
  obtain ⟨rfl, -⟩ := List.cons.inj heq
  exact ChainChange.genesis.inj (hc'.symm.trans hc)

theorem walkChain_height (h : walkChain C (before ++ b :: after) = .ok w) :
    b.height.toNat = before.length := by
  cases before with
  | nil =>
    obtain ⟨b', rest, head, g, heq, hgen, -⟩ := walkChain_eq_ok.mp h
    obtain ⟨rfl, -⟩ := List.cons.inj heq
    obtain ⟨-, -, hheight, -⟩ := verifyGenesis_eq_ok.mp hgen
    simp [hheight]
  | cons a before =>
    obtain ⟨w₁, w₂, hw₁, hw₂⟩ := walkChain_block h (by simp)
    obtain ⟨g, hw⟩ := walkChain_walked hw₁
    obtain ⟨head, consumed, -, -, hnext, -⟩ := advance_eq_ok.mp hw₂
    rw [(verifyNext_eq_ok.mp hnext).1, hw.height]

theorem Walked.link {a : ChainBlock} (hw : Walked C g (before ++ [a]) w)
    (h : Chain.advance C held w b = .ok w') :
    b.prev = C.blockHash g.republicId a := by
  obtain ⟨head, consumed, -, -, hnext, -⟩ := advance_eq_ok.mp h
  obtain ⟨last, hlast, hhash⟩ := hw.hash
  obtain rfl : a = last := by simpa using hlast
  rw [(verifyNext_eq_ok.mp hnext).2.1, hhash]

theorem Walked.backed (hw : Walked C g before w) (h : Chain.advance C held w b = .ok w') :
    Backed C g b := by
  obtain ⟨head, consumed, -, -, hnext, -⟩ := advance_eq_ok.mp h
  obtain ⟨-, -, -, ⟨voices, hvoices, hm⟩, -⟩ := verifyNext_eq_ok.mp hnext
  rw [hw.republicId, hw.identities] at hvoices
  rw [hw.ruleM] at hm
  refine ⟨voices, hm, fun v hv => ?_⟩
  obtain ⟨id, hid, hvoice⟩ := blockSigners_eq_ok hvoices v hv
  exact ⟨id, mem_of_find?_eq_some hid, by simpa using find?_some hid, hvoice⟩

theorem walkChain_takeWhile {rest : List ChainBlock} (h : walkChain C (b :: rest) = .ok w) {upto : UInt64}
    (hupto : upto.toNat = rest.length) :
    (rest.takeWhile fun c => c.height ≤ upto) = rest := by
  rw [takeWhile_eq_self_iff]
  intro c hc
  obtain ⟨before, after, rfl⟩ := append_of_mem hc
  rw [← cons_append] at h
  have hheight := walkChain_height h
  simp only [length_append, length_cons] at hheight hupto
  rw [decide_eq_true_eq, UInt64.le_iff_toNat_le]
  omega

theorem checkpointState_of_walked (h : walkChain C blocks = .ok w) (hw : Walked C g blocks w) {upto : UInt64}
    (hupto : upto.toNat + 1 = blocks.length) :
    checkpointState C blocks upto = .ok (atCut w.running upto) := by
  obtain ⟨⟨height, prev, change, sigs⟩, rest, rfl, rfl⟩ := hw.opens
  have hrunning := hw.running
  rw [hw.vault] at hrunning
  simp only [checkpointState, foldState, walkChain_takeWhile h (by simpa using hupto)]
  exact bind_eq_ok.mpr ⟨w.running, hrunning, rfl⟩

theorem Walked.roster (hw : Walked C g blocks w) : SameFounding (genesisBase g) w.running :=
  foldlM_invariant (P := SameFounding (genesisBase g))
    (fun _ _ _ _ hs h => hs.trans (foldOne_sameFounding (foldNext_eq_ok.mp h)))
    (SameFounding.refl _) hw.running

theorem Walked.cutsFold (hwalk : walkChain C before = .ok w) (hw : Walked C g before w)
    (h : Chain.advance C {} w b = .ok w') : CutsFold C g before b := by
  intro upto hash kind hcut
  obtain ⟨head, consumed, wiki, -, hnext, -, hcheck, -⟩ := advance_eq_ok.mp h
  obtain ⟨hheight, -, hchange, -⟩ := verifyNext_eq_ok.mp hnext
  obtain ⟨-, hne, hupto⟩ := checkChange_of_cut hchange hcut
  obtain ⟨-, -, -, hhash, -⟩ := (checkCut_eq_ok hcut).mp hcheck
  have hcovers : upto.toNat + 1 = b.height.toNat := by
    rw [hupto, toNat_pred hheight, hheight]
  obtain ⟨cut, hfold, hcuthash⟩ := bind_eq_ok.mp hhash
  refine ⟨hcovers, atCut w.running upto, cut, ?_, hw.roster.roster, hfold, pure_eq_ok.mp hcuthash⟩
  exact checkpointState_of_walked hwalk hw (by rw [hcovers, hheight, hw.height])

theorem verifyChain_eq_ok {head : ChainHead} :
    verifyChain C blocks = .ok head ↔ ∃ w, walkChain C blocks = .ok w ∧ w.head = head := by
  unfold verifyChain
  cases walkChain C blocks <;> simp [Except.map]

/-- Whatever chain is accepted is sound for the genesis it opens with. -/
theorem verifyChain_sound {blocks : List ChainBlock} {head : ChainHead}
    (h : verifyChain C blocks = .ok head) : ∃ g, Sound C g blocks := by
  obtain ⟨w, hwalk, rfl⟩ := verifyChain_eq_ok.mp h
  obtain ⟨g, hw⟩ := walkChain_walked hwalk
  obtain ⟨b, rest, rfl, hc⟩ := hw.opens
  obtain ⟨b', rest', genesis, g', heq, hgen, -, -⟩ := walkChain_eq_ok.mp hwalk
  obtain ⟨rfl, rfl⟩ := List.cons.inj heq
  obtain ⟨g'', hc'', hheight, hprev, -, -, -, hrid, hall, -⟩ := verifyGenesis_eq_ok.mp hgen
  obtain rfl : g = g'' := ChainChange.genesis.inj (hc.symm.trans hc'')
  obtain ⟨hseats, hsigned⟩ := validSigners_all hall
  -- the walk of a prefix stands on the same genesis
  have hprefix : ∀ before after, b :: rest = before ++ after → before ≠ [] →
      ∃ w₁, walkChain C before = .ok w₁ ∧ Walked C g before w₁ := by
    intro before after heq hne
    rw [heq] at hwalk hw
    obtain ⟨w₁, hw₁, -⟩ := (walkChain_append_eq_ok hne).mp hwalk
    obtain ⟨g₁, hwalked⟩ := walkChain_walked hw₁
    exact ⟨w₁, hw₁, hwalked.unique hw ▸ hwalked⟩
  refine ⟨g, hrid, ⟨b, rest, rfl, hc, hprev, ?_⟩, hseats, ?_, ?_, ?_, ?_, hw.once, ?_⟩
  · intro id hid
    have hmem := hsigned id hid
    rw [← hheight] at hmem
    obtain ⟨id', hid', hsig⟩ := mem_validSigners_iff_signed.mp hmem
    rw [find?_member hseats hid] at hid'
    exact Option.some.inj hid' ▸ hsig
  · intro before c after heq
    exact walkChain_height (heq ▸ hwalk)
  · intro before a c after heq
    have heq' : b :: rest = (before ++ [a]) ++ c :: after := by simpa using heq
    obtain ⟨w₁, hw₁, hwalked⟩ := hprefix _ _ heq' (by simp)
    obtain ⟨w₁', w₂, hw₁', hstep⟩ := walkChain_block (heq' ▸ hwalk) (by simp)
    obtain rfl : w₁ = w₁' := Except.ok.inj (hw₁.symm.trans hw₁')
    exact hwalked.link hstep
  · intro before c after heq hne
    obtain ⟨w₁, hw₁, hwalked⟩ := hprefix _ _ heq hne
    obtain ⟨w₁', w₂, hw₁', hstep⟩ := walkChain_block (heq ▸ hwalk) hne
    obtain rfl : w₁ = w₁' := Except.ok.inj (hw₁.symm.trans hw₁')
    exact hwalked.backed hstep
  · intro before after heq hne
    obtain ⟨w₁, hw₁, hwalked⟩ := hprefix _ _ heq hne
    exact ⟨w₁.head, verifyChain_eq_ok.mpr ⟨w₁, hw₁, rfl⟩, hwalked.identities⟩
  · intro before c after heq
    by_cases hne : before = []
    · subst hne
      obtain ⟨rfl, -⟩ := List.cons.inj heq
      intro upto hash kind hcut
      simp [hc, CutKind.of] at hcut
    · obtain ⟨w₁, hw₁, hwalked⟩ := hprefix _ _ heq hne
      obtain ⟨w₁', w₂, hw₁', hstep⟩ := walkChain_block (heq ▸ hwalk) hne
      obtain rfl : w₁ = w₁' := Except.ok.inj (hw₁.symm.trans hw₁')
      exact hwalked.cutsFold hw₁ hstep

theorem isOk_exists {ε α : Type} {x : Except ε α} (h : x.isOk = true) : ∃ a, x = .ok a := by
  cases x with
  | error e => simp [Except.isOk, Except.toBool] at h
  | ok a => exact ⟨a, rfl⟩

namespace Sample

def key (n : UInt8) : List UInt8 := List.replicate 32 n

def seat (name : String) (n : UInt8) : MemberIdentity :=
  ⟨name, Text.hexEncode (key n), Text.hexEncode (key (n + 100)), ""⟩

def founding (m : UInt8) (identities : List MemberIdentity) : Genesis :=
  let n := UInt8.ofNat identities.length
  { name := "Chess Club", republicId := Crypto.toy.republicId "Chess Club" m n identities,
    ruleM := m, ruleN := n, identities := identities, agenda := "play", relays := ["a"],
    features := none }

def signed (republicId : String) (seats : List (String × UInt8)) (height : UInt64) (prev : String)
    (change : ChainChange) : ChainBlock :=
  let bytes := approvalBytes republicId height change
  ⟨height, prev, change, seats.map fun s => ⟨s.1, Crypto.toySign (key s.2) bytes⟩⟩

def next (g : Genesis) (seats : List (String × UInt8)) (chain : List ChainBlock)
    (change : ChainChange) : ChainBlock :=
  let prev := (chain.getLast?.map (Crypto.toy.blockHash g.republicId)).getD genesisPrev
  signed g.republicId seats (UInt64.ofNat chain.length) prev change

def folded (kind : CutKind) (chain : List ChainBlock) : Except String FoldedCut :=
  (checkpointState Crypto.toy chain (UInt64.ofNat (chain.length - 1))).bind fun state =>
    foldCut Crypto.toy state kind {}

def cutHash (kind : CutKind) (chain : List ChainBlock) : String :=
  match folded kind chain with
  | .ok f => f.hash
  | .error e => e

def solo : Genesis := founding 1 [seat "ann" 1]

def opened : List ChainBlock := [next solo [("ann", 1)] [] (.genesis solo)]

def moved : List ChainBlock :=
  opened ++ [next solo [("ann", 1)] opened
    (.applied 7 .organization (.obj [("op", .str "set_relays"), ("value", .str "a b")]))]

def cut : ChainBlock :=
  next solo [("ann", 1)] moved (.checkpointFolded 1 (cutHash { wiki := true } moved))

def blob : CheckpointState :=
  match folded { wiki := true } moved with
  | .ok f => f.state
  | .error _ => genesisBase solo

theorem chain_accepted : ∃ w, walkChain Crypto.toy (moved ++ [cut]) = .ok w :=
  isOk_exists (by decide +kernel)

end Sample

theorem verifyChain_sound_sample : ∃ g, Sound Crypto.toy g (Sample.moved ++ [Sample.cut]) := by
  obtain ⟨w, hw⟩ := Sample.chain_accepted
  exact verifyChain_sound (verifyChain_eq_ok.mpr ⟨w, hw, rfl⟩)

end Molt.Chain
