import Mathlib
import MoltRepublic.Chain.Soundness
import MoltRepublic.Core.SignedBytes

/-! When a v2 restore consent seals at most once. The rule is that the consent names the
transport key the restore replaces; what it takes is that no restore leaves the seat on
that key while the consent is fresh. -/

namespace Molt.Core.Crypto

/-- A signature verifies for one message: `verify_strict` refuses the weak keys under
which it would verify for many. -/
def Binding (C : Crypto) : Prop :=
  ∀ pk msg pk' msg' sig, C.identityVerify pk msg sig = true →
    C.identityVerify pk' msg' sig = true → msg = msg'

end Molt.Core.Crypto

namespace Molt.Chain
open Molt.Core Text Check Framing List Option

variable {C : Crypto}

def consentOf (b : ChainBlock) : Option String :=
  match b.change with
  | .membership m => m.consent
  | _ => none

structure Spent where
  member : String
  anchorHeight : UInt64
  prevAnchor : String
  deriving DecidableEq

def spentBy (b : ChainBlock) : Option Spent :=
  match b.change with
  | .membership m =>
    match m.consent.bind parseRestoreConsent with
    | some (.v2 anchorHeight prevAnchor _) => some ⟨m.member, anchorHeight, prevAnchor⟩
    | _ => none
  | _ => none

def reanchors (b : ChainBlock) : Option (String × String) :=
  match b.change with
  | .membership m => (m.nostrPk.filter (· != "")).map fun pk => (m.member, pk)
  | _ => none

/-- The key a restore leaves its seat on, as far as the block says: the new one, else the
one its consent stands on. -/
def leavesOn (b : ChainBlock) : Option (String × String) :=
  (reanchors b).or ((spentBy b).map fun s => (s.member, s.prevAnchor))

/-- A consent anchored to this height may still seal behind `height`. -/
def FreshBehind (height anchorHeight : UInt64) : Prop :=
  height.toNat + 1 ≤ anchorHeight.toNat + restoreConsentWindow.toNat

/-- The block leaves a seat on a key that a consent of the seat replaced, here or before,
while that consent is fresh. -/
def Rearms (earlier : List ChainBlock) (b : ChainBlock) : Prop :=
  ∃ s ∈ (earlier ++ [b]).filterMap spentBy,
    leavesOn b = some (s.member, s.prevAnchor) ∧ FreshBehind b.height s.anchorHeight

theorem walkWorkingAnchor_declare (state : CheckpointState) (m : Membership) (u : String) :
    walkWorkingAnchor (declare state m) u =
      match (m.nostrPk.filter (· != "")).map fun pk => (m.member, pk) with
      | some (v, pk) => if u = v then pk else walkWorkingAnchor state u
      | none => walkWorkingAnchor state u := by
  unfold declare walkWorkingAnchor
  cases hpk : m.nostrPk.filter (· != "") with
  | none => rfl
  | some pk =>
    simp only [map_some, lookup_insertEntry]
    by_cases hu : u = m.member <;> simp [hu]

variable {b : ChainBlock}

theorem foldOne_workingAnchor {vault : Option Vault.VaultCtx} {s t : CheckpointState}
    (h : foldOne C s b vault = (t, .ok ())) (u : String) :
    walkWorkingAnchor t u =
      match reanchors b with
      | some (v, pk) => if u = v then pk else walkWorkingAnchor s u
      | none => walkWorkingAnchor s u := by
  unfold foldOne at h
  split at h <;> rename_i hc <;> simp only [reanchors, hc]
  · split at h <;> simp only [Prod.mk.injEq, reduceCtorEq, and_false, and_true] at h
    rw [← h]
    rfl
  · split at h <;> simp only [Prod.mk.injEq, reduceCtorEq, and_false, and_true] at h
    rename_i roster hroster
    rw [← h, (applyMembership_eq_ok hroster).2]
    exact walkWorkingAnchor_declare s _ u
  all_goals
    simp only [Prod.mk.injEq, and_true] at h
    rw [h]

variable {s : Spent}

theorem spentBy_eq_some (h : spentBy b = some s) :
    ∃ m c sig, b.change = .membership m ∧ m.consent = some c ∧ m.member = s.member ∧
      parseRestoreConsent c = some (.v2 s.anchorHeight s.prevAnchor sig) := by
  unfold spentBy at h
  split at h
  · rename_i m hc
    split at h
    · rename_i anchorHeight prevAnchor sig hparse
      obtain ⟨c, hconsent, hc'⟩ := bind_eq_some_iff.mp hparse
      cases h
      exact ⟨m, c, sig, hc, hconsent, rfl, hc'⟩
    · simp at h
  · simp at h

theorem reanchors_member {v pk : String} (hs : spentBy b = some s) (h : reanchors b = some (v, pk)) :
    v = s.member := by
  obtain ⟨m, _, _, hc, _, hmember, _⟩ := spentBy_eq_some hs
  simp only [reanchors, hc, map_eq_some_iff, Prod.mk.injEq] at h
  obtain ⟨_, _, hv, _⟩ := h
  exact hv.symm.trans hmember

variable {rid c : String} {m : Membership}

theorem blockSigners_consent {identities : List MemberIdentity} {voices : Finset String}
    (h : blockSigners C rid identities b = .ok voices) (hm : b.change = .membership m)
    (hc : m.consent = some c) :
    ∃ pk kind, verifyRestoreConsent C rid pk b.height m.member m.nostrPk m.relays c =
      .ok kind := by
  simp only [blockSigners, hm, hc, countConsent, bind_eq_ok, ensure_eq_ok, exists_const] at h
  obtain ⟨_, _, h⟩ := h
  split at h
  · simp [throw, throwThe, MonadExceptOf.throw] at h
  · rename_i id _
    obtain ⟨kind, hkind, _⟩ := bind_eq_ok.mp h
    exact ⟨id.identityPk, kind, mapError_eq_ok.mp hkind⟩

variable {anchorHeight : UInt64}

theorem verifyRestoreConsent_v2 {pk : String} {height : UInt64} {kind : ConsentKind} {prev sig : String}
    (hparse : parseRestoreConsent c = some (.v2 anchorHeight prev sig))
    (h : verifyRestoreConsent C rid pk height m.member m.nostrPk m.relays c = .ok kind) :
    C.identityVerify pk (restoreConsentBytesV2 rid m.member pk (m.nostrPk.getD "") m.relays
      anchorHeight prev) sig = true ∧
    height.toNat ≤ anchorHeight.toNat + restoreConsentWindow.toNat := by
  simp only [verifyRestoreConsent, hparse, bind_eq_ok, ensure_eq_ok, exists_const] at h
  obtain ⟨hsig, ⟨hlt, hwindow⟩, _⟩ := h
  refine ⟨hsig, ?_⟩
  rw [UInt64.le_iff_toNat_le, UInt64.toNat_sub_of_le _ _ (UInt64.le_of_lt hlt)] at hwindow
  omega

def Unarmed (blocks : List ChainBlock) (w : ChainWalk) : Prop :=
  ∀ s ∈ blocks.filterMap spentBy, FreshBehind w.head.height s.anchorHeight →
    walkWorkingAnchor w.running s.member ≠ s.prevAnchor

variable {blocks : List ChainBlock}

theorem mem_spent_concat (h : s ∈ (blocks ++ [b]).filterMap spentBy) :
    s ∈ blocks.filterMap spentBy ∨ spentBy b = some s := by
  obtain ⟨a, ha, hs⟩ := mem_filterMap.mp h
  rcases mem_append.mp ha with ha | ha
  · exact .inl (mem_filterMap.mpr ⟨a, ha, hs⟩)
  · exact .inr (mem_singleton.mp ha ▸ hs)

variable {held : Held}

theorem Unarmed.advance {w w' : ChainWalk} (h : Unarmed blocks w) (hb : ¬ Rearms blocks b)
    (hstep : advance C held w b = .ok w') : Unarmed (blocks ++ [b]) w' := by
  obtain ⟨head, consumed, wiki, running, hnext, _, _, hfold, rfl⟩ := advance_eq_ok.mp hstep
  obtain ⟨hheight, _, _, _, identities, _, rfl⟩ := verifyNext_eq_ok.mp hnext
  intro s hs hfresh hworking
  simp only at hfresh hworking
  rw [foldOne_workingAnchor hfold] at hworking
  -- the seat stood on the key before: only a consent of this very block may say so
  have hbefore : walkWorkingAnchor w.running s.member = s.prevAnchor → spentBy b = some s := by
    intro hold
    rcases mem_spent_concat hs with hearlier | hown
    · have hstill : FreshBehind w.head.height s.anchorHeight := by
        unfold FreshBehind at hfresh ⊢
        omega
      exact absurd hold (h s hearlier hstill)
    · exact hown
  cases hre : reanchors b with
  | none =>
    rw [hre] at hworking
    have hown := hbefore hworking
    exact hb ⟨s, hs, by simp [leavesOn, hre, hown], hfresh⟩
  | some moved =>
    obtain ⟨v, pk⟩ := moved
    simp only [hre] at hworking
    split_ifs at hworking with hv
    · exact hb ⟨s, hs, by simp [leavesOn, hre, hv, hworking], hfresh⟩
    · exact hv (reanchors_member (hbefore hworking) hre).symm

theorem advance_spends {w w' : ChainWalk} (hs : spentBy b = some s) (hstep : advance C held w b = .ok w') :
    walkWorkingAnchor w.running s.member = s.prevAnchor ∧
      FreshBehind w.head.height s.anchorHeight := by
  obtain ⟨m, c, sig, hc, hconsent, hmember, hparse⟩ := spentBy_eq_some hs
  obtain ⟨head, consumed, wiki, running, hnext, hspends, _⟩ := advance_eq_ok.mp hstep
  obtain ⟨hheight, _, _, ⟨voices, hvoices, _⟩, _⟩ := verifyNext_eq_ok.mp hnext
  obtain ⟨pk, kind, hverify⟩ := blockSigners_consent hvoices hc hconsent
  have hwindow := (verifyRestoreConsent_v2 hparse hverify).2
  refine ⟨?_, ?_⟩
  · simp only [consentSpends, hc, hconsent, bind_some, hparse, ensure_eq_ok] at hspends
    rw [← hmember, ← hspends]
  · unfold FreshBehind
    omega

def ConsentsVerified (C : Crypto) (rid : String) (blocks : List ChainBlock) : Prop :=
  ∀ b ∈ blocks, ∀ m c anchorHeight prev sig, b.change = .membership m → m.consent = some c →
    parseRestoreConsent c = some (.v2 anchorHeight prev sig) →
    ∃ pk, C.identityVerify pk (restoreConsentBytesV2 rid m.member pk (m.nostrPk.getD "") m.relays
      anchorHeight prev) sig = true

theorem ConsentsVerified.advance {w w' : ChainWalk} (hrid : w.head.republicId = rid)
    (h : ConsentsVerified C rid blocks) (hstep : Chain.advance C held w b = .ok w') :
    ConsentsVerified C rid (blocks ++ [b]) ∧ w'.head.republicId = rid := by
  obtain ⟨head, consumed, wiki, running, hnext, _, _, _, rfl⟩ := advance_eq_ok.mp hstep
  obtain ⟨_, _, _, ⟨voices, hvoices, _⟩, identities, _, rfl⟩ := verifyNext_eq_ok.mp hnext
  refine ⟨?_, hrid⟩
  intro a ha m c anchorHeight prev sig hm hconsent hparse
  rcases mem_append.mp ha with ha | ha
  · exact h a ha m c anchorHeight prev sig hm hconsent hparse
  · rw [mem_singleton.mp ha] at hm
    rw [hrid] at hvoices
    obtain ⟨pk, kind, hverify⟩ := blockSigners_consent hvoices hm hconsent
    exact ⟨pk, (verifyRestoreConsent_v2 hparse hverify).1⟩

theorem restoreConsentBytesV2_member {member key nostr prev member' key' nostr' prev' : String}
    {relays relays' : List String} {height height' : UInt64} (hm : StrFits member) (hm' : StrFits member')
    (h : restoreConsentBytesV2 rid member key nostr relays height prev = restoreConsentBytesV2 rid member' key' nostr' relays' height' prev') :
    member = member' := by
  simp only [restoreConsentBytesV2, append_assoc] at h
  have h := append_cancel_left (append_cancel_left h)
  exact (putStr_delimited hm hm' h).1

def NotReused (b b' : ChainBlock) : Prop :=
  ∀ c anchorHeight prev sig, consentOf b = some c →
    parseRestoreConsent c = some (.v2 anchorHeight prev sig) → consentOf b' ≠ some c

theorem consentOf_eq_some (h : consentOf b = some c) :
    ∃ m, b.change = .membership m ∧ m.consent = some c := by
  unfold consentOf at h
  split at h
  · exact ⟨_, by assumption, h⟩
  · simp at h

theorem spentBy_of_consent {prev sig : String} (hm : b.change = .membership m) (hc : m.consent = some c)
    (hparse : parseRestoreConsent c = some (.v2 anchorHeight prev sig)) :
    spentBy b = some ⟨m.member, anchorHeight, prev⟩ := by
  simp [spentBy, hm, hc, hparse]

theorem notReused_of_unarmed (hbinding : C.Binding) {w w' : ChainWalk} (hunarmed : Unarmed blocks w)
    (hstep : advance C held w b = .ok w') (hverified : ConsentsVerified C rid (blocks ++ [b]))
    (hfits : ∀ a ∈ blocks ++ [b], a.change.Fits) : ∀ a ∈ blocks, NotReused a b := by
  intro a ha c anchorHeight prev sig hconsent hparse hagain
  obtain ⟨m, hm, hmc⟩ := consentOf_eq_some hconsent
  obtain ⟨m', hm', hmc'⟩ := consentOf_eq_some hagain
  have hain : a ∈ blocks ++ [b] := mem_append_left _ ha
  have hbin : b ∈ blocks ++ [b] := by simp
  -- one signature, one message, one seat
  have hmember : m.member = m'.member := by
    obtain ⟨pk, hsig⟩ := hverified a hain m c anchorHeight prev sig hm hmc hparse
    obtain ⟨pk', hsig'⟩ := hverified b hbin m' c anchorHeight prev sig hm' hmc' hparse
    have hfit : m.Fits := by simpa [ChainChange.Fits, hm] using hfits a hain
    have hfit' : m'.Fits := by simpa [ChainChange.Fits, hm'] using hfits b hbin
    exact restoreConsentBytesV2_member hfit.member hfit'.member (hbinding _ _ _ _ _ hsig hsig')
  have hspent := spentBy_of_consent hm hmc hparse
  have hspent' := spentBy_of_consent hm' hmc' hparse
  rw [← hmember] at hspent'
  obtain ⟨hworking, hfresh⟩ := advance_spends hspent' hstep
  exact hunarmed _ (mem_filterMap.mpr ⟨a, ha, hspent⟩) hfresh hworking

structure Sealed (C : Crypto) (rid : String) (blocks : List ChainBlock) (w : ChainWalk) : Prop where
  republicId : w.head.republicId = rid
  verified : ConsentsVerified C rid blocks
  unarmed : Unarmed blocks w
  once : blocks.Pairwise NotReused

theorem Sealed.advance (hbinding : C.Binding) {w w' : ChainWalk} (h : Sealed C rid blocks w)
    (hfits : ∀ a ∈ blocks ++ [b], a.change.Fits) (hb : ¬ Rearms blocks b)
    (hstep : Chain.advance C held w b = .ok w') : Sealed C rid (blocks ++ [b]) w' := by
  obtain ⟨hverified, hrid⟩ := h.verified.advance h.republicId hstep
  have hnew := notReused_of_unarmed hbinding h.unarmed hstep hverified hfits
  refine ⟨hrid, hverified, h.unarmed.advance hb hstep, ?_⟩
  rw [pairwise_append]
  refine ⟨h.once, pairwise_singleton _ _, ?_⟩
  intro a ha a' ha'
  rw [mem_singleton.mp ha']
  exact hnew a ha

namespace Sample

def pair : Genesis := founding 1 [seat "ann" 1, seat "bo" 2]

def pairOpened : List ChainBlock := [next pair [("ann", 1), ("bo", 2)] [] (.genesis pair)]

def consentMessage (nostr : Option String) : List UInt8 :=
  restoreConsentBytesV2 pair.republicId "bo" (hexEncode (key 2)) (nostr.getD "") [] 0
    (hexEncode (key 102))

def consent (nostr : Option String) : String :=
  "v2:0:" ++ hexEncode (key 102) ++ ":" ++ Crypto.toySign (key 2) (consentMessage nostr)

def restore (nostr : Option String) : ChainChange :=
  .membership ⟨.restored, "bo", hexEncode (key 2), nostr, [], some (consent nostr)⟩

def restored (nostr : Option String) : List ChainBlock :=
  pairOpened ++ [next pair [] pairOpened (restore nostr)]

theorem toySign_verifies {C : Crypto} {k msg : List UInt8} (hk : k.length = 32)
    (hsig : C.ed25519Verify k msg (k ++ Crypto.toyDigest msg) = true) :
    C.identityVerify (hexEncode k) msg (Crypto.toySign k msg) = true := by
  have hdigest : (Crypto.toyDigest msg).length = 32 := leBytes_length 32 _
  have hkey : Crypto.decodeKey (hexEncode k) = some k := by
    simp [Crypto.decodeKey, hexDecode_hexEncode, filter_some, hk]
  simp only [Crypto.identityVerify, hkey, Crypto.toySign, hexDecode_hexEncode, hsig,
    length_append, hk, hdigest]
  rfl

structure Stands (chain : List ChainBlock) (w : ChainWalk) : Prop where
  height : w.head.height.toNat + 1 = chain.length
  hash : chain.getLast?.map (Crypto.toy.blockHash pair.republicId) = some w.head.hash
  table : w.head.republicId = pair.republicId ∧ w.head.ruleM = 1 ∧
    w.head.identities = pair.identities
  roster : w.running.roster = pair.identities
  working : walkWorkingAnchor w.running "bo" = hexEncode (key 102)

theorem walk_concat {C : Crypto} {chain : List ChainBlock} {b : ChainBlock} {w w' : ChainWalk}
    (hne : chain ≠ []) (hw : walkChain C chain = .ok w) (hstep : advance C {} w b = .ok w') :
    walkChain C (chain ++ [b]) = .ok w' := by
  rw [walkChain_append_eq_ok hne]
  exact ⟨w, hw, by simpa [foldlM_cons_eq_ok, foldlM_nil_eq_ok] using hstep⟩

end Sample

end Molt.Chain
