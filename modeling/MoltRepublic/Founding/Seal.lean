import Mathlib
import MoltRepublic.Chain.Soundness

/-! What a member checks before it ratifies a founding table (`verify_seal_proposal`), and
what the table then promises of the voices that back a block. -/

namespace Molt.Founding
open Molt.Core Text Check Chain Vault List

structure SealedRoster where
  name : String
  republicId : String
  ruleM : UInt8
  ruleN : UInt8
  roster : List String
  identities : List MemberIdentity
  relays : List String
  agenda : String
  features : Option (List String)

def checkHandle (names : List String) (id : MemberIdentity) : Except String (List String) := do
  let member := id.member
  ensure (member ∉ names)
    s!"two seats share the handle {member} - every seat must be distinguishable"
  return member :: names

def checkNostrAnchor (C : Crypto) (seen : List String) (id : MemberIdentity) :
    Except String (List String) := do
  let member := id.member
  let canonical ← (C.canonicalNostrPk id.nostrPk).mapError fun e =>
    s!"seat {member} carries an invalid nostr anchor: {e}"
  ensure (canonical = id.nostrPk)
    s!"seat {member} carries a non-canonical nostr anchor (one key, one signed-byte form)"
  ensure (id.nostrPk ∉ seen) s!"seat {member} shares its nostr anchor with another seat"
  return id.nostrPk :: seen

/-- `check_roster_anchors`: unique handles, then canonical and unique nostr anchors. -/
def checkRosterAnchors (C : Crypto) (identities : List MemberIdentity) : Except String Unit := do
  let _ ← identities.foldlM checkHandle []
  let _ ← identities.foldlM (checkNostrAnchor C) []

def checkSeatName (e : String × MemberIdentity) : Except String Unit :=
  let seat := e.1
  let member := e.2.member
  ensure (seat = member) s!"the roster names {seat} where the signed identity table has {member}"

def checkRosterMatchesIdentities (roster : List String) (identities : List MemberIdentity) :
    Except String Unit := do
  let named := roster.length
  let seats := identities.length
  ensure (named = seats)
    s!"the roster names {named} member(s) but the signed identity table has {seats}"
  (roster.zip identities).forM checkSeatName

def checkRuleShape (ruleM ruleN : UInt8) (seats : Nat) : Except String Unit := do
  ensure (ruleN.toNat = seats) s!"rule n={ruleN} does not match {seats} seats"
  ensure (ruleM ≠ 0 ∧ ruleM ≤ ruleN) s!"rule m={ruleM} is outside 1..={ruleN}"

def parseSurface (s : String) : Option Surface := Surface.all.find? fun x => x.asStr == s

def isCharterFeature : Surface → Bool
  | .organization | .chat | .files => false
  | _ => true

def checkFeatureKey (key : String) : Except String Unit :=
  match parseSurface key with
  | some sf => ensure (isCharterFeature sf) s!"{key} is always on"
  | none => .error s!"unknown feature: {key}"

def strictlySorted : List String → Bool
  | a :: b :: l => a < b && strictlySorted (b :: l)
  | _ => true

def verifyCanonicalFeatures (keys : List String) : Except String Unit := do
  keys.forM checkFeatureKey
  ensure (strictlySorted keys) "the feature set is not canonical"

/-- `verify_seal_proposal`: what the seat `(name, pk)` ratifies, as the bytes it signs. -/
def verifySealProposal (C : Crypto) (p : SealedRoster) (name pk nostrPk vaultPk : String) :
    Except String (List UInt8) := do
  ensure (C.republicId p.name p.ruleM p.ruleN p.identities = p.republicId)
    "proposed republic id does not match its roster"
  checkRosterAnchors C p.identities
  checkRosterMatchesIdentities p.roster p.identities
  checkRuleShape p.ruleM p.ruleN p.identities.length
  match p.identities.find? fun i => i.member == name && i.identityPk == pk with
  | none => throw "the proposed roster does not anchor our own (name, key)"
  | some ourSeat =>
    ensure (ourSeat.nostrPk = nostrPk)
      "the proposed roster anchors a nostr transport key for us that we did not derive"
    p.features.forM verifyCanonicalFeatures
    let vault ← checkNewFoundingKeys C p.ruleM p.ruleN p.identities p.features
    ensure (vault → ourSeat.vaultPk = vaultPk)
      "the proposed roster anchors a vault key for us that we did not derive"
    return rosterCanonicalBytes p.republicId p.ruleM p.ruleN p.identities p.agenda p.relays p.features

def SealedRoster.genesis (p : SealedRoster) : Genesis :=
  ⟨p.name, p.republicId, p.ruleM, p.ruleN, p.identities, p.agenda, p.relays, p.features⟩

def Ratified (C : Crypto) (g : Genesis) : Prop :=
  ∃ p : SealedRoster, p.genesis = g ∧
    ∃ name pk nostrPk vaultPk bytes, verifySealProposal C p name pk nostrPk vaultPk = .ok bytes

def signingKey (i : MemberIdentity) : Option (List UInt8) := Crypto.decodeKey i.identityPk

def counted (g : Genesis) (voices : Finset String) : List MemberIdentity :=
  g.identities.filter fun i => i.member ∈ voices

/-- The members counted for a block sign with different keys, and at least the threshold
of keys backs it. -/
def OneKeyOneVoice (C : Crypto) (g : Genesis) (b : ChainBlock) : Prop :=
  ∀ voices, blockSigners C g.republicId g.identities b = .ok voices →
    ((counted g voices).map signingKey).Nodup ∧
      g.ruleM.toNat ≤ ((counted g voices).map signingKey).toFinset.card

def DistinctKeys (g : Genesis) : Prop := (g.identities.map signingKey).Nodup

def Signs (C : Crypto) : Prop :=
  ∀ pk msg sig, pk.length = 32 → C.ed25519Verify pk msg sig = true →
    ∀ msg', ∃ sig', sig'.length = 64 ∧ C.ed25519Verify pk msg' sig' = true

section

variable {C : Crypto} {g : Genesis}

theorem exists_signature (hsigns : Signs C) {pk sig : String} {msg : List UInt8}
    (h : C.identityVerify pk msg sig = true) (msg' : List UInt8) :
    ∃ sig', C.identityVerify pk msg' sig' = true := by
  unfold Crypto.identityVerify at h ⊢
  split at h
  · rename_i key bytes hkey hbytes
    rw [Bool.and_eq_true] at h
    have hlength : key.length = 32 := by
      obtain ⟨-, hlen⟩ := Option.filter_eq_some_iff.mp hkey
      simpa using hlen
    obtain ⟨sig', hlen', hok⟩ := hsigns key msg bytes hlength h.2 msg'
    refine ⟨hexEncode sig', ?_⟩
    rw [hkey, hexDecode_hexEncode]
    simp [hlen', hok]
  · simp at h

theorem exists_attestations (identities : List MemberIdentity) {bytes : List UInt8}
    (h : ∀ id ∈ identities, ∃ sig, C.identityVerify id.identityPk bytes sig = true) :
    ∃ sigs : List RosterAttestation, ∀ id ∈ identities, ∃ att ∈ sigs, att.member = id.member ∧
      C.identityVerify id.identityPk bytes att.sig = true := by
  induction identities with
  | nil => exact ⟨[], by simp⟩
  | cons i l ih =>
    obtain ⟨sig, hsig⟩ := h i (.head _)
    obtain ⟨sigs, hsigs⟩ := ih fun id hid => h id (.tail _ hid)
    refine ⟨⟨i.member, sig⟩ :: sigs, fun id hid => ?_⟩
    rcases mem_cons.mp hid with rfl | hid
    · exact ⟨_, .head _, rfl, hsig⟩
    · obtain ⟨att, hatt, hrest⟩ := hsigs id hid
      exact ⟨att, .tail _ hatt, hrest⟩

theorem exists_unanimous_block (hsigns : Signs C) {b₀ : ChainBlock} {head₀ : ChainHead}
    (hgen : verifyGenesis C b₀ = .ok head₀) (hc : b₀.change = .genesis g) :
    ∃ b head voices, verifyChain C [b₀, b] = .ok head ∧
      blockSigners C g.republicId g.identities b = .ok voices ∧
      ∀ id ∈ g.identities, id.member ∈ voices := by
  obtain ⟨g', hc', -, -, hrule, hsize, -, -, hall, rfl⟩ := verifyGenesis_eq_ok.mp hgen
  obtain rfl : g = g' := ChainChange.genesis.inj (hc.symm.trans hc')
  obtain ⟨hseats, hsigned⟩ := validSigners_all hall
  let change : ChainChange := .applied 1 .organization .null
  let bytes := approvalBytes g.republicId 1 change
  have hkeys : ∀ id ∈ g.identities, ∃ sig, C.identityVerify id.identityPk bytes sig = true := by
    intro id hid
    obtain ⟨id', hid', att, -, -, hok⟩ := mem_validSigners.mp (hsigned id hid)
    rw [find?_member hseats hid] at hid'
    obtain rfl := Option.some.inj hid'
    exact exists_signature hsigns hok bytes
  obtain ⟨sigs, hsigs⟩ := exists_attestations g.identities hkeys
  let b : ChainBlock := ⟨1, C.blockHash g.republicId b₀, change, sigs⟩
  have hvoices : ∀ id ∈ g.identities, id.member ∈ validSigners C g.identities bytes sigs := by
    intro id hid
    exact mem_validSigners.mpr ⟨id, find?_member hseats hid, hsigs id hid⟩
  have hcount : g.ruleM.toNat ≤ (validSigners C g.identities bytes sigs).card := by
    have hsub : (g.identities.map MemberIdentity.member).toFinset ⊆
        validSigners C g.identities bytes sigs := by
      intro m hm
      obtain ⟨id, hid, rfl⟩ := mem_map.mp (mem_toFinset.mp hm)
      exact hvoices id hid
    have hcard := Finset.card_le_card hsub
    rw [toFinset_card_of_nodup hseats, length_map] at hcard
    have hle := UInt8.le_iff_toNat_le.mp hrule.2
    omega
  have hnext : verifyNext C ⟨0, C.blockHash g.republicId b₀, g.republicId, g.ruleM, g.identities⟩ b ∅ =
      .ok (⟨1, C.blockHash g.republicId b, g.republicId, g.ruleM, g.identities⟩, some 1) :=
    verifyNext_eq_ok.mpr ⟨rfl, rfl, rfl, ⟨_, rfl, hcount⟩, g.identities, rfl, rfl⟩
  obtain ⟨running, hfold⟩ :
      ∃ running, foldOne C (genesisBase g) b (ctxFromFounding g.ruleM g.identities) =
        (running, .ok ()) := by
    -- only an entry of the vault is checked against the context
    cases ctxFromFounding g.ruleM g.identities <;> exact ⟨_, rfl⟩
  obtain ⟨w, hstep⟩ : ∃ w, advance C {} (genesisWalk _ g) b = .ok w :=
    ⟨_, advance_eq_ok.mpr ⟨_, some 1, false, running, hnext, rfl, rfl, hfold, rfl⟩⟩
  have hw : walkChain C [b₀, b] = .ok w := walkChain_eq_ok.mpr ⟨b₀, [b], _, g, rfl, hgen, hc,
    foldlM_cons_eq_ok.mpr ⟨w, hstep, foldlM_nil_eq_ok.mpr rfl⟩⟩
  exact ⟨b, w.head, _, verifyChain_eq_ok.mpr ⟨w, hw, rfl⟩, rfl, hvoices⟩

theorem oneKeyOneVoice_of_distinct (hkeys : DistinctKeys g) {b₀ b : ChainBlock}
    {rest : List ChainBlock} {head : ChainHead} (hc : b₀.change = .genesis g)
    (h : verifyChain C (b₀ :: rest) = .ok head) (hb : b ∈ rest) : OneKeyOneVoice C g b := by
  obtain ⟨w, hwalk, -⟩ := verifyChain_eq_ok.mp h
  obtain ⟨before, after, rfl⟩ := append_of_mem hb
  rw [← cons_append] at hwalk
  obtain ⟨w₁, w₂, hw₁, hstep⟩ := walkChain_block hwalk (by simp)
  obtain ⟨g', hwalked⟩ := walkChain_walked hw₁
  obtain ⟨b', rest', heq, hc'⟩ := hwalked.opens
  obtain ⟨rfl, -⟩ := List.cons.inj heq
  obtain rfl : g = g' := ChainChange.genesis.inj (hc.symm.trans hc')
  obtain ⟨_, _, -, -, hnext, -⟩ := advance_eq_ok.mp hstep
  obtain ⟨-, -, -, ⟨signers, hsigners, hm⟩, -⟩ := verifyNext_eq_ok.mp hnext
  rw [hwalked.republicId, hwalked.identities] at hsigners
  rw [hwalked.ruleM] at hm
  intro voices hvoices
  obtain rfl : signers = voices := Except.ok.inj (hsigners.symm.trans hvoices)
  have hnodup : ((counted g signers).map signingKey).Nodup :=
    hkeys.sublist (filter_sublist.map _)
  refine ⟨hnodup, hm.trans ?_⟩
  have hsub : signers ⊆ ((counted g signers).map MemberIdentity.member).toFinset := by
    intro v hv
    obtain ⟨id, hid, -⟩ := blockSigners_eq_ok hsigners v hv
    have hmember : id.member = v := by simpa using find?_some hid
    refine mem_toFinset.mpr (mem_map.mpr ⟨id, ?_, hmember⟩)
    exact mem_filter.mpr ⟨mem_of_find?_eq_some hid, by simpa [hmember] using hv⟩
  calc signers.card
      ≤ ((counted g signers).map MemberIdentity.member).toFinset.card := Finset.card_le_card hsub
    _ ≤ ((counted g signers).map MemberIdentity.member).length := toFinset_card_le _
    _ = ((counted g signers).map signingKey).length := by rw [length_map, length_map]
    _ = ((counted g signers).map signingKey).toFinset.card :=
      (toFinset_card_of_nodup hnodup).symm

/-- One key is one voice in every block of every chain on a sealed table exactly when no
two of its seats sign with one key. -/
theorem oneKeyOneVoice_iff (hsigns : Signs C) {b₀ : ChainBlock} {head₀ : ChainHead}
    (hgen : verifyGenesis C b₀ = .ok head₀) (hc : b₀.change = .genesis g) :
    (∀ rest head, verifyChain C (b₀ :: rest) = .ok head → ∀ b ∈ rest, OneKeyOneVoice C g b) ↔
      DistinctKeys g := by
  constructor
  · intro h
    obtain ⟨b, head, voices, hchain, hvoices, hall⟩ := exists_unanimous_block hsigns hgen hc
    have hone := (h [b] head hchain b (List.mem_singleton_self b) voices hvoices).1
    have hcounted : counted g voices = g.identities :=
      List.filter_eq_self.mpr fun id hid => by simpa using hall id hid
    rwa [hcounted] at hone
  · intro hkeys rest head h b hb
    exact oneKeyOneVoice_of_distinct hkeys hc h hb

end

def shared : Genesis :=
  Sample.founding 2 [Sample.seat "ann" 1, { Sample.seat "ben" 2 with
    identityPk := (Sample.seat "ann" 1).identityPk }]

def proposalOf (g : Genesis) : SealedRoster :=
  ⟨g.name, g.republicId, g.ruleM, g.ruleN, g.identities.map MemberIdentity.member, g.identities,
    g.relays, g.agenda, g.features⟩

def sharedOpening : ChainBlock := Sample.next shared [("ann", 1), ("ben", 1)] [] (.genesis shared)

def sharedBlock : ChainBlock :=
  Sample.next shared [("ann", 1), ("ben", 1)] [sharedOpening] (.applied 1 .organization .null)

theorem shared_evaluates :
    (verifySealProposal Crypto.toy (proposalOf shared) "ann" (Sample.seat "ann" 1).identityPk
        (Sample.seat "ann" 1).nostrPk "").isOk = true ∧
      (verifyChain Crypto.toy [sharedOpening, sharedBlock]).isOk = true ∧
      blockSigners Crypto.toy shared.republicId shared.identities sharedBlock =
        .ok {"ann", "ben"} := by
  decide +kernel

/-- The table is ratified, and yet one key is counted for both of its seats. -/
theorem oneKeyOneVoice_fails_on_shared : Ratified Crypto.toy shared ∧
    ¬ ∀ rest head, verifyChain Crypto.toy (sharedOpening :: rest) = .ok head →
      ∀ b ∈ rest, OneKeyOneVoice Crypto.toy shared b := by
  obtain ⟨hseal, hchain, hvoices⟩ := shared_evaluates
  obtain ⟨bytes, hbytes⟩ := isOk_exists hseal
  obtain ⟨head, hhead⟩ := isOk_exists hchain
  refine ⟨⟨proposalOf shared, rfl, _, _, _, _, bytes, hbytes⟩, fun h => ?_⟩
  have hkeys := (h [sharedBlock] head hhead sharedBlock (List.mem_singleton_self _) _ hvoices).1
  have hboth : counted shared {"ann", "ben"} = shared.identities := by decide
  rw [hboth] at hkeys
  exact absurd (List.mem_singleton_self _) (List.nodup_cons.mp hkeys).1

theorem signs_toy : Signs Crypto.toy := by
  intro pk msg sig hpk _ msg'
  refine ⟨pk ++ Crypto.toyDigest msg', ?_, by simp [Crypto.toy]⟩
  simp [Crypto.toyDigest, hpk]

theorem oneKeyOneVoice_of_solo : ∃ b₀, b₀.change = .genesis Sample.solo ∧
    ∀ rest head, verifyChain Crypto.toy (b₀ :: rest) = .ok head →
      ∀ b ∈ rest, OneKeyOneVoice Crypto.toy Sample.solo b := by
  obtain ⟨w, hw⟩ := Sample.chain_accepted
  obtain ⟨b₀, rest, head, g, heq, hgen, hc, -⟩ := walkChain_eq_ok.mp hw
  obtain ⟨rfl, -⟩ := List.cons.inj heq
  obtain rfl : Sample.solo = g := ChainChange.genesis.inj hc
  refine ⟨_, hc, (oneKeyOneVoice_iff signs_toy hgen hc).mpr ?_⟩
  exact List.nodup_singleton _

end Molt.Founding
