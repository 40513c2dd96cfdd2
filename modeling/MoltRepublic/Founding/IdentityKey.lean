import Mathlib
import MoltRepublic.Core.SignedBytes
import MoltRepublic.Vault.Ops

/-! Everything a member's identity key signs. The six layouts open with tags none of which
begins another, so a signature given for one purpose says nothing for another. -/

namespace Molt.Founding
open Molt.Core Text Framing Vault List

/-- `seat_proof_bytes`: the relay declaration is appended only where there is one. -/
def seatProofBytes (ticket keyPackageHex republicId newNostrPk : String) (relays : List String) :
    List UInt8 :=
  tag "molt-seat-proof-v2" ++ putStr ticket ++ putStr keyPackageHex ++ putStr republicId ++
    putStr newNostrPk ++
    if relays.isEmpty then [] else 1 :: (putCount relays.length ++ relays.flatMap putStr)

/-- `backup_confirm_bytes`: its tag carries no terminator. -/
def backupConfirmBytes (C : Crypto) (table : List UInt8) : List UInt8 :=
  utf8 "molt-backup-confirmed-v1" ++ C.sha256 table

structure DepositFits (d : VaultDeposit) : Prop where
  depositor : StrFits d.depositor
  name : StrFits d.name
  kind : StrFits d.kind
  replaces : StrFits d.replaces
  holders : ListFits StrFits d.holders
  commitments : ListFits StrFits d.commitments
  encShare : ListFits StrFits d.encShare
  hash : StrFits d.payload.hash
  nonce : StrFits d.nonce

inductive Statement where
  | approval (republicId : String) (height : UInt64) (change : ChainChange)
  | restoreConsent (republicId member identityPk nostrPk : String)
  | restoreConsentV2 (republicId member identityPk nostrPk : String) (relays : List String)
    (anchorHeight : UInt64) (prevAnchor : String)
  | deposit (republicId : String) (d : VaultDeposit)
  | seatProof (ticket keyPackageHex republicId newNostrPk : String) (relays : List String)
  | backupConfirm (table : List UInt8)

namespace Statement

def bytes (C : Crypto) : Statement → List UInt8
  | approval rid height change => approvalBytes rid height change
  | restoreConsent rid member key nostr => restoreConsentBytes rid member key nostr
  | restoreConsentV2 rid member key nostr relays height prev =>
    restoreConsentBytesV2 rid member key nostr relays height prev
  | deposit rid d => depositSigningBytes rid d
  | seatProof ticket package rid nostr relays => seatProofBytes ticket package rid nostr relays
  | backupConfirm table => backupConfirmBytes C table

/-- Every string and every list of the call is below `2^32`. -/
def Fits : Statement → Prop
  | approval rid _ change => StrFits rid ∧ change.Fits
  | restoreConsent rid member key nostr =>
    StrFits rid ∧ StrFits member ∧ StrFits key ∧ StrFits nostr
  | restoreConsentV2 rid member key nostr relays _ prev =>
    StrFits rid ∧ StrFits member ∧ StrFits key ∧ StrFits nostr ∧ ListFits StrFits relays ∧
      StrFits prev
  | deposit rid d => StrFits rid ∧ DepositFits d
  | seatProof ticket package rid nostr relays =>
    StrFits ticket ∧ StrFits package ∧ StrFits rid ∧ StrFits nostr ∧ ListFits StrFits relays
  | backupConfirm _ => True

/-- The same call: a founding table up to what its bytes leave out, a deposit up to its
signature, a backup attestation up to the hash of its table. -/
def Agrees (C : Crypto) : Statement → Statement → Prop
  | approval _ _ (.genesis g), approval _ _ (.genesis g') => g.SameTable g'
  | approval rid height change, approval rid' height' change' =>
    rid = rid' ∧ height = height' ∧ change = change'
  | restoreConsent rid member key nostr, restoreConsent rid' member' key' nostr' =>
    rid = rid' ∧ member = member' ∧ key = key' ∧ nostr = nostr'
  | restoreConsentV2 rid member key nostr relays height prev,
    restoreConsentV2 rid' member' key' nostr' relays' height' prev' =>
    rid = rid' ∧ member = member' ∧ key = key' ∧ nostr = nostr' ∧ relays = relays' ∧
      height = height' ∧ prev = prev'
  | deposit rid d, deposit rid' d' =>
    rid = rid' ∧ { d with sigDepositor := "" } = { d' with sigDepositor := "" }
  | seatProof ticket package rid nostr relays, seatProof ticket' package' rid' nostr' relays' =>
    ticket = ticket' ∧ package = package' ∧ rid = rid' ∧ nostr = nostr' ∧ relays = relays'
  | backupConfirm table, backupConfirm table' => table = table' ∨
    (table ≠ table' ∧ C.sha256 table = C.sha256 table')
  | _, _ => False

end Statement

inductive Purpose where
  | approval
  | restoreConsent
  | restoreConsentV2
  | deposit
  | seatProof
  | backupConfirm
  deriving DecidableEq

def Purpose.tags : Purpose → List (List UInt8)
  | approval => [tag "molt-chain-change-v2", tag "molt-roster-v4", tag "molt-roster-v5",
    tag "molt-roster-v6"]
  | restoreConsent => [tag "molt-restore-consent-v1"]
  | restoreConsentV2 => [tag "molt-restore-consent-v2"]
  | deposit => [tag "molt-vault-deposit-v1"]
  | seatProof => [tag "molt-seat-proof-v2"]
  | backupConfirm => [utf8 "molt-backup-confirmed-v1"]

theorem Purpose.tags_apart : ∀ a b : Purpose, a ≠ b → ∀ p ∈ a.tags, ∀ q ∈ b.tags, ¬ p <+: q := by
  intro a b
  cases a <;> cases b <;> decide +kernel

def Statement.purpose : Statement → Purpose
  | approval .. => .approval
  | restoreConsent .. => .restoreConsent
  | restoreConsentV2 .. => .restoreConsentV2
  | deposit .. => .deposit
  | seatProof .. => .seatProof
  | backupConfirm .. => .backupConfirm

theorem approval_opens (rid : String) (height : UInt64) (c : ChainChange) :
    ∃ p ∈ Purpose.approval.tags, p <+: approvalBytes rid height c := by
  cases hc : c.isGenesis with
  | false =>
    refine ⟨_, .head _, ?_⟩
    rw [approvalBytes_eq hc]
    exact prefix_append _ _
  | true =>
    cases c <;> simp only [ChainChange.isGenesis, Bool.false_eq_true] at hc
    case genesis g =>
      have hbytes : approvalBytes rid height (.genesis g) = g.rosterBytes := rfl
      refine ⟨g.rosterTag, ?_, ?_⟩
      · unfold Genesis.rosterTag
        split_ifs <;> simp [Purpose.tags]
      · rw [hbytes, g.rosterBytes_eq]
        exact prefix_append _ _

theorem Statement.opens (C : Crypto) (s : Statement) :
    ∃ p ∈ s.purpose.tags, p <+: s.bytes C := by
  cases s with
  | approval rid height c => exact approval_opens rid height c
  | restoreConsent rid member key nostr =>
    refine ⟨_, .head _, ?_⟩
    simp only [bytes, restoreConsentBytes, append_assoc]
    exact prefix_append _ _
  | restoreConsentV2 rid member key nostr relays height prev =>
    refine ⟨_, .head _, ?_⟩
    simp only [bytes, restoreConsentBytesV2, append_assoc]
    exact prefix_append _ _
  | deposit rid d =>
    refine ⟨_, .head _, ?_⟩
    simp only [bytes, depositSigningBytes, layout, append_assoc]
    exact prefix_append _ _
  | seatProof ticket package rid nostr relays =>
    refine ⟨_, .head _, ?_⟩
    simp only [bytes, seatProofBytes, append_assoc]
    exact prefix_append _ _
  | backupConfirm table => exact ⟨_, .head _, prefix_append _ _⟩

variable {C : Crypto}

theorem Statement.purpose_of_bytes {s t : Statement} (h : s.bytes C = t.bytes C) :
    s.purpose = t.purpose := by
  by_contra hne
  obtain ⟨p, hp, r, hr⟩ := s.opens C
  obtain ⟨q, hq, u, hu⟩ := t.opens C
  have hpq := Purpose.tags_apart _ _ hne p hp q hq
  have hqp := Purpose.tags_apart _ _ (Ne.symm hne) q hq p hp
  exact tag_ne_tag hpq hqp r u (hr.trans (h.trans hu.symm))

theorem putTransport_delimited :
    Delimited StrFits fun nostr : String => if nostr = "" then [0] else 1 :: putStr nostr := by
  intro a b r s ha hb h
  by_cases hae : a = "" <;> by_cases hbe : b = ""
  · exact ⟨hae.trans hbe.symm, by simpa [hae, hbe] using h⟩
  · simp [hae, hbe] at h
  · simp [hae, hbe] at h
  · simp only [hae, hbe, if_false, cons_append, List.cons.injEq, true_and] at h
    exact putStr_delimited ha hb h

theorem restoreConsentBytes_injective {rid member key nostr rid' member' key' nostr' : String}
    (hs : (Statement.restoreConsent rid member key nostr).Fits)
    (ht : (Statement.restoreConsent rid' member' key' nostr').Fits)
    (h : restoreConsentBytes rid member key nostr =
      restoreConsentBytes rid' member' key' nostr') :
    rid = rid' ∧ member = member' ∧ key = key' ∧ nostr = nostr' := by
  obtain ⟨hrid, hmember, hkey, hnostr⟩ := hs
  obtain ⟨hrid', hmember', hkey', hnostr'⟩ := ht
  simp only [restoreConsentBytes, append_assoc] at h
  have h := append_cancel_left h
  obtain ⟨er, h⟩ := putStr_delimited hrid hrid' h
  obtain ⟨em, h⟩ := putStr_delimited hmember hmember' h
  obtain ⟨ek, h⟩ := putStr_delimited hkey hkey' h
  exact ⟨er, em, ek, putTransport_delimited.injective hnostr hnostr' h⟩

theorem restoreConsentBytesV2_injective
    {rid member key nostr prev rid' member' key' nostr' prev' : String}
    {relays relays' : List String} {height height' : UInt64}
    (hs : (Statement.restoreConsentV2 rid member key nostr relays height prev).Fits)
    (ht : (Statement.restoreConsentV2 rid' member' key' nostr' relays' height' prev').Fits)
    (h : restoreConsentBytesV2 rid member key nostr relays height prev =
      restoreConsentBytesV2 rid' member' key' nostr' relays' height' prev') :
    rid = rid' ∧ member = member' ∧ key = key' ∧ nostr = nostr' ∧ relays = relays' ∧
      height = height' ∧ prev = prev' := by
  obtain ⟨hrid, hmember, hkey, hnostr, hrelays, hprev⟩ := hs
  obtain ⟨hrid', hmember', hkey', hnostr', hrelays', hprev'⟩ := ht
  simp only [restoreConsentBytesV2, append_assoc] at h
  have h := append_cancel_left h
  obtain ⟨er, h⟩ := putStr_delimited hrid hrid' h
  obtain ⟨em, h⟩ := putStr_delimited hmember hmember' h
  obtain ⟨ek, h⟩ := putStr_delimited hkey hkey' h
  obtain ⟨en, h⟩ := putTransport_delimited hnostr hnostr' h
  simp only [← append_assoc (putLen _)] at h
  obtain ⟨el, h⟩ := putStrs_delimited hrelays hrelays' h
  obtain ⟨eh, h⟩ := putU64_delimited trivial trivial h
  exact ⟨er, em, ek, en, el, eh, putStr_delimited.injective hprev hprev' h⟩

theorem seatProofBytes_injective {ticket package rid nostr ticket' package' rid' nostr' : String}
    {relays relays' : List String}
    (hs : (Statement.seatProof ticket package rid nostr relays).Fits)
    (ht : (Statement.seatProof ticket' package' rid' nostr' relays').Fits)
    (h : seatProofBytes ticket package rid nostr relays =
      seatProofBytes ticket' package' rid' nostr' relays') :
    ticket = ticket' ∧ package = package' ∧ rid = rid' ∧ nostr = nostr' ∧ relays = relays' := by
  obtain ⟨hticket, hpackage, hrid, hnostr, hrelays⟩ := hs
  obtain ⟨hticket', hpackage', hrid', hnostr', hrelays'⟩ := ht
  simp only [seatProofBytes, append_assoc] at h
  have h := append_cancel_left h
  obtain ⟨et, h⟩ := putStr_delimited hticket hticket' h
  obtain ⟨ep, h⟩ := putStr_delimited hpackage hpackage' h
  obtain ⟨er, h⟩ := putStr_delimited hrid hrid' h
  obtain ⟨en, h⟩ := putStr_delimited hnostr hnostr' h
  refine ⟨et, ep, er, en, ?_⟩
  cases relays with
  | nil =>
    cases relays' with
    | nil => rfl
    | cons y ys => simp at h
  | cons x xs =>
    cases relays' with
    | nil => simp at h
    | cons y ys =>
      simp only [isEmpty_cons, Bool.false_eq_true, if_false, List.cons.injEq, true_and] at h
      exact (putCounted_delimited putStr_delimited).injective hrelays hrelays' h

theorem putRun_delimited : Delimited (ListFits StrFits) putRun :=
  putCounted_delimited putStr_delimited

theorem putByte_delimited : Delimited (fun _ => True) fun m : UInt8 => putBytes [m] := by
  intro a b r s _ _ h
  obtain ⟨hab, hrs⟩ := putBytes_delimited (by simp) (by simp) h
  exact ⟨by simpa using hab, hrs⟩

theorem putSize_delimited : Delimited (fun _ => True) fun n : UInt64 => putBytes (putU64 n) := by
  intro a b r s _ _ h
  obtain ⟨hab, hrs⟩ := putBytes_delimited (by simp [putU64]) (by simp [putU64]) h
  exact ⟨putU64_delimited.injective trivial trivial hab, hrs⟩

theorem depositSigningBytes_injective {rid rid' : String} {d d' : VaultDeposit}
    (hs : (Statement.deposit rid d).Fits) (ht : (Statement.deposit rid' d').Fits)
    (h : depositSigningBytes rid d = depositSigningBytes rid' d') :
    rid = rid' ∧ { d with sigDepositor := "" } = { d' with sigDepositor := "" } := by
  obtain ⟨hrid, hd⟩ := hs
  obtain ⟨hrid', hd'⟩ := ht
  simp only [depositSigningBytes, layout, append_assoc, flatten_cons, flatten_nil,
    length_cons, length_nil, append_nil] at h
  have h := append_cancel_left (append_cancel_left h)
  obtain ⟨er, h⟩ := putStr_delimited hrid hrid' h
  obtain ⟨ed, h⟩ := putStr_delimited hd.depositor hd'.depositor h
  obtain ⟨en, h⟩ := putStr_delimited hd.name hd'.name h
  obtain ⟨ek, h⟩ := putStr_delimited hd.kind hd'.kind h
  obtain ⟨ep, h⟩ := putStr_delimited hd.replaces hd'.replaces h
  obtain ⟨em, h⟩ := putByte_delimited trivial trivial h
  obtain ⟨eh, h⟩ := putRun_delimited hd.holders hd'.holders h
  obtain ⟨ec, h⟩ := putRun_delimited hd.commitments hd'.commitments h
  obtain ⟨es, h⟩ := putRun_delimited hd.encShare hd'.encShare h
  obtain ⟨ex, h⟩ := putStr_delimited hd.hash hd'.hash h
  obtain ⟨ez, h⟩ := putSize_delimited trivial trivial h
  have eo := putStr_delimited.injective hd.nonce hd'.nonce h
  obtain ⟨_, _, _, _, _, _, _, _, ⟨_, _⟩, _, _⟩ := d
  simp only at ed en ek ep em eh ec es ex ez eo
  refine ⟨er, ?_⟩
  simp [ed, en, ek, ep, em, eh, ec, es, ex, ez, eo]

theorem approval_agrees {rid rid' : String} {height height' : UInt64} {c c' : ChainChange}
    (hs : (Statement.approval rid height c).Fits) (ht : (Statement.approval rid' height' c').Fits)
    (h : approvalBytes rid height c = approvalBytes rid' height' c') :
    (Statement.approval rid height c).Agrees C (Statement.approval rid' height' c') := by
  cases hc : c.isGenesis with
  | false =>
    cases hc' : c'.isGenesis with
    | false =>
      have heq := approvalBytes_injective hs.1 ht.1 hs.2 ht.2 hc hc' h
      cases c <;> cases c' <;> first | exact heq | simp [ChainChange.isGenesis] at hc
    | true =>
      cases c' <;> simp only [ChainChange.isGenesis, Bool.false_eq_true] at hc'
      exact absurd h.symm (genesis_ne_change _ _ _ _ _ hc)
  | true =>
    cases c <;> simp only [ChainChange.isGenesis, Bool.false_eq_true] at hc
    cases hc' : c'.isGenesis with
    | false => exact absurd h (genesis_ne_change _ _ _ _ _ hc')
    | true =>
      cases c' <;> simp only [ChainChange.isGenesis, Bool.false_eq_true] at hc'
      exact Genesis.rosterBytes_injective hs.2 ht.2 h

theorem Statement.agrees_of_bytes {s t : Statement} (hs : s.Fits) (ht : t.Fits) (h : s.bytes C = t.bytes C) :
    s.Agrees C t := by
  have hpurpose := purpose_of_bytes h
  cases s <;> cases t <;> simp only [purpose, reduceCtorEq] at hpurpose
  case approval.approval => exact approval_agrees hs ht h
  case restoreConsent.restoreConsent => exact restoreConsentBytes_injective hs ht h
  case restoreConsentV2.restoreConsentV2 => exact restoreConsentBytesV2_injective hs ht h
  case deposit.deposit => exact depositSigningBytes_injective hs ht h
  case seatProof.seatProof => exact seatProofBytes_injective hs ht h
  case backupConfirm.backupConfirm table table' =>
    have hhash : C.sha256 table = C.sha256 table' := append_cancel_left h
    by_cases heq : table = table'
    · exact .inl heq
    · exact .inr ⟨heq, hhash⟩

/-- One identity signature has one meaning: equal bytes come from the same call, and a key
under which only what its holder signed verifies gives no voice to anything else. -/
theorem identity_signature_one_meaning (C : Crypto) :
    (∀ s t : Statement, s.Fits → t.Fits → s.bytes C = t.bytes C → s.Agrees C t) ∧
    (∀ (pk : String) (signed : Statement → Prop), (∀ s, signed s → s.Fits) →
      (∀ msg sig, C.identityVerify pk msg sig = true → ∃ s, signed s ∧ s.bytes C = msg) →
      ∀ (t : Statement) (sig : String), t.Fits → C.identityVerify pk (t.bytes C) sig = true →
        ∃ s, signed s ∧ s.Agrees C t) := by
  refine ⟨fun s t hs ht h => Statement.agrees_of_bytes hs ht h, ?_⟩
  intro pk signed hfits honly t sig ht hverify
  obtain ⟨s, hs, hbytes⟩ := honly _ sig hverify
  exact ⟨s, hs, Statement.agrees_of_bytes (hfits s hs) ht hbytes⟩

def sampleProof : Statement := .seatProof "t1" "0badc0de" "00" "" ["wss://one"]

def sampleKey : List UInt8 := List.replicate 32 7

def sampleSigner : Crypto :=
  { Crypto.toy with
    ed25519Verify := fun key msg sig =>
      Crypto.toy.ed25519Verify key msg sig &&
        msg == seatProofBytes "t1" "0badc0de" "00" "" ["wss://one"] }

theorem sampleSigner_only {pk : String} {msg : List UInt8} {sig : String}
    (h : sampleSigner.identityVerify pk msg sig = true) :
    ∃ s, s = sampleProof ∧ s.bytes sampleSigner = msg := by
  refine ⟨sampleProof, rfl, ?_⟩
  unfold Crypto.identityVerify at h
  split at h
  · simp only [sampleSigner, Bool.and_eq_true, beq_iff_eq] at h
    exact h.2.2.symm
  · simp at h

theorem sampleProof_one_meaning :
    sampleSigner.identityVerify (hexEncode sampleKey) (sampleProof.bytes sampleSigner)
      (Crypto.toySign sampleKey (sampleProof.bytes sampleSigner)) = true ∧
    ∃ s, s = sampleProof ∧ s.Agrees sampleSigner sampleProof := by
  have hfits : sampleProof.Fits := by
    refine ⟨?_, ?_, ?_, ?_, ?_⟩ <;> decide
  have hverify : sampleSigner.identityVerify (hexEncode sampleKey)
      (sampleProof.bytes sampleSigner)
      (Crypto.toySign sampleKey (sampleProof.bytes sampleSigner)) = true := by
    decide +kernel
  refine ⟨hverify, ?_⟩
  exact (identity_signature_one_meaning sampleSigner).2 (hexEncode sampleKey) (· = sampleProof)
    (fun s hs => hs ▸ hfits) (fun _ _ h => sampleSigner_only h) sampleProof _ hfits hverify

def sampleDeposit : VaultDeposit where
  depositor := "ana"
  name := "safe"
  kind := "note"
  replaces := ""
  m := 1
  holders := ["ana", "bo"]
  commitments := ["c0"]
  encShare := ["e0", "e1"]
  payload := ⟨"aa", 3⟩
  nonce := "01"
  sigDepositor := "f0"

/-- What a deposit's signature signs leaves that signature out. -/
theorem deposit_signature_not_signed :
    depositSigningBytes "00" sampleDeposit =
      depositSigningBytes "00" { sampleDeposit with sigDepositor := "f1" } ∧
    sampleDeposit ≠ { sampleDeposit with sigDepositor := "f1" } := by
  decide

end Molt.Founding
