import Mathlib
import MoltRepublic.Core.Crypto
import MoltRepublic.Lib.Check

/-! Whose voices back a block: the valid signatures of roster members and, on a restore,
the returning seat's consent. -/

namespace Molt.Chain
open Molt.Core Text Check

def attests (C : Crypto) (identities : List MemberIdentity) (bytes : List UInt8)
    (att : RosterAttestation) : Bool :=
  match identities.find? fun i => i.member == att.member with
  | none => false
  | some id => C.identityVerify id.identityPk bytes att.sig

def validSigners (C : Crypto) (identities : List MemberIdentity) (bytes : List UInt8)
    (sigs : List RosterAttestation) : Finset String :=
  ((sigs.filter (attests C identities bytes)).map RosterAttestation.member).toFinset

def applyMembership (identities : List MemberIdentity) (op : MembershipOp) (member : String)
    (identityPk : String) : Except String (List MemberIdentity) :=
  match op with
  | .joined => .error "membership op `joined` is not supported: seats are fixed at founding"
  | .restored =>
    match identities.find? fun i => i.member == member with
    | none => .error s!"cannot restore unknown member {member}"
    | some id =>
      if id.identityPk ≠ identityPk then
        .error s!"a Restored block must keep {member}'s anchored identity key"
      else .ok identities

inductive RestoreConsent where
  | v1 (sig : String)
  | v2 (anchorHeight : UInt64) (prevAnchor sig : String)
  deriving DecidableEq

def isLowerHex (s : String) : Bool := (utf8 s).all isLowerHexdigit

def splitThree (s : String) : Option (String × String × String) := do
  let (h, rest) ← splitOnceChars ':' s.toList
  let (prev, sig) ← splitOnceChars ':' rest
  return (String.ofList h, String.ofList prev, String.ofList sig)

/-- `parse_restore_consent`: `none` on a `v2:` string out of its canonical form. -/
def parseRestoreConsent (s : String) : Option RestoreConsent :=
  match stripPrefix "v2:" s with
  | none => some (.v1 s)
  | some rest => do
    let (h, prev, sig) ← splitThree rest
    let anchorHeight ← parseU64 h
    if toString anchorHeight ≠ h || !isLowerHex prev || sig = "" || !isLowerHex sig then none
    return .v2 anchorHeight prev sig

def restoreConsentWindow : UInt64 := 1024

inductive ConsentKind where
  | v1
  | v2 (prevAnchor : String)
  deriving DecidableEq

def verifyRestoreConsent (C : Crypto) (republicId anchored : String) (height : UInt64)
    (member : String) (nostrPk : Option String) (relays : List String) (consent : String) :
    Except String ConsentKind :=
  let npk := nostrPk.getD ""
  match parseRestoreConsent consent with
  | none => .error "consent is malformed"
  | some (.v1 sig) => do
    ensure (C.identityVerify anchored (restoreConsentBytes republicId member anchored npk) sig)
      "consent does not verify"
    return .v1
  | some (.v2 anchorHeight prevAnchor sig) => do
    let bytes := restoreConsentBytesV2 republicId member anchored npk relays anchorHeight prevAnchor
    ensure (C.identityVerify anchored bytes sig) "consent does not verify"
    ensure (anchorHeight < height ∧ height - anchorHeight ≤ restoreConsentWindow) "consent is stale"
    return .v2 prevAnchor

def countConsent (C : Crypto) (republicId : String) (identities : List MemberIdentity)
    (height : UInt64) (m : Membership) (consent : String) (signers : Finset String) :
    Except String (Finset String) := do
  let member := m.member
  ensure (m.op = .restored)
    s!"block {height} carries a consent on a non-restore membership change"
  ensure (member ∉ signers)
    s!"block {height} counts {member} twice - consent plus a roster signature"
  match identities.find? fun i => i.member == member with
  | none => throw s!"block {height} restores an unknown member"
  | some id =>
    let _ ← (verifyRestoreConsent C republicId id.identityPk height member m.nostrPk m.relays
      consent).mapError fun why => s!"block {height}: {member}'s {why}"
    return insert member signers

/-- `block_signers`: the distinct members whose voices back one block. -/
def blockSigners (C : Crypto) (republicId : String) (identities : List MemberIdentity)
    (block : ChainBlock) : Except String (Finset String) :=
  let bytes := approvalBytes republicId block.height block.change
  let signers := validSigners C identities bytes block.sigs
  match block.change with
  | .membership m =>
    match m.consent with
    | some consent => countConsent C republicId identities block.height m consent signers
    | none => .ok signers
  | _ => .ok signers

/-- `consent_spends`: a v2 consent replaces exactly the seat's working anchor. -/
def consentSpends (change : ChainChange) (working : String → String) : Except String Unit :=
  match change with
  | .membership m =>
    match m.consent.bind parseRestoreConsent with
    | some (.v2 _ prevAnchor _) => ensure (prevAnchor = working m.member) "consent is spent"
    | _ => .ok ()
  | _ => .ok ()

/-- `walk_working_anchor`: the seat's last re-anchor, else its roster anchor. The anchors
stand in member order, so the binary search finds what `lookup` does. -/
def walkWorkingAnchor (state : CheckpointState) (member : String) : String :=
  match state.anchors.lookup member with
  | some pk => pk
  | none => ((state.roster.find? fun i => i.member == member).map (·.nostrPk)).getD ""

end Molt.Chain
