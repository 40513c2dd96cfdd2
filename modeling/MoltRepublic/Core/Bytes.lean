import Mathlib
import MoltRepublic.Core.Types

/-! The canonical byte layouts that are signed and hashed (`molt-core`, and
`republic_id` of `molt-storage`). `put_bytes` panics on a field of `2^32` bytes or
more; the layouts below are total and say nothing there. -/

namespace Molt.Core
open Text Json Framing

def putBytes (b : List UInt8) : List UInt8 := leBytes 4 b.length ++ b

def putStr (s : String) : List UInt8 := putBytes (utf8 s)

def putCount (n : Nat) : List UInt8 := leBytes 4 n

def putLen (n : Nat) : List UInt8 := leBytes 8 n

def putU64 (n : UInt64) : List UInt8 := leBytes 8 n.toNat

def tag (s : String) : List UInt8 := utf8 s ++ [0]

def putIdentity (keyed : Bool) (i : MemberIdentity) : List UInt8 :=
  putStr i.member ++ putStr i.identityPk ++ putStr i.nostrPk ++
    if keyed then putStr i.vaultPk else []

def rosterCanonicalBytes (wsId : String) (ruleM ruleN : UInt8) (members : List MemberIdentity)
    (agenda : String) (relays : List String) (features : Option (List String)) : List UInt8 :=
  let keyed := members.any fun m => m.vaultPk != ""
  let head := if keyed then tag "molt-roster-v6"
    else if features.isSome then tag "molt-roster-v5" else tag "molt-roster-v4"
  let feats := features.or (if keyed then some [] else none)
  head ++ putStr wsId ++ [ruleM, ruleN] ++
    putCount members.length ++ members.flatMap (putIdentity keyed) ++
    putStr agenda ++ putCount relays.length ++ relays.flatMap putStr ++
    match feats with
    | some f => putCount f.length ++ f.flatMap putStr
    | none => []

def Genesis.rosterBytes (g : Genesis) : List UInt8 :=
  rosterCanonicalBytes g.republicId g.ruleM g.ruleN g.identities g.agenda g.relays g.features

def putOptional : Option String → List UInt8
  | none => [0]
  | some s => 1 :: putStr s

def Membership.body (m : Membership) : List UInt8 :=
  (match m.op with | .joined => 0 | .restored => 1) ::
    (putStr m.member ++ putStr m.identityPk ++ putOptional m.nostrPk ++
      (if m.relays.isEmpty then [] else 1 :: (putLen m.relays.length ++ m.relays.flatMap putStr)) ++
      match m.consent with
      | some c => 2 :: putStr c
      | none => [])

def ChainChange.body : ChainChange → List UInt8
  | .genesis _ => []
  | .applied id surface payload =>
    1 :: (putU64 id ++ putStr surface.asStr ++ putBytes (toVec payload))
  | .membership m => 2 :: m.body
  | .checkpoint upto hash => 3 :: (putU64 upto ++ putStr hash)
  | .checkpointFolded upto hash => 4 :: (putU64 upto ++ putStr hash)
  | .checkpointVault upto hash wikiFolded =>
    5 :: (if wikiFolded then 1 else 0) :: (putU64 upto ++ putStr hash)

def approvalBytes (republicId : String) (height : UInt64) : ChainChange → List UInt8
  | .genesis g => g.rosterBytes
  | change => tag "molt-chain-change-v2" ++ putStr republicId ++ putU64 height ++ change.body

def restoreConsentBytes (republicId member identityPk nostrPk : String) : List UInt8 :=
  tag "molt-restore-consent-v1" ++ putStr republicId ++ putStr member ++ putStr identityPk ++
    if nostrPk = "" then [0] else 1 :: putStr nostrPk

def restoreConsentBytesV2 (republicId member identityPk nostrPk : String) (relays : List String)
    (anchorHeight : UInt64) (prevAnchor : String) : List UInt8 :=
  tag "molt-restore-consent-v2" ++ putStr republicId ++ putStr member ++ putStr identityPk ++
    (if nostrPk = "" then [0] else 1 :: putStr nostrPk) ++
    putLen relays.length ++ relays.flatMap putStr ++ putU64 anchorHeight ++ putStr prevAnchor

def blockLinkBytes (republicId : String) (b : ChainBlock) : List UInt8 :=
  tag "molt-chain-block-v1" ++ putU64 b.height ++ putStr b.prev ++
    putBytes (approvalBytes republicId b.height b.change) ++
    (sortPairs (b.sigs.map fun a => (a.member, a.sig))).flatMap fun p => putStr p.1 ++ putStr p.2

def republicIdBytes (name : String) (ruleM ruleN : UInt8) (identities : List MemberIdentity) :
    List UInt8 :=
  let pairs := sortPairs (identities.map fun i => (i.identityPk, i.nostrPk))
  tag "molt-republic-id-v2" ++ putStr name ++ [ruleM, ruleN] ++ putCount pairs.length ++
    pairs.flatMap fun p => putStr p.1 ++ putStr p.2

def putEntry (e : UInt64 × Value) : List UInt8 := putU64 e.1 ++ putBytes (toVec e.2)

def putGroup (g : Group) : List UInt8 :=
  putStr g.1.asStr ++ putLen g.2.length ++ g.2.flatMap putEntry

namespace CheckpointState

def hasLaterGroup (s : CheckpointState) : Bool :=
  s.applied.any fun g => !Surface.checkpointV7Surfaces.any fun sf => sf.asStr == g.1.asStr

def folded (s : CheckpointState) : Bool :=
  s.applied.any fun g => g.1.asStr == Surface.memory.asStr &&
    g.2.any fun e => e.2.getStr "op" == some "wiki_base"

def vault (s : CheckpointState) : Bool :=
  (s.foundingIdentities ++ s.roster).any fun i => i.vaultPk != ""

/-- `later`: the layout that writes the feature-set presence and the group count. -/
def wide (s : CheckpointState) : Bool := s.hasLaterGroup || s.folded || s.vault

def layoutTag (s : CheckpointState) : List UInt8 :=
  if s.vault then tag "molt-chain-checkpoint-v10"
  else if s.folded then tag "molt-chain-checkpoint-v9"
  else if s.wide then tag "molt-chain-checkpoint-v8"
  else if s.foundingFeatures.isSome then tag "molt-chain-checkpoint-v7"
  else tag "molt-chain-checkpoint-v6"

end CheckpointState

def putStrs (l : List String) : List UInt8 := putLen l.length ++ l.flatMap putStr

def putIdentities (vault : Bool) (l : List MemberIdentity) : List UInt8 :=
  putLen l.length ++ l.flatMap (putIdentity vault)

def putFeatures : Option (List String) → List UInt8
  | some features => putStrs features
  | none => []

def checkpointCanonicalBytes (s : CheckpointState) : List UInt8 :=
  s.layoutTag ++
    (putStr s.republicId ++ (putStr s.foundingName ++ (s.ruleM :: s.ruleN ::
    (putIdentities s.vault s.foundingIdentities ++ (putStr s.agenda ++ (putStrs s.relays ++
    ((if s.wide then [if s.foundingFeatures.isSome then 1 else 0] else []) ++
    (putFeatures s.foundingFeatures ++ (putIdentities s.vault s.roster ++
    ((if s.wide then putLen s.applied.length else []) ++ (s.applied.flatMap putGroup ++
    ((putLen s.consumedIds.length ++ s.consumedIds.flatMap putU64) ++
    ((putLen s.anchors.length ++ s.anchors.flatMap fun p => putStr p.1 ++ putStr p.2) ++
    ((putLen s.memberRelays.length ++ s.memberRelays.flatMap fun p => putStr p.1 ++ putStrs p.2) ++
    putU64 s.upto))))))))))))))

end Molt.Core
