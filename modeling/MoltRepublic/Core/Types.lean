import Mathlib
import MoltRepublic.Core.Json

/-! The persistent-change chain's data: surfaces, the founding table, blocks and the
state a checkpoint attests (`molt-core`). -/

namespace Molt.Core
open Json

inductive Surface where
  | organization
  | chat
  | memory
  | quests
  | vault
  | wallet
  | files
  deriving DecidableEq

namespace Surface

def all : List Surface := [organization, chat, memory, quests, vault, wallet, files]

def checkpointV7Surfaces : List Surface := [organization, chat, memory, quests, vault, wallet]

def asStr : Surface → String
  | organization => "organization"
  | chat => "chat"
  | memory => "memory"
  | quests => "quests"
  | vault => "vault"
  | wallet => "wallet"
  | files => "files"

def isGated : Surface → Bool
  | chat => false
  | _ => true

theorem asStr_injective {s t : Surface} (h : s.asStr = t.asStr) : s = t := by
  cases s <;> cases t <;> first | rfl | simp [asStr] at h

end Surface

structure MemberIdentity where
  member : String
  identityPk : String
  nostrPk : String
  vaultPk : String
  deriving DecidableEq

structure RosterAttestation where
  member : String
  sig : String
  deriving DecidableEq

inductive MembershipOp where
  | joined
  | restored
  deriving DecidableEq

structure Genesis where
  name : String
  republicId : String
  ruleM : UInt8
  ruleN : UInt8
  identities : List MemberIdentity
  agenda : String
  relays : List String
  features : Option (List String)
  deriving DecidableEq

structure Membership where
  op : MembershipOp
  member : String
  identityPk : String
  nostrPk : Option String
  relays : List String
  consent : Option String
  deriving DecidableEq

inductive ChainChange where
  | genesis (g : Genesis)
  | applied (proposalId : UInt64) (surface : Surface) (payload : Value)
  | membership (m : Membership)
  | checkpoint (upto : UInt64) (stateHash : String)
  | checkpointFolded (upto : UInt64) (stateHash : String)
  | checkpointVault (upto : UInt64) (stateHash : String) (wikiFolded : Bool)
  deriving DecidableEq

structure ChainBlock where
  height : UInt64
  prev : String
  change : ChainChange
  sigs : List RosterAttestation
  deriving DecidableEq

abbrev Group := Surface × List (UInt64 × Value)

@[ext] structure CheckpointState where
  foundingName : String
  ruleM : UInt8
  ruleN : UInt8
  foundingIdentities : List MemberIdentity
  agenda : String
  relays : List String
  foundingFeatures : Option (List String)
  republicId : String
  roster : List MemberIdentity
  applied : List Group
  consumedIds : List UInt64
  anchors : List (String × String)
  memberRelays : List (String × List String)
  upto : UInt64
  deriving DecidableEq

def genesisPrev : String := "0000000000000000000000000000000000000000000000000000000000000000"

end Molt.Core
