import Mathlib
import MoltRepublic.Lib.SortedMap
import MoltRepublic.Vault.Ops

/-! The vault folded to one commitment (`vault_base`): the current version of every
`(depositor, name)` slot and the grants on exactly that version. -/

namespace Molt.Vault
open Molt.Core Text Json

structure VaultBaseGrant where
  proposalId : UInt64
  grant : VaultGrant
  deriving DecidableEq

structure VaultBaseDeposit where
  deposit : VaultDeposit
  grants : List VaultBaseGrant
  deriving DecidableEq

structure VaultBase where
  deposits : List VaultBaseDeposit
  deriving DecidableEq

abbrev SlotKey := String ×ₗ String

abbrev Slots := SortedMap SlotKey VaultBaseDeposit

def depositKey (d : VaultDeposit) : SlotKey := toLex (d.depositor, d.name)

def VaultBaseDeposit.key (d : VaultBaseDeposit) : SlotKey := depositKey d.deposit

def recordJson (op : VaultOp) : List UInt8 := toVec op.toValue

def putBaseGrant (g : VaultBaseGrant) : List UInt8 :=
  putU64 g.proposalId ++ putBytes (recordJson (.grant g.grant))

def putBaseDeposit (d : VaultBaseDeposit) : List UInt8 :=
  let grants := d.grants.insertionSort fun a b => a.grant.grantId ≤ b.grant.grantId
  putBytes (recordJson (.deposit d.deposit)) ++ putLen grants.length ++ grants.flatMap putBaseGrant

def vaultBaseCanonicalBytes (base : VaultBase) : List UInt8 :=
  let deposits := base.deposits.insertionSort fun a b => a.key ≤ b.key
  tag "molt-vault-base-v1" ++ putLen deposits.length ++ deposits.flatMap putBaseDeposit

def commitment (C : Crypto) (base : VaultBase) : String × UInt64 :=
  let bytes := vaultBaseCanonicalBytes base
  (C.contentHash bytes, UInt64.ofNat bytes.length)

def baseCommitmentOf (payload : Value) : Option (String × UInt64) :=
  if payload.getStr "op" = some "vault_base" then
    some ((payload.getStr "hash").getD "", (payload.getU64 "size").getD 0)
  else none

structure FoldState where
  slots : Slots
  seeded : Bool

def seed (slots : Slots) (base : VaultBase) : Slots :=
  base.deposits.foldl (fun m d => m.insert d.key d) slots

def foldOp (C : Crypto) (republicId : String) (id : UInt64) (slots : Slots) : VaultOp → Option Slots
  | .deposit d =>
    let current := ((slots.get? (depositKey d)).map fun s => secretId C republicId s.deposit).getD ""
    some (if current = d.replaces then slots.insert (depositKey d) ⟨d, []⟩ else slots)
  | .grant g =>
    some (slots.modifyFirst (fun s => secretId C republicId s.deposit == g.secretId)
      fun s => { s with grants := s.grants ++ [⟨id, g⟩] })
  | .vaultBase _ => none

def foldVaultEntry (C : Crypto) (held : Option VaultBase) (republicId : String) (s : FoldState)
    (e : UInt64 × Value) : Except String FoldState := do
  match baseCommitmentOf e.2 with
  | some (want, _) =>
    if s.seeded then throw "the vault group carries two base commitments"
    match held.filter fun b => (commitment C b).1 == want with
    | none => throw s!"the vault base this node holds is not the committed one ({want})"
    | some base => return ⟨seed s.slots base, true⟩
  | none =>
    match (VaultOp.fromValue e.2).bind (foldOp C republicId e.1 s.slots) with
    | some slots => return { s with slots := slots }
    | none => throw "a vault entry outside the closed op set"

def summarize (C : Crypto) (group : List (UInt64 × Value)) (held : Option VaultBase)
    (republicId : String) : Except String (List (UInt64 × Value) × VaultBase) := do
  let s ← group.foldlM (foldVaultEntry C held republicId) ⟨SortedMap.empty, false⟩
  let base : VaultBase := ⟨s.slots.values⟩
  let (hash, size) := commitment C base
  return ([(0, VaultOp.toValue (.vaultBase ⟨hash, size⟩))], base)

end Molt.Vault
