import Mathlib
import MoltRepublic.Core.Crypto

/-! The vault's records on the chain and their check against the founding table of the
chain they sit in (`molt-core`, `molt-vault`, `vault::deposit`). -/

namespace Molt.Vault
open Molt.Core Text Json

structure VaultPayloadRef where
  hash : String
  size : UInt64
  deriving DecidableEq

structure VaultDeposit where
  depositor : String
  name : String
  kind : String
  replaces : String
  m : UInt8
  holders : List String
  commitments : List String
  encShare : List String
  payload : VaultPayloadRef
  nonce : String
  sigDepositor : String
  deriving DecidableEq

structure VaultGrant where
  grantId : String
  secretId : String
  reader : String
  deriving DecidableEq

inductive VaultOp where
  | deposit (d : VaultDeposit)
  | grant (g : VaultGrant)
  | vaultBase (r : VaultPayloadRef)
  deriving DecidableEq

structure VaultCtx where
  m : UInt8
  holdersInGenesisOrder : List (String × String × String)
  deriving DecidableEq

def num (n : UInt64) : Value := .num (.posInt n)

def strs (l : List String) : Value := .arr (l.map .str)

def VaultOp.toValue : VaultOp → Value
  | .deposit d =>
    .obj ([("commitments", strs d.commitments), ("depositor", .str d.depositor),
      ("enc_share", strs d.encShare), ("holders", strs d.holders), ("kind", .str d.kind),
      ("m", num d.m.toUInt64), ("name", .str d.name), ("nonce", .str d.nonce),
      ("op", .str "deposit"),
      ("payload", .obj [("hash", .str d.payload.hash), ("size", num d.payload.size)])] ++
      (if d.replaces = "" then [] else [("replaces", .str d.replaces)]) ++
      [("sig_depositor", .str d.sigDepositor)])
  | .grant g => .obj [("grant_id", .str g.grantId), ("op", .str "grant"),
      ("reader", .str g.reader), ("secret_id", .str g.secretId)]
  | .vaultBase r => .obj [("hash", .str r.hash), ("op", .str "vault_base"), ("size", num r.size)]

def getStrs (v : Value) (key : String) : Option (List String) :=
  match v.get key with
  | some (.arr items) => items.mapM Value.asStr
  | _ => none

def getU8 (v : Value) (key : String) : Option UInt8 := do
  let n ← v.getU64 key
  if n.toNat < 256 then some n.toUInt8 else none

def payloadRefFromValue (v : Value) : Option VaultPayloadRef := do
  return ⟨← v.getStr "hash", ← v.getU64 "size"⟩

def depositFromValue (v : Value) : Option VaultDeposit := do
  let replaces ← match v.get "replaces" with
    | none => some ""
    | some r => r.asStr
  return {
    depositor := ← v.getStr "depositor"
    name := ← v.getStr "name"
    kind := ← v.getStr "kind"
    replaces := replaces
    m := ← getU8 v "m"
    holders := ← getStrs v "holders"
    commitments := ← getStrs v "commitments"
    encShare := ← getStrs v "enc_share"
    payload := ← payloadRefFromValue (← v.get "payload")
    nonce := ← v.getStr "nonce"
    sigDepositor := ← v.getStr "sig_depositor" }

def grantFromValue (v : Value) : Option VaultGrant := do
  return ⟨← v.getStr "grant_id", ← v.getStr "secret_id", ← v.getStr "reader"⟩

/-- `serde_json::from_value`. The array forms serde also reads are left out: none of
them is the canonical form of a record. -/
def VaultOp.fromValue (v : Value) : Option VaultOp :=
  match v.getStr "op" with
  | some "deposit" => (depositFromValue v).map .deposit
  | some "grant" => (grantFromValue v).map .grant
  | some "vault_base" => (payloadRefFromValue v).map .vaultBase
  | _ => none

def putRun (l : List String) : List UInt8 := putCount l.length ++ l.flatMap putStr

def layout (name : String) (fields : List (List UInt8)) : List UInt8 :=
  tag name ++ putCount fields.length ++ fields.flatten

def secretIdBytes (republicId : String) (d : VaultDeposit) : List UInt8 :=
  layout "molt-vault-secret-v1" [putStr republicId, putStr d.depositor, putStr d.name,
    putStr d.kind, putStr d.replaces, putBytes [d.m], putRun d.holders, putRun d.commitments,
    putStr d.payload.hash]

def secretId (C : Crypto) (republicId : String) (d : VaultDeposit) : String :=
  C.contentHash (secretIdBytes republicId d)

def depositSigningBytes (republicId : String) (d : VaultDeposit) : List UInt8 :=
  layout "molt-vault-deposit-v1" [putStr republicId, putStr d.depositor, putStr d.name,
    putStr d.kind, putStr d.replaces, putBytes [d.m], putRun d.holders, putRun d.commitments,
    putRun d.encShare, putStr d.payload.hash, putBytes (putU64 d.payload.size), putStr d.nonce]

def grantIdBytes (secretId reader : String) (proposalId : UInt64) : List UInt8 :=
  layout "molt-vault-grant-v1" [putStr secretId, putStr reader, putBytes (putU64 proposalId)]

def grantId (C : Crypto) (secretId reader : String) (proposalId : UInt64) : String :=
  C.contentHash (grantIdBytes secretId reader proposalId)

def isControl (c : Char) : Bool := c.toNat < 32 || (127 ≤ c.toNat && c.toNat < 160)

def checkLabel (s : String) (max : Nat) (what : String) : Except String Unit := do
  if trim s = "" then throw s!"{what} is empty"
  if trim s ≠ s then throw s!"{what} has outer spaces"
  if s.length > max then throw s!"{what} over {max} chars"
  if s.toList.any isControl then throw s!"{what} has control chars"

def checkVaultName (name : String) : Except String Unit := checkLabel name 64 "name"

def checkVaultKind (kind : String) : Except String Unit := checkLabel kind 24 "kind"

def holdersOf (ctx : VaultCtx) (depositor : String) : Except String (List String) := do
  let names := ctx.holdersInGenesisOrder.map fun h => h.1
  if names.length > 255 then throw "bad threshold"
  if names.contains depositor then return names.filter (· ≠ depositor)
  throw s!"not a seat: {depositor}"

def badShape (field : String) : String := s!"bad shape: {field}"

def badLabel (e : String) : String := s!"bad label: {e}"

def verifyDepositShape (C : Crypto) (d : VaultDeposit) (ctx : VaultCtx) : Except String Unit := do
  (checkVaultName d.name).mapError badLabel
  (checkVaultKind d.kind).mapError badLabel
  let holders ← holdersOf ctx d.depositor
  if d.m ≠ ctx.m then throw (badShape "m")
  if d.holders ≠ holders then throw (badShape "holders")
  if d.commitments.length ≠ d.m.toNat then throw (badShape "commitments")
  if d.commitments.any fun c => !(Crypto.isHex c 32 && (hexDecode c).any C.isPoint) then
    throw (badShape "commitment")
  if d.encShare.length ≠ holders.length || d.encShare.any fun e => !Crypto.isHex e 80 then
    throw (badShape "enc_share")
  if !Crypto.isHex d.payload.hash 32 then throw (badShape "payload hash")
  if d.payload.size < 40 || d.payload.size > 102440 then throw (badShape "payload size")
  if d.replaces ≠ "" && !Crypto.isHex d.replaces 32 then throw (badShape "replaces")
  if !Crypto.isHex d.nonce 16 then throw (badShape "nonce")
  if !Crypto.isHex d.sigDepositor 64 then throw (badShape "sig_depositor")

def verifyDepositSig (C : Crypto) (d : VaultDeposit) (republicId pk : String) :
    Except String Unit :=
  if Crypto.isHex pk 32 && Crypto.isHex d.sigDepositor 64 &&
      C.identityVerify pk (depositSigningBytes republicId d) d.sigDepositor then .ok ()
  else .error "bad signature"

def checkGrant (C : Crypto) (g : VaultGrant) (proposalId : UInt64) (ctx : VaultCtx) :
    Except String Unit := do
  if !ctx.holdersInGenesisOrder.any fun h => h.1 == g.reader then
    throw "grant: the reader is not a seat"
  if g.grantId ≠ grantId C g.secretId g.reader proposalId then
    throw "grant: grant_id does not recompute"

def depositError (e : String) : String := s!"deposit: {e}"

/-- `check_vault_op`: the closed op set, the canonical JSON, and the record itself. -/
def checkVaultOp (C : Crypto) (republicId : String) (proposalId : UInt64) (payload : Value)
    (ctx : VaultCtx) : Except String VaultOp := do
  let some op := VaultOp.fromValue payload | throw "unknown op"
  if op.toValue ≠ payload then throw "not canonical"
  match op with
  | .deposit d =>
    (verifyDepositShape C d ctx).mapError depositError
    match ctx.holdersInGenesisOrder.find? fun h => h.1 == d.depositor with
    | none => throw "deposit: unknown depositor"
    | some holder => (verifyDepositSig C d republicId holder.2.1).mapError depositError
  | .grant g => checkGrant C g proposalId ctx
  | .vaultBase _ => throw "vault_base outside a cut"
  return op

def ctxFromFounding (ruleM : UInt8) (founding : List MemberIdentity) : Option VaultCtx :=
  if founding.all fun i => i.vaultPk == "" then none
  else some ⟨ruleM, founding.map fun i => (i.member, i.identityPk, i.vaultPk)⟩

def boundsOk (ruleM ruleN : UInt8) : Bool := 2 ≤ ruleM.toNat && ruleM.toNat + 2 ≤ ruleN.toNat

def hasVault (features : Option (List String)) : Bool :=
  match features with
  | some f => f.contains "vault"
  | none => false

def checkSeatKey (C : Crypto) (seen : List String) (i : MemberIdentity) :
    Except String (List String) := do
  let member := i.member
  if i.vaultPk = "" then throw s!"seat {member} has no vault key"
  if !C.canonicalVaultPk i.vaultPk then throw s!"seat {member} carries an invalid vault key"
  if seen.contains i.vaultPk then throw s!"seat {member} shares its vault key"
  return i.vaultPk :: seen

def checkRosterKeys (C : Crypto) (ruleM ruleN : UInt8) (identities : List MemberIdentity)
    (features : Option (List String)) : Except String Bool := do
  if identities.all fun i => i.vaultPk == "" then return false
  if features.isNone then throw "vault keys without a feature set"
  if hasVault features && !boundsOk ruleM ruleN then throw "needs 2 <= m <= n-2"
  let _ ← identities.foldlM (checkSeatKey C) []
  return true

def checkNewFoundingKeys (C : Crypto) (ruleM ruleN : UInt8) (identities : List MemberIdentity)
    (features : Option (List String)) : Except String Bool := do
  let real ← checkRosterKeys C ruleM ruleN identities features
  if !real && hasVault features then throw "the vault feature without vault keys"
  return real

def setsVault (payload : Value) : Bool :=
  payload.getStr "op" = some "set_features" &&
    match payload.getStr "value" with
    | some v => (splitWhitespace v).contains "vault"
    | none => false

def ctxBoundsOk (ctx : VaultCtx) : Bool :=
  let n := ctx.holdersInGenesisOrder.length
  boundsOk ctx.m (if n < 256 then UInt8.ofNat n else 255)

def walkEnabled (state : CheckpointState) (ctx : VaultCtx) : Bool :=
  ctxBoundsOk ctx && (hasVault state.foundingFeatures ||
    (state.applied.filter fun g => g.1 == Surface.organization).any fun g =>
      g.2.any fun e => setsVault e.2)

end Molt.Vault
