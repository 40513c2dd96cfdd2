import Mathlib
import MoltRepublic.Lib.Shamir
import MoltRepublic.Vault.Ops

/-! The vault's sharing (`molt-vault`): a deposit is dealt by a polynomial over the scalars of
the group, each holder's share sealed to its founding key; a share is checked against the
commitments, a complaint decided from a reveal, and a reader combines what it was sent. -/

namespace Molt.Vault
open Molt.Core Text

abbrev Bytes := List UInt8

/-- What the vault takes from outside: HKDF, the scalars and points of the group (a point by its
exponent), what the dealing draws from its seed, HPKE, the AEAD and Ed25519 signing. -/
structure Primitives (p : ℕ) where
  hkdf : (ikm info : Bytes) → (length : Nat) → Bytes
  scalarWide : Bytes → ZMod p
  scalarBytes : ZMod p → Bytes
  scalarOf : Bytes → Option (ZMod p)
  coefficients : (seed : Bytes) → (count : Nat) → List (ZMod p)
  pointBytes : ZMod p → Bytes
  pointOf : Bytes → Option (ZMod p)
  keypair : (seed : Bytes) → Bytes × Bytes
  hpkeSeal : (pk plaintext aad ikm : Bytes) → Option Bytes
  hpkeOpen : (sk sealed aad : Bytes) → Option Bytes
  aeadEncrypt : (key nonce msg aad : Bytes) → Bytes
  aeadDecrypt : (key nonce ct aad : Bytes) → Option Bytes
  publicKey : (sk : Bytes) → Bytes
  sign : (sk msg : Bytes) → Bytes

def vaultPayloadMax : Nat := 102400

def payloadOverhead : Nat := 40

def shareCtLen : Nat := 80

def hexArray (s : String) (n : Nat) : Option Bytes := if Crypto.isHex s n then hexDecode s else none

def shareAad (secretId seat : String) : Bytes := layout "molt-vault-share-v1" [putStr secretId, putStr seat]

def ephInfo (secretId seat : String) : Bytes := layout "molt-vault-eph-v1" [putStr secretId, putStr seat]

def slotLayout (name republicId depositor label kind : String) : Bytes :=
  layout name [putStr republicId, putStr depositor, putStr label, putStr kind]

def payloadAad : (republicId depositor name kind : String) → Bytes := slotLayout "molt-vault-payload-v1"

def dekInfo : (republicId depositor name kind : String) → Bytes := slotLayout "molt-vault-dek-v1"

def dealInfo (republicId name kind nonce : String) : Bytes :=
  layout "molt-vault-deal-v1" [putStr republicId, putStr name, putStr kind, putStr nonce]

def secretScalarInfo : Bytes := layout "molt-vault-secret-scalar-v1" []

/-- `holders_of` with the positions and the founding keys: the name, x, `vault_pk` of every seat
but the depositor's. -/
def holderTable (ctx : VaultCtx) (depositor : String) : Except String (List (String × Nat × String)) :=
  if 255 < ctx.holdersInGenesisOrder.length then .error "bad threshold"
  else if depositor ∈ ctx.holdersInGenesisOrder.map Prod.fst then
    .ok (ctx.holdersInGenesisOrder.zipIdx.filterMap fun h =>
      if h.1.1 = depositor then none else some (h.1.1, h.2 + 1, h.1.2.2))
  else .error ("not a seat: " ++ depositor)

section

variable {p : ℕ} [Fact p.Prime] (C : Crypto) (P : Primitives p)

structure Dealt (p : ℕ) where
  s : ZMod p
  shares : List (Nat × Bytes)
  commitments : List Bytes

def secretFromSeed (seed : Bytes) : ZMod p := P.scalarWide (P.hkdf seed secretScalarInfo 64)

def dealtPolynomial (seed : Bytes) (m : UInt8) : List (ZMod p) :=
  secretFromSeed P seed :: P.coefficients seed (m.toNat - 1)

def deal (seed : Bytes) (m : UInt8) (xs : List Nat) : Except String (Dealt p) :=
  if m.toNat < 2 ∨ xs.length < m.toNat then .error "bad threshold"
  else if 0 ∈ xs ∨ ¬ xs.Nodup then .error "dealing failed"
  else .ok
    { s := secretFromSeed P seed
      shares := xs.map fun x => (x, P.scalarBytes (Shamir.evalAt (dealtPolynomial P seed m) (x : ZMod p)))
      commitments := (dealtPolynomial P seed m).map P.pointBytes }

def verifyShare (commitments : List Bytes) (x : Nat) (share : Bytes) : Bool :=
  match P.scalarOf share, commitments.mapM P.pointOf with
  | some v, some exponents => !commitments.isEmpty && x != 0 && Shamir.evalAt exponents (x : ZMod p) == v
  | _, _ => false

def firstOfEach (seen : List Nat) : List (Nat × Bytes) → List (Nat × Bytes)
  | [] => []
  | (x, share) :: rest =>
    if x = 0 ∨ x ∈ seen then firstOfEach seen rest else (x, share) :: firstOfEach (x :: seen) rest

def combine (m : UInt8) (shares : List (Nat × Bytes)) : Except String (ZMod p) :=
  let picked := ((firstOfEach [] shares).filterMap fun s =>
    (P.scalarOf s.2).map fun v => ((s.1 : ZMod p), v)).take m.toNat
  if m.toNat < 2 ∨ picked.length < m.toNat then .error "bad threshold" else .ok (Shamir.combine picked)

def sealShare (vaultPk : String) (share aad ikm : Bytes) : Except String Bytes :=
  match (hexArray vaultPk 32).bind fun pk => P.hpkeSeal pk share aad ikm with
  | none => .error "bad vault key"
  | some out => if out.length = shareCtLen then .ok out else .error "bad shape: hpke ciphertext"

def openShare (sk sealed aad : Bytes) : Option Bytes :=
  if sealed.length = shareCtLen then (P.hpkeOpen sk sealed aad).filter fun share => share.length == 32 else none

def dek (s : ZMod p) (info : Bytes) : Bytes := P.hkdf (P.scalarBytes s) info 32

def encryptPayload (key : Bytes) (text : String) (aad nonce : Bytes) : Except String Bytes :=
  if vaultPayloadMax < (utf8 text).length then .error "too large"
  else .ok (nonce ++ P.aeadEncrypt key nonce (utf8 text) aad)

def decryptPayload (key file aad : Bytes) : Except String String :=
  if file.length < payloadOverhead ∨ vaultPayloadMax + payloadOverhead < file.length then .error "does not open"
  else match (P.aeadDecrypt key (file.take 24) (file.drop 24) aad).bind fromUtf8 with
    | none => .error "does not open"
    | some text => .ok text

def openPayload (dep : VaultDeposit) (republicId : String) (s : ZMod p) (file : Bytes) : Except String String :=
  if hexEncode (C.sha256 file) ≠ dep.payload.hash ∨ file.length ≠ dep.payload.size.toNat then .error "does not open"
  else decryptPayload P (dek P s (dekInfo republicId dep.depositor dep.name dep.kind)) file
    (payloadAad republicId dep.depositor dep.name dep.kind)

structure DepositInput where
  republicId : String
  depositor : String
  name : String
  kind : String
  replaces : String
  text : String
  ctx : VaultCtx

/-- What `build_deposit` draws from its generator. -/
structure Drawn where
  nonce : Bytes
  aeadNonce : Bytes
  nonceLength : nonce.length = 16
  aeadNonceLength : aeadNonce.length = 24

def dealSeed (vaultSeed : Bytes) (republicId : String) (dep : VaultDeposit) : Bytes :=
  P.hkdf vaultSeed (dealInfo republicId dep.name dep.kind dep.nonce) 32

def eph (vaultSeed : Bytes) (secretId seat : String) : Bytes := P.hkdf vaultSeed (ephInfo secretId seat) 32

def commitmentsOf (dep : VaultDeposit) : Except String (List Bytes) :=
  dep.commitments.mapM fun c =>
    match hexArray c 32 with
    | some raw => .ok raw
    | none => .error (badShape "commitment")

def draft (input : DepositInput) (drawn : Drawn) (holders : List (String × Nat × String)) : VaultDeposit where
  depositor := input.depositor
  name := input.name
  kind := input.kind
  replaces := input.replaces
  m := input.ctx.m
  holders := holders.map Prod.fst
  commitments := []
  encShare := []
  payload := ⟨"", 0⟩
  nonce := hexEncode drawn.nonce
  sigDepositor := ""

def buildDeposit (input : DepositInput) (vaultSeed signingKey : Bytes) (drawn : Drawn) :
    Except String (VaultDeposit × Bytes) := do
  (checkVaultName input.name).mapError badLabel
  (checkVaultKind input.kind).mapError badLabel
  if vaultPayloadMax < (utf8 input.text).length then throw "too large"
  let holders ← holderTable input.ctx input.depositor
  let dep := draft input drawn holders
  let dealt ← deal P (dealSeed P vaultSeed input.republicId dep) dep.m (holders.map fun h => h.2.1)
  let dep := { dep with commitments := dealt.commitments.map hexEncode }
  let key := dek P dealt.s (dekInfo input.republicId input.depositor input.name input.kind)
  let file ← encryptPayload P key input.text
    (payloadAad input.republicId input.depositor input.name input.kind) drawn.aeadNonce
  let dep := { dep with payload := ⟨hexEncode (C.sha256 file), UInt64.ofNat file.length⟩ }
  let sid := secretId C input.republicId dep
  let sealed ← (holders.zip dealt.shares).mapM fun h =>
    sealShare P h.1.2.2 h.2.2 (shareAad sid h.1.1) (eph P vaultSeed sid h.1.1)
  let dep := { dep with encShare := sealed.map hexEncode }
  let dep := { dep with sigDepositor := hexEncode (P.sign signingKey (depositSigningBytes input.republicId dep)) }
  return (dep, file)

inductive ShareFault where
  | notAHolder
  | doesNotOpen
  | failsFeldman
  deriving DecidableEq

def checkMyShare (dep : VaultDeposit) (republicId : String) (ctx : VaultCtx) (myName : String) (vaultSk : Bytes) :
    Except ShareFault Bytes :=
  match holderTable ctx dep.depositor with
  | .error _ => .error .notAHolder
  | .ok holders =>
    match holders.find? fun h => h.1 == myName, dep.holders.findIdx? fun h => h == myName with
    | some (_, x, _), some i =>
      match ((dep.encShare[i]?).bind fun e => hexArray e shareCtLen).bind fun sealed =>
          openShare P vaultSk sealed (shareAad (secretId C republicId dep) myName) with
      | none => .error .doesNotOpen
      | some share =>
        match commitmentsOf dep with
        | .error _ => .error .failsFeldman
        | .ok commitments => if verifyShare P commitments x share then .ok share else .error .failsFeldman
    | _, _ => .error .notAHolder

def rederiveShare (dep : VaultDeposit) (republicId : String) (ctx : VaultCtx) (vaultSeed : Bytes) (holder : String) :
    Except String (Bytes × Bytes) := do
  let holders ← holderTable ctx dep.depositor
  match holders.findIdx? fun h => h.1 == holder with
  | none => throw ("not a seat: " ++ holder)
  | some i =>
    let dealt ← deal P (dealSeed P vaultSeed republicId dep) dep.m (holders.map fun h => h.2.1)
    if dealt.commitments.map hexEncode ≠ dep.commitments then throw "wrong seed"
    match dealt.shares[i]? with
    | none => throw "wrong seed"
    | some (_, share) => return (share, eph P vaultSeed (secretId C republicId dep) holder)

inductive VaultRevealOutcome where
  | lie
  | badShare
  | falseComplaint
  deriving DecidableEq

/-- `complaint::decide`. -/
def decideComplaint (dep : VaultDeposit) (republicId : String) (ctx : VaultCtx) (holder : String)
    (share ikm : Bytes) : Except String VaultRevealOutcome := do
  verifyDepositShape C dep ctx
  let holders ← holderTable ctx dep.depositor
  match holders.findIdx? fun h => h.1 == holder, holders.find? fun h => h.1 == holder with
  | some i, some (_, x, vaultPk) =>
    match dep.encShare[i]? with
    | none => throw (badShape "enc_share")
    | some recorded =>
      let again ← sealShare P vaultPk share (shareAad (secretId C republicId dep) holder) ikm
      if hexEncode again ≠ recorded then return .lie
      let commitments ← commitmentsOf dep
      return if verifyShare P commitments x share then .falseComplaint else .badShare
  | _, _ => throw ("not a seat: " ++ holder)

structure SeatShare where
  seat : String
  x : Nat
  share : Bytes
  deriving DecidableEq

structure Opened where
  text : String
  badSeats : List String
  deriving DecidableEq

structure ReadFault where
  badSeats : List String
  held : Nat
  need : UInt8
  payload : Bool
  record : Bool
  deriving DecidableEq

def sortShare (commitments : List Bytes) (acc : List (Nat × Bytes) × List String) (s : SeatShare) :
    List (Nat × Bytes) × List String :=
  if verifyShare P commitments s.x s.share then
    if acc.1.any fun g => g.1 == s.x then acc else (acc.1 ++ [(s.x, s.share)], acc.2)
  else if s.seat ∈ acc.2 then acc else (acc.1, acc.2 ++ [s.seat])

def read (dep : VaultDeposit) (republicId : String) (shares : List SeatShare) (payloadFile : Bytes) :
    Except ReadFault Opened :=
  match commitmentsOf dep with
  | .error _ => .error ⟨[], 0, dep.m, false, true⟩
  | .ok commitments =>
    let sorted := shares.foldl (sortShare P commitments) ([], [])
    let fault := fun payload => ReadFault.mk sorted.2 (min sorted.1.length 255) dep.m payload false
    match combine P dep.m sorted.1 with
    | .error _ => .error (fault false)
    | .ok s =>
      if dep.commitments.head? ≠ some (hexEncode (P.pointBytes s)) then .error (fault false)
      else match openPayload C P dep republicId s payloadFile with
        | .error _ => .error (fault true)
        | .ok text => .ok ⟨text, sorted.2⟩

end

end Molt.Vault
