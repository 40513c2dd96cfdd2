import Mathlib
import MoltRepublic.Core.Bytes

/-! The cryptographic functions, taken as given, and what the chain builds from them. -/

namespace Molt.Core
open Text Framing

/-- The primitives of the `sha2`, `ed25519-dalek`, `secp256k1`, `curve25519-dalek` and
`hpke` crates. -/
structure Crypto where
  sha256 : List UInt8 → List UInt8
  /-- `VerifyingKey::from_bytes` and `verify_strict` on a 32-byte key and a 64-byte
  signature. -/
  ed25519Verify : (key message signature : List UInt8) → Bool
  xOnlyKey : List UInt8 → Option (List UInt8)
  isPoint : List UInt8 → Bool
  hpkeSeals : List UInt8 → Bool

namespace Crypto

variable (C : Crypto)

def contentHash (bytes : List UInt8) : String := hexEncode (C.sha256 bytes)

def decodeKey (pkHex : String) : Option (List UInt8) :=
  (hexDecode pkHex).filter fun pk => pk.length == 32

/-- `identity_verify`: false on any malformed input. -/
def identityVerify (pkHex : String) (msg : List UInt8) (sigHex : String) : Bool :=
  match decodeKey pkHex, hexDecode sigHex with
  | some pk, some sig => sig.length == 64 && C.ed25519Verify pk msg sig
  | _, _ => false

def republicId (name : String) (ruleM ruleN : UInt8) (identities : List MemberIdentity) : String :=
  C.contentHash (republicIdBytes name ruleM ruleN identities)

def blockHash (republicId : String) (b : ChainBlock) : String :=
  C.contentHash (blockLinkBytes republicId b)

def checkpointStateHash (s : CheckpointState) : String :=
  C.contentHash (checkpointCanonicalBytes s)

def canonicalNostrPk (candidate : String) : Except String String :=
  let len := (utf8 candidate).length
  if len ≠ 64 then .error s!"crypto: nostr anchor must be 64 hex chars, got {len}"
  else match hexDecode candidate with
    | none => .error "crypto: nostr anchor is not hex"
    | some raw =>
      match C.xOnlyKey raw with
      | none => .error "crypto: nostr anchor is not a valid x-only key"
      | some parsed => .ok (hexEncode parsed)

def isHex (s : String) (bytes : Nat) : Bool :=
  (utf8 s).length == bytes * 2 && (utf8 s).all isLowerHexdigit

def fieldPrime : List UInt8 := 0xed :: List.replicate 30 0xff ++ [0x7f]

def lessFromTop : List UInt8 → List UInt8 → Bool
  | [], _ => false
  | _, [] => false
  | a :: as, b :: bs => if as = bs then a < b else lessFromTop as bs

/-- `canonical_vault_pk`, as the test it is used for. -/
def canonicalVaultPk (s : String) : Bool :=
  isHex s 32 &&
    match hexDecode s with
    | some raw => lessFromTop raw fieldPrime && C.hpkeSeals raw
    | none => false

def toyDigest (bytes : List UInt8) : List UInt8 :=
  leBytes 32 (bytes.foldl (fun acc b => (acc * 257 + b.toNat + 1) % (2 ^ 61 - 1)) 7)

def toy : Crypto where
  sha256 := toyDigest
  ed25519Verify key msg sig := sig == key ++ toyDigest msg
  xOnlyKey raw := some raw
  isPoint _ := true
  hpkeSeals _ := true

def toySign (key msg : List UInt8) : String := hexEncode (key ++ toyDigest msg)

end Crypto

end Molt.Core
