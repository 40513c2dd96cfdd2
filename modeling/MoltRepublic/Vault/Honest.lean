import Mathlib
import MoltRepublic.Lib.Check
import MoltRepublic.Vault.Sharing

/-! An honest deposit: what `build_deposit` returns passes every check made of it, and a reader
gets the text from the shares of any threshold of holders, whatever else it was sent. -/

namespace Molt.Vault
open Molt.Core Text Check List

theorem isHex_hexEncode (bs : List UInt8) : Crypto.isHex (hexEncode bs) bs.length = true := by
  have hlen := hexDecodeBytes_length (hexDecode_hexEncode bs)
  unfold Crypto.isHex
  rw [hlen, hexEncode_all_lower]
  simp

theorem hexArray_hexEncode (bs : Bytes) : hexArray (hexEncode bs) bs.length = some bs := by
  unfold hexArray
  rw [if_pos (isHex_hexEncode bs), hexDecode_hexEncode]

/-- Seat `name` holds a share at `x`, its place in the founding table, under `vaultPk`. -/
def Holds (ctx : VaultCtx) (depositor name : String) (x : Nat) (vaultPk : String) : Prop :=
  name ≠ depositor ∧ ∃ i identityPk, x = i + 1 ∧ ctx.holdersInGenesisOrder[i]? = some (name, identityPk, vaultPk)

section

variable {ctx : VaultCtx} {depositor : String} {holders : List (String × Nat × String)}

theorem holderTable_eq (h : holderTable ctx depositor = .ok holders) :
    ctx.holdersInGenesisOrder.length ≤ 255 ∧ depositor ∈ ctx.holdersInGenesisOrder.map Prod.fst ∧
      holders = ctx.holdersInGenesisOrder.zipIdx.filterMap fun h =>
        if h.1.1 = depositor then none else some (h.1.1, h.2 + 1, h.1.2.2) := by
  unfold holderTable at h
  split_ifs at h with hlen hmem
  exact ⟨Nat.le_of_not_lt hlen, hmem, (Except.ok.inj h).symm⟩

theorem mem_holderTable (h : holderTable ctx depositor = .ok holders) {name : String} {x : Nat}
    {vaultPk : String} : (name, x, vaultPk) ∈ holders ↔ Holds ctx depositor name x vaultPk := by
  obtain ⟨-, -, rfl⟩ := holderTable_eq h
  simp only [mem_filterMap, Option.ite_none_left_eq_some, Option.some.injEq, Prod.mk.injEq,
    Holds, Prod.exists, mem_zipIdx_iff_getElem?]
  constructor
  · rintro ⟨seat, identityPk, pk, i, hi, hne, rfl, rfl, rfl⟩
    exact ⟨hne, i, identityPk, rfl, hi⟩
  · rintro ⟨hne, i, identityPk, rfl, hi⟩
    exact ⟨name, identityPk, vaultPk, i, hi, hne, rfl, rfl, rfl⟩

theorem Holds.range {name : String} {x : Nat} {vaultPk : String} (h : Holds ctx depositor name x vaultPk) :
    0 < x ∧ x ≤ ctx.holdersInGenesisOrder.length := by
  obtain ⟨-, i, _, rfl, hi⟩ := h
  exact ⟨Nat.succ_pos i, (List.getElem?_eq_some_iff.mp hi).1⟩

theorem Holds.name_eq {n₁ n₂ : String} {x : Nat} {pk₁ pk₂ : String} (h₁ : Holds ctx depositor n₁ x pk₁)
    (h₂ : Holds ctx depositor n₂ x pk₂) : n₁ = n₂ := by
  obtain ⟨-, i, _, rfl, hi⟩ := h₁
  obtain ⟨-, j, _, hij, hj⟩ := h₂
  obtain rfl : i = j := Nat.succ.inj hij
  rw [hi] at hj
  exact congrArg Prod.fst (Option.some.inj hj)

theorem Holds.position_eq (hnodup : (ctx.holdersInGenesisOrder.map Prod.fst).Nodup) {name : String}
    {x₁ x₂ : Nat} {pk₁ pk₂ : String} (h₁ : Holds ctx depositor name x₁ pk₁)
    (h₂ : Holds ctx depositor name x₂ pk₂) : x₁ = x₂ := by
  obtain ⟨-, i, _, rfl, hi⟩ := h₁
  obtain ⟨-, j, _, rfl, hj⟩ := h₂
  have hname : ∀ {k : Nat} {e : String × String}, ctx.holdersInGenesisOrder[k]? = some (name, e) →
      (ctx.holdersInGenesisOrder.map Prod.fst)[k]? = some name := by
    intro k e hk
    rw [getElem?_map, hk]
    rfl
  have hlt : i < (ctx.holdersInGenesisOrder.map Prod.fst).length :=
    (List.getElem?_eq_some_iff.mp (hname hi)).1
  have hij := (getElem?_inj hlt hnodup).mp ((hname hi).trans (hname hj).symm)
  rw [hij]

theorem names_filterMap (l : List (String × String × String)) (k : Nat) :
    ((l.zipIdx k).filterMap fun h =>
      if h.1.1 = depositor then none else some (h.1.1, h.2 + 1, h.1.2.2)).map Prod.fst =
      (l.map Prod.fst).filter (· ≠ depositor) := by
  induction l generalizing k with
  | nil => rfl
  | cons e l ih =>
    by_cases he : e.1 = depositor
    all_goals simpa [he] using ih (k + 1)

theorem holdersOf_eq (h : holderTable ctx depositor = .ok holders) :
    holdersOf ctx depositor = .ok (holders.map Prod.fst) := by
  obtain ⟨hlen, hmem, rfl⟩ := holderTable_eq h
  unfold holdersOf
  have hshort : ¬ (ctx.holdersInGenesisOrder.map fun h => h.1).length > 255 := by
    rw [length_map]
    omega
  rw [names_filterMap]
  simp only [if_neg hshort]
  have hcontains : (ctx.holdersInGenesisOrder.map fun h => h.1).contains depositor = true := by
    rw [contains_iff_mem]
    exact hmem
  simp only [hcontains, if_true]
  rfl

theorem names_nodup (hnodup : (ctx.holdersInGenesisOrder.map Prod.fst).Nodup)
    (h : holderTable ctx depositor = .ok holders) : (holders.map Prod.fst).Nodup := by
  obtain ⟨-, -, rfl⟩ := holderTable_eq h
  rw [names_filterMap]
  exact hnodup.filter _

theorem locate (hnames : (holders.map Prod.fst).Nodup) {i : Nat} {name : String} {x : Nat} {vaultPk : String}
    (hi : holders[i]? = some (name, x, vaultPk)) :
    (holders.findIdx? fun h => h.1 == name) = some i ∧
      (holders.find? fun h => h.1 == name) = some (name, x, vaultPk) := by
  obtain ⟨hlt, hget⟩ := List.getElem?_eq_some_iff.mp hi
  have hbefore : ∀ j (hj : j < i), ¬ (holders[j].1 == name) = true := by
    intro j hj hname
    have hlt' : i < (holders.map Prod.fst).length := by simpa using hlt
    have hsame : (holders.map Prod.fst)[i]? = (holders.map Prod.fst)[j]? := by
      rw [getElem?_map, getElem?_map, hi, getElem?_eq_getElem (hj.trans hlt)]
      simpa using (beq_iff_eq.mp hname).symm
    exact absurd ((getElem?_inj hlt' hnames).mp hsame) hj.ne'
  constructor
  · exact findIdx?_eq_some_iff_getElem.mpr ⟨hlt, by simp [hget], hbefore⟩
  · exact find?_eq_some_iff_getElem.mpr ⟨by simp, i, hlt, hget, fun j hj => by simpa using hbefore j hj⟩

end

section

variable {p : ℕ} [Fact p.Prime] {C : Crypto} {P : Primitives p} {input : DepositInput}
  {vaultSeed signingKey : Bytes} {drawn : Drawn} {dep : VaultDeposit} {file : Bytes}

def dealtShare (P : Primitives p) (vaultSeed : Bytes) (republicId : String) (dep : VaultDeposit) (x : Nat) : Bytes :=
  P.scalarBytes (Shamir.evalAt (dealtPolynomial P (dealSeed P vaultSeed republicId dep) dep.m) (x : ZMod p))

/-- What stands in a record `build_deposit` returned, and in its payload file. -/
structure Built (C : Crypto) (P : Primitives p) (input : DepositInput) (vaultSeed signingKey : Bytes)
    (drawn : Drawn) (holders : List (String × Nat × String)) (dep : VaultDeposit) (file : Bytes) : Prop where
  name : checkVaultName dep.name = .ok ()
  kind : checkVaultKind dep.kind = .ok ()
  table : holderTable input.ctx dep.depositor = .ok holders
  threshold : dep.m = input.ctx.m
  two_le : 2 ≤ dep.m.toNat
  le_holders : dep.m.toNat ≤ holders.length
  zero_not_mem : 0 ∉ holders.map fun h => h.2.1
  distinct : (holders.map fun h => h.2.1).Nodup
  replaces : dep.replaces = input.replaces
  names : dep.holders = holders.map Prod.fst
  commitments : dep.commitments =
    ((dealtPolynomial P (dealSeed P vaultSeed input.republicId dep) dep.m).map P.pointBytes).map hexEncode
  short : (utf8 input.text).length ≤ vaultPayloadMax
  payloadFile : file = drawn.aeadNonce ++ P.aeadEncrypt
    (dek P (secretFromSeed P (dealSeed P vaultSeed input.republicId dep))
      (dekInfo input.republicId dep.depositor dep.name dep.kind))
    drawn.aeadNonce (utf8 input.text) (payloadAad input.republicId dep.depositor dep.name dep.kind)
  payload : dep.payload = ⟨hexEncode (C.sha256 file), UInt64.ofNat file.length⟩
  encShare_length : dep.encShare.length = holders.length
  encShare : ∀ (i : Nat) name x vaultPk, holders[i]? = some (name, x, vaultPk) →
    ∃ sealed, dep.encShare[i]? = some (hexEncode sealed) ∧
      sealShare P vaultPk (dealtShare P vaultSeed input.republicId dep x)
        (shareAad (secretId C input.republicId dep) name)
        (eph P vaultSeed (secretId C input.republicId dep) name) = .ok sealed
  nonce : dep.nonce = hexEncode drawn.nonce
  sig : dep.sigDepositor = hexEncode (P.sign signingKey (depositSigningBytes input.republicId dep))

theorem deal_cases {seed : Bytes} {m : UInt8} {xs : List Nat} {dealt : Dealt p} (h : deal P seed m xs = .ok dealt) :
    2 ≤ m.toNat ∧ m.toNat ≤ xs.length ∧ 0 ∉ xs ∧ xs.Nodup ∧ dealt =
      { s := secretFromSeed P seed
        shares := xs.map fun x => (x, P.scalarBytes (Shamir.evalAt (dealtPolynomial P seed m) (x : ZMod p)))
        commitments := (dealtPolynomial P seed m).map P.pointBytes } := by
  unfold deal at h
  split_ifs at h with hm hxs
  rw [not_or, not_lt, not_lt] at hm
  rw [not_or, not_not] at hxs
  exact ⟨hm.1, hm.2, hxs.1, hxs.2, (Except.ok.inj h).symm⟩

omit [Fact p.Prime] in
theorem encryptPayload_cases {key : Bytes} {text : String} {aad nonce : Bytes}
    (h : encryptPayload P key text aad nonce = .ok file) :
    (utf8 text).length ≤ vaultPayloadMax ∧ file = nonce ++ P.aeadEncrypt key nonce (utf8 text) aad := by
  unfold encryptPayload at h
  split_ifs at h with hlarge
  exact ⟨not_lt.mp hlarge, (Except.ok.inj h).symm⟩

theorem buildDeposit_cases (h : buildDeposit C P input vaultSeed signingKey drawn = .ok (dep, file)) :
    dep.depositor = input.depositor ∧ ∃ holders, Built C P input vaultSeed signingKey drawn holders dep file := by
  obtain ⟨⟨⟩, hname, h⟩ := bind_eq_ok.mp h
  obtain ⟨⟨⟩, hkind, h⟩ := bind_eq_ok.mp h
  split_ifs at h with hlarge
  · cases h
  simp only [bind_eq_ok] at h
  obtain ⟨holders, htable, dealt, hdealt, file', hfile, sealed, hsealed, h⟩ := h
  cases pure_eq_ok.mp h
  obtain ⟨hm, hle, hzero, hdistinct, rfl⟩ := deal_cases hdealt
  obtain ⟨hshort, hfile⟩ := encryptPayload_cases hfile
  obtain ⟨hlen, hat⟩ := mapM_eq_ok_getElem hsealed
  rw [length_map] at hle
  refine ⟨rfl, holders, ?_⟩
  constructor
  case name => exact mapError_eq_ok.mp hname
  case kind => exact mapError_eq_ok.mp hkind
  case table => exact htable
  case threshold => rfl
  case two_le => exact hm
  case le_holders => exact hle
  case zero_not_mem => exact hzero
  case distinct => exact hdistinct
  case replaces => rfl
  case names => rfl
  case commitments => rfl
  case short => exact hshort
  case payloadFile => exact hfile
  case payload => rfl
  case encShare_length => simpa using hlen
  case encShare =>
    intro i name x vaultPk hi
    have hzip : (holders.zip ((holders.map fun h => h.2.1).map fun x : Nat =>
        (x, dealtShare P vaultSeed input.republicId (draft input drawn holders) x)))[i]? =
        some ((name, x, vaultPk), (x, dealtShare P vaultSeed input.republicId (draft input drawn holders) x)) := by
      rw [getElem?_zip_eq_some]
      refine ⟨hi, ?_⟩
      rw [getElem?_map, getElem?_map, hi]
      rfl
    obtain ⟨ct, hct, hget⟩ := hat i _ hzip
    refine ⟨ct, ?_, hct⟩
    rw [getElem?_map, hget]
    rfl
  case nonce => rfl
  case sig => rfl

/-- What the vault relies on of the primitives: canonical encodings, HPKE and the AEAD that open
what they sealed, signatures that verify, and more scalars than seats. -/
structure Ideal (C : Crypto) (P : Primitives p) : Prop where
  seats_lt : 255 < p
  scalarOf_scalarBytes : ∀ v, P.scalarOf (P.scalarBytes v) = some v
  scalarOf_canonical : ∀ raw v, P.scalarOf raw = some v → raw = P.scalarBytes v
  scalarBytes_length : ∀ v, (P.scalarBytes v).length = 32
  pointOf_pointBytes : ∀ a, P.pointOf (P.pointBytes a) = some a
  pointBytes_length : ∀ a, (P.pointBytes a).length = 32
  isPoint_pointBytes : ∀ a, C.isPoint (P.pointBytes a) = true
  coefficients_length : ∀ seed count, (P.coefficients seed count).length = count
  hpke_opens : ∀ seed plaintext aad ikm sealed, P.hpkeSeal (P.keypair seed).2 plaintext aad ikm = some sealed →
    P.hpkeOpen (P.keypair seed).1 sealed aad = some plaintext
  keypair_length : ∀ seed, (P.keypair seed).2.length = 32
  aead_opens : ∀ key nonce msg aad, P.aeadDecrypt key nonce (P.aeadEncrypt key nonce msg aad) aad = some msg
  aead_length : ∀ key nonce msg aad, (P.aeadEncrypt key nonce msg aad).length = msg.length + 16
  sign_verifies : ∀ sk msg, C.ed25519Verify (P.publicKey sk) msg (P.sign sk msg) = true
  sign_length : ∀ sk msg, (P.sign sk msg).length = 64
  publicKey_length : ∀ sk, (P.publicKey sk).length = 32
  sha256_length : ∀ bytes, (C.sha256 bytes).length = 32

variable {holders : List (String × Nat × String)}

omit [Fact p.Prime] in
theorem sealShare_cases {vaultPk : String} {share aad ikm sealed : Bytes}
    (h : sealShare P vaultPk share aad ikm = .ok sealed) :
    sealed.length = shareCtLen ∧ ∃ pk, hexArray vaultPk 32 = some pk ∧ P.hpkeSeal pk share aad ikm = some sealed := by
  unfold sealShare at h
  split at h
  · cases h
  · next out hout =>
    split_ifs at h with hlen
    cases h
    exact ⟨hlen, Option.bind_eq_some_iff.mp hout⟩

theorem Built.file_length (laws : Ideal C P) (b : Built C P input vaultSeed signingKey drawn holders dep file) :
    file.length = (utf8 input.text).length + payloadOverhead := by
  rw [b.payloadFile, length_append, drawn.aeadNonceLength, laws.aead_length]
  unfold payloadOverhead
  omega

theorem Built.size_toNat (laws : Ideal C P) (b : Built C P input vaultSeed signingKey drawn holders dep file) :
    dep.payload.size.toNat = file.length := by
  have hlen := b.file_length laws
  have hshort := b.short
  unfold vaultPayloadMax at hshort
  unfold payloadOverhead at hlen
  rw [b.payload]
  exact UInt64.toNat_ofNat_of_lt' (lt_of_le_of_lt (b := 102440) (by omega) (by decide))

theorem Built.commitmentsOf_eq (laws : Ideal C P) (b : Built C P input vaultSeed signingKey drawn holders dep file) :
    commitmentsOf dep =
      .ok ((dealtPolynomial P (dealSeed P vaultSeed input.republicId dep) dep.m).map P.pointBytes) := by
  unfold commitmentsOf
  rw [b.commitments]
  generalize dealtPolynomial P (dealSeed P vaultSeed input.republicId dep) dep.m = poly
  induction poly with
  | nil => rfl
  | cons a poly ih =>
    have hread : hexArray (hexEncode (P.pointBytes a)) 32 = some (P.pointBytes a) := by
      have h := hexArray_hexEncode (P.pointBytes a)
      rwa [laws.pointBytes_length] at h
    rw [map_cons, map_cons, mapM_cons, ih, hread]
    rfl

theorem Built.encShare_isHex (b : Built C P input vaultSeed signingKey drawn holders dep file) {e : String}
    (he : e ∈ dep.encShare) : Crypto.isHex e 80 = true := by
  obtain ⟨i, hi⟩ := mem_iff_getElem?.mp he
  have hlt : i < holders.length := by
    rw [← b.encShare_length]
    exact (List.getElem?_eq_some_iff.mp hi).1
  obtain ⟨sealed, hget, hseal⟩ := b.encShare i _ _ _ (getElem?_eq_getElem hlt)
  obtain ⟨hlen, -⟩ := sealShare_cases hseal
  rw [hi] at hget
  have hhex := isHex_hexEncode sealed
  rw [hlen] at hhex
  rw [Option.some.inj hget]
  exact hhex

theorem Built.shape (laws : Ideal C P) (b : Built C P input vaultSeed signingKey drawn holders dep file)
    (hreplaces : input.replaces = "" ∨ ∃ earlier, input.replaces = secretId C input.republicId earlier) :
    verifyDepositShape C dep input.ctx = .ok () := by
  have hcount : dep.commitments.length = dep.m.toNat := by
    have htwo := b.two_le
    rw [b.commitments, length_map, length_map, dealtPolynomial, length_cons, laws.coefficients_length]
    omega
  have hpoints : (dep.commitments.any fun c => !(Crypto.isHex c 32 && (hexDecode c).any C.isPoint)) = false := by
    rw [any_eq_false]
    intro c hc
    rw [b.commitments, map_map] at hc
    obtain ⟨a, -, rfl⟩ := mem_map.mp hc
    have hhex := isHex_hexEncode (P.pointBytes a)
    rw [laws.pointBytes_length] at hhex
    simp [hhex, hexDecode_hexEncode, laws.isPoint_pointBytes]
  have hshares : (dep.encShare.any fun e => !Crypto.isHex e 80) = false := by
    rw [any_eq_false]
    intro e he
    simp [b.encShare_isHex he]
  have hhash : Crypto.isHex dep.payload.hash 32 = true := by
    have hhex := isHex_hexEncode (C.sha256 file)
    rw [laws.sha256_length] at hhex
    rw [b.payload]
    exact hhex
  have hsize : (decide (dep.payload.size < 40) || decide (dep.payload.size > 102440)) = false := by
    have htoNat := b.size_toNat laws
    have hlen := b.file_length laws
    have hshort := b.short
    unfold vaultPayloadMax at hshort
    unfold payloadOverhead at hlen
    simp only [Bool.or_eq_false_iff, decide_eq_false_iff_not, gt_iff_lt, UInt64.lt_iff_toNat_lt, htoNat]
    constructor
    · simp
      omega
    · simp
      omega
  have hprior : (decide (dep.replaces ≠ "") && !Crypto.isHex dep.replaces 32) = false := by
    rw [b.replaces]
    rcases hreplaces with h | ⟨earlier, h⟩
    · simp [h]
    · have hhex := isHex_hexEncode (C.sha256 (secretIdBytes input.republicId earlier))
      rw [laws.sha256_length] at hhex
      rw [h]
      simp [secretId, Crypto.contentHash, hhex]
  have hnonce : Crypto.isHex dep.nonce 16 = true := by
    have hhex := isHex_hexEncode drawn.nonce
    rw [drawn.nonceLength] at hhex
    rw [b.nonce]
    exact hhex
  have hsig : Crypto.isHex dep.sigDepositor 64 = true := by
    have hhex := isHex_hexEncode (P.sign signingKey (depositSigningBytes input.republicId dep))
    rw [laws.sign_length] at hhex
    rw [b.sig]
    exact hhex
  unfold verifyDepositShape
  rw [b.name, b.kind, holdersOf_eq b.table]
  simp only [Except.mapError, bind, Except.bind, b.threshold, b.names, b.encShare_length, hpoints, hshares, hhash, hsize,
    hprior, hnonce, hsig]
  rw [b.threshold] at hcount
  simp [hcount]
  rfl

theorem Built.signature (laws : Ideal C P) (b : Built C P input vaultSeed signingKey drawn holders dep file) :
    verifyDepositSig C dep input.republicId (hexEncode (P.publicKey signingKey)) = .ok () := by
  have hpk := isHex_hexEncode (P.publicKey signingKey)
  rw [laws.publicKey_length] at hpk
  have hsig := isHex_hexEncode (P.sign signingKey (depositSigningBytes input.republicId dep))
  rw [laws.sign_length] at hsig
  have hverify : C.identityVerify (hexEncode (P.publicKey signingKey)) (depositSigningBytes input.republicId dep)
      (hexEncode (P.sign signingKey (depositSigningBytes input.republicId dep))) = true := by
    simp [Crypto.identityVerify, Crypto.decodeKey, hexDecode_hexEncode, Option.filter, laws.publicKey_length,
      laws.sign_length, laws.sign_verifies]
  unfold verifyDepositSig
  rw [b.sig, hpk, hsig, hverify]
  rfl

omit [Fact p.Prime] in
theorem mapM_pointOf (laws : Ideal C P) (poly : List (ZMod p)) : (poly.map P.pointBytes).mapM P.pointOf = some poly := by
  induction poly with
  | nil => rfl
  | cons a poly ih =>
    rw [map_cons, mapM_cons, ih, laws.pointOf_pointBytes]
    rfl

theorem verifyShare_iff (laws : Ideal C P) {poly : List (ZMod p)} (hpoly : poly ≠ []) {x : Nat} (hx : x ≠ 0)
    {share : Bytes} : verifyShare P (poly.map P.pointBytes) x share = true ↔
      share = P.scalarBytes (Shamir.evalAt poly (x : ZMod p)) := by
  unfold verifyShare
  rw [mapM_pointOf laws]
  constructor
  · intro h
    cases hv : P.scalarOf share with
    | none => simp [hv] at h
    | some v =>
      have heq : Shamir.evalAt poly (x : ZMod p) = v := by simpa [hv, hpoly, hx] using h
      rw [heq]
      exact laws.scalarOf_canonical share v hv
  · rintro rfl
    simp [laws.scalarOf_scalarBytes, hpoly, hx]

variable {name vaultPk : String} {x : Nat}

theorem verifyShare_dealt_iff (laws : Ideal C P) {republicId : String} (hx : x ≠ 0) {share : Bytes} :
    verifyShare P ((dealtPolynomial P (dealSeed P vaultSeed republicId dep) dep.m).map P.pointBytes) x share =
      true ↔ share = dealtShare P vaultSeed republicId dep x :=
  verifyShare_iff laws (cons_ne_nil _ _) hx

theorem Built.row (hnodup : (input.ctx.holdersInGenesisOrder.map Prod.fst).Nodup)
    (b : Built C P input vaultSeed signingKey drawn holders dep file)
    (hholds : Holds input.ctx dep.depositor name x vaultPk) :
    ∃ i : Nat, holders[i]? = some (name, x, vaultPk) ∧ (holders.findIdx? fun h => h.1 == name) = some i ∧
      (holders.find? fun h => h.1 == name) = some (name, x, vaultPk) := by
  obtain ⟨i, hi⟩ := mem_iff_getElem?.mp ((mem_holderTable b.table).mpr hholds)
  exact ⟨i, hi, locate (names_nodup hnodup b.table) hi⟩

theorem Built.checkMyShare_eq (laws : Ideal C P) (hnodup : (input.ctx.holdersInGenesisOrder.map Prod.fst).Nodup)
    (b : Built C P input vaultSeed signingKey drawn holders dep file) {seed : Bytes}
    (hholds : Holds input.ctx dep.depositor name x (hexEncode (P.keypair seed).2)) :
    checkMyShare C P dep input.republicId input.ctx name (P.keypair seed).1 =
      .ok (dealtShare P vaultSeed input.republicId dep x) := by
  obtain ⟨i, hi, hidx, hfind⟩ := b.row hnodup hholds
  obtain ⟨sealed, hget, hseal⟩ := b.encShare i _ _ _ hi
  obtain ⟨hlen, pk, hpk, hhpke⟩ := sealShare_cases hseal
  have hkey := hexArray_hexEncode (P.keypair seed).2
  rw [laws.keypair_length, hpk] at hkey
  cases Option.some.inj hkey
  have hposition : (dep.holders.findIdx? fun h => h == name) = some i := by
    rw [b.names, findIdx?_map]
    exact hidx
  have hbytes := hexArray_hexEncode sealed
  rw [hlen] at hbytes
  have hopen : openShare P (P.keypair seed).1 sealed (shareAad (secretId C input.republicId dep) name) =
      some (dealtShare P vaultSeed input.republicId dep x) := by
    unfold openShare
    rw [if_pos hlen, laws.hpke_opens _ _ _ _ _ hhpke]
    simp [dealtShare, laws.scalarBytes_length]
  unfold checkMyShare
  simp only [b.table, hfind, hposition, hget, Option.bind_some, hbytes, hopen, b.commitmentsOf_eq laws]
  rw [if_pos ((verifyShare_dealt_iff laws hholds.range.1.ne').mpr rfl)]

theorem Built.rederiveShare_eq (hnodup : (input.ctx.holdersInGenesisOrder.map Prod.fst).Nodup)
    (b : Built C P input vaultSeed signingKey drawn holders dep file)
    (hholds : Holds input.ctx dep.depositor name x vaultPk) :
    rederiveShare C P dep input.republicId input.ctx vaultSeed name =
      .ok (dealtShare P vaultSeed input.republicId dep x, eph P vaultSeed (secretId C input.republicId dep) name) := by
  obtain ⟨i, hi, hidx, -⟩ := b.row hnodup hholds
  have hdeal : ¬ (dep.m.toNat < 2 ∨ (holders.map fun h => h.2.1).length < dep.m.toNat) := by
    rw [length_map, not_or, not_lt, not_lt]
    exact ⟨b.two_le, b.le_holders⟩
  have hxs : ¬ (0 ∈ (holders.map fun h => h.2.1) ∨ ¬ (holders.map fun h => h.2.1).Nodup) := by
    rw [not_or, not_not]
    exact ⟨b.zero_not_mem, b.distinct⟩
  unfold rederiveShare deal
  simp only [b.table, bind, Except.bind, hidx, if_neg hdeal, if_neg hxs]
  rw [if_neg (not_not.mpr b.commitments.symm)]
  simp only [getElem?_map, hi, Option.map_some]
  rfl

theorem Built.decideComplaint_eq (laws : Ideal C P) (hnodup : (input.ctx.holdersInGenesisOrder.map Prod.fst).Nodup)
    (b : Built C P input vaultSeed signingKey drawn holders dep file)
    (hshape : verifyDepositShape C dep input.ctx = .ok ())
    (hholds : Holds input.ctx dep.depositor name x vaultPk) :
    decideComplaint C P dep input.republicId input.ctx name (dealtShare P vaultSeed input.republicId dep x)
      (eph P vaultSeed (secretId C input.republicId dep) name) = .ok .falseComplaint := by
  obtain ⟨i, hi, hidx, hfind⟩ := b.row hnodup hholds
  obtain ⟨sealed, hget, hseal⟩ := b.encShare i _ _ _ hi
  unfold decideComplaint
  simp only [hshape, b.table, bind, Except.bind, hidx, hfind, hget, hseal, b.commitmentsOf_eq laws]
  rw [if_neg (not_not.mpr rfl), if_pos ((verifyShare_dealt_iff laws hholds.range.1.ne').mpr rfl)]
  rfl

end

end Molt.Vault
