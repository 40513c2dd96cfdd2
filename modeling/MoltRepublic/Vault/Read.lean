import Mathlib
import MoltRepublic.Vault.Honest

/-! Reading an honest deposit: the reader keeps one share of each holder that is on the
polynomial, notes the seats of the others, and gets the text when it kept the threshold. -/

namespace Molt.Vault
open Molt.Core Text Check Framing List

section

variable {p : ℕ} [Fact p.Prime] (P : Primitives p) (commitments : List Bytes)

/-- What a reader has after it sorted `shares`. -/
structure Sorted (shares : List SeatShare) (acc : List (Nat × Bytes) × List String) : Prop where
  nodup : (acc.1.map Prod.fst).Nodup
  verified : ∀ g ∈ acc.1, ∃ s ∈ shares, (s.x, s.share) = g ∧ verifyShare P commitments s.x s.share = true
  kept : ∀ s ∈ shares, verifyShare P commitments s.x s.share = true → s.x ∈ acc.1.map Prod.fst
  bad_nodup : acc.2.Nodup
  bad : ∀ seat, seat ∈ acc.2 ↔ ∃ s ∈ shares, s.seat = seat ∧ verifyShare P commitments s.x s.share = false

variable {P commitments}

theorem Sorted.step {shares : List SeatShare} {acc : List (Nat × Bytes) × List String}
    (h : Sorted P commitments shares acc) (s : SeatShare) :
    Sorted P commitments (shares ++ [s]) (sortShare P commitments acc s) := by
  have hverified : ∀ g ∈ acc.1, ∃ t ∈ shares ++ [s], (t.x, t.share) = g ∧
      verifyShare P commitments t.x t.share = true := by
    intro g hg
    obtain ⟨t, ht, heq, hok⟩ := h.verified g hg
    exact ⟨t, mem_append_left _ ht, heq, hok⟩
  unfold sortShare
  by_cases hok : verifyShare P commitments s.x s.share = true
  · rw [if_pos hok]
    have hbad : ∀ seat, seat ∈ acc.2 ↔
        ∃ t ∈ shares ++ [s], t.seat = seat ∧ verifyShare P commitments t.x t.share = false := by
      intro seat
      simp [h.bad seat, or_and_right, exists_or, hok]
    split_ifs with hheld
    · have hx : s.x ∈ acc.1.map Prod.fst := by
        obtain ⟨g, hg, heq⟩ := any_eq_true.mp hheld
        exact mem_map.mpr ⟨g, hg, beq_iff_eq.mp heq⟩
      refine ⟨h.nodup, hverified, ?_, h.bad_nodup, hbad⟩
      intro t ht hv
      rcases mem_append.mp ht with ht | ht
      · exact h.kept t ht hv
      · rw [mem_singleton.mp ht]
        exact hx
    · have hx : s.x ∉ acc.1.map Prod.fst := by
        intro hmem
        obtain ⟨g, hg, heq⟩ := mem_map.mp hmem
        exact hheld (any_eq_true.mpr ⟨g, hg, beq_iff_eq.mpr heq⟩)
      refine ⟨?_, ?_, ?_, h.bad_nodup, hbad⟩
      · rw [map_append, map_singleton, ← concat_eq_append]
        exact h.nodup.concat hx
      · exact forall_mem_append.mpr ⟨hverified, fun g hg => ⟨s, by simp, (mem_singleton.mp hg).symm, hok⟩⟩
      · intro t ht hv
        rw [map_append, mem_append]
        rcases mem_append.mp ht with ht | ht
        · exact .inl (h.kept t ht hv)
        · rw [mem_singleton.mp ht]
          exact .inr (by simp)
  · rw [if_neg hok]
    have hkept : ∀ t ∈ shares ++ [s], verifyShare P commitments t.x t.share = true → t.x ∈ acc.1.map Prod.fst := by
      intro t ht hv
      rcases mem_append.mp ht with ht | ht
      · exact h.kept t ht hv
      · rw [mem_singleton.mp ht] at hv
        exact absurd hv hok
    have hbad : ∀ seat, (∃ t ∈ shares ++ [s], t.seat = seat ∧ verifyShare P commitments t.x t.share = false) ↔
        seat ∈ acc.2 ∨ s.seat = seat := by
      intro seat
      simp [h.bad seat, or_and_right, exists_or, Bool.eq_false_iff.mpr hok]
    split_ifs with hnoted
    · refine ⟨h.nodup, hverified, hkept, h.bad_nodup, ?_⟩
      intro seat
      rw [hbad seat]
      constructor
      · exact .inl
      · rintro (hmem | rfl)
        · exact hmem
        · exact hnoted
    · refine ⟨h.nodup, hverified, hkept, ?_, ?_⟩
      · rw [← concat_eq_append]
        exact h.bad_nodup.concat hnoted
      · intro seat
        rw [hbad seat, mem_append, mem_singleton, eq_comm]

theorem sorted_foldl (commitments : List Bytes) (shares : List SeatShare) :
    Sorted P commitments shares (shares.foldl (sortShare P commitments) ([], [])) := by
  induction shares using List.reverseRecOn with
  | nil => exact ⟨nodup_nil, by simp, by simp, nodup_nil, by simp⟩
  | append_singleton shares s ih =>
    rw [foldl_append]
    exact ih.step s

end

section

variable {p : ℕ} [Fact p.Prime] {C : Crypto} {P : Primitives p}

theorem firstOfEach_eq_self {good : List (Nat × Bytes)} {seen : List Nat} (hnodup : (good.map Prod.fst).Nodup)
    (hfresh : ∀ g ∈ good, g.1 ≠ 0 ∧ g.1 ∉ seen) : firstOfEach seen good = good := by
  induction good generalizing seen with
  | nil => rfl
  | cons g good ih =>
    obtain ⟨hg, hnodup⟩ := nodup_cons.mp hnodup
    obtain ⟨hzero, hseen⟩ := hfresh g (.head _)
    unfold firstOfEach
    rw [if_neg (not_or.mpr ⟨hzero, hseen⟩)]
    congr 1
    apply ih hnodup
    intro e he
    obtain ⟨hzero', hseen'⟩ := hfresh e (.tail _ he)
    refine ⟨hzero', ?_⟩
    rw [mem_cons, not_or]
    refine ⟨?_, hseen'⟩
    intro heq
    exact hg (heq ▸ mem_map_of_mem he)

theorem combine_dealt (laws : Ideal C P) {poly : List (ZMod p)} {m : UInt8} (hm : 2 ≤ m.toNat)
    (hlen : poly.length = m.toNat) {good : List (Nat × Bytes)} (hnodup : (good.map Prod.fst).Nodup)
    (hgood : ∀ g ∈ good, (0 < g.1 ∧ g.1 ≤ 255) ∧ g.2 = P.scalarBytes (Shamir.evalAt poly (g.1 : ZMod p))) :
    combine P m good =
      if m.toNat ≤ good.length then .ok (Shamir.evalAt poly 0) else .error "bad threshold" := by
  have hfirst : firstOfEach [] good = good :=
    firstOfEach_eq_self hnodup fun g hg => ⟨(hgood g hg).1.1.ne', not_mem_nil⟩
  have hscalars : (good.filterMap fun s => (P.scalarOf s.2).map fun v => ((s.1 : ZMod p), v)) =
      good.map fun s => ((s.1 : ZMod p), Shamir.evalAt poly (s.1 : ZMod p)) := by
    rw [← filterMap_eq_map]
    apply filterMap_congr
    intro g hg
    rw [(hgood g hg).2, laws.scalarOf_scalarBytes]
    rfl
  unfold combine
  rw [hfirst, hscalars]
  simp only [length_take, length_map]
  by_cases henough : m.toNat ≤ good.length
  · have hnot : ¬ (m.toNat < 2 ∨ min m.toNat good.length < m.toNat) := by omega
    rw [if_neg hnot, if_pos henough, ← map_take]
    congr 1
    apply Shamir.combine_eq
    · rw [map_map]
      have hxs : ((good.take m.toNat).map Prod.fst).Nodup :=
        hnodup.sublist ((take_sublist ..).map _)
      have hcast : ((good.take m.toNat).map Prod.fst).map (Nat.cast : Nat → ZMod p) =
          (good.take m.toNat).map (Prod.fst ∘ fun s => ((s.1 : ZMod p), Shamir.evalAt poly (s.1 : ZMod p))) := by
        rw [map_map]
        rfl
      rw [← hcast]
      have hsmall : ∀ x ∈ (good.take m.toNat).map Prod.fst, x < p := by
        intro x hx
        obtain ⟨g, hg, rfl⟩ := mem_map.mp hx
        exact lt_of_le_of_lt (hgood g (mem_of_mem_take hg)).1.2 laws.seats_lt
      apply hxs.map_on
      intro x hx y hy hxy
      have hmod := (ZMod.natCast_eq_natCast_iff' x y p).mp hxy
      rwa [Nat.mod_eq_of_lt (hsmall x hx), Nat.mod_eq_of_lt (hsmall y hy)] at hmod
    · rw [length_map, length_take, hlen]
      omega
    · intro q hq
      obtain ⟨g, -, rfl⟩ := mem_map.mp hq
      rfl
  · have hfew : m.toNat < 2 ∨ min m.toNat good.length < m.toNat := by omega
    rw [if_pos hfew, if_neg henough]

end

section

variable {p : ℕ} [Fact p.Prime] {C : Crypto} {P : Primitives p} {input : DepositInput}
  {vaultSeed signingKey : Bytes} {drawn : Drawn} {holders : List (String × Nat × String)} {dep : VaultDeposit}
  {file : Bytes}

theorem Built.openPayload_eq (laws : Ideal C P) (b : Built C P input vaultSeed signingKey drawn holders dep file) :
    openPayload C P dep input.republicId (secretFromSeed P (dealSeed P vaultSeed input.republicId dep)) file =
      .ok input.text := by
  have hmatches : ¬ (hexEncode (C.sha256 file) ≠ dep.payload.hash ∨ file.length ≠ dep.payload.size.toNat) := by
    rw [b.size_toNat laws, b.payload]
    simp
  have hlen := b.file_length laws
  have hshort := b.short
  have hbounds : ¬ (file.length < payloadOverhead ∨ vaultPayloadMax + payloadOverhead < file.length) := by omega
  have htake : file.take 24 = drawn.aeadNonce := by
    rw [b.payloadFile, ← drawn.aeadNonceLength, take_left]
  have hdrop : file.drop 24 = P.aeadEncrypt
      (dek P (secretFromSeed P (dealSeed P vaultSeed input.republicId dep))
        (dekInfo input.republicId dep.depositor dep.name dep.kind))
      drawn.aeadNonce (utf8 input.text) (payloadAad input.republicId dep.depositor dep.name dep.kind) := by
    rw [b.payloadFile, ← drawn.aeadNonceLength, drop_left]
  unfold openPayload decryptPayload
  rw [if_neg hmatches, if_neg hbounds, htake, hdrop, laws.aead_opens, Option.bind_some, fromUtf8_utf8]

/-- The seats whose true share is among `shares`. -/
def trueSeats (P : Primitives p) (vaultSeed : Bytes) (republicId : String) (dep : VaultDeposit)
    (shares : List SeatShare) : Finset String :=
  ((shares.filter fun s => s.share = dealtShare P vaultSeed republicId dep s.x).map SeatShare.seat).toFinset

variable {shares : List SeatShare}

theorem mem_trueSeats {republicId : String} {seat : String} :
    seat ∈ trueSeats P vaultSeed republicId dep shares ↔
      ∃ s ∈ shares, s.seat = seat ∧ s.share = dealtShare P vaultSeed republicId dep s.x := by
  rw [trueSeats, mem_toFinset, mem_map]
  constructor
  · rintro ⟨s, hs, hseat⟩
    obtain ⟨hmem, htrue⟩ := mem_filter.mp hs
    exact ⟨s, hmem, hseat, of_decide_eq_true htrue⟩
  · rintro ⟨s, hs, hseat, htrue⟩
    exact ⟨s, mem_filter.mpr ⟨hs, decide_eq_true htrue⟩, hseat⟩

theorem Sorted.length_eq (laws : Ideal C P) (hnodup : (input.ctx.holdersInGenesisOrder.map Prod.fst).Nodup)
    (hseats : ∀ s ∈ shares, ∃ vaultPk, Holds input.ctx dep.depositor s.seat s.x vaultPk)
    {acc : List (Nat × Bytes) × List String} {republicId : String}
    (h : Sorted P ((dealtPolynomial P (dealSeed P vaultSeed republicId dep) dep.m).map P.pointBytes) shares acc) :
    acc.1.length = (trueSeats P vaultSeed republicId dep shares).card := by
  let good := shares.filter fun s => s.share = dealtShare P vaultSeed republicId dep s.x
  let pairs := (good.map fun s => (s.seat, s.x)).toFinset
  have hpair : ∀ q ∈ pairs, ∃ vaultPk, Holds input.ctx dep.depositor q.1 q.2 vaultPk := by
    intro q hq
    obtain ⟨s, hs, rfl⟩ := mem_map.mp (mem_toFinset.mp hq)
    exact hseats s (mem_filter.mp hs).1
  have hseatSet : trueSeats P vaultSeed republicId dep shares = pairs.image Prod.fst := by
    ext seat
    simp [trueSeats, pairs, good]
  have hxSet : (acc.1.map Prod.fst).toFinset = pairs.image Prod.snd := by
    ext x
    rw [mem_toFinset, Finset.mem_image]
    constructor
    · intro hx
      obtain ⟨g, hg, rfl⟩ := mem_map.mp hx
      obtain ⟨s, hs, rfl, hv⟩ := h.verified g hg
      obtain ⟨_, hholds⟩ := hseats s hs
      have htrue := (verifyShare_dealt_iff laws hholds.range.1.ne').mp hv
      refine ⟨(s.seat, s.x), mem_toFinset.mpr (mem_map.mpr ⟨s, ?_, rfl⟩), rfl⟩
      exact mem_filter.mpr ⟨hs, decide_eq_true htrue⟩
    · rintro ⟨q, hq, rfl⟩
      obtain ⟨s, hs, rfl⟩ := mem_map.mp (mem_toFinset.mp hq)
      obtain ⟨hmem, htrue⟩ := mem_filter.mp hs
      obtain ⟨_, hholds⟩ := hseats s hmem
      exact h.kept s hmem ((verifyShare_dealt_iff laws hholds.range.1.ne').mpr (of_decide_eq_true htrue))
  have hfst : Set.InjOn Prod.fst (pairs : Set (String × Nat)) := by
    rintro ⟨seat, x⟩ hq ⟨seat', x'⟩ hr heq
    obtain rfl : seat = seat' := heq
    obtain ⟨_, hx⟩ := hpair _ hq
    obtain ⟨_, hx'⟩ := hpair _ hr
    exact Prod.ext rfl (hx.position_eq hnodup hx')
  have hsnd : Set.InjOn Prod.snd (pairs : Set (String × Nat)) := by
    rintro ⟨seat, x⟩ hq ⟨seat', x'⟩ hr heq
    obtain rfl : x = x' := heq
    obtain ⟨_, hseat⟩ := hpair _ hq
    obtain ⟨_, hseat'⟩ := hpair _ hr
    exact Prod.ext (hseat.name_eq hseat') rfl
  calc acc.1.length = (acc.1.map Prod.fst).toFinset.card := by
        rw [toFinset_card_of_nodup h.nodup, length_map]
    _ = pairs.card := by rw [hxSet, Finset.card_image_of_injOn hsnd]
    _ = (trueSeats P vaultSeed republicId dep shares).card := by
        rw [hseatSet, Finset.card_image_of_injOn hfst]

theorem Built.read_eq (laws : Ideal C P) (hnodup : (input.ctx.holdersInGenesisOrder.map Prod.fst).Nodup)
    (b : Built C P input vaultSeed signingKey drawn holders dep file)
    (hseats : ∀ s ∈ shares, ∃ vaultPk, Holds input.ctx dep.depositor s.seat s.x vaultPk) :
    ∃ badSeats : List String, badSeats.Nodup ∧
      (∀ seat, seat ∈ badSeats ↔
        ∃ s ∈ shares, s.seat = seat ∧ s.share ≠ dealtShare P vaultSeed input.republicId dep s.x) ∧
      read C P dep input.republicId shares file =
        if dep.m.toNat ≤ (trueSeats P vaultSeed input.republicId dep shares).card then .ok ⟨input.text, badSeats⟩
        else .error ⟨badSeats, (trueSeats P vaultSeed input.republicId dep shares).card, dep.m, false, false⟩ := by
  have hcommitments := b.commitmentsOf_eq laws
  have hsorted := sorted_foldl (P := P)
    ((dealtPolynomial P (dealSeed P vaultSeed input.republicId dep) dep.m).map P.pointBytes) shares
  generalize hacc : shares.foldl (sortShare P _) ([], []) = acc at hsorted
  have hlength := hsorted.length_eq laws hnodup hseats
  have hgood : ∀ g ∈ acc.1, (0 < g.1 ∧ g.1 ≤ 255) ∧ g.2 = dealtShare P vaultSeed input.republicId dep g.1 := by
    intro g hg
    obtain ⟨s, hs, rfl, hv⟩ := hsorted.verified g hg
    obtain ⟨_, hholds⟩ := hseats s hs
    have hrange := hholds.range
    refine ⟨⟨hrange.1, hrange.2.trans (holderTable_eq b.table).1⟩, ?_⟩
    exact (verifyShare_dealt_iff laws hrange.1.ne').mp hv
  have hcapped : acc.1.length ≤ 255 := by
    have hsub : (acc.1.map Prod.fst).toFinset ⊆ Finset.Icc 1 255 := by
      intro x hx
      obtain ⟨g, hg, rfl⟩ := mem_map.mp (mem_toFinset.mp hx)
      exact Finset.mem_Icc.mpr (hgood g hg).1
    have hcard := Finset.card_le_card hsub
    rw [toFinset_card_of_nodup hsorted.nodup, length_map, Nat.card_Icc] at hcard
    omega
  have hpoly : (dealtPolynomial P (dealSeed P vaultSeed input.republicId dep) dep.m).length = dep.m.toNat := by
    have htwo := b.two_le
    rw [dealtPolynomial, length_cons, laws.coefficients_length]
    omega
  have hcombine := combine_dealt laws b.two_le hpoly hsorted.nodup hgood
  refine ⟨acc.2, hsorted.bad_nodup, ?_, ?_⟩
  · intro seat
    rw [hsorted.bad seat]
    constructor
    · rintro ⟨s, hs, hseat, hv⟩
      obtain ⟨_, hholds⟩ := hseats s hs
      refine ⟨s, hs, hseat, ?_⟩
      intro htrue
      rw [(verifyShare_dealt_iff laws hholds.range.1.ne').mpr htrue] at hv
      cases hv
    · rintro ⟨s, hs, hseat, hoff⟩
      obtain ⟨_, hholds⟩ := hseats s hs
      refine ⟨s, hs, hseat, ?_⟩
      rw [Bool.eq_false_iff]
      intro hv
      exact hoff ((verifyShare_dealt_iff laws hholds.range.1.ne').mp hv)
  · unfold read
    rw [hcommitments]
    simp only [hacc, hcombine, ← hlength, min_eq_left hcapped]
    split_ifs with henough
    · have hsecret : Shamir.evalAt (dealtPolynomial P (dealSeed P vaultSeed input.republicId dep) dep.m) 0 =
          secretFromSeed P (dealSeed P vaultSeed input.republicId dep) := Shamir.evalAt_zero _ _
      have hhead : dep.commitments.head? =
          some (hexEncode (P.pointBytes (secretFromSeed P (dealSeed P vaultSeed input.republicId dep)))) := by
        rw [b.commitments]
        rfl
      simp only [hsecret, hhead, b.openPayload_eq laws]
      rw [if_neg (not_not.mpr rfl)]
    · rfl

theorem honest_deposit_opens (laws : Ideal C P) (hnodup : (input.ctx.holdersInGenesisOrder.map Prod.fst).Nodup)
    (hreplaces : input.replaces = "" ∨ ∃ earlier, input.replaces = secretId C input.republicId earlier)
    (hbuild : buildDeposit C P input vaultSeed signingKey drawn = .ok (dep, file)) :
    verifyDepositShape C dep input.ctx = .ok () ∧
    verifyDepositSig C dep input.republicId (hexEncode (P.publicKey signingKey)) = .ok () ∧
    (∀ name x seed, Holds input.ctx input.depositor name x (hexEncode (P.keypair seed).2) →
      checkMyShare C P dep input.republicId input.ctx name (P.keypair seed).1 =
        .ok (dealtShare P vaultSeed input.republicId dep x)) ∧
    (∀ name x vaultPk, Holds input.ctx input.depositor name x vaultPk → ∃ ikm,
      rederiveShare C P dep input.republicId input.ctx vaultSeed name =
        .ok (dealtShare P vaultSeed input.republicId dep x, ikm) ∧
      decideComplaint C P dep input.republicId input.ctx name (dealtShare P vaultSeed input.republicId dep x) ikm =
        .ok .falseComplaint) ∧
    ∀ shares : List SeatShare, (∀ s ∈ shares, ∃ vaultPk, Holds input.ctx input.depositor s.seat s.x vaultPk) →
      ∃ badSeats : List String, badSeats.Nodup ∧
        (∀ seat, seat ∈ badSeats ↔
          ∃ s ∈ shares, s.seat = seat ∧ s.share ≠ dealtShare P vaultSeed input.republicId dep s.x) ∧
        read C P dep input.republicId shares file =
          if dep.m.toNat ≤ (trueSeats P vaultSeed input.republicId dep shares).card then .ok ⟨input.text, badSeats⟩
          else .error ⟨badSeats, (trueSeats P vaultSeed input.republicId dep shares).card, dep.m, false, false⟩ := by
  obtain ⟨hdepositor, holders, b⟩ := buildDeposit_cases hbuild
  rw [← hdepositor]
  have hshape := b.shape laws hreplaces
  refine ⟨hshape, b.signature laws, ?_, ?_, ?_⟩
  · intro name x seed hholds
    exact b.checkMyShare_eq laws hnodup hholds
  · intro name x vaultPk hholds
    exact ⟨_, b.rederiveShare_eq hnodup hholds, b.decideComplaint_eq laws hnodup hshape hholds⟩
  · intro shares hseats
    exact b.read_eq laws hnodup hseats

end

section

instance toyPrime : Fact (Nat.Prime 257) := ⟨by norm_num⟩

def toyTag (bytes : Bytes) : Bytes := (Crypto.toyDigest bytes).take 16

def toyScalarBytes (v : ZMod 257) : Bytes := leBytes 32 v.val

def toyScalarOf (raw : Bytes) : Option (ZMod 257) :=
  if raw.length = 32 ∧ leValue raw < 257 then some (leValue raw : ZMod 257) else none

def toyPrimitives : Primitives 257 where
  hkdf ikm info length := leBytes length (leValue (Crypto.toyDigest (ikm ++ info)))
  scalarWide raw := (leValue raw : ZMod 257)
  scalarBytes := toyScalarBytes
  scalarOf := toyScalarOf
  coefficients seed count :=
    (List.range count).map fun i => (leValue (Crypto.toyDigest (UInt8.ofNat i :: seed)) : ZMod 257)
  pointBytes := toyScalarBytes
  pointOf := toyScalarOf
  keypair seed := (Crypto.toyDigest seed, Crypto.toyDigest seed)
  hpkeSeal pk plaintext aad _ := some (pk ++ toyTag aad ++ plaintext)
  hpkeOpen sk sealed aad := if sealed.take 48 = sk ++ toyTag aad then some (sealed.drop 48) else none
  aeadEncrypt key nonce msg aad := toyTag (key ++ nonce ++ aad) ++ msg
  aeadDecrypt key nonce ct aad := if ct.take 16 = toyTag (key ++ nonce ++ aad) then some (ct.drop 16) else none
  publicKey := Crypto.toyDigest
  sign sk msg := Crypto.toyDigest sk ++ Crypto.toyDigest msg

theorem toyDigest_length (bytes : Bytes) : (Crypto.toyDigest bytes).length = 32 := leBytes_length 32 _

theorem toyTag_length (bytes : Bytes) : (toyTag bytes).length = 16 := by
  rfl

theorem toyScalarBytes_length (v : ZMod 257) : (toyScalarBytes v).length = 32 := by
  rw [toyScalarBytes, leBytes_length]

theorem toyScalarOf_bytes (v : ZMod 257) : toyScalarOf (toyScalarBytes v) = some v := by
  have hlt : v.val < 257 := v.val_lt
  have hvalue : leValue (toyScalarBytes v) = v.val :=
    leValue_leBytes (lt_trans hlt (by decide))
  unfold toyScalarOf
  rw [hvalue, if_pos ⟨toyScalarBytes_length v, hlt⟩, ZMod.natCast_zmod_val]

theorem toyScalarOf_canonical (raw : Bytes) (v : ZMod 257) (h : toyScalarOf raw = some v) :
    raw = toyScalarBytes v := by
  unfold toyScalarOf at h
  split_ifs at h with hraw
  cases h
  rw [toyScalarBytes, ZMod.val_natCast_of_lt hraw.2, ← hraw.1, leBytes_leValue]

theorem toy_scalarOf : toyPrimitives.scalarOf = toyScalarOf := rfl

theorem toy_pointOf : toyPrimitives.pointOf = toyScalarOf := rfl

theorem toy_scalarBytes : toyPrimitives.scalarBytes = toyScalarBytes := rfl

theorem toy_pointBytes : toyPrimitives.pointBytes = toyScalarBytes := rfl

theorem toy_ideal : Ideal Crypto.toy toyPrimitives where
  seats_lt := by decide
  scalarOf_scalarBytes v := by rw [toy_scalarOf, toy_scalarBytes, toyScalarOf_bytes]
  scalarOf_canonical raw v h := by
    exact toyScalarOf_canonical raw v h
  scalarBytes_length v := by rw [toy_scalarBytes, toyScalarBytes_length]
  pointOf_pointBytes v := by rw [toy_pointOf, toy_pointBytes, toyScalarOf_bytes]
  pointBytes_length v := by rw [toy_pointBytes, toyScalarBytes_length]
  isPoint_pointBytes _ := rfl
  coefficients_length seed count := (length_map _).trans length_range
  hpke_opens seed plaintext aad ikm sealed h := by
    have hhead : (Crypto.toyDigest seed ++ toyTag aad).length = 48 := by
      rw [length_append, toyDigest_length, toyTag_length]
    simp only [toyPrimitives, Option.some.injEq] at h ⊢
    rw [← h, ← hhead, take_left, drop_left, if_pos rfl]
  keypair_length := toyDigest_length
  aead_opens key nonce msg aad := by
    simp only [toyPrimitives]
    rw [← toyTag_length (key ++ nonce ++ aad), take_left, drop_left, if_pos rfl]
  aead_length key nonce msg aad := by
    simp only [toyPrimitives]
    rw [length_append, toyTag_length, Nat.add_comm]
  sign_verifies sk msg := beq_self_eq_true (Crypto.toyDigest sk ++ Crypto.toyDigest msg)
  sign_length sk msg := by
    simp only [toyPrimitives]
    rw [length_append, toyDigest_length, toyDigest_length]
  publicKey_length := toyDigest_length
  sha256_length := toyDigest_length

def toyCtx : VaultCtx where
  m := 2
  holdersInGenesisOrder := ["ana", "ben", "cleo", "dora"].map fun name =>
    (name, hexEncode (toyPrimitives.publicKey (utf8 name)), hexEncode (toyPrimitives.keypair (utf8 name)).2)

def toyInput : DepositInput := ⟨"republic", "ben", "safe", "note", "", "left of the door", toyCtx⟩

def toySeed : Bytes := List.replicate 32 7

def toyDrawn : Drawn := ⟨List.replicate 16 1, List.replicate 24 2, rfl, rfl⟩

def toyBuild : Except String (VaultDeposit × Bytes) :=
  buildDeposit Crypto.toy toyPrimitives toyInput toySeed (utf8 "ben") toyDrawn

/-- A wrong share of `cleo`, a repeated one of `dora`, and one of `ana`. -/
def toyShares (share : Nat → Bytes) : List SeatShare :=
  [⟨"cleo", 3, []⟩, ⟨"dora", 4, share 4⟩, ⟨"dora", 4, share 4⟩, ⟨"ana", 1, share 1⟩]

theorem honest_deposit_opens_for_two : ∃ dep file badSeats, toyBuild = .ok (dep, file) ∧
    checkMyShare Crypto.toy toyPrimitives dep "republic" toyCtx "cleo" (toyPrimitives.keypair (utf8 "cleo")).1 =
      .ok (dealtShare toyPrimitives toySeed "republic" dep 3) ∧
    read Crypto.toy toyPrimitives dep "republic"
      (toyShares (dealtShare toyPrimitives toySeed "republic" dep)) file =
        .ok ⟨"left of the door", badSeats⟩ ∧ "cleo" ∈ badSeats ∧ "dora" ∉ badSeats := by
  have hok : toyBuild.isOk = true := by decide
  obtain ⟨⟨dep, file⟩, hbuild⟩ : ∃ r, toyBuild = .ok r := by
    cases hr : toyBuild with
    | error e => simp [hr, Except.isOk, Except.toBool] at hok
    | ok r => exact ⟨r, rfl⟩
  have hm : dep.m = 2 := (buildDeposit_cases hbuild).2.elim fun _ b => b.threshold
  obtain ⟨-, -, hcheck, -, hread⟩ := honest_deposit_opens toy_ideal (by decide) (Or.inl rfl) hbuild
  have hana : Holds toyCtx "ben" "ana" 1 _ := ⟨by decide, 0, _, rfl, rfl⟩
  have hcleo : Holds toyCtx "ben" "cleo" 3 _ := ⟨by decide, 2, _, rfl, rfl⟩
  have hdora : Holds toyCtx "ben" "dora" 4 _ := ⟨by decide, 3, _, rfl, rfl⟩
  have hseats : ∀ s ∈ toyShares (dealtShare toyPrimitives toySeed "republic" dep),
      ∃ vaultPk, Holds toyCtx "ben" s.seat s.x vaultPk := by
    intro s hs
    simp only [toyShares, List.mem_cons, List.not_mem_nil, or_false] at hs
    rcases hs with rfl | rfl | rfl | rfl
    · exact ⟨_, hcleo⟩
    · exact ⟨_, hdora⟩
    · exact ⟨_, hdora⟩
    · exact ⟨_, hana⟩
  obtain ⟨badSeats, -, hbad, heq⟩ := hread _ hseats
  have htwo : ({"ana", "dora"} : Finset String) ⊆ trueSeats toyPrimitives toySeed "republic" dep
      (toyShares (dealtShare toyPrimitives toySeed "republic" dep)) := by
    intro seat hseat
    simp only [Finset.mem_insert, Finset.mem_singleton] at hseat
    rcases hseat with rfl | rfl
    · exact mem_trueSeats.mpr ⟨⟨"ana", 1, dealtShare toyPrimitives toySeed "republic" dep 1⟩, by simp [toyShares], rfl, rfl⟩
    · exact mem_trueSeats.mpr ⟨⟨"dora", 4, dealtShare toyPrimitives toySeed "republic" dep 4⟩, by simp [toyShares], rfl, rfl⟩
  have henough : dep.m.toNat ≤ (trueSeats toyPrimitives toySeed "republic" dep
      (toyShares (dealtShare toyPrimitives toySeed "republic" dep))).card := by
    rw [hm]
    exact (Finset.card_le_card htwo)
  refine ⟨dep, file, badSeats, hbuild, hcheck "cleo" 3 (utf8 "cleo") hcleo, ?_, ?_, ?_⟩
  · exact heq.trans (if_pos henough)
  · rw [hbad]
    refine ⟨_, List.mem_cons_self .., rfl, ?_⟩
    intro hnil
    have hlen := congrArg List.length hnil
    rw [dealtShare, toy_ideal.scalarBytes_length] at hlen
    cases hlen
  · rw [hbad]
    rintro ⟨s, hs, hseat, hoff⟩
    simp only [toyShares, List.mem_cons, List.not_mem_nil, or_false] at hs
    rcases hs with rfl | rfl | rfl | rfl
    · exact absurd hseat (by decide)
    · exact hoff rfl
    · exact hoff rfl
    · exact hoff rfl

end

end Molt.Vault
