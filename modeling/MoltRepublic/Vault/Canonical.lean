import Mathlib
import MoltRepublic.Core.CheckpointInjective
import MoltRepublic.Vault.Decode

/-! The committed base has one spelling: the strict reader takes back what the encoder
wrote, takes nothing else, and stops at the end of the stream. -/

namespace Molt.Vault
open Molt.Core Text Json Framing Check List

section

variable {what : String} {s a r : List UInt8} {n : Nat}

theorem takeBytes_eq_ok (h : takeBytes n what s = .ok (a, r)) : s = a ++ r ∧ a.length = n := by
  unfold takeBytes at h
  split_ifs at h with hle
  cases h
  refine ⟨(take_append_drop n s).symm, ?_⟩
  rw [length_take]
  omega

theorem readU64_eq_ok (h : readU64 what s = .ok (n, r)) : s = leBytes 8 n ++ r ∧ n < 256 ^ 8 := by
  obtain ⟨⟨raw, rest⟩, htake, hread⟩ := bind_eq_ok.mp h
  obtain ⟨hs, hlen⟩ := takeBytes_eq_ok htake
  have hback := leBytes_leValue raw
  have hlt := leValue_lt raw
  rw [hlen] at hback hlt
  have hpair := pure_eq_ok.mp hread
  obtain ⟨hn, hr⟩ := Prod.mk.inj hpair
  rw [← hn, ← hr, hback]
  exact ⟨hs, hlt⟩

theorem readField_eq_ok (h : readField what s = .ok (a, r)) :
    s = putBytes a ++ r ∧ a.length < 256 ^ 4 := by
  obtain ⟨⟨raw, rest⟩, htake, hread⟩ := bind_eq_ok.mp h
  obtain ⟨hs, hlen⟩ := takeBytes_eq_ok htake
  obtain ⟨hrest, hfield⟩ := takeBytes_eq_ok hread
  have hback := leBytes_leValue raw
  have hlt := leValue_lt raw
  rw [hlen] at hback hlt
  unfold putBytes
  rw [hfield, hback, append_assoc, hs, hrest]
  exact ⟨rfl, hlt⟩

end

structure Reader where
  rest : List UInt8
  place : Nat

/-- `Reader::take`, its `checked_add` on 64 bits. -/
def Reader.take (r : Reader) (n : Nat) (what : String) : Except String (List UInt8 × Reader) :=
  if r.place + n < 2 ^ 64 then
    if r.place + n ≤ r.rest.length then
      .ok ((r.rest.drop r.place).take n, { r with place := r.place + n })
    else .error s!"{what} overruns the stream"
  else .error s!"{what} overruns the stream"

theorem Reader.take_eq (r : Reader) (n : Nat) (what : String) (hfits : r.rest.length < 2 ^ 64)
    (hplace : r.place ≤ r.rest.length) :
    r.take n what = (takeBytes n what (r.rest.drop r.place)).map
      fun read => (read.1, { r with place := r.place + n }) := by
  unfold Reader.take takeBytes
  rw [length_drop]
  by_cases hle : r.place + n ≤ r.rest.length
  · rw [if_pos (by omega), if_pos hle, if_pos (by omega)]
    rfl
  · rw [if_neg hle, if_neg (show ¬ n ≤ r.rest.length - r.place by omega), ite_self]
    rfl

theorem Reader.take_overrun (r : Reader) (n : Nat) (what : String) (h : r.rest.length < r.place + n) :
    r.take n what = .error s!"{what} overruns the stream" := by
  unfold Reader.take
  rw [if_neg (Nat.not_le.mpr h), ite_self]

section

variable {parse : List UInt8 → Option Value}

theorem decodeRecord_eq_ok {raw : List UInt8} {op : VaultOp} (h : decodeRecord parse raw = .ok op) :
    recordJson op = raw := by
  unfold decodeRecord at h
  split at h
  · cases h
  · split_ifs at h with hsame
    cases h
    exact hsame

theorem decodeGrants_eq_ok {n : Nat} {last : Option String} {s r : List UInt8}
    {grants : List VaultBaseGrant} (h : decodeGrants parse n last s = .ok (grants, r)) :
    s = grants.flatMap putBaseGrant ++ r ∧ grants.length = n ∧
      (∀ x, last = some x → ∀ g ∈ grants, x < g.grant.grantId) ∧
        grants.Pairwise (fun a b => a.grant.grantId < b.grant.grantId) ∧
          ∀ g ∈ grants, (recordJson (.grant g.grant)).length < 256 ^ 4 := by
  induction n generalizing last s r grants with
  | zero =>
    unfold decodeGrants at h
    obtain ⟨hgrants, hr⟩ := Prod.mk.inj (Except.ok.inj h)
    subst hgrants hr
    exact ⟨rfl, rfl, by simp, List.Pairwise.nil, by simp⟩
  | succ n ih =>
    obtain ⟨⟨id, rest⟩, hid, hnext⟩ := bind_eq_ok.mp h
    simp only [bind_eq_ok] at hnext
    obtain ⟨⟨raw, rest'⟩, hfield, op, hrecord, hnext⟩ := hnext
    obtain ⟨hs, hidlt⟩ := readU64_eq_ok hid
    obtain ⟨hrest, hlen⟩ := readField_eq_ok hfield
    have hraw := decodeRecord_eq_ok hrecord
    cases op with
    | deposit d | vaultBase b => exact absurd hnext (by simp [throw, throwThe, MonadExceptOf.throw])
    | grant g =>
      simp only [bind_eq_ok] at hnext
      obtain ⟨_, horder, ⟨grants', r'⟩, hgrants, hnext⟩ := hnext
      have horder := ensure_eq_ok.mp horder
      obtain ⟨hsplit, hcount, hafter, hsorted, hfits⟩ := ih hgrants
      obtain ⟨hall, hr⟩ := Prod.mk.inj (pure_eq_ok.mp hnext)
      subst hall hr
      have hid64 : (UInt64.ofNat id).toNat = id := by
        rw [UInt64.toNat_ofNat']
        exact Nat.mod_eq_of_lt hidlt
      refine ⟨?_, by rw [length_cons, hcount], ?_, pairwise_cons.mpr ⟨hafter _ rfl, hsorted⟩, ?_⟩
      · rw [hs, hrest, hsplit, flatMap_cons, putBaseGrant, putU64, hid64, hraw, append_assoc,
          append_assoc]
      · intro x hx
        exact forall_mem_cons.mpr ⟨horder x hx, fun a ha => lt_trans (horder x hx) (hafter _ rfl a ha)⟩
      · intro a ha
        rcases mem_cons.mp ha with rfl | ha
        · rw [hraw]
          exact hlen
        · exact hfits a ha

structure VaultBase.Framed (base : VaultBase) : Prop where
  count : base.deposits.length < 2 ^ 64
  fields : ∀ d ∈ base.deposits, (recordJson (.deposit d.deposit)).length < 2 ^ 32 ∧
    d.grants.length < 2 ^ 64 ∧ ∀ g ∈ d.grants, (recordJson (.grant g.grant)).length < 2 ^ 32

structure VaultBase.Distinct (base : VaultBase) : Prop where
  slots : (base.deposits.map VaultBaseDeposit.key).Nodup
  once : ∀ d ∈ base.deposits, (d.grants.map fun g => g.grant.grantId).Nodup

/-- The base in the order of its bytes: slots in `(depositor, name)` order, the grants of
each in the order of their ids. -/
def VaultBase.ordered (base : VaultBase) : VaultBase :=
  VaultBase.sorted ⟨base.deposits.insertionSort fun a b => a.key ≤ b.key⟩

theorem insertionSort_sorted {grants : List VaultBaseGrant}
    (h : grants.Pairwise fun a b => a.grant.grantId < b.grant.grantId) :
    grants.insertionSort (fun a b => a.grant.grantId ≤ b.grant.grantId) = grants :=
  (h.imp le_of_lt).insertionSort_eq

theorem decodeDeposits_eq_ok {n : Nat} {last : Option SlotKey} {s r : List UInt8}
    {deposits : List VaultBaseDeposit} (h : decodeDeposits parse n last s = .ok (deposits, r)) :
    s = deposits.flatMap putBaseDeposit ++ r ∧ deposits.length = n ∧
      (∀ x, last = some x → ∀ d ∈ deposits, x < d.key) ∧
        deposits.Pairwise (fun a b => a.key < b.key) ∧
          ∀ d ∈ deposits, (recordJson (.deposit d.deposit)).length < 256 ^ 4 ∧
            d.grants.length < 256 ^ 8 ∧ ∀ g ∈ d.grants, (recordJson (.grant g.grant)).length < 256 ^ 4 := by
  induction n generalizing last s r deposits with
  | zero =>
    unfold decodeDeposits at h
    obtain ⟨hdeposits, hr⟩ := Prod.mk.inj (Except.ok.inj h)
    subst hdeposits hr
    exact ⟨rfl, rfl, by simp, List.Pairwise.nil, by simp⟩
  | succ n ih =>
    obtain ⟨⟨raw, rest⟩, hfield, hnext⟩ := bind_eq_ok.mp h
    obtain ⟨op, hrecord, hnext⟩ := bind_eq_ok.mp hnext
    obtain ⟨hs, hlen⟩ := readField_eq_ok hfield
    have hraw := decodeRecord_eq_ok hrecord
    cases op with
    | grant g | vaultBase b => exact absurd hnext (by simp [throw, throwThe, MonadExceptOf.throw])
    | deposit d =>
      obtain ⟨_, horder, hnext⟩ := bind_eq_ok.mp hnext
      obtain ⟨⟨count, rest'⟩, hcount, hnext⟩ := bind_eq_ok.mp hnext
      obtain ⟨⟨grants, rest''⟩, hgrants, hnext⟩ := bind_eq_ok.mp hnext
      obtain ⟨⟨deposits', r'⟩, hdeposits, hnext⟩ := bind_eq_ok.mp hnext
      have horder := ensure_eq_ok.mp horder
      obtain ⟨hrest, hcountlt⟩ := readU64_eq_ok hcount
      obtain ⟨hsplit, hgrantsLen, -, hgrantsSorted, hgrantsFit⟩ := decodeGrants_eq_ok hgrants
      obtain ⟨hsplit', hdepositsLen, hafter, hsorted, hfits⟩ := ih hdeposits
      obtain ⟨hall, hr⟩ := Prod.mk.inj (pure_eq_ok.mp hnext)
      subst hall hr
      refine ⟨?_, by rw [length_cons, hdepositsLen], ?_, ?_, ?_⟩
      · rw [hs, hrest, hsplit, hsplit', flatMap_cons, putBaseDeposit]
        dsimp only
        rw [insertionSort_sorted hgrantsSorted, putLen, hraw, hgrantsLen]
        simp
      · intro x hx
        exact forall_mem_cons.mpr ⟨horder x hx, fun a ha => lt_trans (horder x hx) (hafter _ rfl a ha)⟩
      · exact pairwise_cons.mpr ⟨hafter _ rfl, hsorted⟩
      · intro a ha
        rcases mem_cons.mp ha with rfl | ha
        · rw [hraw, hgrantsLen]
          exact ⟨hlen, hcountlt, hgrantsFit⟩
        · exact hfits a ha

theorem decodeVaultBase_eq_ok {bytes : List UInt8} {base : VaultBase}
    (h : decodeVaultBase parse bytes = .ok base) : vaultBaseCanonicalBytes base = bytes ∧ base.Framed := by
  unfold decodeVaultBase at h
  obtain ⟨_, htag, hnext⟩ := bind_eq_ok.mp h
  obtain ⟨⟨count, rest⟩, hcount, hnext⟩ := bind_eq_ok.mp hnext
  obtain ⟨⟨deposits, rest'⟩, hdeposits, hnext⟩ := bind_eq_ok.mp hnext
  obtain ⟨_, hend, hnext⟩ := bind_eq_ok.mp hnext
  have hend : rest' = [] := ensure_eq_ok.mp hend
  have hbase : ⟨deposits⟩ = base := pure_eq_ok.mp hnext
  obtain ⟨hdrop, hlt⟩ := readU64_eq_ok hcount
  obtain ⟨hrest, hlen, -, hsorted, hfits⟩ := decodeDeposits_eq_ok hdeposits
  have hsame : deposits.insertionSort (fun a b => a.key ≤ b.key) = deposits :=
    (hsorted.imp fun hlt => le_of_lt hlt).insertionSort_eq
  subst hbase
  refine ⟨?_, by rw [hlen]; exact hlt, hfits⟩
  unfold vaultBaseCanonicalBytes
  dsimp only
  rw [hsame, putLen, hlen]
  conv_rhs => rw [← take_append_drop (tag "molt-vault-base-v1").length bytes]
  rw [ensure_eq_ok.mp htag, hdrop, hrest, hend, append_nil, append_assoc]

end

section

theorem recordJson_injective {a b : VaultOp} (h : recordJson a = recordJson b) : a = b := by
  have hvalue : a.toValue = b.toValue := toVec_injective h
  have hread := congrArg VaultOp.fromValue hvalue
  rw [fromValue_toValue, fromValue_toValue] at hread
  exact Option.some.inj hread

theorem putRecord_delimited :
    Delimited (fun op => (recordJson op).length < 2 ^ 32) fun op => putBytes (recordJson op) := by
  intro a b r s ha hb h
  obtain ⟨hab, hrs⟩ := putBytes_delimited ha hb h
  exact ⟨recordJson_injective hab, hrs⟩

theorem putBaseGrant_delimited :
    Delimited (fun g : VaultBaseGrant => (recordJson (.grant g.grant)).length < 2 ^ 32) putBaseGrant := by
  have hpair : Delimited (fun g : VaultBaseGrant => True ∧ (recordJson (.grant g.grant)).length < 2 ^ 32)
      putBaseGrant := by
    refine putU64_delimited.pair (q := fun g : VaultBaseGrant => VaultOp.grant g.grant) putRecord_delimited ?_
    intro a b hid hgrant
    obtain ⟨_, _⟩ := b
    cases hid
    cases hgrant
    rfl
  exact hpair.mono fun _ h => ⟨trivial, h⟩

def putInOrder (d : VaultBaseDeposit) : List UInt8 :=
  putBytes (recordJson (.deposit d.deposit)) ++ (leBytes 8 d.grants.length ++ d.grants.flatMap putBaseGrant)

def DepositFramed (d : VaultBaseDeposit) : Prop :=
  (recordJson (.deposit d.deposit)).length < 2 ^ 32 ∧
    d.grants.length < 256 ^ 8 ∧ ∀ g ∈ d.grants, (recordJson (.grant g.grant)).length < 2 ^ 32

theorem putInOrder_delimited : Delimited DepositFramed putInOrder := by
  refine Delimited.pair (p := fun d : VaultBaseDeposit => VaultOp.deposit d.deposit) putRecord_delimited
    ((leBytes_delimited 8).counted putBaseGrant_delimited) ?_
  intro a b hdeposit hgrants
  obtain ⟨_, _⟩ := b
  cases hdeposit
  cases hgrants
  rfl

theorem putBaseDeposit_eq (d : VaultBaseDeposit) : putBaseDeposit d = putInOrder d.sorted :=
  append_assoc ..

theorem DepositFramed.sorted {d : VaultBaseDeposit} (h : DepositFramed d) : DepositFramed d.sorted := by
  have hperm := perm_insertionSort
    (fun a b : VaultBaseGrant => a.grant.grantId ≤ b.grant.grantId) d.grants
  obtain ⟨hrecord, hcount, hgrants⟩ := h
  exact ⟨hrecord, hperm.length_eq ▸ hcount, fun g hg => hgrants g (hperm.mem_iff.mp hg)⟩

theorem vaultBaseCanonicalBytes_eq (base : VaultBase) : vaultBaseCanonicalBytes base =
    tag "molt-vault-base-v1" ++
      (leBytes 8 base.ordered.deposits.length ++ base.ordered.deposits.flatMap putInOrder) := by
  have hputs : putBaseDeposit = fun d => putInOrder d.sorted := funext putBaseDeposit_eq
  unfold vaultBaseCanonicalBytes VaultBase.ordered VaultBase.sorted
  rw [append_assoc, putLen, hputs, length_map, flatMap_map]

variable {base : VaultBase}

theorem VaultBase.Framed.ordered (h : base.Framed) :
    base.ordered.deposits.length < 256 ^ 8 ∧ ∀ d ∈ base.ordered.deposits, DepositFramed d := by
  have hperm := perm_insertionSort (fun a b : VaultBaseDeposit => a.key ≤ b.key) base.deposits
  constructor
  · change (List.map _ _).length < _
    rw [length_map, hperm.length_eq]
    exact h.count
  · intro d hd
    obtain ⟨e, he, rfl⟩ := mem_map.mp hd
    exact DepositFramed.sorted (h.fields e (hperm.mem_iff.mp he))

theorem vaultBaseCanonicalBytes_delimited {a b : VaultBase} (ha : a.Framed) (hb : b.Framed)
    {r s : List UInt8} (h : vaultBaseCanonicalBytes a ++ r = vaultBaseCanonicalBytes b ++ s) : r = s := by
  rw [vaultBaseCanonicalBytes_eq, vaultBaseCanonicalBytes_eq, append_assoc, append_assoc] at h
  have hcounted := (leBytes_delimited 8).counted putInOrder_delimited
  exact (hcounted ha.ordered hb.ordered (append_cancel_left h)).2

theorem decodeVaultBase_ordered {parse : List UInt8 → Option Value}
    (hparse : ∀ op : VaultOp, parse (toVec op.toValue) = some op.toValue) (hframed : base.Framed)
    (hdistinct : base.Distinct) :
    decodeVaultBase parse (vaultBaseCanonicalBytes base) = .ok base.ordered := by
  have hperm := perm_insertionSort (fun a b : VaultBaseDeposit => a.key ≤ b.key) base.deposits
  have hle := pairwise_insertionSort (fun a b : VaultBaseDeposit => a.key ≤ b.key) base.deposits
  have hkeys := (hperm.map VaultBaseDeposit.key).nodup_iff.mpr hdistinct.slots
  have hne : (base.deposits.insertionSort fun a b => a.key ≤ b.key).Pairwise
      fun a b => a.key ≠ b.key := pairwise_map.mp hkeys
  have hlt : (base.deposits.insertionSort fun a b => a.key ≤ b.key).Pairwise
      fun a b => a.key < b.key := (hle.and hne).imp fun h => lt_of_le_of_ne h.1 h.2
  have hreadable : VaultBase.Readable ⟨base.deposits.insertionSort fun a b => a.key ≤ b.key⟩ :=
    { count := hperm.length_eq ▸ hframed.count
      sorted := hlt
      framed := fun d hd => hframed.fields d (hperm.mem_iff.mp hd)
      once := fun d hd => hdistinct.once d (hperm.mem_iff.mp hd) }
  have hbytes : vaultBaseCanonicalBytes ⟨base.deposits.insertionSort fun a b => a.key ≤ b.key⟩ =
      vaultBaseCanonicalBytes base := by
    unfold vaultBaseCanonicalBytes
    rw [hle.insertionSort_eq]
  rw [← hbytes]
  exact decodeVaultBase_canonical hparse hreadable

theorem decodeVaultBase_only {parse : List UInt8 → Option Value} {other : VaultBase} (hframed : base.Framed)
    {bytes : List UInt8} (h : decodeVaultBase parse bytes = .ok other)
    (hpart : bytes <+: vaultBaseCanonicalBytes base ∨ vaultBaseCanonicalBytes base <+: bytes) :
    bytes = vaultBaseCanonicalBytes base := by
  obtain ⟨hbytes, hother⟩ := decodeVaultBase_eq_ok h
  rcases hpart with ⟨r, hr⟩ | ⟨r, hr⟩
  · have hends : vaultBaseCanonicalBytes other ++ r = vaultBaseCanonicalBytes base ++ [] := by
      rw [hbytes, hr, append_nil]
    rw [← hr, vaultBaseCanonicalBytes_delimited hother hframed hends, append_nil]
  · have hends : vaultBaseCanonicalBytes base ++ r = vaultBaseCanonicalBytes other ++ [] := by
      rw [hbytes, hr, append_nil]
    rw [← hr, vaultBaseCanonicalBytes_delimited hframed hother hends, append_nil]

end

section

variable {parse : List UInt8 → Option Value} {what : String}

variable {n : Nat} {s : List UInt8}

theorem takeBytes_overrun (h : s.length < n) :
    takeBytes n what s = .error s!"{what} overruns the stream" :=
  if_neg (Nat.not_le.mpr h)

theorem readField_overrun {raw : List UInt8} (hraw : raw.length = 4) (h : s.length < leValue raw) :
    readField what (raw ++ s) = .error s!"{what} overruns the stream" := by
  have htake := takeBytes_append raw s what
  rw [hraw] at htake
  unfold readField
  rw [htake]
  exact takeBytes_overrun h

theorem length_flatMap_ge {α : Type*} {e : α → List UInt8} {k : Nat} {l : List α}
    (h : ∀ a ∈ l, k ≤ (e a).length) : k * l.length ≤ (l.flatMap e).length := by
  induction l with
  | nil => simp
  | cons a l ih =>
    have ha := h a (.head _)
    have hl := ih fun b hb => h b (.tail _ hb)
    rw [flatMap_cons, length_append, length_cons, Nat.mul_succ]
    omega

theorem putBytes_length (b : List UInt8) : (putBytes b).length = 4 + b.length := by
  unfold putBytes
  rw [length_append, leBytes_length]

theorem decodeGrants_overrun {last : Option String} (h : s.length < 12 * n)
    (read : List VaultBaseGrant × List UInt8) : decodeGrants parse n last s ≠ .ok read := by
  intro hread
  have hread : decodeGrants parse n last s = .ok (read.1, read.2) := hread
  obtain ⟨hs, hlen, -⟩ := decodeGrants_eq_ok hread
  have hleast : 12 * read.1.length ≤ (read.1.flatMap putBaseGrant).length := by
    apply length_flatMap_ge
    intro g _
    unfold putBaseGrant putU64
    rw [length_append, leBytes_length, putBytes_length]
    omega
  rw [hs, length_append] at h
  omega

theorem decodeDeposits_overrun {last : Option SlotKey} (h : s.length < 12 * n)
    (read : List VaultBaseDeposit × List UInt8) : decodeDeposits parse n last s ≠ .ok read := by
  intro hread
  obtain ⟨hs, hlen, -⟩ := decodeDeposits_eq_ok hread
  have hleast : 12 * read.1.length ≤ (read.1.flatMap putBaseDeposit).length := by
    apply length_flatMap_ge
    intro d _
    rw [putBaseDeposit_eq, putInOrder, length_append, length_append, leBytes_length,
      putBytes_length]
    omega
  rw [hs, length_append] at h
  omega

end

end Molt.Vault
