import Mathlib
import MoltRepublic.Lib.Check
import MoltRepublic.Vault.Base

/-! A folded base on its way to another holder: the strict reader of its canonical bytes
(`decode_vault_base`) and the check of its content (`verify_base`). -/

namespace Molt.Vault
open Molt.Core Text Json Framing Check List

/-- The reader's `take`, on what is left of the stream. -/
def takeBytes (n : Nat) (what : String) (rest : List UInt8) :
    Except String (List UInt8 × List UInt8) :=
  if n ≤ rest.length then .ok (rest.take n, rest.drop n) else .error s!"{what} overruns the stream"

def readU64 (what : String) (rest : List UInt8) : Except String (Nat × List UInt8) := do
  let (raw, rest) ← takeBytes 8 what rest
  return (leValue raw, rest)

def readField (what : String) (rest : List UInt8) : Except String (List UInt8 × List UInt8) := do
  let (raw, rest) ← takeBytes 4 what rest
  takeBytes (leValue raw) what rest

/-- `parse` is the text reader of `serde_json`. -/
def decodeRecord (parse : List UInt8 → Option Value) (raw : List UInt8) : Except String VaultOp :=
  match (parse raw).bind VaultOp.fromValue with
  | none => .error "a record is not a vault op"
  | some op => if recordJson op = raw then .ok op else .error "a record is not canonical"

variable (parse : List UInt8 → Option Value)

def decodeGrants : Nat → Option String → List UInt8 →
    Except String (List VaultBaseGrant × List UInt8)
  | 0, _, rest => .ok ([], rest)
  | n + 1, last, rest => do
    let (proposalId, rest) ← readU64 "a proposal id" rest
    let (raw, rest) ← readField "a grant" rest
    match ← decodeRecord parse raw with
    | .grant g =>
      ensure (∀ l, last = some l → l < g.grantId) "grants out of order"
      let (grants, rest) ← decodeGrants n (some g.grantId) rest
      return (⟨UInt64.ofNat proposalId, g⟩ :: grants, rest)
    | _ => throw "a grant slot holds another op"

def decodeDeposits : Nat → Option SlotKey → List UInt8 →
    Except String (List VaultBaseDeposit × List UInt8)
  | 0, _, rest => .ok ([], rest)
  | n + 1, last, rest => do
    let (raw, rest) ← readField "a deposit" rest
    match ← decodeRecord parse raw with
    | .deposit d =>
      ensure (∀ l, last = some l → l < depositKey d) "deposits out of order"
      let (count, rest) ← readU64 "a grant count" rest
      let (grants, rest) ← decodeGrants parse count none rest
      let (deposits, rest) ← decodeDeposits n (some (depositKey d)) rest
      return (⟨d, grants⟩ :: deposits, rest)
    | _ => throw "a deposit slot holds another op"

def decodeVaultBase (bytes : List UInt8) : Except String VaultBase := do
  let head := tag "molt-vault-base-v1"
  ensure (bytes.take head.length = head) "not a molt-vault-base-v1 stream"
  let (count, rest) ← readU64 "the deposit count" (bytes.drop head.length)
  let (deposits, rest) ← decodeDeposits parse count none rest
  ensure (rest = []) "trailing bytes after the base"
  return ⟨deposits⟩

section

theorem takeBytes_append (b r : List UInt8) (what : String) :
    takeBytes b.length what (b ++ r) = .ok (b, r) := by
  unfold takeBytes
  rw [if_pos (by simp), take_left, drop_left]

theorem readU64_append {n : Nat} (h : n < 2 ^ 64) (what : String) (r : List UInt8) :
    readU64 what (leBytes 8 n ++ r) = .ok (n, r) := by
  have htake := takeBytes_append (leBytes 8 n) r what
  rw [leBytes_length] at htake
  unfold readU64
  rw [htake]
  change Except.ok (leValue (leBytes 8 n), r) = _
  rw [leValue_leBytes (by simpa using h)]

theorem readField_append {b : List UInt8} (h : b.length < 2 ^ 32) (what : String) (r : List UInt8) :
    readField what (putBytes b ++ r) = .ok (b, r) := by
  have htake := takeBytes_append (leBytes 4 b.length) (b ++ r) what
  rw [leBytes_length] at htake
  unfold readField putBytes
  rw [append_assoc, htake]
  change takeBytes (leValue (leBytes 4 b.length)) what (b ++ r) = _
  rw [leValue_leBytes (by simpa using h), takeBytes_append]

theorem mapM_asStr (l : List String) : (l.map Value.str).mapM Value.asStr = some l := by
  induction l with
  | nil => rfl
  | cons a l ih =>
    rw [map_cons, mapM_cons, ih]
    rfl

theorem fromValue_toValue (op : VaultOp) : VaultOp.fromValue op.toValue = some op := by
  cases op with
  | deposit d =>
    have hm : getU8 (VaultOp.toValue (.deposit d)) "m" = some d.m := by
      have hget : Value.getU64 (VaultOp.toValue (.deposit d)) "m" = some d.m.toUInt64 := rfl
      have hsmall : d.m.toUInt64.toNat < 256 := by
        exact d.m.toNat_lt
      unfold getU8
      change (if d.m.toUInt64.toNat < 256 then some d.m.toUInt64.toUInt8 else none) = some d.m
      rw [if_pos hsmall, UInt8.toUInt8_toUInt64]
    have hstrs : ∀ key l, Value.get (VaultOp.toValue (.deposit d)) key = some (strs l) →
        getStrs (VaultOp.toValue (.deposit d)) key = some l := by
      intro key l hget
      unfold getStrs
      rw [hget]
      exact mapM_asStr l
    have hfields : depositFromValue (VaultOp.toValue (.deposit d)) = some d := by
      unfold depositFromValue
      rw [hm, hstrs "holders" d.holders rfl, hstrs "commitments" d.commitments rfl,
        hstrs "enc_share" d.encShare rfl]
      by_cases hr : d.replaces = ""
      · obtain ⟨_, _, _, replaces, _, _, _, _, _, _, _⟩ := d
        obtain rfl : replaces = "" := hr
        rfl
      · have hreplaces : Value.get (VaultOp.toValue (.deposit d)) "replaces" = some (.str d.replaces) := by
          simp only [VaultOp.toValue, if_neg hr]
          rfl
        have hsig : Value.getStr (VaultOp.toValue (.deposit d)) "sig_depositor" =
            some d.sigDepositor := by
          simp only [VaultOp.toValue, if_neg hr]
          rfl
        rw [hreplaces, hsig]
        rfl
    have hop : Value.getStr (VaultOp.toValue (.deposit d)) "op" = some "deposit" := rfl
    unfold VaultOp.fromValue
    rw [hop, hfields]
    rfl
  | grant g | vaultBase r => rfl

variable {parse}

theorem decodeRecord_recordJson (hparse : ∀ op : VaultOp, parse (toVec op.toValue) = some op.toValue)
    (op : VaultOp) : decodeRecord parse (recordJson op) = .ok op := by
  unfold decodeRecord
  rw [recordJson, hparse op, Option.bind_some, fromValue_toValue]
  exact if_pos rfl

theorem decodeGrants_append (hparse : ∀ op : VaultOp, parse (toVec op.toValue) = some op.toValue)
    {l : List VaultBaseGrant} (hframed : ∀ g ∈ l, (recordJson (.grant g.grant)).length < 2 ^ 32)
    (hsorted : l.Pairwise fun a b => a.grant.grantId < b.grant.grantId) (last : Option String)
    (hlast : ∀ x, last = some x → ∀ g ∈ l, x < g.grant.grantId) (r : List UInt8) :
    decodeGrants parse l.length last (l.flatMap putBaseGrant ++ r) = .ok (l, r) := by
  induction l generalizing last with
  | nil => rfl
  | cons g l ih =>
    rw [pairwise_cons] at hsorted
    have hrest := ih (fun a ha => hframed a (.tail _ ha)) hsorted.2
      (some g.grant.grantId) (fun x hx a ha => Option.some.inj hx ▸ hsorted.1 a ha)
    have hid : readU64 "a proposal id" (putU64 g.proposalId ++
        (putBytes (recordJson (.grant g.grant)) ++ (l.flatMap putBaseGrant ++ r))) =
        .ok (g.proposalId.toNat, putBytes (recordJson (.grant g.grant)) ++
          (l.flatMap putBaseGrant ++ r)) :=
      readU64_append g.proposalId.toNat_lt _ _
    have hfield := readField_append (hframed g (.head _)) "a grant"
      (l.flatMap putBaseGrant ++ r)
    have hnext : ∀ x, last = some x → x < g.grant.grantId := fun x hx => hlast x hx g (.head _)
    rw [length_cons, decodeGrants, flatMap_cons, putBaseGrant, append_assoc,
      append_assoc, hid]
    simp only [Bind.bind, Except.bind, hfield, decodeRecord_recordJson hparse, ensure, if_pos hnext, hrest,
      pure, Except.pure]
    rw [UInt64.ofNat_toNat]

/-- What a base must be for its bytes to be read back: the framing of the layout, and the
order of the slots and of the grants. -/
structure VaultBase.Readable (base : VaultBase) : Prop where
  count : base.deposits.length < 2 ^ 64
  sorted : base.deposits.Pairwise fun a b => a.key < b.key
  framed : ∀ d ∈ base.deposits, (recordJson (.deposit d.deposit)).length < 2 ^ 32 ∧
    d.grants.length < 2 ^ 64 ∧ ∀ g ∈ d.grants, (recordJson (.grant g.grant)).length < 2 ^ 32
  once : ∀ d ∈ base.deposits, (d.grants.map fun g => g.grant.grantId).Nodup

def VaultBaseDeposit.sorted (d : VaultBaseDeposit) : VaultBaseDeposit :=
  { d with grants := d.grants.insertionSort fun a b => a.grant.grantId ≤ b.grant.grantId }

def VaultBase.sorted (base : VaultBase) : VaultBase := ⟨base.deposits.map VaultBaseDeposit.sorted⟩

theorem sorted_pairwise {grants : List VaultBaseGrant}
    (hnodup : (grants.map fun g => g.grant.grantId).Nodup) :
    (grants.insertionSort fun a b => a.grant.grantId ≤ b.grant.grantId).Pairwise
      fun a b => a.grant.grantId < b.grant.grantId := by
  have hperm := perm_insertionSort
    (fun a b : VaultBaseGrant => a.grant.grantId ≤ b.grant.grantId) grants
  have hsorted := pairwise_insertionSort
    (fun a b : VaultBaseGrant => a.grant.grantId ≤ b.grant.grantId) grants
  have hids := (hperm.map fun g => g.grant.grantId).nodup_iff.mpr hnodup
  have hne : (grants.insertionSort fun a b => a.grant.grantId ≤ b.grant.grantId).Pairwise
      fun a b => a.grant.grantId ≠ b.grant.grantId := pairwise_map.mp hids
  exact (hsorted.and hne).imp fun h => lt_of_le_of_ne h.1 h.2

theorem decodeDeposits_append (hparse : ∀ op : VaultOp, parse (toVec op.toValue) = some op.toValue)
    {l : List VaultBaseDeposit} (hsorted : l.Pairwise fun a b => a.key < b.key)
    (hframed : ∀ d ∈ l, (recordJson (.deposit d.deposit)).length < 2 ^ 32 ∧
      d.grants.length < 2 ^ 64 ∧ ∀ g ∈ d.grants, (recordJson (.grant g.grant)).length < 2 ^ 32)
    (honce : ∀ d ∈ l, (d.grants.map fun g => g.grant.grantId).Nodup) (last : Option SlotKey)
    (hlast : ∀ x, last = some x → ∀ d ∈ l, x < d.key) (r : List UInt8) :
    decodeDeposits parse l.length last (l.flatMap putBaseDeposit ++ r) =
      .ok (l.map VaultBaseDeposit.sorted, r) := by
  induction l generalizing last with
  | nil => rfl
  | cons d l ih =>
    rw [pairwise_cons] at hsorted
    obtain ⟨hrecord, hcount, hgrants⟩ := hframed d (.head _)
    have hrest := ih hsorted.2 (fun a ha => hframed a (.tail _ ha))
      (fun a ha => honce a (.tail _ ha)) (some d.key)
      (fun x hx a ha => Option.some.inj hx ▸ hsorted.1 a ha)
    have hperm := perm_insertionSort
      (fun a b : VaultBaseGrant => a.grant.grantId ≤ b.grant.grantId) d.grants
    have hlength : d.sorted.grants.length < 2 ^ 64 := by
      rw [show d.sorted.grants.length = d.grants.length from hperm.length_eq]
      exact hcount
    have hread : decodeGrants parse d.sorted.grants.length none (d.sorted.grants.flatMap putBaseGrant ++
        (l.flatMap putBaseDeposit ++ r)) = .ok (d.sorted.grants, l.flatMap putBaseDeposit ++ r) :=
      decodeGrants_append hparse (fun g hg => hgrants g (hperm.mem_iff.mp hg))
        (sorted_pairwise (honce d (.head _))) none nofun _
    have hfield := readField_append hrecord "a deposit" (leBytes 8 d.sorted.grants.length ++
      (d.sorted.grants.flatMap putBaseGrant ++ (l.flatMap putBaseDeposit ++ r)))
    have hcounted := readU64_append hlength "a grant count"
      (d.sorted.grants.flatMap putBaseGrant ++ (l.flatMap putBaseDeposit ++ r))
    have hnext : ∀ x, last = some x → x < depositKey d.deposit :=
      fun x hx => hlast x hx d (.head _)
    have hbytes : (d :: l).flatMap putBaseDeposit ++ r = putBytes (recordJson (.deposit d.deposit)) ++
        (leBytes 8 d.sorted.grants.length ++ (d.sorted.grants.flatMap putBaseGrant ++
          (l.flatMap putBaseDeposit ++ r))) := by
      simp [putBaseDeposit, putLen, VaultBaseDeposit.sorted]
    rw [hbytes, length_cons, decodeDeposits, hfield]
    simp only [Bind.bind, Except.bind, decodeRecord_recordJson hparse, ensure, if_pos hnext, hcounted]
    simp only [hread]
    rw [show decodeDeposits parse l.length (some (depositKey d.deposit)) _ = _ from hrest]
    rfl

theorem decodeVaultBase_canonical (hparse : ∀ op : VaultOp, parse (toVec op.toValue) = some op.toValue)
    {base : VaultBase} (h : base.Readable) :
    decodeVaultBase parse (vaultBaseCanonicalBytes base) = .ok base.sorted := by
  have hsame : base.deposits.insertionSort (fun a b => a.key ≤ b.key) = base.deposits :=
    (h.sorted.imp le_of_lt).insertionSort_eq
  have hread := decodeDeposits_append hparse h.sorted h.framed h.once none nofun []
  rw [append_nil] at hread
  unfold decodeVaultBase vaultBaseCanonicalBytes
  dsimp only
  rw [hsame, append_assoc, take_left, drop_left]
  simp only [putLen, readU64_append h.count, hread, Bind.bind, Except.bind, ensure, if_true, pure,
    Except.pure]
  rfl

theorem putBaseDeposit_sorted (d : VaultBaseDeposit) : putBaseDeposit d.sorted = putBaseDeposit d := by
  have hsame : d.sorted.grants.insertionSort (fun a b => a.grant.grantId ≤ b.grant.grantId) =
      d.sorted.grants :=
    (pairwise_insertionSort
      (fun a b : VaultBaseGrant => a.grant.grantId ≤ b.grant.grantId) d.grants).insertionSort_eq
  unfold putBaseDeposit
  rw [hsame]
  rfl

theorem VaultBase.Readable.commitment_sorted (C : Crypto) {base : VaultBase} (h : base.Readable) :
    commitment C base.sorted = commitment C base := by
  have hkeys : base.sorted.deposits.Pairwise fun a b => a.key < b.key :=
    pairwise_map.mpr h.sorted
  have hsame : base.deposits.insertionSort (fun a b => a.key ≤ b.key) = base.deposits :=
    (h.sorted.imp le_of_lt).insertionSort_eq
  have hread : base.sorted.deposits.insertionSort (fun a b => a.key ≤ b.key) = base.sorted.deposits :=
    (hkeys.imp le_of_lt).insertionSort_eq
  have hbytes : vaultBaseCanonicalBytes base.sorted = vaultBaseCanonicalBytes base := by
    unfold vaultBaseCanonicalBytes
    rw [hsame, hread]
    simp [VaultBase.sorted, flatMap_map, putBaseDeposit_sorted]
  unfold commitment
  rw [hbytes]

end

def badBase (why : String) : String := s!"bad base: {why}"

def notASeat (seat : String) : String := s!"not a seat: {seat}"

def verifyBaseGrant (C : Crypto) (ctx : VaultCtx) (sid : String) (grantIds : List String)
    (g : VaultBaseGrant) : Except String (List String) := do
  ensure (g.grant.secretId = sid) (badBase "a grant on another version")
  ensure (∃ h ∈ ctx.holdersInGenesisOrder, h.1 = g.grant.reader) (notASeat g.grant.reader)
  ensure (grantId C sid g.grant.reader g.proposalId = g.grant.grantId)
    (badBase "a grant id does not recompute")
  ensure (g.grant.grantId ∉ grantIds) (badBase "a grant twice")
  return g.grant.grantId :: grantIds

def verifyBaseDeposit (C : Crypto) (republicId : String) (ctx : VaultCtx)
    (seen : List SlotKey × List String) (d : VaultBaseDeposit) :
    Except String (List SlotKey × List String) := do
  ensure (d.key ∉ seen.1) (badBase "a slot twice")
  verifyDepositShape C d.deposit ctx
  match ctx.holdersInGenesisOrder.find? fun h => h.1 == d.deposit.depositor with
  | none => throw (notASeat d.deposit.depositor)
  | some holder =>
    verifyDepositSig C d.deposit republicId holder.2.1
    let grantIds ← d.grants.foldlM (verifyBaseGrant C ctx (secretId C republicId d.deposit)) seen.2
    return (d.key :: seen.1, grantIds)

def verifyBase (C : Crypto) (base : VaultBase) (republicId : String) (ctx : VaultCtx) :
    Except String Unit := do
  let _ ← base.deposits.foldlM (verifyBaseDeposit C republicId ctx) ([], [])

section

variable {C : Crypto} {republicId : String} {ctx : VaultCtx}

def GrantHolds (C : Crypto) (ctx : VaultCtx) (sid : String) (g : VaultBaseGrant) : Prop :=
  g.grant.secretId = sid ∧ (∃ h ∈ ctx.holdersInGenesisOrder, h.1 = g.grant.reader) ∧
    grantId C sid g.grant.reader g.proposalId = g.grant.grantId

def DepositHolds (C : Crypto) (republicId : String) (ctx : VaultCtx) (d : VaultDeposit) : Prop :=
  verifyDepositShape C d ctx = .ok () ∧
    ∃ holder, ctx.holdersInGenesisOrder.find? (fun h => h.1 == d.depositor) = some holder ∧
      verifyDepositSig C d republicId holder.2.1 = .ok ()

structure BaseHolds (C : Crypto) (republicId : String) (ctx : VaultCtx) (base : VaultBase) : Prop where
  slots : (base.deposits.map VaultBaseDeposit.key).Nodup
  deposits : ∀ d ∈ base.deposits, DepositHolds C republicId ctx d.deposit
  grants : ∀ d ∈ base.deposits, ∀ g ∈ d.grants, GrantHolds C ctx (secretId C republicId d.deposit) g
  once : (base.deposits.flatMap fun d => d.grants.map fun g => g.grant.grantId).Nodup

theorem verifyBaseGrants_ok {sid : String} {grants : List VaultBaseGrant}
    (hholds : ∀ g ∈ grants, GrantHolds C ctx sid g) (ids : List String)
    (hnodup : (grants.map fun g => g.grant.grantId).Nodup)
    (hfresh : ∀ g ∈ grants, g.grant.grantId ∉ ids) :
    grants.foldlM (verifyBaseGrant C ctx sid) ids =
      .ok ((grants.map fun g => g.grant.grantId).reverse ++ ids) := by
  induction grants generalizing ids with
  | nil => rfl
  | cons g grants ih =>
    rw [map_cons, nodup_cons] at hnodup
    obtain ⟨hnamed, hreader, hid⟩ := hholds g (.head _)
    have hstep : verifyBaseGrant C ctx sid ids g = .ok (g.grant.grantId :: ids) := by
      unfold verifyBaseGrant ensure
      rw [if_pos hnamed, if_pos hreader, if_pos hid, if_pos (hfresh g (.head _))]
      rfl
    refine foldlM_cons_eq_ok.mpr ⟨_, hstep, ?_⟩
    rw [ih (fun a ha => hholds a (.tail _ ha)) _ hnodup.2, map_cons,
      reverse_cons, append_assoc, singleton_append]
    intro a ha
    rw [mem_cons, not_or]
    refine ⟨fun heq => hnodup.1 (mem_map.mpr ⟨a, ha, heq⟩), hfresh a (.tail _ ha)⟩

theorem verifyBaseDeposits_ok {l : List VaultBaseDeposit} (keys : List SlotKey) (ids : List String)
    (hslots : (l.map VaultBaseDeposit.key).Nodup) (hkeys : ∀ d ∈ l, d.key ∉ keys)
    (hdeposits : ∀ d ∈ l, DepositHolds C republicId ctx d.deposit)
    (hgrants : ∀ d ∈ l, ∀ g ∈ d.grants, GrantHolds C ctx (secretId C republicId d.deposit) g)
    (honce : (l.flatMap fun d => d.grants.map fun g => g.grant.grantId).Nodup)
    (hids : ∀ d ∈ l, ∀ g ∈ d.grants, g.grant.grantId ∉ ids) :
    ∃ seen, l.foldlM (verifyBaseDeposit C republicId ctx) (keys, ids) = .ok seen := by
  induction l generalizing keys ids with
  | nil => exact ⟨_, rfl⟩
  | cons d l ih =>
    rw [map_cons, nodup_cons] at hslots
    rw [flatMap_cons, nodup_append] at honce
    obtain ⟨hown, hothers, hapart⟩ := honce
    obtain ⟨hshape, holder, hfind, hsig⟩ := hdeposits d (mem_cons_self ..)
    have hall := verifyBaseGrants_ok (hgrants d (mem_cons_self ..)) ids hown
      (hids d (mem_cons_self ..))
    have hstep : verifyBaseDeposit C republicId ctx (keys, ids) d = .ok (d.key :: keys,
        (d.grants.map fun g => g.grant.grantId).reverse ++ ids) := by
      unfold verifyBaseDeposit ensure
      rw [if_pos (hkeys d (mem_cons_self ..)), hshape, hfind]
      dsimp only
      rw [hsig, hall]
      rfl
    have hkeysNext : ∀ a ∈ l, a.key ∉ d.key :: keys := by
      intro a ha
      rw [mem_cons, not_or]
      exact ⟨fun heq => hslots.1 (mem_map.mpr ⟨a, ha, heq⟩), hkeys a (mem_cons_of_mem _ ha)⟩
    have hidsNext : ∀ a ∈ l, ∀ g ∈ a.grants,
        g.grant.grantId ∉ (d.grants.map fun g => g.grant.grantId).reverse ++ ids := by
      intro a ha g hg hmem
      rcases mem_append.mp hmem with hmem | hmem
      · exact hapart _ (mem_reverse.mp hmem) _ (mem_flatMap.mpr
          ⟨a, ha, mem_map.mpr ⟨g, hg, rfl⟩⟩) rfl
      · exact hids a (mem_cons_of_mem _ ha) g hg hmem
    obtain ⟨seen, hseen⟩ := ih _ _ hslots.2 hkeysNext
      (fun a ha => hdeposits a (mem_cons_of_mem _ ha))
      (fun a ha => hgrants a (mem_cons_of_mem _ ha)) hothers hidsNext
    exact ⟨seen, foldlM_cons_eq_ok.mpr ⟨_, hstep, hseen⟩⟩

theorem BaseHolds.verifyBase {base : VaultBase} (h : BaseHolds C republicId ctx base) :
    verifyBase C base republicId ctx = .ok () := by
  obtain ⟨seen, hseen⟩ := verifyBaseDeposits_ok [] [] h.slots (by simp) h.deposits h.grants h.once (by simp)
  unfold Vault.verifyBase
  rw [hseen]
  rfl

theorem BaseHolds.sorted {base : VaultBase} (h : BaseHolds C republicId ctx base) :
    BaseHolds C republicId ctx base.sorted := by
  have hperm : ∀ d : VaultBaseDeposit, d.sorted.grants.Perm d.grants := fun d =>
    perm_insertionSort (fun a b : VaultBaseGrant => a.grant.grantId ≤ b.grant.grantId) d.grants
  refine ⟨?_, ?_, ?_, ?_⟩
  · have hkeys : base.sorted.deposits.map VaultBaseDeposit.key = base.deposits.map VaultBaseDeposit.key :=
      map_map
    rw [hkeys]
    exact h.slots
  · intro d hd
    obtain ⟨a, ha, rfl⟩ := mem_map.mp hd
    exact h.deposits a ha
  · intro d hd g hg
    obtain ⟨a, ha, rfl⟩ := mem_map.mp hd
    exact h.grants a ha g ((hperm a).mem_iff.mp hg)
  · have hflat : (base.sorted.deposits.flatMap fun d => d.grants.map fun g => g.grant.grantId).Perm
        (base.deposits.flatMap fun d => d.grants.map fun g => g.grant.grantId) := by
      unfold VaultBase.sorted
      rw [flatMap_map]
      exact List.Perm.flatMap_left _ fun d _ => (hperm d).map _
    exact hflat.nodup_iff.mpr h.once

end

end Molt.Vault
