import Mathlib
import MoltRepublic.Core.SignedBytes
import MoltRepublic.Vault.Base

/-! The vault projection (`vault_state`): the current version of every slot and the grants
with their void marks. The fold of `Vault.Base` keeps the same slots in another structure;
both are read here through one function from slots to their current version. -/

namespace Molt.Vault
open Molt.Core Text Json Framing List SortedMap Function
open Option hiding map_map mem_map mem_map_of_mem

structure VaultVersion where
  deposit : VaultDeposit
  replaces : Option String
  deriving DecidableEq

structure VaultAppliedGrant where
  grant : VaultGrant
  void : Bool
  deriving DecidableEq

structure VaultState where
  current : SortedMap SlotKey String := SortedMap.empty
  versions : SortedMap String VaultVersion := SortedMap.empty
  grants : List VaultAppliedGrant := []

namespace VaultState

/-- `extends`: whether a deposit names the current version of its slot. -/
def extendedBy (st : VaultState) (d : VaultDeposit) : Bool :=
  (st.current.get? (depositKey d)).getD "" == d.replaces

def isCurrent (st : VaultState) (secretId : String) : Bool :=
  (st.versions.get? secretId).any fun v => st.current.get? (depositKey v.deposit) == some secretId

def voidGrants (replaced : Option String) (grants : List VaultAppliedGrant) : List VaultAppliedGrant :=
  grants.map fun g => if replaced = some g.grant.secretId then { g with void := true } else g

variable (C : Crypto) (republicId : String)

def seedDeposit (st : VaultState) (d : VaultBaseDeposit) : VaultState :=
  let sid := secretId C republicId d.deposit
  { current := st.current.insert d.key sid
    versions := st.versions.insert sid ⟨d.deposit, none⟩
    grants := st.grants ++ d.grants.map fun g => ⟨g.grant, false⟩ }

def applyOp (st : VaultState) : VaultOp → VaultState
  | .deposit d =>
    -- a replay, or a replace that lost a race, is void
    if !st.extendedBy d then st
    else
      let sid := secretId C republicId d
      let replaces := st.current.get? (depositKey d)
      { current := st.current.insert (depositKey d) sid
        versions := st.versions.insert sid ⟨d, replaces⟩
        grants := voidGrants replaces st.grants }
  | .grant g => { st with grants := st.grants ++ [⟨g, !st.isCurrent g.secretId⟩] }
  | .vaultBase _ => st

def applyPayload (base : Option VaultBase) (st : VaultState) (payload : Value) : VaultState :=
  if (baseCommitmentOf payload).isSome then
    ((base.map VaultBase.deposits).getD []).foldl (seedDeposit C republicId) st
  else
    match VaultOp.fromValue payload with
    | some op => st.applyOp C republicId op
    | none => st

end VaultState

def vaultState (C : Crypto) (republicId : String) (base : Option VaultBase) (payloads : List Value) :
    VaultState :=
  payloads.foldl (VaultState.applyPayload C republicId base) {}

section

variable {C : Crypto}

theorem contentHash_injective (hsha : Function.Injective C.sha256) : Function.Injective C.contentHash := by
  intro a b h
  have hdecode := congrArg hexDecode h
  rw [Crypto.contentHash, Crypto.contentHash, hexDecode_hexEncode, hexDecode_hexEncode] at hdecode
  exact hsha (Option.some.inj hdecode)

/-- `put_bytes` frames the names of the slot. -/
def SlotFits (d : VaultDeposit) : Prop := StrFits d.depositor ∧ StrFits d.name

theorem utf8_le_writeString (s : String) : (utf8 s).length ≤ (writeString s).length := by
  have hescape : ∀ b : UInt8, 1 ≤ (escapeByte b).length := by
    intro b
    unfold escapeByte
    split_ifs <;> simp
  have hflat : ∀ l : List UInt8, l.length ≤ (l.flatMap escapeByte).length := by
    intro l
    induction l with
    | nil => exact le_rfl
    | cons b l ih =>
      have hb := hescape b
      rw [flatMap_cons, length_append, length_cons]
      omega
  have hstring := hflat (utf8 s)
  simp only [writeString, cons_append, length_cons, length_append]
  omega

variable {key : String}

theorem toVec_le_writeFields {fields : List (String × Value)} {v : Value} (h : (key, v) ∈ fields) :
    (toVec v).length ≤ (writeFields fields).length := by
  induction fields with
  | nil => simp at h
  | cons f fields ih =>
    obtain ⟨k, w⟩ := f
    simp only [writeFields, length_cons, length_append]
    rcases mem_cons.mp h with heq | h
    · obtain ⟨-, rfl⟩ := Prod.mk.inj heq
      omega
    · have hrest := ih h
      omega

variable {payload : Value}

theorem toVec_le_of_get {v : Value} (h : payload.get key = some v) :
    (toVec v).length ≤ (toVec payload).length := by
  cases payload with
  | obj fields =>
    have hmem : (key, v) ∈ fields := mem_of_lookup h
    cases fields with
    | nil => simp at hmem
    | cons f fields =>
      simp only [toVec, length_cons, length_append]
      rcases mem_cons.mp hmem with heq | hmem
      · obtain ⟨-, rfl⟩ := Prod.mk.inj heq
        omega
      · have hrest := toVec_le_writeFields hmem
        omega
  | _ => simp [Value.get] at h

theorem strFits_of_getStr {s : String} (hframed : (toVec payload).length < 2 ^ 32)
    (h : payload.getStr key = some s) : StrFits s := by
  obtain ⟨v, hv, hs⟩ := bind_eq_some_iff.mp h
  obtain rfl : v = .str s := by
    cases v with
    | str t => exact congrArg Value.str (Option.some.inj hs)
    | _ => simp [Value.asStr] at hs
  have hle := toVec_le_of_get hv
  have hstring := utf8_le_writeString s
  unfold StrFits
  simp only [toVec] at hle
  omega

theorem slotFits_of_framed {d : VaultDeposit} (hframed : (toVec payload).length < 2 ^ 32)
    (h : VaultOp.fromValue payload = some (.deposit d)) :
    SlotFits d := by
  have hfields : depositFromValue payload = some d := by
    unfold VaultOp.fromValue at h
    split at h
    · obtain ⟨e, he, heq⟩ := map_eq_some_iff.mp h
      rw [he, VaultOp.deposit.inj heq]
    · obtain ⟨e, -, heq⟩ := map_eq_some_iff.mp h
      simp at heq
    · obtain ⟨e, -, heq⟩ := map_eq_some_iff.mp h
      simp at heq
    · simp at h
  unfold depositFromValue at hfields
  split at hfields
  · simp only [bind_eq_bind, bind_some, bind_eq_some_iff, Option.pure_def,
      Option.some.injEq] at hfields
    obtain ⟨_, hdepositor, _, hname, _, -, _, -, _, -, _, -, _, -, _, -, _, -, _, -, _, -, rfl⟩ := hfields
    exact ⟨strFits_of_getStr hframed hdepositor, strFits_of_getStr hframed hname⟩
  · simp only [bind_eq_bind, bind_eq_some_iff, Option.pure_def, Option.some.injEq] at hfields
    obtain ⟨_, -, _, hdepositor, _, hname, _, -, _, -, _, -, _, -, _, -, _, -, _, -, _, -, _, -, rfl⟩ := hfields
    exact ⟨strFits_of_getStr hframed hdepositor, strFits_of_getStr hframed hname⟩

theorem grantFits_of_framed {g : VaultGrant} (hframed : (toVec payload).length < 2 ^ 32)
    (h : VaultOp.fromValue payload = some (.grant g)) :
    StrFits g.secretId ∧ StrFits g.reader := by
  have hfields : grantFromValue payload = some g := by
    unfold VaultOp.fromValue at h
    split at h
    · obtain ⟨e, -, heq⟩ := map_eq_some_iff.mp h
      simp at heq
    · obtain ⟨e, he, heq⟩ := map_eq_some_iff.mp h
      rw [he, VaultOp.grant.inj heq]
    · obtain ⟨e, -, heq⟩ := map_eq_some_iff.mp h
      simp at heq
    · simp at h
  unfold grantFromValue at hfields
  simp only [bind_eq_bind, bind_eq_some_iff, Option.pure_def, Option.some.injEq] at hfields
  obtain ⟨_, -, _, hsecret, _, hreader, rfl⟩ := hfields
  exact ⟨strFits_of_getStr hframed hsecret, strFits_of_getStr hframed hreader⟩

theorem layout_injective {name : String} {fields fields' : List (List UInt8)}
    (h : layout name fields = layout name fields') (hlength : fields.length = fields'.length) :
    fields.flatten = fields'.flatten := by
  unfold layout at h
  rw [hlength, append_assoc, append_assoc] at h
  exact append_cancel_left (append_cancel_left h)

theorem depositKey_of_secretId (hsha : Function.Injective C.sha256) {republicId : String}
    {d d' : VaultDeposit} (hd : SlotFits d) (hd' : SlotFits d')
    (h : secretId C republicId d = secretId C republicId d') : depositKey d = depositKey d' := by
  have hbytes : secretIdBytes republicId d = secretIdBytes republicId d' := contentHash_injective hsha h
  unfold secretIdBytes at hbytes
  have hfields := layout_injective hbytes rfl
  obtain ⟨hdepositor, hrest⟩ := putStr_delimited hd.1 hd'.1 (append_cancel_left hfields)
  obtain ⟨hname, -⟩ := putStr_delimited hd.2 hd'.2 hrest
  rw [depositKey, depositKey, hdepositor, hname]

theorem proposalId_of_grantId (hsha : Function.Injective C.sha256) {s s' r r' : String}
    {id id' : UInt64} (hs : StrFits s) (hs' : StrFits s') (hr : StrFits r) (hr' : StrFits r')
    (h : grantId C s r id = grantId C s' r' id') : id = id' := by
  have hbytes : grantIdBytes s r id = grantIdBytes s' r' id' := contentHash_injective hsha h
  unfold grantIdBytes at hbytes
  have hfields := layout_injective hbytes rfl
  obtain ⟨-, hrest⟩ := putStr_delimited hs hs' hfields
  obtain ⟨-, hid⟩ := putStr_delimited hr hr' hrest
  have hframed : ∀ n : UInt64, (putU64 n).length < 2 ^ 32 := by
    simp [putU64]
  obtain ⟨hput, -⟩ := putBytes_delimited (hframed id) (hframed id') hid
  have hsame : putU64 id ++ [] = putU64 id' ++ [] := by rw [hput]
  exact (putU64_delimited trivial trivial hsame).1

end

/-- The projection and the slots say the same: `slot` gives the version that is current
in a slot, with the grants that stand on it. -/
structure Mirrors (C : Crypto) (republicId : String) (slot : SlotKey → Option VaultBaseDeposit)
    (st : VaultState) : Prop where
  filed : ∀ k s, slot k = some s → s.key = k
  fits : ∀ k s, slot k = some s → SlotFits s.deposit
  current : ∀ k, st.current.get? k = (slot k).map fun s => secretId C republicId s.deposit
  record : ∀ k s, slot k = some s →
    (st.versions.get? (secretId C republicId s.deposit)).map VaultVersion.deposit = some s.deposit
  grants : ∀ k s, slot k = some s → s.grants.map VaultBaseGrant.grant =
    (st.grants.filter fun g => !g.void && g.grant.secretId == secretId C republicId s.deposit).map
      VaultAppliedGrant.grant
  alive : ∀ g ∈ st.grants, g.void = false →
    ∃ k s, slot k = some s ∧ secretId C republicId s.deposit = g.grant.secretId

namespace Mirrors

variable {C : Crypto} {republicId : String} {slot : SlotKey → Option VaultBaseDeposit}
  {st : VaultState}

theorem empty (C : Crypto) (republicId : String) : Mirrors C republicId (fun _ => none) {} :=
  ⟨nofun, nofun, fun _ => rfl, nofun, nofun, nofun⟩

theorem congr {slot' : SlotKey → Option VaultBaseDeposit} (h : Mirrors C republicId slot st)
    (hslot : ∀ k, slot' k = slot k) : Mirrors C republicId slot' st := by
  obtain rfl : slot' = slot := funext hslot
  exact h

theorem isCurrent_iff (h : Mirrors C republicId slot st) (sid : String) :
    st.isCurrent sid = true ↔ ∃ k s, slot k = some s ∧ secretId C republicId s.deposit = sid := by
  unfold VaultState.isCurrent
  rw [Option.any_eq_true]
  constructor
  · rintro ⟨v, -, hcurrent⟩
    have hsid : (slot (depositKey v.deposit)).map (fun s => secretId C republicId s.deposit) = some sid := by
      rw [← h.current]
      simpa using hcurrent
    obtain ⟨s, hs, heq⟩ := map_eq_some_iff.mp hsid
    exact ⟨_, s, hs, heq⟩
  · rintro ⟨k, s, hs, rfl⟩
    obtain ⟨v, hv, hdeposit⟩ := map_eq_some_iff.mp (h.record k s hs)
    refine ⟨v, hv, ?_⟩
    have hkey : depositKey v.deposit = k := by
      rw [hdeposit]
      exact h.filed k s hs
    rw [hkey, h.current, hs]
    simp

variable {d : VaultDeposit}

theorem slot_unique (hsha : Function.Injective C.sha256) (h : Mirrors C republicId slot st) {k : SlotKey}
    {s : VaultBaseDeposit} (hk : slot k = some s) (hd : SlotFits d)
    (heq : secretId C republicId s.deposit = secretId C republicId d) : k = depositKey d := by
  calc k = s.key := (h.filed k s hk).symm
    _ = depositKey d := depositKey_of_secretId hsha (h.fits k s hk) hd heq

theorem grants_named (h : Mirrors C republicId slot st) {k : SlotKey} {s : VaultBaseDeposit}
    (hk : slot k = some s) : ∀ g ∈ s.grants, g.grant.secretId = secretId C republicId s.deposit := by
  intro g hg
  have hmem : g.grant ∈ s.grants.map VaultBaseGrant.grant := mem_map_of_mem hg
  rw [h.grants k s hk] at hmem
  obtain ⟨a, ha, heq⟩ := mem_map.mp hmem
  obtain ⟨-, hpass⟩ := mem_filter.mp ha
  simp only [Bool.and_eq_true, beq_iff_eq] at hpass
  rw [← heq]
  exact hpass.2

theorem filter_voidGrants {replaced : Option String} {sid : String} (hne : replaced ≠ some sid)
    (grants : List VaultAppliedGrant) :
    ((VaultState.voidGrants replaced grants).filter fun g => !g.void && g.grant.secretId == sid).map
        VaultAppliedGrant.grant =
      (grants.filter fun g => !g.void && g.grant.secretId == sid).map VaultAppliedGrant.grant := by
  induction grants with
  | nil => rfl
  | cons g grants ih =>
    rw [VaultState.voidGrants, map_cons, filter_cons, filter_cons]
    by_cases hvoid : replaced = some g.grant.secretId
    · have hother : (g.grant.secretId == sid) = false := by
        rw [beq_eq_false_iff_ne]
        exact fun heq => hne (heq ▸ hvoid)
      simp only [if_pos hvoid, hother, Bool.and_false, Bool.false_eq_true, if_false]
      exact ih
    · simp only [if_neg hvoid]
      split_ifs
      · rw [map_cons, map_cons]
        exact congrArg _ ih
      · exact ih

theorem mem_voidGrants {replaced : Option String} {grants : List VaultAppliedGrant}
    {g : VaultAppliedGrant} (h : g ∈ VaultState.voidGrants replaced grants) (hvoid : g.void = false) :
    g ∈ grants ∧ replaced ≠ some g.grant.secretId := by
  obtain ⟨a, ha, rfl⟩ := mem_map.mp h
  split_ifs at hvoid ⊢ with hreplaced
  · exact ⟨ha, hreplaced⟩

theorem deposit_stale (h : Mirrors C republicId slot st)
    (hstale : ((slot (depositKey d)).map fun s => secretId C republicId s.deposit).getD "" ≠ d.replaces) :
    st.applyOp C republicId (.deposit d) = st := by
  have hextends : st.extendedBy d = false := by
    rw [VaultState.extendedBy, h.current]
    exact beq_eq_false_iff_ne.mpr hstale
  simp [VaultState.applyOp, hextends]

theorem deposit_next (hsha : Function.Injective C.sha256) (h : Mirrors C republicId slot st) (hd : SlotFits d)
    (hnext : ((slot (depositKey d)).map fun s => secretId C republicId s.deposit).getD "" = d.replaces) :
    Mirrors C republicId (update slot (depositKey d) (some ⟨d, []⟩))
      (st.applyOp C republicId (.deposit d)) := by
  have hextends : st.extendedBy d = true := by
    rw [VaultState.extendedBy, h.current]
    exact beq_iff_eq.mpr hnext
  simp only [VaultState.applyOp, hextends, Bool.not_true, Bool.false_eq_true, if_false]
  have hother : ∀ {k s}, slot k = some s → k ≠ depositKey d →
      secretId C republicId s.deposit ≠ secretId C republicId d :=
    fun hk hne heq => hne (h.slot_unique hsha hk hd heq)
  have hreplaced : ∀ {k s}, slot k = some s → k ≠ depositKey d →
      st.current.get? (depositKey d) ≠ some (secretId C republicId s.deposit) := by
    intro k s hk hne heq
    rw [h.current] at heq
    obtain ⟨t, ht, hsame⟩ := map_eq_some_iff.mp heq
    have hkey := h.slot_unique hsha ht (h.fits k s hk) hsame
    exact hne ((h.filed k s hk).symm.trans hkey.symm)
  refine ⟨?_, ?_, ?_, ?_, ?_, ?_⟩
  · intro k s hs
    by_cases hk : k = depositKey d
    · subst hk
      rw [update_self, Option.some.injEq] at hs
      rw [← hs]
      rfl
    · rw [update_of_ne hk] at hs
      exact h.filed k s hs
  · intro k s hs
    by_cases hk : k = depositKey d
    · subst hk
      rw [update_self, Option.some.injEq] at hs
      rw [← hs]
      exact hd
    · rw [update_of_ne hk] at hs
      exact h.fits k s hs
  · intro k
    rw [get?_insert]
    by_cases hk : k = depositKey d
    · subst hk
      rw [if_pos rfl, update_self]
      rfl
    · rw [if_neg hk, update_of_ne hk]
      exact h.current k
  · intro k s hs
    rw [get?_insert]
    by_cases hk : k = depositKey d
    · subst hk
      rw [update_self, Option.some.injEq] at hs
      rw [← hs, if_pos rfl]
      rfl
    · rw [update_of_ne hk] at hs
      rw [if_neg (hother hs hk)]
      exact h.record k s hs
  · intro k s hs
    by_cases hk : k = depositKey d
    · subst hk
      rw [update_self, Option.some.injEq] at hs
      rw [← hs]
      -- a grant on this version could only stand on the one that is replaced
      have hnone : ((VaultState.voidGrants (st.current.get? (depositKey d)) st.grants).filter fun g =>
          !g.void && g.grant.secretId == secretId C republicId d) = [] := by
        rw [filter_eq_nil_iff]
        intro g hg hpass
        simp only [Bool.and_eq_true, Bool.not_eq_true', beq_iff_eq] at hpass
        obtain ⟨hold, hkept⟩ := mem_voidGrants hg hpass.1
        obtain ⟨k, t, ht, hsid⟩ := h.alive g hold hpass.1
        obtain rfl := h.slot_unique hsha ht hd (hsid.trans hpass.2)
        exact hkept (by rw [h.current, ht, map_some, hsid])
      exact (congrArg (List.map VaultAppliedGrant.grant) hnone).symm
    · rw [update_of_ne hk] at hs
      rw [filter_voidGrants (hreplaced hs hk)]
      exact h.grants k s hs
  · intro g hg hvoid
    obtain ⟨hold, hkept⟩ := mem_voidGrants hg hvoid
    obtain ⟨k, t, ht, hsid⟩ := h.alive g hold hvoid
    have hk : k ≠ depositKey d := by
      rintro rfl
      exact hkept (by rw [h.current, ht, map_some, hsid])
    refine ⟨k, t, ?_, hsid⟩
    rw [update_of_ne hk]
    exact ht

def granted (C : Crypto) (republicId : String) (id : UInt64) (g : VaultGrant) (s : VaultBaseDeposit) :
    VaultBaseDeposit :=
  if secretId C republicId s.deposit == g.secretId then { s with grants := s.grants ++ [⟨id, g⟩] } else s

theorem granted_deposit (id : UInt64) (g : VaultGrant) (s : VaultBaseDeposit) :
    (granted C republicId id g s).deposit = s.deposit := by
  unfold granted
  split_ifs <;> rfl

theorem grant (h : Mirrors C republicId slot st) (id : UInt64) (g : VaultGrant) :
    Mirrors C republicId (fun k => (slot k).map (granted C republicId id g))
      (st.applyOp C republicId (.grant g)) := by
  have hslot : ∀ {k s}, (slot k).map (granted C republicId id g) = some s →
      ∃ t, slot k = some t ∧ s = granted C republicId id g t := by
    intro k s hs
    obtain ⟨t, ht, heq⟩ := map_eq_some_iff.mp hs
    exact ⟨t, ht, heq.symm⟩
  refine ⟨?_, ?_, ?_, ?_, ?_, ?_⟩
  · intro k s hs
    obtain ⟨t, ht, rfl⟩ := hslot hs
    rw [VaultBaseDeposit.key, granted_deposit]
    exact h.filed k t ht
  · intro k s hs
    obtain ⟨t, ht, rfl⟩ := hslot hs
    rw [granted_deposit]
    exact h.fits k t ht
  · intro k
    refine (h.current k).trans ?_
    rw [Option.map_map]
    exact congrArg (fun f => Option.map f (slot k)) (funext fun s =>
      (congrArg (secretId C republicId) (granted_deposit id g s)).symm)
  · intro k s hs
    obtain ⟨t, ht, rfl⟩ := hslot hs
    rw [granted_deposit]
    exact h.record k t ht
  · intro k s hs
    obtain ⟨t, ht, rfl⟩ := hslot hs
    rw [granted_deposit]
    change _ = (List.filter _ (st.grants ++ [⟨g, !st.isCurrent g.secretId⟩])).map _
    rw [filter_append, map_append, ← h.grants k t ht]
    unfold granted
    by_cases hname : secretId C republicId t.deposit = g.secretId
    · have hcurrent : st.isCurrent g.secretId = true := (h.isCurrent_iff _).mpr ⟨k, t, ht, hname⟩
      simp [hname, hcurrent]
    · have hother : g.secretId ≠ secretId C republicId t.deposit := fun heq => hname heq.symm
      simp [hname, hother]
  · intro a ha hvoid
    rcases mem_append.mp ha with ha | ha
    · obtain ⟨k, t, ht, hsid⟩ := h.alive a ha hvoid
      refine ⟨k, granted C republicId id g t, by rw [ht]; rfl, ?_⟩
      rw [granted_deposit]
      exact hsid
    · obtain rfl := mem_singleton.mp ha
      have hcurrent : st.isCurrent g.secretId = true := by simpa using hvoid
      obtain ⟨k, t, ht, hsid⟩ := (h.isCurrent_iff _).mp hcurrent
      refine ⟨k, granted C republicId id g t, by rw [ht]; rfl, ?_⟩
      rw [granted_deposit]
      exact hsid

theorem seed (hsha : Function.Injective C.sha256) (h : Mirrors C republicId slot st)
    {d : VaultBaseDeposit} (hd : SlotFits d.deposit) (hfree : slot d.key = none)
    (hnamed : ∀ g ∈ d.grants, g.grant.secretId = secretId C republicId d.deposit) :
    Mirrors C republicId (update slot d.key (some d)) (st.seedDeposit C republicId d) := by
  have hkey : ∀ {k s}, slot k = some s → secretId C republicId s.deposit ≠ secretId C republicId d.deposit := by
    intro k s hk heq
    have hsame : k = d.key := h.slot_unique hsha hk hd heq
    rw [hsame, hfree] at hk
    exact absurd hk (by simp)
  have hslot : ∀ {k s}, update slot d.key (some d) k = some s →
      (k = d.key ∧ s = d) ∨ (k ≠ d.key ∧ slot k = some s) := by
    intro k s hs
    by_cases hk : k = d.key
    · rw [hk, update_self, Option.some.injEq] at hs
      exact .inl ⟨hk, hs.symm⟩
    · rw [update_of_ne hk] at hs
      exact .inr ⟨hk, hs⟩
  refine ⟨?_, ?_, ?_, ?_, ?_, ?_⟩
  · intro k s hs
    rcases hslot hs with ⟨rfl, rfl⟩ | ⟨-, hs⟩
    · rfl
    · exact h.filed k s hs
  · intro k s hs
    rcases hslot hs with ⟨rfl, rfl⟩ | ⟨-, hs⟩
    · exact hd
    · exact h.fits k s hs
  · intro k
    change (st.current.insert d.key _).get? k = _
    rw [get?_insert]
    by_cases hk : k = d.key
    · rw [hk, if_pos rfl, update_self]
      rfl
    · rw [if_neg hk, update_of_ne hk]
      exact h.current k
  · intro k s hs
    change ((st.versions.insert _ _).get? _).map _ = _
    rw [get?_insert]
    rcases hslot hs with ⟨rfl, rfl⟩ | ⟨-, hs⟩
    · rw [if_pos rfl]
      rfl
    · rw [if_neg (hkey hs)]
      exact h.record k s hs
  · intro k s hs
    change _ = (List.filter _ (st.grants ++ d.grants.map fun g => ⟨g.grant, false⟩)).map _
    rw [filter_append, map_append]
    rcases hslot hs with ⟨rfl, rfl⟩ | ⟨-, hs⟩
    · have hold : (st.grants.filter fun g =>
          !g.void && g.grant.secretId == secretId C republicId s.deposit) = [] := by
        rw [filter_eq_nil_iff]
        intro g hg hpass
        simp only [Bool.and_eq_true, Bool.not_eq_true', beq_iff_eq] at hpass
        obtain ⟨k, t, ht, hsid⟩ := h.alive g hg hpass.1
        exact hkey ht (hsid.trans hpass.2)
      have hnew : ((s.grants.map fun g => (⟨g.grant, false⟩ : VaultAppliedGrant)).filter fun g =>
          !g.void && g.grant.secretId == secretId C republicId s.deposit) =
            s.grants.map fun g => ⟨g.grant, false⟩ := by
        refine filter_eq_self.mpr fun g hg => ?_
        obtain ⟨a, ha, rfl⟩ := mem_map.mp hg
        simp [hnamed a ha]
      rw [hold, hnew, map_nil, nil_append, map_map]
      rfl
    · have hnone : ((d.grants.map fun g => (⟨g.grant, false⟩ : VaultAppliedGrant)).filter fun g =>
          !g.void && g.grant.secretId == secretId C republicId s.deposit) = [] := by
        rw [filter_eq_nil_iff]
        intro g hg hpass
        obtain ⟨a, ha, rfl⟩ := mem_map.mp hg
        simp only [Bool.and_eq_true, beq_iff_eq] at hpass
        exact hkey hs (hpass.2.symm.trans (hnamed a ha))
      rw [hnone, map_nil, append_nil]
      exact h.grants k s hs
  · intro a ha hvoid
    rcases mem_append.mp ha with ha | ha
    · obtain ⟨k, t, ht, hsid⟩ := h.alive a ha hvoid
      have hk : k ≠ d.key := by
        rintro rfl
        rw [hfree] at ht
        exact absurd ht (by simp)
      refine ⟨k, t, ?_, hsid⟩
      rw [update_of_ne hk]
      exact ht
    · obtain ⟨g, hg, rfl⟩ := mem_map.mp ha
      exact ⟨d.key, d, update_self .., (hnamed g hg).symm⟩

theorem seedAll (hsha : Function.Injective C.sha256) (h : Mirrors C republicId slot st)
    (l : List (SlotKey × VaultBaseDeposit)) (hnodup : (l.map Prod.fst).Nodup)
    (hfiled : ∀ e ∈ l, e.2.key = e.1) (hfits : ∀ e ∈ l, SlotFits e.2.deposit)
    (hfree : ∀ e ∈ l, slot e.1 = none)
    (hnamed : ∀ e ∈ l, ∀ g ∈ e.2.grants, g.grant.secretId = secretId C republicId e.2.deposit) :
    ∃ slot', Mirrors C republicId slot'
        ((l.map Prod.snd).foldl (VaultState.seedDeposit C republicId) st) ∧
      (∀ e ∈ l, slot' e.1 = some e.2) ∧ ∀ k ∉ l.map Prod.fst, slot' k = slot k := by
  induction l generalizing slot st with
  | nil => exact ⟨slot, h, by simp, fun _ _ => rfl⟩
  | cons e l ih =>
    rw [map_cons, nodup_cons] at hnodup
    have hkey : e.2.key = e.1 := hfiled e (.head _)
    have hslot : slot e.2.key = none := by
      rw [hkey]
      exact hfree e (.head _)
    have hseed := h.seed hsha (hfits e (.head _)) hslot
      (hnamed e (.head _))
    have hstill : ∀ c ∈ l, update slot e.2.key (some e.2) c.1 = none := by
      intro c hc
      have hne : c.1 ≠ e.2.key := by
        rw [hkey]
        exact fun heq => hnodup.1 (mem_map.mpr ⟨c, hc, heq⟩)
      rw [update_of_ne hne]
      exact hfree c (.tail _ hc)
    obtain ⟨slot', hrest, hin, hout⟩ := ih hseed hnodup.2
      (fun c hc => hfiled c (.tail _ hc))
      (fun c hc => hfits c (.tail _ hc)) hstill
      (fun c hc => hnamed c (.tail _ hc))
    refine ⟨slot', hrest, ?_, ?_⟩
    · intro c hc
      rcases mem_cons.mp hc with rfl | hc
      · rw [hout _ hnodup.1, ← hkey, update_self]
      · exact hin c hc
    · intro k hk
      rw [map_cons, mem_cons, not_or] at hk
      rw [hout k hk.2, update_of_ne (hkey ▸ hk.1)]

theorem seed_values (hsha : Function.Injective C.sha256) {slots : Slots}
    (h : Mirrors C republicId slots.get? st) :
    Mirrors C republicId slots.get? (slots.values.foldl (VaultState.seedDeposit C republicId) {}) := by
  have hget : ∀ e ∈ slots.entries, slots.get? e.1 = some e.2 := fun e he => get?_eq_some.mpr he
  obtain ⟨slot', hmirrors, hin, hout⟩ := (empty C republicId).seedAll hsha slots.entries slots.keys_nodup
    (fun e he => h.filed _ _ (hget e he)) (fun e he => h.fits _ _ (hget e he)) (fun _ _ => rfl)
    (fun e he => h.grants_named (hget e he))
  refine hmirrors.congr fun k => ?_
  by_cases hk : k ∈ slots.entries.map Prod.fst
  · obtain ⟨e, he, rfl⟩ := mem_map.mp hk
    rw [hin e he, hget e he]
  · have hnone : slots.get? k = none := by
      rw [eq_none_iff_forall_ne_some]
      exact fun s hs => hk (mem_map.mpr ⟨(k, s), get?_eq_some.mp hs, rfl⟩)
    rw [hout k hk, hnone]

theorem foldOp (hsha : Function.Injective C.sha256) {slots slots' : Slots}
    (h : Mirrors C republicId slots.get? st) {id : UInt64} {op : VaultOp}
    (hop : ∀ d, op = .deposit d → SlotFits d)
    (hfold : Vault.foldOp C republicId id slots op = some slots') :
    Mirrors C republicId slots'.get? (st.applyOp C republicId op) := by
  cases op with
  | deposit d =>
    simp only [Vault.foldOp, Option.some.injEq] at hfold
    subst hfold
    split_ifs with hnext
    · refine (h.deposit_next hsha (hop d rfl) hnext).congr fun k => ?_
      rw [get?_insert]
      by_cases hk : k = depositKey d
      · rw [hk, if_pos rfl, update_self]
      · rw [if_neg hk, update_of_ne hk]
    · rw [h.deposit_stale hnext]
      exact h
  | grant g =>
    simp only [Vault.foldOp, Option.some.injEq] at hfold
    subst hfold
    refine (h.grant id g).congr fun k => ?_
    refine (get?_modifyFirst (fun k s j t hk hj hs ht => ?_) k).trans ?_
    · have heq : secretId C republicId s.deposit = secretId C republicId t.deposit :=
        (beq_iff_eq.mp hs).trans (beq_iff_eq.mp ht).symm
      exact (h.slot_unique hsha hk (h.fits j t hj) heq).trans (h.filed j t hj)
    · rfl
  | vaultBase r => simp [Vault.foldOp] at hfold

theorem live_iff (h : Mirrors C republicId slot st) (g : VaultGrant) :
    (∃ a ∈ st.grants, a.void = false ∧ a.grant = g) ↔
      ∃ k s, slot k = some s ∧ ∃ b ∈ s.grants, b.grant = g := by
  constructor
  · rintro ⟨a, ha, hvoid, rfl⟩
    obtain ⟨k, s, hs, hsid⟩ := h.alive a ha hvoid
    have hmem : a.grant ∈ s.grants.map VaultBaseGrant.grant := by
      rw [h.grants k s hs]
      refine mem_map_of_mem (mem_filter.mpr ⟨ha, ?_⟩)
      simp [hvoid, hsid]
    obtain ⟨b, hb, heq⟩ := mem_map.mp hmem
    exact ⟨k, s, hs, b, hb, heq⟩
  · rintro ⟨k, s, hs, b, hb, rfl⟩
    have hmem : b.grant ∈ s.grants.map VaultBaseGrant.grant := mem_map_of_mem hb
    rw [h.grants k s hs] at hmem
    obtain ⟨a, ha, heq⟩ := mem_map.mp hmem
    obtain ⟨ha, hpass⟩ := mem_filter.mp ha
    simp only [Bool.and_eq_true, Bool.not_eq_true'] at hpass
    exact ⟨a, ha, hpass.1, heq⟩

end Mirrors

structure SameView (st st' : VaultState) : Prop where
  current : ∀ k, st'.current.get? k = st.current.get? k
  isCurrent : ∀ sid, st'.isCurrent sid = st.isCurrent sid
  live : ∀ g, (∃ a ∈ st'.grants, a.void = false ∧ a.grant = g) ↔ ∃ a ∈ st.grants, a.void = false ∧ a.grant = g

/-- A base that is the projection: one deposit for every current slot, with the record of
that version and the grants on it that are not void. -/
structure Projected (C : Crypto) (republicId : String) (st : VaultState) (base : VaultBase) : Prop where
  slots : (base.deposits.map VaultBaseDeposit.key).Nodup
  current : ∀ k sid, st.current.get? k = some sid ↔
    ∃ d ∈ base.deposits, d.key = k ∧ secretId C republicId d.deposit = sid
  record : ∀ d ∈ base.deposits,
    (st.versions.get? (secretId C republicId d.deposit)).map VaultVersion.deposit = some d.deposit
  grants : ∀ d ∈ base.deposits, d.grants.map VaultBaseGrant.grant =
    (st.grants.filter fun g => !g.void && g.grant.secretId == secretId C republicId d.deposit).map
      VaultAppliedGrant.grant
  live : ∀ g, (∃ a ∈ st.grants, a.void = false ∧ a.grant = g) ↔
    ∃ d ∈ base.deposits, ∃ b ∈ d.grants, b.grant = g

section

variable {C : Crypto} {republicId : String}

variable {slots : Slots} {st : VaultState}

theorem Mirrors.keys (h : Mirrors C republicId slots.get? st) :
    slots.values.map VaultBaseDeposit.key = slots.entries.map Prod.fst := by
  unfold SortedMap.values
  rw [map_map]
  exact map_congr_left fun e he => h.filed e.1 e.2 (get?_eq_some.mpr he)

theorem Mirrors.projected (h : Mirrors C republicId slots.get? st) :
    Projected C republicId st ⟨slots.values⟩ where
  slots := by
    rw [h.keys]
    exact slots.keys_nodup
  current k sid := by
    rw [h.current, map_eq_some_iff]
    constructor
    · rintro ⟨s, hs, hsid⟩
      exact ⟨s, mem_values.mpr ⟨k, hs⟩, h.filed k s hs, hsid⟩
    · rintro ⟨d, hd, hk, hsid⟩
      obtain ⟨j, hj⟩ := mem_values.mp hd
      obtain rfl : j = k := (h.filed j d hj).symm.trans hk
      exact ⟨d, hj, hsid⟩
  record d hd := by
    obtain ⟨k, hk⟩ := mem_values.mp hd
    exact h.record k d hk
  grants d hd := by
    obtain ⟨k, hk⟩ := mem_values.mp hd
    exact h.grants k d hk
  live g := by
    rw [h.live_iff]
    constructor
    · rintro ⟨k, s, hs, hg⟩
      exact ⟨s, mem_values.mpr ⟨k, hs⟩, hg⟩
    · rintro ⟨d, hd, hg⟩
      obtain ⟨k, hk⟩ := mem_values.mp hd
      exact ⟨k, d, hk, hg⟩

theorem Mirrors.sameView {slot : SlotKey → Option VaultBaseDeposit} {st' : VaultState}
    (h : Mirrors C republicId slot st) (h' : Mirrors C republicId slot st') : SameView st st' where
  current k := (h'.current k).trans (h.current k).symm
  isCurrent sid := by
    rw [Bool.eq_iff_iff, h'.isCurrent_iff, h.isCurrent_iff]
  live g := by
    rw [h'.live_iff, h.live_iff]

def nextSlots (C : Crypto) (republicId : String) (slots : Slots) (e : UInt64 × Value) : Slots :=
  ((VaultOp.fromValue e.2).bind (foldOp C republicId e.1 slots)).getD slots

/-- An applied payload that commits to no base and that `put_bytes` frames. -/
structure Plain (payload : Value) : Prop where
  free : baseCommitmentOf payload = none
  framed : (toVec payload).length < 2 ^ 32

theorem Mirrors.payload (hsha : Function.Injective C.sha256) (h : Mirrors C republicId slots.get? st)
    (base : Option VaultBase) {e : UInt64 × Value} (he : Plain e.2) :
    Mirrors C republicId (nextSlots C republicId slots e).get? (st.applyPayload C republicId base e.2) := by
  unfold VaultState.applyPayload nextSlots
  rw [he.free]
  cases hop : VaultOp.fromValue e.2 with
  | none => exact h
  | some op =>
    simp only [bind_some]
    cases hfold : Vault.foldOp C republicId e.1 slots op with
    | none =>
      cases op with
      | deposit d | grant g => simp [Vault.foldOp] at hfold
      | vaultBase r => exact h
    | some slots' => exact h.foldOp hsha (fun d hd => slotFits_of_framed he.framed
      (hop.trans (congrArg some hd))) hfold

theorem Mirrors.payloads (hsha : Function.Injective C.sha256) (base : Option VaultBase)
    (l : List (UInt64 × Value)) (h : Mirrors C republicId slots.get? st) (hplain : ∀ e ∈ l, Plain e.2) :
    Mirrors C republicId (l.foldl (nextSlots C republicId) slots).get?
      ((l.map Prod.snd).foldl (VaultState.applyPayload C republicId base) st) := by
  induction l generalizing slots st with
  | nil => exact h
  | cons e l ih =>
    exact ih (h.payload hsha base (hplain e (.head _)))
      fun c hc => hplain c (.tail _ hc)

end

end Molt.Vault
