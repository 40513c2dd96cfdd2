import Mathlib
import MoltRepublic.Chain.Soundness
import MoltRepublic.Chain.Refold
import MoltRepublic.Lib.Stages
import MoltRepublic.Vault.State
import MoltRepublic.Vault.Decode

/-! The vault of an accepted chain, folded cut by cut: the base is the projection, and no
holder that receives it refuses it (`vault_base::summarize`, `vault_state`). -/

namespace Molt.Chain
open Molt.Core Json Vault Check List SortedMap Option Nat

variable {C : Crypto}

def vaultEntry (b : ChainBlock) : Option (UInt64 × Value) :=
  match b.change with
  | .applied id .vault payload => some (id, payload)
  | _ => none

def vaultEntries (blocks : List ChainBlock) : List (UInt64 × Value) := blocks.filterMap vaultEntry

theorem vaultEntry_eq_some {b : ChainBlock} {e : UInt64 × Value} (h : vaultEntry b = some e) :
    b.change = .applied e.1 .vault e.2 := by
  unfold vaultEntry at h
  split at h
  · rename_i hc
    rw [hc, ← Option.some.inj h]
  · simp at h

theorem vaultEntries_ids (blocks : List ChainBlock) :
    List.Sublist ((vaultEntries blocks).map Prod.fst) (blocks.filterMap appliedId) := by
  induction blocks with
  | nil => exact List.Sublist.slnil
  | cons b blocks ih =>
    unfold vaultEntries
    cases hentry : vaultEntry b with
    | none =>
      rw [filterMap_cons_none hentry]
      cases hid : appliedId b with
      | none =>
        rw [filterMap_cons_none hid]
        exact ih
      | some id =>
        rw [filterMap_cons_some hid]
        exact ih.cons id
    | some e =>
      have hid : appliedId b = some e.1 := by simp [appliedId, vaultEntry_eq_some hentry]
      rw [filterMap_cons_some hentry, filterMap_cons_some hid, map_cons]
      exact ih.cons_cons e.1

section

variable {republicId : String} {ctx : VaultCtx} {id : UInt64} {payload : Value}

theorem throw_ne_ok {α : Type} {e : String} {a : α} : (throw e : Except String α) ≠ .ok a := by
  simp [throw, throwThe, MonadExceptOf.throw]

theorem throw_bind_ne_ok {α β : Type} {e : String} {f : α → Except String β} {b : β} :
    ((throw e : Except String α) >>= f) ≠ .ok b := by
  intro h
  obtain ⟨a, ha, -⟩ := bind_eq_ok.mp h
  exact throw_ne_ok ha

theorem checkGrant_eq_ok {g : VaultGrant} (h : checkGrant C g id ctx = .ok ()) :
    GrantHolds C ctx g.secretId ⟨id, g⟩ := by
  unfold checkGrant at h
  dsimp only at h
  by_cases hreader : (!ctx.holdersInGenesisOrder.any fun h => h.1 == g.reader) = true
  · rw [if_pos hreader] at h
    exact absurd h throw_bind_ne_ok
  · rw [if_neg hreader] at h
    by_cases hid : g.grantId ≠ grantId C g.secretId g.reader id
    · rw [if_pos hid] at h
      exact absurd h throw_ne_ok
    · refine ⟨rfl, ?_, (not_not.mp hid).symm⟩
      simpa using hreader

theorem checkVaultOp_eq_ok {op : VaultOp} (h : checkVaultOp C republicId id payload ctx = .ok op) :
    VaultOp.fromValue payload = some op ∧ op.toValue = payload ∧
      ((∃ d, op = .deposit d ∧ DepositHolds C republicId ctx d) ∨
        ∃ g, op = .grant g ∧ GrantHolds C ctx g.secretId ⟨id, g⟩) := by
  unfold checkVaultOp at h
  split at h
  · rename_i op' hop
    by_cases hcanonical : op'.toValue ≠ payload
    · rw [if_pos hcanonical] at h
      exact absurd h throw_bind_ne_ok
    · rw [if_neg hcanonical] at h
      cases op' with
      | deposit d =>
        obtain ⟨_, hshape, h⟩ := bind_eq_ok.mp h
        rw [mapError_eq_ok] at hshape
        split at h
        · exact absurd h throw_bind_ne_ok
        · rename_i holder hfind
          obtain ⟨_, hsig, h⟩ := bind_eq_ok.mp h
          rw [mapError_eq_ok] at hsig
          obtain rfl := pure_eq_ok.mp h
          exact ⟨hop, not_not.mp hcanonical, .inl ⟨d, rfl, hshape, holder, hfind, hsig⟩⟩
      | grant g =>
        obtain ⟨_, hgrant, h⟩ := bind_eq_ok.mp h
        obtain rfl := pure_eq_ok.mp h
        exact ⟨hop, not_not.mp hcanonical, .inr ⟨g, rfl, checkGrant_eq_ok hgrant⟩⟩
      | vaultBase r => exact absurd h throw_bind_ne_ok
  · exact absurd h throw_ne_ok

def Accepted (C : Crypto) (republicId : String) (ctx : VaultCtx) (e : UInt64 × Value) : Prop :=
  ∃ op, checkVaultOp C republicId e.1 e.2 ctx = .ok op

theorem Accepted.free {e : UInt64 × Value} (h : Accepted C republicId ctx e) :
    baseCommitmentOf e.2 = none := by
  obtain ⟨op, hop⟩ := h
  obtain ⟨-, hvalue, ⟨d, rfl, -⟩ | ⟨g, rfl, -⟩⟩ := checkVaultOp_eq_ok hop
  · rw [← hvalue]
    rfl
  · rw [← hvalue]
    rfl

end

theorem foldOne_accepts {ctx : VaultCtx} {s t : CheckpointState} {b : ChainBlock} {e : UInt64 × Value}
    (h : foldOne C s b (some ctx) = (t, .ok ())) (hentry : vaultEntry b = some e) :
    Accepted C s.republicId ctx e := by
  unfold foldOne at h
  rw [vaultEntry_eq_some hentry] at h
  dsimp only at h
  split at h
  · simp at h
  · rename_i hcheck
    obtain ⟨_, -, hop⟩ := bind_eq_ok.mp hcheck
    obtain ⟨op, hop, -⟩ := bind_eq_ok.mp hop
    rw [mapError_eq_ok] at hop
    exact ⟨op, hop⟩

theorem Walked.vaultEntries_accepted {g : Genesis} {blocks : List ChainBlock} {w : ChainWalk}
    {ctx : VaultCtx} (hw : Walked C g blocks w) (hctx : w.vault = some ctx) :
    (∀ e ∈ vaultEntries blocks, Accepted C g.republicId ctx e) ∧
      ((vaultEntries blocks).map Prod.fst).Nodup := by
  obtain ⟨b, rest, rfl, hc⟩ := hw.opens
  have hopening : vaultEntries (b :: rest) = vaultEntries rest := by
    simp [vaultEntries, vaultEntry, hc]
  refine ⟨?_, ?_⟩
  · rw [hopening]
    have hall := foldlM_history (k := [])
      (P := fun (k : List ChainBlock) (s : CheckpointState) => s.republicId = g.republicId ∧
        ∀ e ∈ vaultEntries k, Accepted C g.republicId ctx e)
      (fun k s c t hs h => by
        have hfold := foldNext_eq_ok.mp h
        refine ⟨(foldOne_sameFounding hfold).republicId.trans hs.1, ?_⟩
        unfold vaultEntries
        rw [filterMap_append]
        intro e he
        rcases mem_append.mp he with he | he
        · exact hs.2 e he
        · obtain ⟨c', hc', hentry⟩ := mem_filterMap.mp he
          obtain rfl := mem_singleton.mp hc'
          rw [hctx] at hfold
          exact hs.1 ▸ foldOne_accepts hfold hentry) ⟨rfl, by simp [vaultEntries]⟩ hw.running
    simpa using hall.2
  · exact hw.once.sublist (vaultEntries_ids _)

section

variable {republicId : String} {ctx : VaultCtx} {slots : Slots} {e : UInt64 × Value}

theorem nextSlots_deposit {d : VaultDeposit} (hop : VaultOp.fromValue e.2 = some (.deposit d))
    {k : SlotKey} {s : VaultBaseDeposit} (h : (nextSlots C republicId slots e).get? k = some s) :
    slots.get? k = some s ∨ k = depositKey d ∧ s = ⟨d, []⟩ := by
  have hnext : nextSlots C republicId slots e = if ((slots.get? (depositKey d)).map fun s =>
      secretId C republicId s.deposit).getD "" = d.replaces then slots.insert (depositKey d) ⟨d, []⟩
      else slots := by
    unfold nextSlots
    rw [hop]
    rfl
  rw [hnext] at h
  split_ifs at h
  · rw [get?_insert] at h
    split_ifs at h with hk
    · exact .inr ⟨hk, (Option.some.inj h).symm⟩
    · exact .inl h
  · exact .inl h

variable {st : VaultState}

theorem nextSlots_grant (hsha : Function.Injective C.sha256) (hm : Mirrors C republicId slots.get? st)
    {g : VaultGrant} (hop : VaultOp.fromValue e.2 = some (.grant g)) (k : SlotKey) :
    (nextSlots C republicId slots e).get? k =
      (slots.get? k).map (Mirrors.granted C republicId e.1 g) := by
  have hnext : nextSlots C republicId slots e = slots.modifyFirst
      (fun s => secretId C republicId s.deposit == g.secretId)
      (fun s => { s with grants := s.grants ++ [⟨e.1, g⟩] }) := by
    unfold nextSlots
    rw [hop]
    rfl
  rw [hnext]
  refine (get?_modifyFirst (fun k s j t hk hj hs ht => ?_) k).trans rfl
  have heq : secretId C republicId s.deposit = secretId C republicId t.deposit :=
    (beq_iff_eq.mp hs).trans (beq_iff_eq.mp ht).symm
  exact (hm.slot_unique hsha hk (hm.fits j t hj) heq).trans (hm.filed j t hj)

structure Grounded (C : Crypto) (republicId : String) (ctx : VaultCtx) (slots : Slots)
    (ids : List UInt64) : Prop where
  deposits : ∀ k s, slots.get? k = some s → DepositHolds C republicId ctx s.deposit ∧
    (recordJson (.deposit s.deposit)).length < 2 ^ 32
  grants : ∀ k s, slots.get? k = some s → ∀ g ∈ s.grants, GrantHolds C ctx g.grant.secretId g ∧
    (recordJson (.grant g.grant)).length < 2 ^ 32 ∧ StrFits g.grant.secretId ∧ StrFits g.grant.reader
  own : ∀ k s, slots.get? k = some s → (s.grants.map VaultBaseGrant.proposalId).Nodup
  apart : ∀ k s j t, slots.get? k = some s → slots.get? j = some t → k ≠ j →
    ∀ g ∈ s.grants, ∀ h ∈ t.grants, g.proposalId ≠ h.proposalId
  used : ∀ k s, slots.get? k = some s → ∀ g ∈ s.grants, g.proposalId ∈ ids

theorem Grounded.empty (C : Crypto) (republicId : String) (ctx : VaultCtx) :
    Grounded C republicId ctx SortedMap.empty [] :=
  ⟨nofun, nofun, nofun, nofun, nofun⟩

variable {ids : List UInt64}

theorem Grounded.deposit (h : Grounded C republicId ctx slots ids) {d : VaultDeposit}
    (hop : VaultOp.fromValue e.2 = some (.deposit d)) (hholds : DepositHolds C republicId ctx d)
    (hframed : (recordJson (.deposit d)).length < 2 ^ 32) :
    Grounded C republicId ctx (nextSlots C republicId slots e) (ids ++ [e.1]) := by
  refine ⟨?_, ?_, ?_, ?_, ?_⟩
  · intro k s hs
    rcases nextSlots_deposit hop hs with hs | ⟨-, rfl⟩
    · exact h.deposits k s hs
    · exact ⟨hholds, hframed⟩
  · intro k s hs
    rcases nextSlots_deposit hop hs with hs | ⟨-, rfl⟩
    · exact h.grants k s hs
    · simp
  · intro k s hs
    rcases nextSlots_deposit hop hs with hs | ⟨-, rfl⟩
    · exact h.own k s hs
    · simp
  · intro k s j t hs ht hne
    rcases nextSlots_deposit hop hs with hs | ⟨-, rfl⟩
    · rcases nextSlots_deposit hop ht with ht | ⟨-, rfl⟩
      · exact h.apart k s j t hs ht hne
      · simp
    · simp
  · intro k s hs g hg
    rcases nextSlots_deposit hop hs with hs | ⟨-, rfl⟩
    · exact mem_append_left _ (h.used k s hs g hg)
    · simp at hg

theorem Grounded.grant (hsha : Function.Injective C.sha256) (h : Grounded C republicId ctx slots ids)
    (hm : Mirrors C republicId slots.get? st) {g : VaultGrant} (hop : VaultOp.fromValue e.2 = some (.grant g))
    (hholds : GrantHolds C ctx g.secretId ⟨e.1, g⟩) (hframed : (recordJson (.grant g)).length < 2 ^ 32)
    (hfits : StrFits g.secretId ∧ StrFits g.reader) (hnew : e.1 ∉ ids) :
    Grounded C republicId ctx (nextSlots C republicId slots e) (ids ++ [e.1]) := by
  have hslot : ∀ {k s}, (nextSlots C republicId slots e).get? k = some s → ∃ t, slots.get? k = some t ∧
      s.deposit = t.deposit ∧ (s.grants = t.grants ∨
        (secretId C republicId t.deposit = g.secretId ∧ s.grants = t.grants ++ [⟨e.1, g⟩])) := by
    intro k s hs
    rw [nextSlots_grant hsha hm hop] at hs
    obtain ⟨t, ht, rfl⟩ := map_eq_some_iff.mp hs
    refine ⟨t, ht, Mirrors.granted_deposit _ _ _, ?_⟩
    unfold Mirrors.granted
    split_ifs with hname
    · exact .inr ⟨beq_iff_eq.mp hname, rfl⟩
    · exact .inl rfl
  have hmem : ∀ {k s}, (nextSlots C republicId slots e).get? k = some s → ∃ t, slots.get? k = some t ∧
      ∀ a ∈ s.grants, a ∈ t.grants ∨
        (secretId C republicId t.deposit = g.secretId ∧ a = ⟨e.1, g⟩) := by
    intro k s hs
    obtain ⟨t, ht, -, heq | ⟨hname, heq⟩⟩ := hslot hs
    · exact ⟨t, ht, fun a ha => .inl (heq ▸ ha)⟩
    · refine ⟨t, ht, fun a ha => ?_⟩
      rw [heq] at ha
      rcases mem_append.mp ha with ha | ha
      · exact .inl ha
      · exact .inr ⟨hname, mem_singleton.mp ha⟩
  refine ⟨?_, ?_, ?_, ?_, ?_⟩
  · intro k s hs
    obtain ⟨t, ht, hdeposit, -⟩ := hslot hs
    rw [hdeposit]
    exact h.deposits k t ht
  · intro k s hs a ha
    obtain ⟨t, ht, hgrants⟩ := hmem hs
    rcases hgrants a ha with ha | ⟨-, rfl⟩
    · exact h.grants k t ht a ha
    · exact ⟨hholds, hframed, hfits⟩
  · intro k s hs
    obtain ⟨t, ht, -, heq | ⟨-, heq⟩⟩ := hslot hs
    · rw [heq]
      exact h.own k t ht
    · rw [heq, map_append, nodup_append]
      refine ⟨h.own k t ht, by simp, fun x hx y hy hxy => hnew ?_⟩
      obtain ⟨a, ha, rfl⟩ := mem_map.mp hx
      have hy : y = e.1 := by simpa using hy
      rw [← hy, ← hxy]
      exact h.used k t ht a ha
  · intro k s j t hs ht hne a ha b hb heq
    obtain ⟨s', hs', hsgrants⟩ := hmem hs
    obtain ⟨t', ht', htgrants⟩ := hmem ht
    rcases hsgrants a ha with ha | ⟨hsname, rfl⟩
    · rcases htgrants b hb with hb | ⟨-, rfl⟩
      · exact h.apart k s' j t' hs' ht' hne a ha b hb heq
      · have hid : a.proposalId = e.1 := heq
        rw [← hid] at hnew
        exact hnew (h.used k s' hs' a ha)
    · rcases htgrants b hb with hb | ⟨htname, rfl⟩
      · have hid : e.1 = b.proposalId := heq
        rw [hid] at hnew
        exact hnew (h.used j t' ht' b hb)
      · have hkey := hm.slot_unique hsha hs' (hm.fits j t' ht') (hsname.trans htname.symm)
        exact hne (hkey.trans (hm.filed j t' ht'))
  · intro k s hs a ha
    obtain ⟨t, ht, hgrants⟩ := hmem hs
    rcases hgrants a ha with ha | ⟨-, rfl⟩
    · exact mem_append_left _ (h.used k t ht a ha)
    · exact mem_append_right _ (mem_singleton.mpr rfl)

theorem Accepted.plain (h : Accepted C republicId ctx e) (hframed : (toVec e.2).length < 2 ^ 32) :
    Plain e.2 :=
  ⟨h.free, hframed⟩

theorem Grounded.next (hsha : Function.Injective C.sha256) (h : Grounded C republicId ctx slots ids)
    (hm : Mirrors C republicId slots.get? st) (he : Accepted C republicId ctx e)
    (hframed : (toVec e.2).length < 2 ^ 32) (hnew : e.1 ∉ ids) :
    Grounded C republicId ctx (nextSlots C republicId slots e) (ids ++ [e.1]) := by
  obtain ⟨op, hop⟩ := he
  obtain ⟨hfrom, hvalue, ⟨d, rfl, hholds⟩ | ⟨g, rfl, hholds⟩⟩ := checkVaultOp_eq_ok hop
  · refine h.deposit hfrom hholds ?_
    rw [recordJson, hvalue]
    exact hframed
  · refine h.grant hsha hm hfrom hholds ?_ (grantFits_of_framed hframed hfrom) hnew
    rw [recordJson, hvalue]
    exact hframed

theorem foldVaultEntry_accepted (held : Option VaultBase) (s : FoldState)
    (he : Accepted C republicId ctx e) :
    foldVaultEntry C held republicId s e = .ok ⟨nextSlots C republicId s.slots e, s.seeded⟩ := by
  have hfree := he.free
  obtain ⟨op, hop⟩ := he
  obtain ⟨hfrom, -, ⟨d, rfl, -⟩ | ⟨g, rfl, -⟩⟩ := checkVaultOp_eq_ok hop
  · simp only [foldVaultEntry, hfree, nextSlots, hfrom, bind_some, foldOp, getD_some]
    rfl
  · simp only [foldVaultEntry, hfree, nextSlots, hfrom, bind_some, foldOp, getD_some]
    rfl

theorem foldVaultEntries_accepted (held : Option VaultBase) {l : List (UInt64 × Value)}
    (s : FoldState) (hl : ∀ e ∈ l, Accepted C republicId ctx e) :
    l.foldlM (foldVaultEntry C held republicId) s =
      .ok ⟨l.foldl (nextSlots C republicId) s.slots, s.seeded⟩ := by
  induction l generalizing s with
  | nil => rfl
  | cons e l ih =>
    refine foldlM_cons_eq_ok.mpr ⟨_, foldVaultEntry_accepted held s (hl e (.head _)), ?_⟩
    rw [ih _ fun c hc => hl c (.tail _ hc)]
    rfl

end

def baseOf (C : Crypto) (republicId : String) (l : List (UInt64 × Value)) : VaultBase :=
  ⟨(l.foldl (nextSlots C republicId) SortedMap.empty).values⟩

def baseEntry (C : Crypto) (base : VaultBase) : UInt64 × Value :=
  (0, VaultOp.toValue (.vaultBase ⟨(commitment C base).1, (commitment C base).2⟩))

section

variable {republicId : String} {ctx : VaultCtx} {l : List (UInt64 × Value)}

theorem summarize_accepted (hl : ∀ e ∈ l, Accepted C republicId ctx e) :
    Vault.summarize C l none republicId =
      .ok ([baseEntry C (baseOf C republicId l)], baseOf C republicId l) := by
  unfold Vault.summarize
  rw [foldVaultEntries_accepted none _ hl]
  rfl

theorem Grounded.entries (hsha : Function.Injective C.sha256) {slots : Slots} {ids : List UInt64}
    {st : VaultState} (h : Grounded C republicId ctx slots ids)
    (hm : Mirrors C republicId slots.get? st) (hl : ∀ e ∈ l, Accepted C republicId ctx e)
    (hframed : ∀ e ∈ l, (toVec e.2).length < 2 ^ 32) (hnodup : (l.map Prod.fst).Nodup)
    (hnew : ∀ e ∈ l, e.1 ∉ ids) :
    Grounded C republicId ctx (l.foldl (nextSlots C republicId) slots) (ids ++ l.map Prod.fst) := by
  induction l generalizing slots ids st with
  | nil => simpa using h
  | cons e l ih =>
    rw [map_cons, nodup_cons] at hnodup
    have he := hl e (.head _)
    have hbytes := hframed e (.head _)
    have hnext := h.next hsha hm he hbytes (hnew e (.head _))
    have hmirrors := hm.payload hsha none (he.plain hbytes)
    have hrest := ih hnext hmirrors (fun c hc => hl c (.tail _ hc))
      (fun c hc => hframed c (.tail _ hc)) hnodup.2 ?_
    · rwa [append_assoc] at hrest
    · intro c hc hmem
      rcases mem_append.mp hmem with hmem | hmem
      · exact hnew c (.tail _ hc) hmem
      · exact hnodup.1 (mem_map.mpr ⟨c, hc, mem_singleton.mp hmem⟩)

theorem nextSlots_length_le (slots : Slots) (e : UInt64 × Value) :
    (nextSlots C republicId slots e).entries.length ≤ slots.entries.length + 1 := by
  unfold nextSlots
  cases VaultOp.fromValue e.2 with
  | none => exact le_succ _
  | some op =>
    cases op with
    | deposit d =>
      simp only [bind_some, foldOp, getD_some]
      split_ifs
      · exact length_insert_le ..
      · exact le_succ _
    | grant g =>
      simp only [bind_some, foldOp, getD_some]
      rw [length_modifyFirst]
      exact le_succ _
    | vaultBase r => exact le_succ _

theorem foldl_nextSlots_length_le (l : List (UInt64 × Value)) (slots : Slots) :
    (l.foldl (nextSlots C republicId) slots).entries.length ≤ slots.entries.length + l.length := by
  induction l generalizing slots with
  | nil => exact le_rfl
  | cons e l ih =>
    have hrest := ih (nextSlots C republicId slots e)
    have hstep : (nextSlots C republicId slots e).entries.length ≤ slots.entries.length + 1 :=
      nextSlots_length_le slots e
    rw [foldl_cons, length_cons]
    omega

variable {slots : Slots} {ids : List UInt64} {st : VaultState}

theorem Grounded.proposalId_of_eq (hsha : Function.Injective C.sha256)
    (h : Grounded C republicId ctx slots ids) {a b : VaultBaseGrant}
    (ha : ∃ k s, slots.get? k = some s ∧ a ∈ s.grants) (hb : ∃ k s, slots.get? k = some s ∧ b ∈ s.grants)
    (heq : a.grant.grantId = b.grant.grantId) : a.proposalId = b.proposalId := by
  obtain ⟨k, s, hs, ha⟩ := ha
  obtain ⟨j, t, ht, hb⟩ := hb
  obtain ⟨⟨-, -, hida⟩, -, hsecreta, hreadera⟩ := h.grants k s hs a ha
  obtain ⟨⟨-, -, hidb⟩, -, hsecretb, hreaderb⟩ := h.grants j t ht b hb
  refine proposalId_of_grantId hsha hsecreta hsecretb hreadera hreaderb ?_
  calc grantId C a.grant.secretId a.grant.reader a.proposalId = a.grant.grantId := hida
    _ = b.grant.grantId := heq
    _ = grantId C b.grant.secretId b.grant.reader b.proposalId := hidb.symm

theorem Grounded.baseHolds (hsha : Function.Injective C.sha256)
    (h : Grounded C republicId ctx slots ids) (hm : Mirrors C republicId slots.get? st) :
    BaseHolds C republicId ctx ⟨slots.values⟩ := by
  have hvalue : ∀ d ∈ slots.values, slots.get? d.key = some d := by
    intro d hd
    obtain ⟨k, hk⟩ := mem_values.mp hd
    rw [hm.filed k d hk]
    exact hk
  refine ⟨hm.projected.slots, ?_, ?_, ?_⟩
  · intro d hd
    exact (h.deposits _ d (hvalue d hd)).1
  · intro d hd g hg
    rw [← hm.grants_named (hvalue d hd) g hg]
    exact (h.grants _ d (hvalue d hd) g hg).1
  · rw [nodup_flatMap]
    refine ⟨fun d hd => ?_, ?_⟩
    · have hown : d.grants.Pairwise fun a b => a.proposalId ≠ b.proposalId :=
        pairwise_map.mp (h.own _ d (hvalue d hd))
      refine pairwise_map.mpr (hown.imp_of_mem fun ha hb hne heq => hne ?_)
      exact h.proposalId_of_eq hsha ⟨_, d, hvalue d hd, ha⟩ ⟨_, d, hvalue d hd, hb⟩ heq
    · have hkeys : slots.values.Pairwise fun a b => a.key ≠ b.key :=
        pairwise_map.mp hm.projected.slots
      refine hkeys.imp_of_mem fun {c d} hc hd hne => ?_
      intro x hx hy
      obtain ⟨a, ha, rfl⟩ := mem_map.mp hx
      obtain ⟨b, hb, heq⟩ := mem_map.mp hy
      refine h.apart _ c _ d (hvalue c hc) (hvalue d hd) hne a ha b hb ?_
      exact h.proposalId_of_eq hsha ⟨_, c, hvalue c hc, ha⟩ ⟨_, d, hvalue d hd, hb⟩ heq.symm

theorem Grounded.readable (hsha : Function.Injective C.sha256)
    (h : Grounded C republicId ctx slots ids) (hm : Mirrors C republicId slots.get? st)
    (hslots : slots.entries.length < 2 ^ 64) (hids : ids.length < 2 ^ 64) :
    VaultBase.Readable ⟨slots.values⟩ := by
  have hholds := h.baseHolds hsha hm
  refine ⟨?_, ?_, ?_, ?_⟩
  · rw [show (VaultBase.mk slots.values).deposits.length = slots.entries.length from length_map _]
    exact hslots
  · have hkeys : (slots.values.map VaultBaseDeposit.key).Pairwise (· < ·) := by
      rw [hm.keys]
      exact (ascending_iff_keys _).mp slots.ascending
    exact pairwise_map.mp hkeys
  · intro d hd
    obtain ⟨k, hk⟩ := mem_values.mp hd
    refine ⟨(h.deposits k d hk).2, ?_, fun g hg => (h.grants k d hk g hg).2.1⟩
    have hsub : d.grants.map VaultBaseGrant.proposalId ⊆ ids := by
      intro id hid
      obtain ⟨g, hg, rfl⟩ := mem_map.mp hid
      exact h.used k d hk g hg
    have hle := ((h.own k d hk).subperm hsub).length_le
    rw [length_map] at hle
    exact lt_of_le_of_lt hle hids
  · intro d hd
    exact (nodup_flatMap.mp hholds.once).1 d hd

end

/-- Cut after cut over the segments of a vault group: each fold reads the commitment the
last one left and the base it returned. -/
def vaultStages (C : Crypto) (republicId : String) (segs : List (List (UInt64 × Value))) :
    Except String (List (UInt64 × Value) × Option VaultBase) :=
  stages (fun held group => (Vault.summarize C group held republicId).map fun r => (r.1, some r.2))
    ([], none) segs

section

variable {republicId : String} {ctx : VaultCtx}

theorem vaultStages_eq_ok (seg : List (UInt64 × Value)) (segs : List (List (UInt64 × Value)))
    (hl : ∀ e ∈ (seg :: segs).flatten, Accepted C republicId ctx e)
    {folded : List (UInt64 × Value)} {base : VaultBase} :
    vaultStages C republicId (seg :: segs) = .ok (folded, some base) ↔
      Vault.summarize C (seg :: segs).flatten none republicId = .ok (folded, base) := by
  have hfree : ∀ {e : UInt64 × Value}, Accepted C republicId ctx e → wearsBase .vault e.2 = false := by
    intro e he
    have hnone := he.free
    unfold baseCommitmentOf at hnone
    split_ifs at hnone with hop
    simpa [wearsBase, baseOp] using hop
  have hstages : vaultStages C republicId (seg :: segs) = .ok (folded, some base) ↔
      (Vault.summarize C (seg :: segs).flatten none republicId).map (fun r => (r.1, some r.2)) =
        .ok (folded, some base) := by
    refine stages_eq_ok
      (fun raw => (Vault.summarize C raw none republicId).map fun r => (r.1, some r.2))
      (R := fun raw p => VaultRefolds C p.2 republicId raw p.1) (V := Accepted C republicId ctx)
      (fun raw p e hp he => hp.concat (hfree he)) ?_ ?_ ?_ [] ?_ seg segs hl
    · intro raw p q _ hp
      have hagree := hp.summarize
      rw [map_eq_ok, map_eq_ok]
      constructor
      · rintro ⟨r, hr, rfl⟩
        exact ⟨r, hagree.eq_ok_iff.mpr hr, rfl⟩
      · rintro ⟨r, hr, rfl⟩
        exact ⟨r, hagree.eq_ok_iff.mp hr, rfl⟩
    · intro raw q hraw hq
      obtain ⟨⟨folded, base⟩, hr, rfl⟩ := map_eq_ok.mp hq
      exact summarizeVault_refolds (fun e he => hfree (hraw e he)) hr
    · intro raw hraw
      exact ⟨_, map_eq_ok.mpr ⟨_, summarize_accepted hraw, rfl⟩⟩
    · exact rfl
  refine hstages.trans ?_
  simp [map_eq_ok, Prod.ext_iff]

end

theorem sameView_base (hsha : Function.Injective C.sha256) {republicId : String}
    {l later : List (UInt64 × Value)} (hl : ∀ e ∈ l, Plain e.2) (hlater : ∀ e ∈ later, Plain e.2) :
    SameView (vaultState C republicId none ((l ++ later).map Prod.snd))
      (vaultState C republicId (some (baseOf C republicId l))
        (([baseEntry C (baseOf C republicId l)] ++ later).map Prod.snd)) := by
  have hraw : Mirrors C republicId (l.foldl (nextSlots C republicId) SortedMap.empty).get?
      (vaultState C republicId none (l.map Prod.snd)) :=
    Mirrors.payloads hsha none l (Mirrors.empty C republicId) hl
  have hseeded : vaultState C republicId (some (baseOf C republicId l))
      ([baseEntry C (baseOf C republicId l)].map Prod.snd) =
        (l.foldl (nextSlots C republicId) SortedMap.empty).values.foldl
          (VaultState.seedDeposit C republicId) {} := rfl
  have hbase := hraw.seed_values hsha
  rw [← hseeded] at hbase
  have happend : ∀ (base : Option VaultBase) (m : List (UInt64 × Value)),
      vaultState C republicId base ((m ++ later).map Prod.snd) =
        (later.map Prod.snd).foldl (VaultState.applyPayload C republicId base)
          (vaultState C republicId base (m.map Prod.snd)) := by
    intro base m
    rw [vaultState, map_append, foldl_append]
    rfl
  rw [happend, happend]
  exact (hraw.payloads hsha none later hlater).sameView (hbase.payloads hsha _ later hlater)

theorem Walked.vaultEntries_length {g : Genesis} {blocks : List ChainBlock} {w : ChainWalk}
    (hw : Walked C g blocks w) : (vaultEntries blocks).length < 2 ^ 64 := by
  obtain ⟨b, rest, rfl, hc⟩ := hw.opens
  have hopening : vaultEntries (b :: rest) = vaultEntries rest := by
    simp [vaultEntries, vaultEntry, hc]
  have hheight := hw.height
  have hbound := w.head.height.toNat_lt
  have hle : (vaultEntries rest).length ≤ rest.length := length_filterMap_le _ _
  rw [hopening]
  rw [length_cons] at hheight
  omega

/-- However the vault of an accepted chain is cut, the fold is the projection: the same
base as one fold over every entry, one deposit for each current version with the grants
that are not void, the same answers behind it, and no reader that refuses it. -/
theorem vault_base_is_projection (hsha : Function.Injective C.sha256)
    {parse : List UInt8 → Option Value}
    (hparse : ∀ op : VaultOp, parse (toVec op.toValue) = some op.toValue)
    {blocks : List ChainBlock} {w : ChainWalk} {ctx : VaultCtx} (h : walkChain C blocks = .ok w)
    (hctx : w.vault = some ctx) (hframed : ∀ e ∈ vaultEntries blocks, (toVec e.2).length < 2 ^ 32)
    (seg : List (UInt64 × Value)) (segs : List (List (UInt64 × Value)))
    (hcuts : (seg :: segs).flatten = vaultEntries blocks) :
    ∃ folded base, vaultStages C w.head.republicId (seg :: segs) = .ok (folded, some base) ∧
      Vault.summarize C (vaultEntries blocks) none w.head.republicId = .ok (folded, base) ∧
      Vault.Projected C w.head.republicId
        (vaultState C w.head.republicId none ((vaultEntries blocks).map Prod.snd)) base ∧
      (∀ later : List (UInt64 × Value), (∀ e ∈ later, Plain e.2) →
        SameView (vaultState C w.head.republicId none ((vaultEntries blocks ++ later).map Prod.snd))
          (vaultState C w.head.republicId (some base) ((folded ++ later).map Prod.snd))) ∧
      ∃ read, decodeVaultBase parse (vaultBaseCanonicalBytes base) = .ok read ∧
        commitment C read = commitment C base ∧ verifyBase C read w.head.republicId ctx = .ok () := by
  obtain ⟨g, hw⟩ := walkChain_walked h
  obtain ⟨haccepted, hnodup⟩ := hw.vaultEntries_accepted hctx
  rw [← hw.republicId] at haccepted
  have hplain : ∀ e ∈ vaultEntries blocks, Plain e.2 := fun e he => (haccepted e he).plain (hframed e he)
  have hone := summarize_accepted haccepted
  have hcount := hw.vaultEntries_length
  have hmirrors : Mirrors C w.head.republicId
      ((vaultEntries blocks).foldl (nextSlots C w.head.republicId) SortedMap.empty).get?
      (vaultState C w.head.republicId none ((vaultEntries blocks).map Prod.snd)) :=
    Mirrors.payloads hsha none _ (Mirrors.empty C w.head.republicId) hplain
  have hgrounded := (Grounded.empty C w.head.republicId ctx).entries hsha
    (Mirrors.empty C w.head.republicId) haccepted hframed hnodup (by simp)
  have hreadable : (baseOf C w.head.republicId (vaultEntries blocks)).Readable := by
    refine hgrounded.readable hsha hmirrors ?_ ?_
    · refine lt_of_le_of_lt (foldl_nextSlots_length_le _ _) ?_
      simpa [SortedMap.empty] using hcount
    · simpa using hcount
  refine ⟨_, _, ?_, hone, hmirrors.projected, fun later hlater => sameView_base hsha hplain hlater, ?_⟩
  · rw [← hcuts] at haccepted
    rw [vaultStages_eq_ok seg segs haccepted, hcuts]
    exact hone
  · exact ⟨_, decodeVaultBase_canonical hparse hreadable, hreadable.commitment_sorted C,
      (hgrounded.baseHolds hsha hmirrors).sorted.verifyBase⟩

namespace Sample

local instance lawfulBytes : LawfulBEq (List UInt8) := inferInstance

def coded (known : List (List UInt8)) (bytes : List UInt8) : List UInt8 :=
  if bytes ∈ known then List.replicate (known.idxOf bytes + 1) 0 else 1 :: bytes

theorem coded_injective (known : List (List UInt8)) : Function.Injective (coded known) := by
  intro a b h
  unfold coded at h
  split_ifs at h with ha hb hb
  · have hlength := congrArg List.length h
    rw [length_replicate, length_replicate] at hlength
    exact (idxOf_inj ha).mp (Nat.succ.inj hlength)
  · simp [replicate_succ] at h
  · simp [replicate_succ] at h
  · exact (List.cons.inj h).2

noncomputable def readRecord (bytes : List UInt8) : Option Value :=
  open Classical in if h : ∃ op : VaultOp, toVec op.toValue = bytes then some h.choose.toValue else none

theorem readRecord_toVec (op : VaultOp) : readRecord (toVec op.toValue) = some op.toValue := by
  have h : ∃ op' : VaultOp, toVec op'.toValue = toVec op.toValue := ⟨op, rfl⟩
  rw [readRecord, dif_pos h, toVec_injective h.choose_spec]

def hexKey (n : UInt8) (bytes : Nat) : String := Text.hexEncode (List.replicate bytes n)

def vaulted : Genesis :=
  { name := "C", republicId := "00", ruleM := 2, ruleN := 4,
    identities := [⟨"ann", hexKey 1 32, "", hexKey 5 32⟩, ⟨"ben", hexKey 2 32, "", hexKey 6 32⟩,
      ⟨"cal", hexKey 3 32, "", hexKey 7 32⟩, ⟨"dan", hexKey 4 32, "", hexKey 8 32⟩],
    agenda := "", relays := [], features := some ["vault"] }

def sampleDeposit : VaultDeposit where
  depositor := "ann"
  name := "db"
  kind := "key"
  replaces := ""
  m := 2
  holders := ["ben", "cal", "dan"]
  commitments := [hexKey 1 32, hexKey 2 32]
  encShare := [hexKey 1 80, hexKey 2 80, hexKey 3 80]
  payload := ⟨hexKey 9 32, 40⟩
  nonce := hexKey 1 16
  sigDepositor := hexKey 1 64

def sampleGrant : VaultGrant := ⟨"0000000000", "00000000", "ben"⟩

def sealedBy (names : List (String × UInt8)) : List RosterAttestation :=
  names.map fun n => ⟨n.1, hexKey n.2 64⟩

def founded : ChainBlock :=
  ⟨0, genesisPrev, .genesis vaulted, sealedBy [("ann", 1), ("ben", 2), ("cal", 3), ("dan", 4)]⟩

def deposited : ChainBlock :=
  ⟨1, "0000", .applied 1 .vault (VaultOp.toValue (.deposit sampleDeposit)),
    sealedBy [("ann", 1), ("cal", 3)]⟩

def granted : ChainBlock :=
  ⟨2, "000000", .applied 2 .vault (VaultOp.toValue (.grant sampleGrant)),
    sealedBy [("ann", 1), ("cal", 3)]⟩

def sealing : Crypto where
  sha256 := coded [republicIdBytes "C" 2 4 vaulted.identities, blockLinkBytes "00" founded,
    blockLinkBytes "00" deposited, secretIdBytes "00" sampleDeposit, grantIdBytes "00000000" "ben" 2]
  ed25519Verify key _ sig := sig.take 32 == key
  xOnlyKey raw := some raw
  isPoint _ := true
  hpkeSeals _ := true

theorem vaulted_walks : ∃ w, walkChain sealing [founded, deposited, granted] = .ok w := by
  have hok : (walkChain sealing [founded, deposited, granted]).isOk = true := by decide +kernel
  cases h : walkChain sealing [founded, deposited, granted] with
  | error e => simp [h, Except.isOk, Except.toBool] at hok
  | ok w => exact ⟨w, rfl⟩

end Sample
open Sample in
theorem vault_base_is_projection_sample : ∃ w ctx, w.vault = some ctx ∧
    walkChain sealing [founded, deposited, granted] = .ok w ∧
    ∃ folded base, vaultStages sealing w.head.republicId
        [[(1, VaultOp.toValue (.deposit sampleDeposit))], [(2, VaultOp.toValue (.grant sampleGrant))]] =
          .ok (folded, some base) ∧
      Vault.Projected sealing w.head.republicId (vaultState sealing w.head.republicId none
        [VaultOp.toValue (.deposit sampleDeposit), VaultOp.toValue (.grant sampleGrant)]) base ∧
      ∃ read, decodeVaultBase readRecord (vaultBaseCanonicalBytes base) = .ok read ∧
        verifyBase sealing read w.head.republicId ctx = .ok () := by
  obtain ⟨w, hw⟩ := vaulted_walks
  obtain ⟨ctx, hctx⟩ : ∃ ctx, w.vault = some ctx := by
    obtain ⟨g, hwalked⟩ := walkChain_walked hw
    obtain ⟨b, rest, heq, hg⟩ := hwalked.opens
    obtain ⟨rfl, -⟩ := List.cons.inj heq
    obtain rfl := ChainChange.genesis.inj hg
    exact ⟨_, hwalked.vault.trans rfl⟩
  have hframed : ∀ e ∈ vaultEntries [founded, deposited, granted], (toVec e.2).length < 2 ^ 32 := by
    decide +kernel
  obtain ⟨folded, base, hstages, -, hprojected, -, read, hread, -, hverify⟩ :=
    vault_base_is_projection (coded_injective _) readRecord_toVec hw hctx hframed
      [(1, VaultOp.toValue (.deposit sampleDeposit))] [[(2, VaultOp.toValue (.grant sampleGrant))]] rfl
  exact ⟨w, ctx, hctx, hw, folded, base, hstages, hprojected, read, hread, hverify⟩

end Molt.Chain
