import Mathlib
import MoltRepublic.Chain.Vaults

/-! A holder's answers to the grants of its chain (`vault/grant`): what it answers on a
commit, what waits for the base, and what it remembers over reorgs and reopens. -/

namespace Molt.Vault
open Molt.Core Json Chain List Option

structure VaultDisplacedGrant where
  grantId : String
  name : String
  reader : String
  deriving DecidableEq

structure GrantRuntime where
  answered : Finset String := ∅
  asked : List ((String × String) × Nat) := []
  queued : List String := []
  seen : SortedMap String VaultDisplacedGrant := SortedMap.empty
  displaced : List VaultDisplacedGrant := []
  /-- Not in the source: which of the queued grants a commit put there. -/
  waiting : Finset String := ∅

structure LiveGrant where
  grant : VaultGrant
  deposit : VaultDeposit
  valid : Bool

structure Site where
  C : Crypto
  republicId : String
  founding : VaultCtx
  me : String

/-- What a step finds at the seat: whether the chain has the vault on, the key, whether
the share opens and seals, the open vault cards, and the clock. -/
structure Moment where
  enabled : Bool
  seed : Bool
  opens : VaultDeposit → Bool
  seals : LiveGrant → Bool
  cards : List Value
  now : Nat

/-- One published `VaultResp`, with the projection at that moment. -/
structure Answer where
  grantId : String
  seat : String
  asked : Bool
  view : VaultState

/-- The vault part of an adopted chain and of the node that holds it: the commitment of
the last cut, the ids consumed below it, and the entries above. -/
structure Holder where
  anchor : Option VaultPayloadRef
  consumed : List UInt64
  entries : List (UInt64 × Value)
  held : Option VaultBase
  rt : GrantRuntime

def askEverySecs : Nat := 10

def foundingVaultPk (ctx : VaultCtx) (seat : String) : Option String :=
  (ctx.holdersInGenesisOrder.find? fun h => h.1 == seat).map fun h => h.2.2

namespace Holder

variable (V : Site) (m : Moment) (h : Holder)

def anchorEntry : List (UInt64 × Value) :=
  (h.anchor.map fun r => (0, VaultOp.toValue (.vaultBase r))).toList

def appliedPayloads : List Value := (h.anchorEntry ++ h.entries).map Prod.snd

def vaultBaseCommitted : Option (String × UInt64) := h.appliedPayloads.findSome? baseCommitmentOf

def vaultBaseNow : Option VaultBase := do
  let (want, _) ← h.vaultBaseCommitted
  match h.held.filter fun b => (commitment V.C b).1 == want with
  | some b => return b
  -- the empty base is derivable, so never fetched
  | none => if want = (commitment V.C ⟨[]⟩).1 then return ⟨[]⟩ else none

def vaultBasePending : Bool := h.vaultBaseCommitted.isSome && (h.vaultBaseNow V).isNone

def vaultState : VaultState :=
  Vault.vaultState V.C V.republicId (h.vaultBaseNow V) h.appliedPayloads

def liveGrant (grantId : String) : Option LiveGrant := do
  let vs := h.vaultState V
  let g ← vs.grants.reverse.find? fun g => g.grant.grantId == grantId
  let v ← vs.versions.get? g.grant.secretId
  return ⟨g.grant, v.deposit, !g.void && vs.isCurrent g.grant.secretId⟩

def vaultMyShare (dep : VaultDeposit) : Bool := dep.holders.contains V.me && m.seed && m.opens dep

/-- `vault_answer`, where no publish fails: whether an answer goes out. -/
def vaultAnswer (live : LiveGrant) : Bool :=
  m.enabled && live.valid && live.grant.reader != V.me && live.deposit.holders.contains V.me && m.seed &&
    vaultMyShare V m live.deposit && (foundingVaultPk V.founding live.grant.reader).isSome && m.seals live

def answer (grantId : String) (asked : Bool) : Answer := ⟨grantId, V.me, asked, h.vaultState V⟩

def answers (grantId : String) : Bool := (h.liveGrant V grantId).any (vaultAnswer V m)

/-- Answers queued while the base was pending. The loop writes nothing `live_grant` reads. -/
def vaultFlushQueued : Holder × List Answer :=
  if h.vaultBasePending V then (h, [])
  else
    let due := h.rt.queued.filter (h.answers V m)
    ({ h with rt := { h.rt with queued := [], waiting := ∅, answered := h.rt.answered ∪ due.toFinset } },
      due.map fun g => h.answer V g (!decide (g ∈ h.rt.waiting)))

def queue (grantId : String) (queued : List String) : List String :=
  if grantId ∈ queued then queued else queued.orderedInsert (· ≤ ·) grantId

def onCommit (grantId : String) : Holder × List Answer :=
  let (h, out) := h.vaultFlushQueued V m
  match h.liveGrant V grantId with
  | none => (h, out)
  | some live =>
    let earlier := (h.rt.seen.get? grantId).isNone && h.rt.displaced.any fun d => d.grantId == grantId
    let done := decide (grantId ∈ h.rt.answered) || earlier
    let line : VaultDisplacedGrant := ⟨grantId, live.deposit.name, live.grant.reader⟩
    let h := { h with rt := { h.rt with seen := h.rt.seen.insert grantId line } }
    if !live.valid then (h, out)
    else if done then (h, out)
    else if h.vaultBasePending V then
      ({ h with rt := { h.rt with queued := queue grantId h.rt.queued
                                  waiting := insert grantId h.rt.waiting } }, out)
    else if vaultAnswer V m live then
      ({ h with rt := { h.rt with answered := insert grantId h.rt.answered } }, out ++ [h.answer V grantId false])
    else (h, out)

def cardLine (grantId : String) (payload : Value) : Option VaultDisplacedGrant :=
  match VaultOp.fromValue payload with
  | some (.grant g) =>
    if g.grantId = grantId then
      some ⟨grantId, (((h.vaultState V).versions.get? g.secretId).map fun v => v.deposit.name).getD "", g.reader⟩
    else none
  | _ => none

def displacedLine (grantId : String) : Option VaultDisplacedGrant :=
  (h.rt.seen.get? grantId).or (m.cards.findSome? (h.cardLine V grantId))

def onDisplaced (grantId : String) : Holder :=
  match h.displacedLine V m grantId with
  | none => h
  | some line =>
    if h.rt.displaced.any fun d => d.grantId == grantId then h
    else { h with rt := { h.rt with displaced := h.rt.displaced ++ [line] } }

/-- `after_vault_applied`; a deposit touches the cards and the receipts only. -/
def afterVaultApplied (payload : Value) : Holder × List Answer :=
  match VaultOp.fromValue payload with
  | some (.grant g) => h.onCommit V m g.grantId
  | _ => (h, [])

def entryDisplaced (kept : List UInt64) (e : UInt64 × Value) : Holder :=
  if e.1 ∈ kept then h
  else match VaultOp.fromValue e.2 with
    | some (.grant g) => h.onDisplaced V m g.grantId
    | _ => h

def vaultDisplaced (dropped : List (UInt64 × Value)) (kept : List UInt64) : Holder :=
  dropped.foldl (fun h e => h.entryDisplaced V m kept e) h

/-- A sealed cut folds the first `k` entries; where it cannot, the history stays. -/
def cut (k : Nat) : Holder :=
  match summarize V.C (h.anchorEntry ++ h.entries.take k) (h.vaultBaseNow V) V.republicId with
  | .error _ => h
  | .ok (_, base) =>
    { h with
      anchor := some ⟨(commitment V.C base).1, (commitment V.C base).2⟩
      consumed := h.consumed ++ (h.entries.take k).map Prod.fst
      entries := h.entries.drop k
      held := some base }

end Holder

inductive Item
  | entry (e : UInt64 × Value)
  | cut

def Item.entry? : Item → Option (UInt64 × Value)
  | .entry e => some e
  | .cut => none

def itemEntries (items : List Item) : List (UInt64 × Value) := items.filterMap Item.entry?

/-- An entry as every walk checks it; `put_bytes` frames its payload. -/
def Site.accepts (V : Site) (e : UInt64 × Value) : Bool :=
  (checkVaultOp V.C V.republicId e.1 e.2 V.founding).isOk && (toVec e.2).length < 2 ^ 32

def Site.verifies (V : Site) (consumed : List UInt64) (entries : List (UInt64 × Value)) : Bool :=
  entries.all V.accepts && decide (entries.map Prod.fst).Nodup && entries.all fun e => e.1 ∉ consumed

namespace Holder

variable (V : Site) (m : Moment)

def settle : List Item → Holder × List Answer → Holder × List Answer
  | [], acc => acc
  | .entry e :: rest, (h, out) =>
    let (h', more) := h.afterVaultApplied V m e.2
    settle rest (h', out ++ more)
  | .cut :: rest, (h, out) => settle rest (h.cut V (h.entries.length - (itemEntries rest).length), out)

/-- The chain moves: what is above `keep` gives way to the suffix, which also applies
`others` on the other surfaces. An append drops nothing. -/
def adopt (h : Holder) (keep : Nat) (suffix : List Item) (others : List UInt64) : Holder × List Answer :=
  let entries := h.entries.take keep ++ itemEntries suffix
  if V.verifies h.consumed entries then
    let kept := (itemEntries suffix).map Prod.fst ++ others
    settle V m suffix (({ h with entries := entries }).vaultDisplaced V m (h.entries.drop keep) kept, [])
  else (h, [])

def dropStaleVaultBase (h : Holder) : Holder :=
  if (h.held.map fun b => (commitment V.C b).1) = h.vaultBaseCommitted.map Prod.fst then h
  else { h with held := none }

/-- `try_adopt_from_blob`: another anchor, and the blocks above it. -/
def reanchor (h : Holder) (anchor : Option VaultPayloadRef) (consumed : List UInt64)
    (suffix : List (UInt64 × Value)) : Holder × List Answer :=
  if V.verifies consumed suffix then
    settle V m (suffix.map .entry) (({ h with
      anchor := anchor
      consumed := consumed
      entries := suffix }).dropStaleVaultBase V, [])
  else (h, [])

/-- `adopt_vault_base`, on the decoded bytes. -/
def adoptVaultBase (h : Holder) (base : VaultBase) : Holder × Bool :=
  match h.vaultBaseCommitted with
  | none => ({ h with held := none }, false)
  | some (want, _) =>
    if (commitment V.C base).1 = want ∧ (verifyBase V.C base V.republicId V.founding).isOk then
      ({ h with held := some base }, true)
    else (h.dropStaleVaultBase V, false)

def baseArrives (h : Holder) (base : VaultBase) : Holder × List Answer :=
  match h.adoptVaultBase V base with
  | (h, true) => h.vaultFlushQueued V m
  | (h, false) => (h, [])

/-- `cmd_net_vault_ask`. -/
def netVaultAsk (h : Holder) (sender grantId : String) : Holder × List Answer :=
  let (h, out) := h.vaultFlushQueued V m
  match h.liveGrant V grantId with
  | none => (h, out)
  | some live =>
    if live.grant.reader ≠ sender ∨ !live.valid then (h, out)
    else
      let asked := h.rt.asked.filter fun a => m.now - a.2 < askEverySecs
      let h := { h with rt := { h.rt with asked := asked } }
      if asked.any fun a => a.1 == (grantId, sender) then (h, out)
      else if h.vaultBasePending V then
        ({ h with rt := { h.rt with queued := queue grantId h.rt.queued } }, out)
      else if vaultAnswer V m live then
        ({ h with rt := { h.rt with asked := ((grantId, sender), m.now) :: asked } },
          out ++ [h.answer V grantId true])
      else (h, out)

/-- Close and reopen: a new incarnation with the persisted audit (`vault_load_displaced`),
and the base that is on the disk. -/
def reopen (h : Holder) (stored : Option VaultBase) : Holder :=
  let h' := { h with held := none, rt := {} }
  let h' := (stored.map fun b => (h'.adoptVaultBase V b).1).getD h'
  { h' with rt := {
    displaced := h.rt.displaced
    answered := ((h'.vaultState V).grants.map fun g => g.grant.grantId).toFinset } }

end Holder

inductive Act
  | adopt (keep : Nat) (suffix : List Item) (others : List UInt64)
  | reanchor (anchor : Option VaultPayloadRef) (consumed : List UInt64) (suffix : List (UInt64 × Value))
  | baseArrives (base : VaultBase)
  | ask (sender grantId : String)
  | reopen (stored : Option VaultBase)

/-- A holder's course: the node, everything it published, and the audit its present
incarnation was opened with. -/
structure Course where
  node : Holder
  log : List Answer
  loaded : List String

def Course.step (V : Site) (m : Moment) (c : Course) : Act → Course
  | .adopt keep suffix others =>
    let (h, out) := c.node.adopt V m keep suffix others
    { c with node := h, log := c.log ++ out }
  | .reanchor anchor consumed suffix =>
    let (h, out) := c.node.reanchor V m anchor consumed suffix
    { c with node := h, log := c.log ++ out }
  | .baseArrives base =>
    let (h, out) := c.node.baseArrives V m base
    { c with node := h, log := c.log ++ out }
  | .ask sender grantId =>
    let (h, out) := c.node.netVaultAsk V m sender grantId
    { c with node := h, log := c.log ++ out }
  | .reopen stored =>
    { c with node := c.node.reopen V stored
             loaded := c.node.rt.displaced.map VaultDisplacedGrant.grantId }

def Course.run (V : Site) (c : Course) (acts : List (Moment × Act)) : Course :=
  acts.foldl (fun c a => c.step V a.1 a.2) c

def Rightful (V : Site) (a : Answer) : Prop :=
  a.seat = V.me ∧ ∃ g ∈ a.view.grants, g.grant.grantId = a.grantId ∧ g.void = false ∧
    a.view.isCurrent g.grant.secretId = true ∧ ∃ v, a.view.versions.get? g.grant.secretId = some v ∧
      V.me ∈ v.deposit.holders ∧ g.grant.reader ≠ V.me

section

variable {V : Site} {m : Moment} {h : Holder} {g : String}

theorem rightful_of_live {live : LiveGrant} (hlive : h.liveGrant V g = some live)
    (hanswer : Holder.vaultAnswer V m live = true) (asked : Bool) : Rightful V (h.answer V g asked) := by
  unfold Holder.liveGrant at hlive
  simp only [bind_eq_bind, bind_eq_some_iff, Option.pure_def, Option.some.injEq] at hlive
  obtain ⟨a, hfind, v, hv, rfl⟩ := hlive
  have hmem : a ∈ (h.vaultState V).grants := mem_reverse.mp (mem_of_find?_eq_some hfind)
  have hid : a.grant.grantId = g := by simpa using find?_some hfind
  simp only [Holder.vaultAnswer, Bool.and_eq_true, Bool.not_eq_true', bne_iff_ne, ne_eq,
    contains_iff_mem] at hanswer
  obtain ⟨⟨⟨⟨⟨⟨⟨-, hvoid, hcurrent⟩, hreader⟩, hholder⟩, -⟩, -⟩, -⟩, -⟩ := hanswer
  exact ⟨rfl, a, hmem, hid, hvoid, hcurrent, v, hv, hholder, hreader⟩

theorem flush_rightful : ∀ a ∈ (h.vaultFlushQueued V m).2, Rightful V a := by
  unfold Holder.vaultFlushQueued
  split_ifs
  · simp
  · intro a ha
    obtain ⟨g, hg, rfl⟩ := mem_map.mp ha
    obtain ⟨-, hanswers⟩ := mem_filter.mp hg
    obtain ⟨live, hlive, hanswer⟩ := (Option.any_eq_true ..).mp hanswers
    exact rightful_of_live hlive hanswer _

def Holder.withRt (h : Holder) (rt : GrantRuntime) : Holder := { h with rt := rt }

theorem onCommit_cases (h : Holder) (g : String) :
    h.onCommit V m g = h.vaultFlushQueued V m ∨ ∃ f out live line, h.vaultFlushQueued V m = (f, out) ∧
      f.liveGrant V g = some live ∧ line.grantId = g ∧
      (h.onCommit V m g = (f.withRt { f.rt with seen := f.rt.seen.insert g line }, out) ∨
        g ∉ f.rt.answered ∧ ((f.rt.seen.get? g).isSome ∨ ∀ d ∈ f.rt.displaced, d.grantId ≠ g) ∧
          (h.onCommit V m g = (f.withRt { f.rt with
              seen := f.rt.seen.insert g line, queued := Holder.queue g f.rt.queued
              waiting := insert g f.rt.waiting }, out) ∨
            f.vaultBasePending V = false ∧ Holder.vaultAnswer V m live = true ∧
            h.onCommit V m g = (f.withRt { f.rt with
              seen := f.rt.seen.insert g line, answered := insert g f.rt.answered },
                out ++ [f.answer V g false]))) := by
  rcases hflush : h.vaultFlushQueued V m with ⟨f, out⟩
  unfold Holder.onCommit
  simp only [hflush]
  cases hlive : f.liveGrant V g with
  | none => exact .inl rfl
  | some live =>
    refine .inr ⟨f, out, live, ⟨g, live.deposit.name, live.grant.reader⟩, rfl, hlive, rfl, ?_⟩
    by_cases hvalid : live.valid = true
    · by_cases hanswered : g ∈ f.rt.answered
      · exact .inl (by simp [hvalid, hanswered, Holder.withRt])
      · by_cases hearlier : ((f.rt.seen.get? g).isNone && f.rt.displaced.any fun d => d.grantId == g) = true
        · exact .inl (by simp [hvalid, hearlier, Holder.withRt])
        · rw [Bool.not_eq_true] at hearlier
          have hfresh : (f.rt.seen.get? g).isSome ∨ ∀ d ∈ f.rt.displaced, d.grantId ≠ g := by
            rcases Bool.and_eq_false_iff.mp hearlier with hseen | hdisplaced
            · exact .inl (by simpa using hseen)
            · exact .inr (by simpa using hdisplaced)
          simp only [hvalid, Bool.not_true, Bool.false_eq_true, if_false, hanswered, decide_false,
            hearlier, Bool.or_self]
          by_cases hpending : f.vaultBasePending V = true
          · exact .inr ⟨not_false, hfresh, .inl (if_pos hpending)⟩
          · by_cases hanswer : Holder.vaultAnswer V m live = true
            · exact .inr ⟨not_false, hfresh, .inr ⟨Bool.eq_false_iff.mpr hpending, hanswer,
                (if_neg hpending).trans (if_pos hanswer)⟩⟩
            · exact .inl ((if_neg hpending).trans (if_neg hanswer))
    · exact .inl (by simp [hvalid, Holder.withRt])

theorem onCommit_rightful (h : Holder) (g : String) : ∀ a ∈ (h.onCommit V m g).2, Rightful V a := by
  rcases onCommit_cases (V := V) (m := m) h g with heq | ⟨f, out, live, line, hflush, hlive, -, hcase⟩
  · rw [heq]
    exact flush_rightful
  · have hout : ∀ a ∈ out, Rightful V a := by
      have hall : ∀ a ∈ (h.vaultFlushQueued V m).2, Rightful V a := flush_rightful
      rwa [hflush] at hall
    rcases hcase with heq | ⟨-, -, heq | ⟨-, hanswer, heq⟩⟩
    · rw [heq]
      exact hout
    · rw [heq]
      exact hout
    · rw [heq]
      exact forall_mem_append.mpr ⟨hout, forall_mem_singleton.mpr (rightful_of_live hlive hanswer false)⟩

theorem settle_rightful (items : List Item) (h : Holder) (out : List Answer)
    (hout : ∀ a ∈ out, Rightful V a) : ∀ a ∈ (Holder.settle V m items (h, out)).2, Rightful V a := by
  induction items generalizing h out with
  | nil => exact hout
  | cons item items ih =>
    cases item with
    | entry e =>
      refine ih _ _ fun a ha => ?_
      rcases mem_append.mp ha with ha | ha
      · exact hout a ha
      · split at ha
        · exact onCommit_rightful _ _ a ha
        · simp at ha
    | cut => exact ih _ _ hout

theorem netVaultAsk_cases (h : Holder) (sender g : String) :
    ∃ f out asked, h.vaultFlushQueued V m = (f, out) ∧
      (h.netVaultAsk V m sender g = (f.withRt { f.rt with asked := asked }, out) ∨
        h.netVaultAsk V m sender g =
          (f.withRt { f.rt with asked := asked, queued := Holder.queue g f.rt.queued }, out) ∨
        ∃ live, f.liveGrant V g = some live ∧ Holder.vaultAnswer V m live = true ∧
          h.netVaultAsk V m sender g =
            (f.withRt { f.rt with asked := asked }, out ++ [f.answer V g true])) := by
  rcases hflush : h.vaultFlushQueued V m with ⟨f, out⟩
  unfold Holder.netVaultAsk
  simp only [hflush]
  cases hlive : f.liveGrant V g with
  | none => exact ⟨f, out, f.rt.asked, rfl, .inl rfl⟩
  | some live =>
    dsimp only
    by_cases hreader : live.grant.reader ≠ sender ∨ (!live.valid) = true
    · exact ⟨f, out, f.rt.asked, rfl, .inl (if_pos hreader)⟩
    · rw [if_neg hreader]
      by_cases hrecent : ((f.rt.asked.filter fun a => decide (m.now - a.2 < askEverySecs)).any
          fun a => a.1 == (g, sender)) = true
      · exact ⟨f, out, _, rfl, .inl (if_pos hrecent)⟩
      · rw [if_neg hrecent]
        by_cases hpending : f.vaultBasePending V = true
        · exact ⟨f, out, _, rfl, .inr (.inl (if_pos hpending))⟩
        · by_cases hanswer : Holder.vaultAnswer V m live = true
          · exact ⟨f, out, _, rfl, .inr (.inr ⟨live, hlive, hanswer,
              (if_neg hpending).trans (if_pos hanswer)⟩)⟩
          · exact ⟨f, out, _, rfl, .inl ((if_neg hpending).trans (if_neg hanswer))⟩

theorem netVaultAsk_rightful (h : Holder) (sender g : String) :
    ∀ a ∈ (h.netVaultAsk V m sender g).2, Rightful V a := by
  obtain ⟨f, out, asked, hflush, hcase⟩ := netVaultAsk_cases (V := V) (m := m) h sender g
  have hout : ∀ a ∈ (h.vaultFlushQueued V m).2, Rightful V a := flush_rightful
  rw [hflush] at hout
  rcases hcase with heq | heq | ⟨live, hlive, hanswer, heq⟩
  · rw [heq]
    exact hout
  · rw [heq]
    exact hout
  · rw [heq]
    exact forall_mem_append.mpr ⟨hout, forall_mem_singleton.mpr (rightful_of_live hlive hanswer true)⟩

theorem Course.step_rightful (c : Course) (hc : ∀ a ∈ c.log, Rightful V a) (act : Act) :
    ∀ a ∈ (c.step V m act).log, Rightful V a := by
  have happend : ∀ out : List Answer, (∀ a ∈ out, Rightful V a) → ∀ a ∈ c.log ++ out, Rightful V a := by
    intro out hout a ha
    rcases mem_append.mp ha with ha | ha
    · exact hc a ha
    · exact hout a ha
  cases act with
  | adopt keep suffix others =>
    have hout : ∀ a ∈ (c.node.adopt V m keep suffix others).2, Rightful V a := by
      unfold Holder.adopt
      dsimp only
      split_ifs
      · exact settle_rightful _ _ _ (by simp)
      · simp
    exact happend _ hout
  | reanchor anchor consumed suffix =>
    have hout : ∀ a ∈ (c.node.reanchor V m anchor consumed suffix).2, Rightful V a := by
      unfold Holder.reanchor
      split_ifs
      · exact settle_rightful _ _ _ (by simp)
      · simp
    exact happend _ hout
  | baseArrives base =>
    have hout : ∀ a ∈ (c.node.baseArrives V m base).2, Rightful V a := by
      unfold Holder.baseArrives
      split
      · exact flush_rightful
      · simp
    exact happend _ hout
  | ask sender g => exact happend _ (netVaultAsk_rightful _ _ _)
  | reopen stored => exact hc

end

end Molt.Vault
