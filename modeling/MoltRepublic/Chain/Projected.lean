import Mathlib
import MoltRepublic.Chain.Incremental

/-! The projections of a held chain: rebuilt from the blob and the whole block list, or
extended by each block that is appended. -/

namespace Molt.Chain
open Molt.Core List Function Option

variable {C : Crypto} {α β : Type}

section

variable [DecidableEq α]

def collect (pairs : List (α × β)) : α → Option β :=
  pairs.foldl (fun entries p => update entries p.1 (some p.2)) fun _ => none

/-- `HashMap::extend`. -/
def extend (entries more : α → Option β) : α → Option β := fun key => (more key).or (entries key)

theorem extend_update (entries more : α → Option β) (key : α) (value : β) :
    extend entries (update more key (some value)) =
      update (extend entries more) key (some value) := by
  funext k
  by_cases hk : k = key
  · subst hk
    simp [extend]
  · simp [extend, update_of_ne hk]

end

structure Replica where
  identities : List MemberIdentity
  roster : List String

structure Projected where
  holder : Holder
  head : Option ChainHead
  applied : Surface → Option (List (Option UInt64 × Json.Value))
  appliedSigs : UInt64 → Option (List RosterAttestation)
  anchors : String → Option String
  memberRelays : String → Option (List String)
  replica : Option Replica

def pushApplied (applied : Surface → Option (List (Option UInt64 × Json.Value))) (surface : Surface)
    (id : UInt64) (payload : Json.Value) : Surface → Option (List (Option UInt64 × Json.Value)) :=
  update applied surface (some ((applied surface).getD [] ++ [(some id, payload)]))

def workingAnchors (blocks : List ChainBlock) : String → Option String :=
  blocks.foldl (fun anchors b =>
    match b.change with
    | .membership m =>
      match m.nostrPk with
      | some pk => if pk = "" then anchors else update anchors m.member (some pk)
      | none => anchors
    | _ => anchors) fun _ => none

def declaredRelays (blocks : List ChainBlock) : String → Option (List String) :=
  blocks.foldl (fun ledger b =>
    match b.change with
    | .membership m => if m.relays = [] then ledger else update ledger m.member (some m.relays)
    | _ => ledger) fun _ => none

def seedApplied (groups : List Group) : Surface → Option (List (Option UInt64 × Json.Value)) :=
  groups.foldl (fun projected g =>
    update projected g.1
      (some ((projected g.1).getD [] ++ g.2.map fun e => (some e.1, e.2)))) fun _ => none

namespace Projected

def adoptHeadRoster (s : Projected) : Projected :=
  { s with replica := match s.head with
      | some head =>
        s.replica.map fun _ => ⟨head.identities, head.identities.map MemberIdentity.member⟩
      | none => s.replica }

def projectOne (s : Projected) (block : ChainBlock) : Projected :=
  adoptHeadRoster <|
    match block.change with
    | .applied id surface payload =>
      { s with
        applied := pushApplied s.applied surface id payload
        appliedSigs := update s.appliedSigs id (some block.sigs) }
    | .membership m =>
      { s with
        anchors := match m.nostrPk.filter (· ≠ "") with
          | some pk => update s.anchors m.member (some pk)
          | none => s.anchors
        memberRelays := if m.relays = [] then s.memberRelays
          else update s.memberRelays m.member (some m.relays) }
    | _ => s

def foldApplied (seed : Surface → Option (List (Option UInt64 × Json.Value))) (blocks : List ChainBlock) :
    (Surface → Option (List (Option UInt64 × Json.Value))) × (UInt64 → Option (List RosterAttestation)) :=
  blocks.foldl (fun acc b =>
    match b.change with
    | .applied id surface payload =>
      (pushApplied acc.1 surface id payload, update acc.2 id (some b.sigs))
    | _ => acc) (seed, fun _ => none)

def applyChainToState (s : Projected) : Projected :=
  let blob := s.holder.checkpointBlob
  let folded := foldApplied (seedApplied (blob.elim [] CheckpointState.applied)) s.holder.blocks
  adoptHeadRoster { s with
    applied := folded.1
    appliedSigs := folded.2
    anchors := extend (collect (blob.elim [] CheckpointState.anchors)) (workingAnchors s.holder.blocks)
    memberRelays :=
      extend (collect (blob.elim [] CheckpointState.memberRelays)) (declaredRelays s.holder.blocks) }

def append (C : Crypto) (s : Projected) (block : ChainBlock) : Projected :=
  match s.holder.extendOwn C block with
  | (holder, .ok head) =>
    let s := { s with holder := holder, head := some head }.projectOne block
    { s with holder := { s.holder with blocks := s.holder.blocks ++ [block] } }
  | (holder, .error _) => { s with holder := holder }

structure Rebuilt (s : Projected) : Prop where
  applied : s.applied =
    (foldApplied (seedApplied (s.holder.checkpointBlob.elim [] CheckpointState.applied)) s.holder.blocks).1
  appliedSigs : s.appliedSigs =
    (foldApplied (seedApplied (s.holder.checkpointBlob.elim [] CheckpointState.applied)) s.holder.blocks).2
  anchors : s.anchors =
    extend (collect (s.holder.checkpointBlob.elim [] CheckpointState.anchors)) (workingAnchors s.holder.blocks)
  memberRelays : s.memberRelays =
    extend (collect (s.holder.checkpointBlob.elim [] CheckpointState.memberRelays))
      (declaredRelays s.holder.blocks)
  roster : s.adoptHeadRoster = s

variable (s : Projected)

theorem adoptHeadRoster_idem : s.adoptHeadRoster.adoptHeadRoster = s.adoptHeadRoster := by
  unfold adoptHeadRoster
  cases s.head with
  | none => rfl
  | some head => simp [comp_def]

theorem adopted_holder (holder : Holder) :
    ({ s.adoptHeadRoster with holder := holder } : Projected).adoptHeadRoster =
      { s.adoptHeadRoster with holder := holder } :=
  congrArg (fun t : Projected => ({ t with holder := holder } : Projected)) (adoptHeadRoster_idem s)

theorem Rebuilt.applyChainToState {s : Projected} (h : s.Rebuilt) : s.applyChainToState = s := by
  unfold Projected.applyChainToState
  simp only [← h.applied, ← h.appliedSigs, ← h.anchors, ← h.memberRelays]
  exact h.roster

theorem rebuilt_applyChainToState : s.applyChainToState.Rebuilt where
  applied := rfl
  appliedSigs := rfl
  anchors := rfl
  memberRelays := rfl
  roster := adoptHeadRoster_idem _

variable {m : Membership}

theorem anchors_concat (entries : String → Option String) (blocks : List ChainBlock) (b : ChainBlock)
    (hm : b.change = .membership m) :
    extend entries (workingAnchors (blocks ++ [b])) =
      match m.nostrPk.filter (· ≠ "") with
      | some pk => update (extend entries (workingAnchors blocks)) m.member (some pk)
      | none => extend entries (workingAnchors blocks) := by
  unfold workingAnchors
  rw [foldl_append, foldl_cons, foldl_nil]
  simp only [hm]
  cases m.nostrPk with
  | none => rfl
  | some pk =>
    by_cases hpk : pk = ""
    · subst hpk
      simp only [if_true, filter_some, ne_eq, not_true_eq_false, decide_false, Bool.false_eq_true,
        if_false]
    · simp only [hpk, if_false, filter_some, ne_eq, not_false_eq_true, decide_true, if_true,
        extend_update]

theorem relays_concat (entries : String → Option (List String)) (blocks : List ChainBlock) (b : ChainBlock)
    (hm : b.change = .membership m) :
    extend entries (declaredRelays (blocks ++ [b])) =
      if m.relays = [] then extend entries (declaredRelays blocks)
      else update (extend entries (declaredRelays blocks)) m.member (some m.relays) := by
  unfold declaredRelays
  rw [foldl_append, foldl_cons, foldl_nil]
  simp only [hm]
  split
  · rfl
  · exact extend_update _ _ _ _

theorem foldApplied_concat (seed : Surface → Option (List (Option UInt64 × Json.Value)))
    (blocks : List ChainBlock) (b : ChainBlock) {id : UInt64} {surface : Surface} {payload : Json.Value}
    (hb : b.change = .applied id surface payload) :
    foldApplied seed (blocks ++ [b]) =
      (pushApplied (foldApplied seed blocks).1 surface id payload,
        update (foldApplied seed blocks).2 id (some b.sigs)) := by
  unfold foldApplied
  rw [foldl_append, foldl_cons, foldl_nil]
  simp only [hb]

variable {b : ChainBlock}

theorem concat_other (happlied : ∀ id surface payload, b.change ≠ .applied id surface payload)
    (hmembership : ∀ m, b.change ≠ .membership m) (blocks : List ChainBlock)
    (seed : Surface → Option (List (Option UInt64 × Json.Value))) :
    foldApplied seed (blocks ++ [b]) = foldApplied seed blocks ∧
      workingAnchors (blocks ++ [b]) = workingAnchors blocks ∧
        declaredRelays (blocks ++ [b]) = declaredRelays blocks := by
  unfold foldApplied workingAnchors declaredRelays
  simp only [foldl_append, foldl_cons, foldl_nil]
  cases hb : b.change with
  | applied id surface payload => exact absurd hb (happlied id surface payload)
  | membership m => exact absurd hb (hmembership m)
  | genesis | checkpoint | checkpointFolded | checkpointVault => simp

theorem applied_keeps_members {id : UInt64} {surface : Surface} {payload : Json.Value}
    (hb : b.change = .applied id surface payload) (blocks : List ChainBlock) :
    workingAnchors (blocks ++ [b]) = workingAnchors blocks ∧
      declaredRelays (blocks ++ [b]) = declaredRelays blocks := by
  unfold workingAnchors declaredRelays
  simp only [foldl_append, foldl_cons, foldl_nil, hb]
  simp

theorem membership_keeps_applied (hb : b.change = .membership m) (blocks : List ChainBlock)
    (seed : Surface → Option (List (Option UInt64 × Json.Value))) :
    foldApplied seed (blocks ++ [b]) = foldApplied seed blocks := by
  unfold foldApplied
  simp only [foldl_append, foldl_cons, foldl_nil, hb]

theorem Rebuilt.projectOne {s : Projected} (h : s.Rebuilt) (holder : Holder)
    (hblob : holder.checkpointBlob = s.holder.checkpointBlob) (hblocks : holder.blocks = s.holder.blocks)
    (head : ChainHead) (block : ChainBlock) :
    Rebuilt { ({ s with holder := holder, head := some head } : Projected).projectOne block with
      holder := { holder with blocks := holder.blocks ++ [block] } } := by
  unfold Projected.projectOne
  cases hb : block.change with
  | applied id surface payload =>
    obtain ⟨hanchors, hrelays⟩ := applied_keeps_members hb s.holder.blocks
    refine ⟨?_, ?_, ?_, ?_, adopted_holder _ _⟩ <;> dsimp only [adoptHeadRoster] <;> rw [hblob, hblocks]
    · rw [foldApplied_concat _ _ _ hb, h.applied]
    · rw [foldApplied_concat _ _ _ hb, h.appliedSigs]
    · rw [hanchors, h.anchors]
    · rw [hrelays, h.memberRelays]
  | membership m =>
    refine ⟨?_, ?_, ?_, ?_, adopted_holder _ _⟩ <;> dsimp only [adoptHeadRoster] <;> rw [hblob, hblocks]
    · rw [membership_keeps_applied hb, h.applied]
    · rw [membership_keeps_applied hb, h.appliedSigs]
    · rw [anchors_concat _ _ _ hb, h.anchors]
    · rw [relays_concat _ _ _ hb, h.memberRelays]
  | genesis | checkpoint | checkpointFolded | checkpointVault =>
    obtain ⟨happlied, hanchors, hrelays⟩ :=
      @concat_other block (by simp [hb]) (by simp [hb]) s.holder.blocks
        (seedApplied (s.holder.checkpointBlob.elim [] CheckpointState.applied))
    refine ⟨?_, ?_, ?_, ?_, adopted_holder _ _⟩ <;>
      dsimp only [adoptHeadRoster] <;> rw [hblob, hblocks]
    · rw [happlied, h.applied]
    · rw [happlied, h.appliedSigs]
    · rw [hanchors, h.anchors]
    · rw [hrelays, h.memberRelays]

theorem projectOne_holder (block : ChainBlock) : (s.projectOne block).holder = s.holder := by
  unfold Projected.projectOne adoptHeadRoster
  cases block.change <;> rfl

theorem projectOne_head (block : ChainBlock) : (s.projectOne block).head = s.head := by
  unfold Projected.projectOne adoptHeadRoster
  cases block.change <;> rfl

theorem Rebuilt.append {s : Projected} (h : s.Rebuilt) (C : Crypto) (block : ChainBlock) :
    (s.append C block).Rebuilt := by
  obtain ⟨walk, hsame⟩ := Holder.extendOwn_same C s.holder block
  unfold Projected.append
  split <;> rename_i holder _ heq <;> rw [heq] at hsame <;> dsimp only at hsame <;> subst hsame
  · simp only [projectOne_holder]
    exact h.projectOne { s.holder with walk := walk } rfl rfl _ block
  · exact ⟨h.applied, h.appliedSigs, h.anchors, h.memberRelays,
      congrArg (fun t : Projected => ({ t with holder := { s.holder with walk := walk } } : Projected)) h.roster⟩

theorem append_holder (C : Crypto) (block : ChainBlock) :
    (s.append C block).holder = (s.holder.appendCommittedBlock C block).1 := by
  unfold Projected.append Holder.appendCommittedBlock
  rcases Holder.extendOwn C s.holder block with ⟨holder, e | head⟩
  · rfl
  · simp [projectOne_holder]

theorem append_head {s : Projected} (hb : Holder.Built C s.holder) (hsame : s.holder.SameBases)
    (hhead : s.head = s.holder.walk.map ChainWalk.head) (block : ChainBlock) :
    (s.append C block).head = (s.append C block).holder.walk.map ChainWalk.head := by
  obtain ⟨w, hkept, hwalk⟩ := hb.coherent hsame
  have hextend := Holder.extendOwn_eq hkept hwalk block
  unfold Projected.append
  cases hstep : (step C w block s.holder.held).2 with
  | ok =>
    rw [hstep] at hextend
    simp [hextend, Except.map, projectOne_head, projectOne_holder]
  | error e =>
    rw [hstep] at hextend
    simp only [hextend, Except.map, step_of_error hstep]
    rw [hhead, hkept]

theorem appended_head {s : Projected} (hb : Holder.Built C s.holder)
    (hhead : s.head = s.holder.walk.map ChainWalk.head) (blocks : List ChainBlock)
    (hsame : (s.holder.offerAll C blocks).SameBases) :
    ∃ w, (blocks.foldl (append C) s).holder.walkOwn C (blocks.foldl (append C) s).holder.blocks = .ok w ∧
      (blocks.foldl (append C) s).head = some w.head := by
  induction blocks generalizing s with
  | nil =>
    obtain ⟨w, hkept, hwalk⟩ := hb.coherent hsame
    exact ⟨w, hwalk, by rw [foldl_nil, hhead, hkept, map_some]⟩
  | cons b blocks ih =>
    have hstart : s.holder.SameBases := Holder.SameBases.before_all (b :: blocks) hsame
    have hb' : Holder.Built C (s.append C b).holder := append_holder s C b ▸ hb.offered b
    refine ih hb' (append_head hb hstart hhead b) ?_
    rw [append_holder]
    exact hsame

/-- Projecting each appended block gives what the rebuild folds from the blob and the
whole block list, after whatever state the rebuild last ran on. -/
theorem projecting_is_rebuilding (C : Crypto) (s : Projected) (blocks : List ChainBlock) :
    let t := blocks.foldl (append C) s.applyChainToState
    t.applyChainToState = t ∧ t.holder = s.holder.offerAll C blocks := by
  intro t
  have hrun : ∀ (blocks : List ChainBlock) (s : Projected), s.Rebuilt →
      (blocks.foldl (append C) s).Rebuilt ∧
        (blocks.foldl (append C) s).holder = s.holder.offerAll C blocks := by
    intro blocks
    induction blocks with
    | nil => exact fun s h => ⟨h, rfl⟩
    | cons b blocks ih =>
      intro s h
      obtain ⟨hrebuilt, hholder⟩ := ih _ (h.append C b)
      refine ⟨hrebuilt, ?_⟩
      rw [List.foldl_cons, hholder, append_holder]
      rfl
  obtain ⟨hrebuilt, hholder⟩ := hrun blocks _ (rebuilt_applyChainToState s)
  exact ⟨hrebuilt.applyChainToState, hholder⟩

end Projected
end Molt.Chain
