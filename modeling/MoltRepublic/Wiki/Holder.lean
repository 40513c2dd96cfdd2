import Mathlib
import MoltRepublic.Wiki.Rooted

/-! A holder follows one lineage of patches through blocks, cuts and re-bases, and keeps
or loses the cards of the patches: a stamp on a card always names a revision of it. -/

namespace Molt.Wiki
open Molt.Core Json Check Chain List SortedMap Option

variable {C : Crypto}

section

def Memo (L : Lineage) (c : WikiCache) : Prop :=
  ∀ below floor cut, c.belowCut = some (below, floor) → c.revAtCut = some cut → BelowCut L cut floor below

structure Stands (C : Crypto) (m : Memory) (c : WikiCache) : Prop where
  fold : m.fold C = .ok c.toFolded
  epoch : c.epoch = m.appliedEpoch
  legacy : c.legacy = m.legacy.length
  chain : c.chain = m.chain.length

/-- The cards of a holder tell the lineage: under the id of an applied patch stands no
other patch, and a stamp names a revision of its own card. -/
structure Kept (cards : SortedMap Nat Card) (L : Lineage) : Prop where
  patches : ∀ r ∈ L.revisions, ∀ id, r.proposal = some id → ∀ p, cards.get? id.toNat = some p →
    ∀ patch, p.payload.getStr "value" = some patch → parsePatch patch = r.files
  stamps : ∀ id p rev, cards.get? id = some p → p.surface = .memory → p.wikiRev = some rev →
    ∃ r ∈ L.revisions, r.rev = rev ∧ ∃ pid, r.proposal = some pid ∧ pid.toNat = id

structure Refreshable (C : Crypto) (h : Holder) (L : Lineage) : Prop where
  rooted : ∃ root, Rooted C h.memory root L
  room : L.rev < 2 ^ 64
  epoch : h.memory.appliedEpoch < 2 ^ 64
  cache : ∀ c, h.wikiCache = some c → h.memory.extends c = true →
    (h.memory.tail c).any isBaseEntry = false ∧ Current C h.memory c ∧ Memo L c
  kept : Kept h.cards L

structure Follows (C : Crypto) (h : Holder) (L : Lineage) : Prop where
  rooted : ∃ root, Rooted C h.memory root L
  room : L.rev < 2 ^ 64
  epoch : h.memory.appliedEpoch < 2 ^ 64
  cache : ∀ c, h.wikiCache = some c → Stands C h.memory c ∧ Memo L c
  kept : Kept h.cards L

variable {cards : SortedMap Nat Card}

theorem get?_stampCard {stamp : UInt64 × Nat} {id : Nat} {p : Card}
    (h : (stampCard cards stamp).get? id = some p) :
    ∃ q, cards.get? id = some q ∧ p.payload = q.payload ∧ p.surface = q.surface ∧ p.applied = q.applied ∧
      (p.wikiRev = q.wikiRev ∨ (stamp.1.toNat = id ∧ p.wikiRev = some stamp.2)) := by
  unfold stampCard at h
  cases hget : cards.get? stamp.1.toNat with
  | none =>
    rw [hget] at h
    exact ⟨p, h, rfl, rfl, rfl, .inl rfl⟩
  | some q =>
    rw [hget] at h
    rw [get?_insert] at h
    split_ifs at h with hid
    · rw [← Option.some.inj h]
      refine ⟨q, by rw [hid]; exact hget, rfl, rfl, rfl, .inr ⟨hid.symm, rfl⟩⟩
    · exact ⟨p, h, rfl, rfl, rfl, .inl rfl⟩

theorem get?_stamps {stamps : List (UInt64 × Nat)} {id : Nat} {p : Card}
    (h : (stamps.foldl stampCard cards).get? id = some p) :
    ∃ q, cards.get? id = some q ∧ p.payload = q.payload ∧ p.surface = q.surface ∧ p.applied = q.applied ∧
      (p.wikiRev = q.wikiRev ∨ ∃ s ∈ stamps, s.1.toNat = id ∧ p.wikiRev = some s.2) := by
  induction stamps generalizing cards with
  | nil => exact ⟨p, h, rfl, rfl, rfl, .inl rfl⟩
  | cons s stamps ih =>
    obtain ⟨q, hq, hpay, hsurf, happ, hrev⟩ := ih h
    obtain ⟨q', hq', hpay', hsurf', happ', hrev'⟩ := get?_stampCard hq
    refine ⟨q', hq', hpay.trans hpay', hsurf.trans hsurf', happ.trans happ', ?_⟩
    rcases hrev with heq | ⟨t, ht, hid, heq⟩
    · rcases hrev' with heq' | ⟨hid, heq'⟩
      · exact .inl (heq.trans heq')
      · exact .inr ⟨s, .head _, hid, heq.trans heq'⟩
    · exact .inr ⟨t, .tail _ ht, hid, heq⟩

variable {L : Lineage}

theorem Kept.stamp (h : Kept cards L) {stamps : List (UInt64 × Nat)}
    (htrue : ∀ s ∈ stamps, ∃ r ∈ L.revisions, r.proposal = some s.1 ∧ r.rev = s.2) :
    Kept (stamps.foldl stampCard cards) L := by
  refine ⟨?_, ?_⟩
  · intro r hr id hid p hp patch hpatch
    obtain ⟨q, hq, hpay, -⟩ := get?_stamps hp
    rw [hpay] at hpatch
    exact h.patches r hr id hid q hq patch hpatch
  · intro id p rev hp hsurface hrev
    obtain ⟨q, hq, -, hsurf, -, hstamp⟩ := get?_stamps hp
    rcases hstamp with heq | ⟨s, hs, hid, heq⟩
    · exact h.stamps id q rev hq (hsurf ▸ hsurface) (heq ▸ hrev)
    · obtain ⟨r, hr, hprop, hrrev⟩ := htrue s hs
      rw [heq] at hrev
      exact ⟨r, hr, hrrev.trans (Option.some.inj hrev), s.1, hprop, hid⟩

theorem Reads.stamps {cut : Nat} {f : Folded} (h : Reads L cut f) :
    ∀ s ∈ wikiStampsOf f, ∃ r ∈ L.revisions, r.proposal = some s.1 ∧ r.rev = s.2 := by
  intro s hs
  unfold wikiStampsOf at hs
  rw [h.above] at hs
  obtain ⟨e, he, hse⟩ := mem_filterMap.mp hs
  obtain ⟨r, hr, rfl⟩ := mem_map.mp he
  obtain ⟨pid, hpid, rfl⟩ := map_eq_some_iff.mp hse
  exact ⟨r, mem_of_mem_drop hr, hpid, rfl⟩

theorem foldl_foldWikiStep_cut (l : List Entry) (f : Folded) :
    (l.foldl foldWikiStep f).base = f.base ∧ (l.foldl foldWikiStep f).revAtCut = f.revAtCut := by
  induction l generalizing f with
  | nil => exact ⟨rfl, rfl⟩
  | cons e l ih =>
    have hone : (foldWikiStep f e).base = f.base ∧ (foldWikiStep f e).revAtCut = f.revAtCut := by
      unfold foldWikiStep
      split
      · exact ⟨rfl, rfl⟩
      · split <;> exact ⟨rfl, rfl⟩
    obtain ⟨hbase, hcut⟩ := ih (foldWikiStep f e)
    exact ⟨hbase.trans hone.1, hcut.trans hone.2⟩

theorem Refreshable.refresh {h : Holder} (hh : Refreshable C h L) :
    Follows C (h.refresh C) L ∧ ∃ c, (h.refresh C).wikiCache = some c := by
  obtain ⟨root, hrooted⟩ := hh.rooted
  obtain ⟨f, hfold, hreads, -⟩ := hrooted.fold hh.room
  -- whichever way the cache comes about, it carries `f` and stamps from it
  have key : ∃ c, (refreshWikiCache C h.memory h.wikiCache).1 = some c ∧ Stands C h.memory c ∧ Memo L c ∧
      ∀ s ∈ (refreshWikiCache C h.memory h.wikiCache).2, s ∈ wikiStampsOf f := by
    have hfresh : (foldWikiFromBase C h.memory).toOption = some (h.memory.cacheOf f none) := by
      unfold foldWikiFromBase
      rw [hfold]
      rfl
    unfold refreshWikiCache
    cases hfilter : h.wikiCache.filter h.memory.extends with
    | none =>
      rw [hfresh]
      refine ⟨_, rfl, ⟨hfold, rfl, rfl, rfl⟩, ?_, fun s hs => hs⟩
      intro below floor cut hbelow
      exact absurd hbelow (by simp [Memory.cacheOf])
    | some c =>
      obtain ⟨hc, hext⟩ := filter_eq_some_iff.mp hfilter
      obtain ⟨hplain, hcurrent, hmemo⟩ := hh.cache c hc hext
      have hextended : extendFold c.toFolded (h.memory.tail c) = f := by
        have hcond := hext
        unfold Memory.extends at hcond
        simp only [Bool.and_eq_true, beq_iff_eq] at hcond
        obtain ⟨-, -, hpart⟩ := hcurrent hcond.1.1 hcond.2
        have hwhole := hfold
        unfold Memory.fold at hwhole
        rw [← Memory.extends_split hext, foldlM_append, hpart] at hwhole
        have hrest : (h.memory.tail c).foldlM (foldWikiEntry C h.memory.wikiBase) c.toFolded =
            .ok ((h.memory.tail c).foldl foldWikiStep c.toFolded) :=
          foldlM_plain (fun e he => by simpa using any_eq_false.mp hplain e he) _
        rw [extendFold_plain hplain]
        exact Except.ok.inj (hrest.symm.trans hwhole)
      dsimp only
      rw [hplain, hextended]
      refine ⟨_, rfl, ⟨hfold, rfl, rfl, rfl⟩, ?_, ?_⟩
      · intro below floor cut hbelow hcut
        have hsame : f.revAtCut = c.revAtCut := by
          rw [← hextended, extendFold_plain hplain, (foldl_foldWikiStep_cut _ _).2]
        exact hmemo below floor cut hbelow (hsame ▸ hcut)
      · intro s hs
        exact (mem_append.mp hs).elim id id
  obtain ⟨c, hc, hstands, hmemo, hstamps⟩ := key
  have hcache : (h.refresh C).wikiCache = some c := hc
  refine ⟨⟨hh.rooted, hh.room, hh.epoch, ?_, ?_⟩, c, hcache⟩
  · intro d hd
    cases hcache.symm.trans hd
    exact ⟨hstands, hmemo⟩
  · exact hh.kept.stamp fun s hs => hreads.stamps s (hstamps s hs)

end

section

/-- The card of a block: a missing one is made up from the block, and one that carries
another change is not settled by it. -/
def Holder.blockCard (h : Holder) (id : UInt64) (payload : Value) : Card :=
  match h.cards.get? id.toNat with
  | none => ⟨.memory, payload, true, "", none⟩
  | some p => if p.payload = payload ∨ p.by_ = "" then { p with applied := true } else p

def Holder.appendBlock (h : Holder) (id : UInt64) (payload : Value) : Holder :=
  { h with
    memory := { h.memory with chain := h.memory.chain ++ [(some id, payload)] }
    cards := h.cards.insert id.toNat (h.blockCard id payload) }

/-- A sealed block applies a Memory payload: `append_committed_block` and
`after_block_applied`. -/
def Holder.block (C : Crypto) (h : Holder) (id : UInt64) (payload : Value) : Holder :=
  (h.appendBlock id payload).refresh C

/-- The holder drops what a cut folded: `set_checkpoint_blob` and `apply_chain_to_state`
each bump the epoch. -/
def Holder.cut (C : Crypto) (h : Holder) (n : Nat) : Holder :=
  match h.memory.cut C n with
  | none => h
  | some memory => { h with memory := memory.bumpAppliedEpoch.bumpAppliedEpoch }.refresh C

/-- Another branch of the chain: the base it starts on, with the revision its cut recorded,
and the entries above. -/
structure Branch where
  base : Option (Tree × Option UInt64)
  entries : List Entry

def baseEntry (C : Crypto) (tree : Tree) : Option UInt64 → Entry
  | some rev => (some 0, (wikiBaseEntry C tree rev).2)
  | none =>
    (some 0, .obj [("hash", .str (wikiCommitment C tree).1), ("op", .str "wiki_base"),
      ("size", .num (.posInt (wikiCommitment C tree).2))])

def Branch.memory (C : Crypto) (b : Branch) (epoch : Nat) : Memory :=
  match b.base with
  | none => ⟨[], b.entries, none, epoch⟩
  | some (tree, rev) => ⟨[], baseEntry C tree rev :: b.entries, some tree, epoch⟩

def Branch.root (b : Branch) : Lineage :=
  match b.base with
  | none => Lineage.founding
  | some (tree, rev) => Lineage.startingAt ((rev.map UInt64.toNat).getD 0) tree

def Holder.adopt (C : Crypto) (h : Holder) (b : Branch) : Holder :=
  Holder.refresh C { h with
    memory := (b.memory C h.memory.appliedEpoch).bumpAppliedEpoch.bumpAppliedEpoch }.forgetWikiStamps

def Holder.register (h : Holder) (id : UInt64) (surface : Surface) (payload : Value) (by_ : String) : Holder :=
  match h.cards.get? id.toNat with
  | some _ => h
  | none => { h with cards := h.cards.insert id.toNat ⟨surface, payload, false, by_, none⟩ }

def Holder.settle (h : Holder) (id : UInt64) (applied : Bool) : Holder :=
  match h.cards.get? id.toNat with
  | none => h
  | some p => { h with cards := h.cards.insert id.toNat { p with applied := applied } }

def Holder.lose (h : Holder) (id : UInt64) : Holder := { h with cards := h.cards.erase id.toNat }

/-- Under `id` the lineage applied no other patch than the one of `payload`. -/
def NoOther (L : Lineage) (id : UInt64) (payload : Value) : Prop :=
  ∀ r ∈ L.revisions, r.proposal = some id → ∀ patch, payload.getStr "value" = some patch →
    parsePatch patch = r.files

variable {h : Holder} {L : Lineage}

theorem Kept.push {cards : SortedMap Nat Card} (hk : Kept cards L) {e : Entry}
    (he : ∀ id, e.1 = some id → ∀ p, cards.get? id.toNat = some p →
      p.payload.getStr "value" = e.2.getStr "value") :
    Kept cards (L.push e) := by
  rcases L.push_cases e with ⟨heq, -⟩ | ⟨files, tree, happ, hfiles, heq⟩
  · rw [heq]
    exact hk
  · rw [heq]
    refine ⟨?_, ?_⟩
    · intro r hr id hid p hp patch hpatch
      rcases mem_append.mp hr with hold | hnew
      · exact hk.patches r hold id hid p hp patch hpatch
      · rw [mem_singleton.mp hnew] at hid ⊢
        have hvalue := he id hid p hp
        rw [hpatch] at hvalue
        unfold wikiPatchFiles at hfiles
        split_ifs at hfiles
        rw [← hvalue] at hfiles
        exact Option.some.inj hfiles
    · intro id p rev hp hsurface hrev
      obtain ⟨r, hr, hrest⟩ := hk.stamps id p rev hp hsurface hrev
      exact ⟨r, mem_append_left _ hr, hrest⟩

theorem Stands.held {m : Memory} {c : WikiCache} (hc : Stands C m c) {root : Lineage} (hr : Rooted C m root L) :
    wikiCacheBaseHeld m c = true := by
  unfold wikiCacheBaseHeld
  cases hr with
  | founding hplain hroot =>
    have hfold : m.fold C = .ok (m.appliedEntries.foldl foldWikiStep {}) := foldlM_plain hplain _
    rw [Except.ok.inj (hc.fold.symm.trans hfold), (foldl_foldWikiStep_cut _ _).1]
    rfl
  | folded e rest hash size hlegacy hchain hbase hheld hhash hcut hplain =>
    rw [hheld]
    simp

theorem Follows.refreshable (hf : Follows C h L) : Refreshable C h L := by
  refine ⟨hf.rooted, hf.room, hf.epoch, ?_, hf.kept⟩
  intro c hc _
  obtain ⟨hstands, hmemo⟩ := hf.cache c hc
  refine ⟨?_, Current.of_stands hstands.fold hstands.legacy hstands.chain, hmemo⟩
  unfold Memory.tail
  rw [hstands.legacy, hstands.chain, drop_length, drop_length]
  rfl

theorem bumped_ne (m : Memory) :
    m.bumpAppliedEpoch.bumpAppliedEpoch.appliedEpoch ≠ m.appliedEpoch ∧
      m.bumpAppliedEpoch.bumpAppliedEpoch.appliedEpoch < 2 ^ 64 := by
  change ((m.appliedEpoch + 1) % 2 ^ 64 + 1) % 2 ^ 64 ≠ m.appliedEpoch ∧
    ((m.appliedEpoch + 1) % 2 ^ 64 + 1) % 2 ^ 64 < 2 ^ 64
  omega

theorem extends_epoch {m : Memory} {c : WikiCache} (h : m.extends c = true) : c.epoch = m.appliedEpoch := by
  unfold Memory.extends at h
  simp only [Bool.and_eq_true, beq_iff_eq] at h
  exact h.1.1

theorem Rooted.congr {m m' : Memory} {root : Lineage} (hr : Rooted C m root L) (hlegacy : m'.legacy = m.legacy)
    (hchain : m'.chain = m.chain) (hbase : m'.wikiBase = m.wikiBase) : Rooted C m' root L := by
  have hentries : m.appliedEntries = m'.appliedEntries := by
    unfold Memory.appliedEntries
    rw [hlegacy, hchain]
  cases hr with
  | founding hplain hroot =>
    rw [hentries] at hplain ⊢
    exact .founding hplain hroot
  | folded e rest hash size hleg hch hb hheld hhash hcut hplain =>
    exact .folded e rest hash size (hlegacy.trans hleg) (hchain.trans hch) hb (hbase.trans hheld) hhash hcut hplain

variable {id : UInt64} {payload : Value}

theorem Kept.block (hk : Kept h.cards L) (hnew : NoOther L id payload)
    (hcard : ∀ p, h.cards.get? id.toNat = some p → p.payload.getStr "value" = payload.getStr "value") :
    Kept (h.cards.insert id.toNat (h.blockCard id payload)) (L.push (some id, payload)) := by
  have hvalue : (h.blockCard id payload).payload.getStr "value" = payload.getStr "value" := by
    unfold Holder.blockCard
    cases hget : h.cards.get? id.toNat with
    | none => rfl
    | some p =>
      dsimp only
      split_ifs
      all_goals exact hcard p hget
  have hstamp : ∀ rev, (h.blockCard id payload).wikiRev = some rev → (h.blockCard id payload).surface = .memory →
      ∃ p, h.cards.get? id.toNat = some p ∧ p.surface = .memory ∧ p.wikiRev = some rev := by
    intro rev hrev hsurface
    unfold Holder.blockCard at hrev hsurface
    cases hget : h.cards.get? id.toNat with
    | none =>
      rw [hget] at hrev
      simp at hrev
    | some p =>
      rw [hget] at hrev hsurface
      dsimp only at hrev hsurface
      split_ifs at hrev hsurface
      · exact ⟨p, rfl, hsurface, hrev⟩
      · exact ⟨p, rfl, hsurface, hrev⟩
  have hkept : Kept (h.cards.insert id.toNat (h.blockCard id payload)) L := by
    refine ⟨?_, ?_⟩
    · intro r hr pid hpid p hp patch hpatch
      rw [get?_insert] at hp
      split_ifs at hp with hid
      · rw [← Option.some.inj hp, hvalue] at hpatch
        rw [UInt64.toNat_inj.mp hid] at hpid
        exact hnew r hr hpid patch hpatch
      · exact hk.patches r hr pid hpid p hp patch hpatch
    · intro i p rev hp hsurface hrev
      rw [get?_insert] at hp
      split_ifs at hp with hid
      · rw [← Option.some.inj hp] at hsurface hrev
        obtain ⟨q, hq, hqsurface, hqrev⟩ := hstamp rev hrev hsurface
        rw [hid]
        exact hk.stamps id.toNat q rev hq hqsurface hqrev
      · exact hk.stamps i p rev hp hsurface hrev
  refine hkept.push ?_
  intro pid hpid p hp
  cases hpid
  rw [get?_insert, if_pos rfl] at hp
  rw [← Option.some.inj hp]
  exact hvalue

theorem Follows.block (hf : Follows C h L) (hop : isBaseEntry (some id, payload) = false)
    (hnew : NoOther L id payload)
    (hcard : ∀ p, h.cards.get? id.toNat = some p → p.payload.getStr "value" = payload.getStr "value")
    (hroom : L.rev + 1 < 2 ^ 64) : Follows C (h.block C id payload) (L.push (some id, payload)) := by
  obtain ⟨root, hrooted⟩ := hf.rooted
  have hpush : (L.push (some id, payload)).rev < 2 ^ 64 := by
    rcases L.push_cases (some id, payload) with ⟨heq, -⟩ | ⟨files, tree, happ, -, heq⟩
    · rw [heq]
      exact hf.room
    · rw [heq]
      simp only [Lineage.rev, Lineage.apply, length_append, length_singleton] at hroom ⊢
      omega
  have hready : Refreshable C (h.appendBlock id payload) (L.push (some id, payload)) := by
    refine ⟨⟨root, hrooted.block hop⟩, hpush, hf.epoch, ?_, hf.kept.block hnew hcard⟩
    intro c hc _
    obtain ⟨hstands, hmemo⟩ := hf.cache c hc
    refine ⟨?_, (Current.of_stands hstands.fold hstands.legacy hstands.chain).append _, ?_⟩
    · change (h.memory.legacy.drop c.legacy ++ (h.memory.chain ++ [(some id, payload)]).drop c.chain).any
        isBaseEntry = false
      rw [hstands.legacy, hstands.chain, drop_length, drop_left]
      simp [hop]
    · intro below floor cut hbelow hcut
      exact (hmemo below floor cut hbelow hcut).push _
  exact hready.refresh.1

theorem Follows.cut (hf : Follows C h L) (hlegacy : h.memory.legacy = []) {n : Nat} (hn : 0 < n) :
    Follows C (h.cut C n) L := by
  obtain ⟨root, hrooted⟩ := hf.rooted
  obtain ⟨m', root', hm', hrooted', hepoch, -⟩ := hrooted.cut hlegacy hn hf.room
  unfold Holder.cut
  rw [hm']
  obtain ⟨hne, hlt⟩ := bumped_ne m'
  have hready : Refreshable C { h with memory := m'.bumpAppliedEpoch.bumpAppliedEpoch } L := by
    refine ⟨⟨root', hrooted'.congr rfl rfl rfl⟩, hf.room, hlt, ?_, hf.kept⟩
    intro c hc hext
    have hold := (hf.cache c hc).1.epoch
    exact absurd ((extends_epoch hext).symm.trans (hold.trans hepoch.symm)) hne
  exact hready.refresh.1

theorem baseEntry_base (tree : Tree) (rev : Option UInt64) :
    baseCommitmentOf (baseEntry C tree rev).2 = some ((wikiCommitment C tree).1, (wikiCommitment C tree).2) ∧
      revAtCutOf (baseEntry C tree rev).2 = rev := by
  cases rev with
  | none =>
    simp [baseEntry, baseCommitmentOf, revAtCutOf, Value.getStr, Value.getU64, Value.get, Value.asStr,
      Value.asU64, List.lookup]
  | some r => exact ⟨baseCommitmentOf_wikiBaseEntry tree r, revAtCutOf_wikiBaseEntry tree r⟩

theorem Branch.rooted (b : Branch) (epoch : Nat) (hplain : ∀ e ∈ b.entries, isBaseEntry e = false) :
    Rooted C (b.memory C epoch) b.root (b.entries.foldl Lineage.push b.root) := by
  unfold Branch.memory Branch.root
  cases b.base with
  | none => exact .founding hplain rfl
  | some base =>
    obtain ⟨tree, rev⟩ := base
    obtain ⟨hcommit, hrev⟩ := baseEntry_base (C := C) tree rev
    refine .folded _ _ _ _ rfl rfl hcommit rfl rfl ?_ hplain
    rw [hrev]
    cases rev with
    | none => exact .inr ⟨rfl, rfl⟩
    | some r => exact .inl rfl

theorem Follows.adopt (hf : Follows C h L) (b : Branch) (hplain : ∀ e ∈ b.entries, isBaseEntry e = false)
    (hroom : (b.entries.foldl Lineage.push b.root).rev < 2 ^ 64)
    (hcards : ∀ id p, h.cards.get? (UInt64.toNat id) = some p →
      NoOther (b.entries.foldl Lineage.push b.root) id p.payload) :
    Follows C (h.adopt C b) (b.entries.foldl Lineage.push b.root) := by
  obtain ⟨hne, hlt⟩ := bumped_ne (b.memory C h.memory.appliedEpoch)
  have hepoch : (b.memory C h.memory.appliedEpoch).appliedEpoch = h.memory.appliedEpoch := by
    unfold Branch.memory
    split <;> rfl
  have hready : Refreshable C
      (Holder.forgetWikiStamps { h with
        memory := (b.memory C h.memory.appliedEpoch).bumpAppliedEpoch.bumpAppliedEpoch })
      (b.entries.foldl Lineage.push b.root) := by
    refine ⟨⟨b.root, (b.rooted _ hplain).congr rfl rfl rfl⟩, hroom, hlt, ?_, ?_, ?_⟩
    · intro c hc hext
      obtain ⟨d, hd, rfl⟩ := map_eq_some_iff.mp hc
      have hold := (hf.cache d hd).1.epoch
      exact absurd ((extends_epoch hext).symm.trans (hold.trans hepoch.symm)) hne
    · intro r hr id hid p hp patch hpatch
      change (h.cards.map _).get? id.toNat = some p at hp
      rw [get?_map] at hp
      obtain ⟨q, hq, rfl⟩ := map_eq_some_iff.mp hp
      have hpayload : q.payload.getStr "value" = some patch := by
        split_ifs at hpatch
        all_goals exact hpatch
      exact hcards id q hq r hr hid patch hpayload
    · intro id p rev hp hsurface hrev
      change (h.cards.map _).get? id = some p at hp
      rw [get?_map] at hp
      obtain ⟨q, hq, rfl⟩ := map_eq_some_iff.mp hp
      by_cases hmemory : q.surface = .memory
      · rw [if_pos hmemory] at hrev
        simp at hrev
      · rw [if_neg hmemory] at hsurface
        exact absurd hsurface hmemory
  exact hready.refresh.1

theorem Follows.register (hf : Follows C h L) {surface : Surface} {by_ : String} (hnew : NoOther L id payload) :
    Follows C (h.register id surface payload by_) L := by
  unfold Holder.register
  cases hget : h.cards.get? id.toNat with
  | some q => exact hf
  | none =>
    refine ⟨hf.rooted, hf.room, hf.epoch, hf.cache, ?_, ?_⟩
    · intro r hr pid hpid p hp patch hpatch
      rw [get?_insert] at hp
      split_ifs at hp with hid
      · rw [← Option.some.inj hp] at hpatch
        rw [UInt64.toNat_inj.mp hid] at hpid
        exact hnew r hr hpid patch hpatch
      · exact hf.kept.patches r hr pid hpid p hp patch hpatch
    · intro i p rev hp hsurface hrev
      rw [get?_insert] at hp
      split_ifs at hp with hid
      · rw [← Option.some.inj hp] at hrev
        simp at hrev
      · exact hf.kept.stamps i p rev hp hsurface hrev

theorem Follows.settle (hf : Follows C h L) (id : UInt64) (applied : Bool) :
    Follows C (h.settle id applied) L := by
  unfold Holder.settle
  cases hget : h.cards.get? id.toNat with
  | none => exact hf
  | some q =>
    refine ⟨hf.rooted, hf.room, hf.epoch, hf.cache, ?_, ?_⟩
    · intro r hr pid hpid p hp patch hpatch
      rw [get?_insert] at hp
      split_ifs at hp with hid
      · rw [← Option.some.inj hp] at hpatch
        exact hf.kept.patches r hr pid hpid q (by rw [hid]; exact hget) patch hpatch
      · exact hf.kept.patches r hr pid hpid p hp patch hpatch
    · intro i p rev hp hsurface hrev
      rw [get?_insert] at hp
      split_ifs at hp with hid
      · rw [← Option.some.inj hp] at hsurface hrev
        exact hf.kept.stamps i q rev (by rw [hid]; exact hget) hsurface hrev
      · exact hf.kept.stamps i p rev hp hsurface hrev

theorem Follows.lose (hf : Follows C h L) (id : UInt64) : Follows C (h.lose id) L := by
  have hsub : ∀ i p, (h.lose id).cards.get? i = some p → h.cards.get? i = some p := by
    intro i p hp
    change (h.cards.erase id.toNat).get? i = some p at hp
    rw [get?_erase] at hp
    split_ifs at hp
    exact hp
  exact ⟨hf.rooted, hf.room, hf.epoch, hf.cache,
    fun r hr pid hpid p hp => hf.kept.patches r hr pid hpid p (hsub _ p hp),
    fun i p rev hp => hf.kept.stamps i p rev (hsub i p hp)⟩

end

end Molt.Wiki
