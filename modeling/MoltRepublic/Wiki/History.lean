import Mathlib
import MoltRepublic.Wiki.Cache

/-! The change list of a holder (`cmd_wiki_changes`): above a cut the fold cache answers,
below it the cards that were stamped with the revision their patch produced. -/

namespace Molt.Wiki
open Molt.Core Json Check Chain List

/-- A `ProposalRecord`, as far as the change list reads it. -/
structure Card where
  surface : Surface
  payload : Value
  applied : Bool
  by_ : String
  wikiRev : Option Nat

structure Holder where
  memory : Memory
  cards : SortedMap Nat Card
  wikiCache : Option WikiCache
  /-- `require_feature(Surface::Memory)`. -/
  memoryOn : Bool

inductive ReadError where
  | disabled
  | basePending (e : BasePending)
  | unavailable

def stampCard (cards : SortedMap Nat Card) (stamp : UInt64 × Nat) : SortedMap Nat Card :=
  match cards.get? stamp.1.toNat with
  | none => cards
  | some p => cards.insert stamp.1.toNat { p with wikiRev := some stamp.2 }

/-- `refresh_wiki_cache`, with the stamps it leaves on the cards. -/
def Holder.refresh (C : Crypto) (h : Holder) : Holder :=
  let (cache, stamps) := refreshWikiCache C h.memory h.wikiCache
  { h with wikiCache := cache, cards := stamps.foldl stampCard h.cards }

/-- `forget_wiki_stamps`. -/
def Holder.forgetWikiStamps (h : Holder) : Holder :=
  { h with
    cards := h.cards.map fun p => if p.surface = .memory then { p with wikiRev := none } else p
    wikiCache := h.wikiCache.map fun c => { c with belowCut := none } }

def cardChanges (revAtCut : Nat) (e : Nat × Card) : Option RevChanges :=
  if e.2.surface = .memory ∧ e.2.applied = true then
    match e.2.wikiRev.filter fun r => decide (r ≤ revAtCut), e.2.payload.getStr "value" with
    | some rev, some patch => some ⟨rev, some (UInt64.ofNat e.1), (parsePatch patch).map wikiTouchOf⟩
    | _, _ => none
  else none

def floorFrom : Nat → List RevChanges → Nat
  | floor, [] => floor
  | floor, e :: rest => if e.rev = floor ∧ 0 < floor then floorFrom (floor - 1) rest else max floor e.rev

def wikiHistoryBelowTheCut (cards : SortedMap Nat Card) (revAtCut : Nat) : List RevChanges × Nat :=
  let below := (cards.entries.filterMap (cardChanges revAtCut)).insertionSort fun a b => a.rev ≤ b.rev
  let floor := floorFrom revAtCut below.reverse
  (below.filter fun e => floor < e.rev, floor)

structure ChangesReply where
  changes : List Change
  nextCursor : Option Nat
  total : Nat
  wikiRev : Nat
  base : Option String
  truncated : Bool

def wikiPageDefault : Nat := 100
def wikiPageMax : Nat := 500

def pageOf (limit : Nat) : Nat := if limit = 0 then wikiPageDefault else max 1 (min limit wikiPageMax)

def needsCards (f : Folded) (sinceRev : Nat) : Option Nat :=
  match f.base, f.revAtCut with
  | some _, some cut => if sinceRev < cut then some cut else none
  | _, _ => none

def belowOf (c : WikiCache) (sinceRev : Nat) : List RevChanges × Nat :=
  match c.base, c.revAtCut with
  | none, _ => ([], 0)
  | some _, none => ([], 1)
  | some _, some _ => if (needsCards c.toFolded sinceRev).isNone then ([], 0) else c.belowCut.getD ([], 0)

def replaysBefore (a b : Change) : Prop := a.rev < b.rev ∨ (a.rev = b.rev ∧ a.path ≤ b.path)

instance : DecidableRel replaysBefore := fun _ _ => inferInstanceAs (Decidable (_ ∨ _))

def changesOf (c : WikiCache) (sinceRev : Nat) : List Change :=
  (coalesceWikiChanges ((belowOf c sinceRev).1 ++ c.history) sinceRev).insertionSort replaysBefore

def changesReply (c : WikiCache) (sinceRev limit cursor : Nat) : ChangesReply :=
  let changes := changesOf c sinceRev
  let page := min (pageOf limit) (changes.length - cursor)
  { changes := (changes.drop cursor).take page
    nextCursor := if cursor + page < changes.length then some (min (cursor + page) (2 ^ 32 - 1)) else none
    total := changes.length
    wikiRev := c.rev
    base := c.base
    truncated := decide (sinceRev < (belowOf c sinceRev).2 ∨ c.rev < sinceRev) }

def withBelow (cards : SortedMap Nat Card) (c : WikiCache) (sinceRev : Nat) : WikiCache :=
  match needsCards c.toFolded sinceRev with
  | none => c
  | some cut => if c.belowCut.isNone then { c with belowCut := some (wikiHistoryBelowTheCut cards cut) } else c

def cmdWikiChanges (C : Crypto) (h : Holder) (sinceRev limit cursor : Nat) :
    Holder × Except ReadError ChangesReply :=
  if h.memoryOn = false then (h, .error .disabled)
  else
    let h := h.refresh C
    match h.wikiCache with
    | none =>
      match h.memory.fold C with
      | .error e => (h, .error (.basePending e))
      | .ok _ => (h, .error .unavailable)
    | some c =>
      let c := withBelow h.cards c sinceRev
      ({ h with wikiCache := some c }, .ok (changesReply c sinceRev limit cursor))

def readPages (C : Crypto) (sinceRev limit : Nat) : Nat → Holder → Nat → List Change
  | 0, _, _ => []
  | n + 1, h, cursor =>
    match cmdWikiChanges C h sinceRev limit cursor with
    | (_, .error _) => []
    | (h, .ok r) =>
      match r.nextCursor with
      | none => r.changes
      | some next => r.changes ++ readPages C sinceRev limit n h next

section

def runDown (top floor : Nat) : List Nat := (List.range (top - floor)).map fun i => top - i

theorem floorFrom_run {l : List RevChanges} {top : Nat} (hsorted : l.Pairwise fun a b => b.rev ≤ a.rev)
    (htop : ∀ e ∈ l, e.rev ≤ top) :
    floorFrom top l ≤ top ∧
      (l.filter fun e => floorFrom top l < e.rev).map RevChanges.rev = runDown top (floorFrom top l) := by
  induction l generalizing top with
  | nil => simp [floorFrom, runDown]
  | cons e rest ih =>
    obtain ⟨hhead, hrest⟩ := pairwise_cons.mp hsorted
    have hle := htop e (.head _)
    rw [floorFrom]
    split_ifs with hrun
    · obtain ⟨heq, hpos⟩ := hrun
      by_cases hbelow : ∀ a ∈ rest, a.rev ≤ top - 1
      · obtain ⟨hfloor, hmap⟩ := ih hrest hbelow
        refine ⟨le_trans hfloor (Nat.sub_le ..), ?_⟩
        generalize floorFrom (top - 1) rest = floor at hfloor hmap
        have hin : floor < e.rev := by omega
        rw [filter_cons_of_pos (by simpa using hin), map_cons, hmap, heq]
        unfold runDown
        have hlen : top - floor = (top - 1 - floor) + 1 := by omega
        rw [hlen, range_succ_eq_map, map_cons, map_map, Nat.sub_zero]
        congr 1
        apply map_congr_left
        simp only [Function.comp]
        omega
      · -- the revision stands on two cards: neither is trusted, the run ends above it
        obtain ⟨a, ha, hdup⟩ : ∃ a ∈ rest, ¬ a.rev ≤ top - 1 := by simpa using hbelow
        have hfloor : floorFrom (top - 1) rest = top := by
          cases rest with
          | nil => simp at ha
          | cons b rest =>
            have hb := hhead b (.head _)
            have hab : a.rev ≤ b.rev := by
              rcases mem_cons.mp ha with rfl | ha
              · exact le_refl _
              · exact (pairwise_cons.mp hrest).1 a ha
            rw [floorFrom, if_neg (by omega)]
            omega
        rw [hfloor]
        refine ⟨le_refl _, ?_⟩
        have hnone : ((e :: rest).filter fun e => top < e.rev) = [] := by
          apply filter_eq_nil_iff.mpr
          intro b hb
          simpa using htop b hb
        rw [hnone]
        simp [runDown]
    · have hmax : max top e.rev = top := max_eq_left hle
      rw [hmax]
      refine ⟨le_refl _, ?_⟩
      have hnone : ((e :: rest).filter fun e => top < e.rev) = [] := by
        apply filter_eq_nil_iff.mpr
        intro b hb
        simpa using htop b hb
      rw [hnone]
      simp [runDown]

end

/-- The patches a revision counter counts, from the tree it started at: the history a
change list answers for. -/
structure Lineage where
  start : Nat
  origin : Tree
  revisions : List Revision
  now : Tree
  numbered : ∀ (i : Nat) (r : Revision), revisions[i]? = some r → r.rev = start + i + 1
  replays : replay origin revisions = .ok now

namespace Lineage

/-- A counter that starts at `start` on the tree `origin`. -/
def startingAt (start : Nat) (origin : Tree) : Lineage where
  start := start
  origin := origin
  revisions := []
  now := origin
  numbered := by simp
  replays := rfl

def founding : Lineage := startingAt 0 SortedMap.empty

def rev (L : Lineage) : Nat := L.start + L.revisions.length

def treeAt (L : Lineage) (rev : Nat) : Except String Tree :=
  replay L.origin (L.revisions.take (rev - L.start))

def apply (L : Lineage) (proposal : Option UInt64) (files : List PatchFile) (tree : Tree)
    (h : applyPatch L.now files = .ok tree) : Lineage where
  start := L.start
  origin := L.origin
  revisions := L.revisions ++ [⟨L.rev + 1, proposal, files⟩]
  now := tree
  numbered := by
    intro i r hr
    rw [getElem?_append] at hr
    split_ifs at hr with hi
    · exact L.numbered i r hr
    · rw [getElem?_singleton] at hr
      split_ifs at hr with hlast
      rw [← Option.some.inj hr]
      change L.start + L.revisions.length + 1 = L.start + i + 1
      omega
  replays := by
    unfold replay
    rw [foldlM_append]
    exact bind_eq_ok.mpr ⟨L.now, L.replays, bind_eq_ok.mpr ⟨tree, h, rfl⟩⟩

def push (L : Lineage) (e : Entry) : Lineage :=
  match wikiPatchFiles e.2 with
  | none => L
  | some files =>
    match h : applyPatch L.now files with
    | .error _ => L
    | .ok tree => L.apply e.1 files tree h

variable (L : Lineage)

theorem push_cases (e : Entry) :
    (L.push e = L ∧ ∀ f : Folded, f.tree = L.now → foldWikiStep f e = f) ∨
    ∃ files tree, ∃ h : applyPatch L.now files = .ok tree, wikiPatchFiles e.2 = some files ∧
      L.push e = L.apply e.1 files tree h := by
  unfold push foldWikiStep
  cases hfiles : wikiPatchFiles e.2 with
  | none => exact .inl ⟨rfl, fun f _ => rfl⟩
  | some files =>
    dsimp only
    split
    · rename_i e' herr
      refine .inl ⟨rfl, fun f hf => ?_⟩
      rw [hf, herr]
    · rename_i tree hok
      exact .inr ⟨files, tree, hok, rfl, rfl⟩

theorem rev_le_push (e : Entry) : L.rev ≤ (L.push e).rev := by
  rcases L.push_cases e with ⟨heq, -⟩ | ⟨files, tree, h, -, heq⟩
  · rw [heq]
  · rw [heq]
    simp [rev, apply]

theorem rev_le_foldl (l : List Entry) : L.rev ≤ (l.foldl push L).rev := by
  induction l generalizing L with
  | nil => exact le_refl _
  | cons e l ih => exact le_trans (L.rev_le_push e) (ih _)

theorem replay_above (rev : Nat) :
    ∃ before, L.treeAt rev = .ok before ∧ replay before (L.revisions.drop (rev - L.start)) = .ok L.now := by
  have h := L.replays
  unfold replay at h
  rw [← take_append_drop (rev - L.start) L.revisions, foldlM_append] at h
  exact bind_eq_ok.mp h

theorem numbered_mem {r : Revision} (h : r ∈ L.revisions) :
    L.start < r.rev ∧ L.revisions[r.rev - L.start - 1]? = some r := by
  obtain ⟨i, hi⟩ := mem_iff_getElem?.mp h
  have hrev := L.numbered i r hi
  refine ⟨by omega, ?_⟩
  have hidx : r.rev - L.start - 1 = i := by omega
  rw [hidx]
  exact hi

theorem filter_above {rev from_ : Nat} (hfrom : L.start ≤ from_) (hle : from_ ≤ rev) :
    ((L.revisions.drop (from_ - L.start)).map Revision.changes).filter (fun e => rev < e.rev) =
      (L.revisions.drop (rev - L.start)).map Revision.changes := by
  have hsplit : L.revisions.drop (from_ - L.start) =
      (L.revisions.drop (from_ - L.start)).take (rev - from_) ++ L.revisions.drop (rev - L.start) := by
    have hdrop : L.revisions.drop (rev - L.start) = (L.revisions.drop (from_ - L.start)).drop (rev - from_) := by
      rw [drop_drop]
      congr 1
      omega
    rw [hdrop, take_append_drop]
  have hat : ∀ i r, (L.revisions.drop (from_ - L.start))[i]? = some r → r.rev = from_ + i + 1 := by
    intro i r hr
    rw [getElem?_drop] at hr
    have := L.numbered _ r hr
    omega
  rw [hsplit, map_append, filter_append]
  have hlow : (((L.revisions.drop (from_ - L.start)).take (rev - from_)).map Revision.changes).filter
      (fun e => rev < e.rev) = [] := by
    apply filter_eq_nil_iff.mpr
    intro e he
    obtain ⟨r, hr, rfl⟩ := mem_map.mp he
    obtain ⟨i, hi⟩ := mem_iff_getElem?.mp hr
    rw [getElem?_take] at hi
    split_ifs at hi with hlt
    have hrev := hat i r hi
    change ¬ (decide (rev < r.rev)) = true
    simp only [decide_eq_true_eq]
    omega
  have hhigh : ((L.revisions.drop (rev - L.start)).map Revision.changes).filter (fun e => rev < e.rev) =
      (L.revisions.drop (rev - L.start)).map Revision.changes := by
    apply filter_eq_self.mpr
    intro e he
    obtain ⟨r, hr, rfl⟩ := mem_map.mp he
    obtain ⟨i, hi⟩ := mem_iff_getElem?.mp hr
    rw [getElem?_drop] at hi
    have hrev := L.numbered _ r hi
    change decide (rev < r.rev) = true
    simp only [decide_eq_true_eq]
    omega
  rw [hlow, hhigh, nil_append]

end Lineage

/-- The fold of a holder's log reads a lineage from the revision `cut` on. -/
structure Reads (L : Lineage) (cut : Nat) (f : Folded) : Prop where
  tree : f.tree = L.now
  rev : f.rev = L.rev
  above : f.history = (L.revisions.drop (cut - L.start)).map Revision.changes
  low : L.start ≤ cut
  high : cut ≤ L.rev

namespace Reads

variable {L : Lineage} {cut : Nat} {f : Folded}

theorem step (h : Reads L cut f) (e : Entry) (hroom : (L.push e).rev < 2 ^ 64) :
    Reads (L.push e) cut (foldWikiStep f e) ∧ (foldWikiStep f e).base = f.base ∧
      (foldWikiStep f e).revAtCut = f.revAtCut := by
  rcases L.push_cases e with ⟨heq, hsame⟩ | ⟨files, tree, happ, hfiles, heq⟩
  · rw [heq, hsame f h.tree]
    exact ⟨h, rfl, rfl⟩
  · have hstep : foldWikiStep f e = { f with
        tree := tree
        rev := min (f.rev + 1) (2 ^ 64 - 1)
        history := f.history ++ [⟨min (f.rev + 1) (2 ^ 64 - 1), e.1, files.map wikiTouchOf⟩] } := by
      unfold foldWikiStep
      rw [hfiles]
      dsimp only
      rw [h.tree, happ]
    have hrev : (L.apply e.1 files tree happ).rev = L.rev + 1 := by
      simp only [Lineage.rev, Lineage.apply, length_append, length_singleton]
      omega
    rw [heq, hrev] at hroom
    have hnext : min (f.rev + 1) (2 ^ 64 - 1) = L.rev + 1 := by
      rw [h.rev]
      omega
    rw [heq, hstep, hnext]
    refine ⟨⟨rfl, hrev.symm, ?_, h.low, ?_⟩, rfl, rfl⟩
    · have hle : cut - L.start ≤ L.revisions.length := by
        have hhigh := h.high
        unfold Lineage.rev at hhigh
        omega
      change f.history ++ [(⟨L.rev + 1, e.1, files.map wikiTouchOf⟩ : RevChanges)] =
        ((L.revisions ++ [(⟨L.rev + 1, e.1, files⟩ : Revision)]).drop (cut - L.start)).map Revision.changes
      rw [drop_append_of_le_length hle, map_append, h.above]
      rfl
    · rw [hrev]
      exact Nat.le_succ_of_le h.high

theorem entries (h : Reads L cut f) (l : List Entry) (hroom : (l.foldl Lineage.push L).rev < 2 ^ 64) :
    Reads (l.foldl Lineage.push L) cut (l.foldl foldWikiStep f) ∧
      (l.foldl foldWikiStep f).base = f.base ∧ (l.foldl foldWikiStep f).revAtCut = f.revAtCut := by
  induction l generalizing L f with
  | nil => exact ⟨h, rfl, rfl⟩
  | cons e l ih =>
    have hone : (L.push e).rev < 2 ^ 64 := lt_of_le_of_lt ((L.push e).rev_le_foldl l) hroom
    obtain ⟨hnext, hbase, hcut⟩ := h.step e hone
    obtain ⟨hall, hbase', hcut'⟩ := ih hnext hroom
    exact ⟨hall, hbase'.trans hbase, hcut'.trans hcut⟩

end Reads

/-- `below` are the revisions of a lineage from `floor` up to the cut, each once. -/
structure BelowCut (L : Lineage) (cut floor : Nat) (below : List RevChanges) : Prop where
  low : L.start ≤ floor
  high : floor ≤ cut
  within : cut ≤ L.rev
  run : below = ((L.revisions.drop (floor - L.start)).take (cut - floor)).map Revision.changes

section

variable {L : Lineage}

theorem map_rev_reverse (top floor : Nat) : (runDown top floor).reverse =
    (List.range (top - floor)).map fun i => floor + 1 + i := by
  unfold runDown
  apply ext_getElem
  · simp
  · intro i hi hi'
    simp only [length_map, length_range] at hi'
    simp only [getElem_reverse, getElem_map, getElem_range, length_map, length_range]
    omega

theorem belowCut_of_stamps {cards : SortedMap Nat Card} {cut : Nat} (hlow : L.start ≤ cut) (hhigh : cut ≤ L.rev)
    (htrue : ∀ e ∈ cards.entries.filterMap (cardChanges cut), ∃ r ∈ L.revisions, e = r.changes) :
    BelowCut L cut (wikiHistoryBelowTheCut cards cut).2 (wikiHistoryBelowTheCut cards cut).1 := by
  unfold wikiHistoryBelowTheCut
  dsimp only
  generalize hraw : cards.entries.filterMap (cardChanges cut) = raw at htrue
  have hcut : ∀ e ∈ raw, e.rev ≤ cut := by
    intro e he
    rw [← hraw] at he
    obtain ⟨card, -, hcard⟩ := mem_filterMap.mp he
    unfold cardChanges at hcard
    split_ifs at hcard
    split at hcard
    · rename_i rev patch hrev hpatch
      obtain ⟨-, hle⟩ := Option.filter_eq_some_iff.mp hrev
      rw [← Option.some.inj hcard]
      simpa using hle
    · simp at hcard
  generalize hsort : raw.insertionSort (fun a b => a.rev ≤ b.rev) = below
  have hperm : below.Perm raw := hsort ▸ perm_insertionSort ..
  have hsorted : below.Pairwise fun a b => a.rev ≤ b.rev := by
    rw [← hsort]
    exact pairwise_insertionSort (fun a b : RevChanges => a.rev ≤ b.rev) raw
  have htop : ∀ e ∈ below.reverse, e.rev ≤ cut := fun e he =>
    hcut e (hperm.mem_iff.mp (mem_reverse.mp he))
  obtain ⟨hfloor, hrun⟩ := floorFrom_run (pairwise_reverse.mpr hsorted) htop
  generalize floorFrom cut below.reverse = floor at hfloor hrun
  have hasc : (below.filter fun e => floor < e.rev).map RevChanges.rev =
      (List.range (cut - floor)).map fun i => floor + 1 + i := by
    rw [← map_rev_reverse, ← hrun, ← map_reverse, ← filter_reverse, reverse_reverse]
  have hmem : ∀ e ∈ below.filter fun e => floor < e.rev, ∃ r ∈ L.revisions, e = r.changes := fun e he =>
    htrue e (hperm.mem_iff.mp (mem_of_mem_filter he))
  have hstart : L.start ≤ floor := by
    by_contra hlt
    -- a run that reached below the start would hold a stamp of the start itself
    have hstarts : L.start ∈ (below.filter fun e => floor < e.rev).map RevChanges.rev := by
      rw [hasc]
      exact mem_map.mpr ⟨L.start - floor - 1, mem_range.mpr (by omega), by omega⟩
    obtain ⟨e, he, hrev⟩ := mem_map.mp hstarts
    obtain ⟨r, hr, rfl⟩ := hmem e he
    have hgt := (L.numbered_mem hr).1
    change r.rev = L.start at hrev
    omega
  refine ⟨hstart, hfloor, hhigh, ?_⟩
  have hlen : (below.filter fun e => floor < e.rev).length = cut - floor := by
    have := congrArg List.length hasc
    simpa using this
  apply ext_getElem?
  intro i
  by_cases hi : i < cut - floor
  · obtain ⟨e, he⟩ : ∃ e, (below.filter fun e => floor < e.rev)[i]? = some e :=
      ⟨_, getElem?_eq_getElem (by rw [hlen]; exact hi)⟩
    have hrev : e.rev = floor + 1 + i := by
      have hmap := congrArg (fun l => l[i]?) hasc
      simp only [getElem?_map, he, Option.map_some, getElem?_range hi] at hmap
      exact Option.some.inj hmap
    obtain ⟨r, hr, rfl⟩ := hmem e (mem_of_getElem? he)
    have hat := (L.numbered_mem hr).2
    change r.rev = floor + 1 + i at hrev
    have hidx : r.rev - L.start - 1 = floor - L.start + i := by omega
    rw [hidx] at hat
    rw [he, getElem?_map, getElem?_take, if_pos hi, getElem?_drop, hat]
    rfl
  · rw [getElem?_eq_none (by omega), getElem?_eq_none]
    rw [length_map, length_take]
    omega

theorem BelowCut.push {cut floor : Nat} {below : List RevChanges} (h : BelowCut L cut floor below) (e : Entry) :
    BelowCut (L.push e) cut floor below := by
  rcases L.push_cases e with ⟨heq, -⟩ | ⟨files, tree, happ, -, heq⟩
  · rw [heq]
    exact h
  · rw [heq]
    refine ⟨h.low, h.high, le_trans h.within ?_, ?_⟩
    · simp [Lineage.rev, Lineage.apply]
    · have hwithin := h.within
      have hlow := h.low
      have hhigh := h.high
      unfold Lineage.rev at hwithin
      change below = (((L.revisions ++ [(⟨L.rev + 1, e.1, files⟩ : Revision)]).drop (floor - L.start)).take
        (cut - floor)).map Revision.changes
      rw [drop_append_of_le_length (by omega), take_append_of_le_length, h.run]
      rw [length_drop]
      omega

end

end Molt.Wiki
