import Mathlib
import MoltRepublic.Chain.Cut
import MoltRepublic.Wiki.Changes

/-! The folded Memory base, kept across reads (`WikiCache`): a derivation of the applied
logs that an append extends and anything else rebuilds. -/

namespace Molt.Wiki
open Molt.Core Json Check Chain List

abbrev Entry := Option UInt64 × Value

/-- What the fold reads of a holder: the two halves of the applied log, the base it holds
and the epoch. -/
structure Memory where
  legacy : List Entry
  chain : List Entry
  wikiBase : Option Tree
  appliedEpoch : Nat

/-- `bump_applied_epoch`: a 64-bit counter that wraps. -/
def Memory.bumpAppliedEpoch (m : Memory) : Memory :=
  { m with appliedEpoch := (m.appliedEpoch + 1) % 2 ^ 64 }

def Memory.appliedEntries (m : Memory) : List Entry := m.legacy ++ m.chain

def wikiPatchFiles (payload : Value) : Option (List PatchFile) :=
  if payload.getStr "op" ≠ some "wiki_patch" then none
  else (payload.getStr "value").map parsePatch

def baseCommitmentOf (payload : Value) : Option (String × UInt64) :=
  if payload.getStr "op" = some "wiki_base" then
    some ((payload.getStr "hash").getD "", (payload.getU64 "size").getD 0)
  else none

structure Folded where
  tree : Tree := SortedMap.empty
  rev : Nat := 0
  history : List RevChanges := []
  base : Option String := none
  revAtCut : Option Nat := none

structure WikiCache extends Folded where
  legacy : Nat
  chain : Nat
  epoch : Nat
  belowCut : Option (List RevChanges × Nat) := none

/-- `MoltError::WikiBasePending`. -/
structure BasePending where
  got : UInt64
  size : UInt64
  want : String
  deriving DecidableEq

/-- `fold_wiki_step`: a void patch moves nothing and is not a revision. -/
def foldWikiStep (f : Folded) (e : Entry) : Folded :=
  match wikiPatchFiles e.2 with
  | none => f
  | some files =>
    match applyPatch f.tree files with
    | .error _ => f
    | .ok tree =>
      let rev := min (f.rev + 1) (2 ^ 64 - 1)
      { f with
        tree := tree
        rev := rev
        history := f.history ++ [⟨rev, e.1, files.map wikiTouchOf⟩] }

def foldWikiEntry (C : Crypto) (held : Option Tree) (f : Folded) (e : Entry) : Except BasePending Folded :=
  match baseCommitmentOf e.2 with
  | some (want, size) =>
    match held.filter fun tree => (wikiCommitment C tree).1 == want with
    | none => .error ⟨0, size, want⟩
    | some tree =>
      let revAtCut := (revAtCutOf e.2).map UInt64.toNat
      .ok ⟨tree, revAtCut.getD 0, [], some want, revAtCut⟩
  | none => .ok (foldWikiStep f e)

def Memory.fold (C : Crypto) (m : Memory) : Except BasePending Folded :=
  m.appliedEntries.foldlM (foldWikiEntry C m.wikiBase) {}

def Memory.cacheOf (m : Memory) (f : Folded) (belowCut : Option (List RevChanges × Nat)) : WikiCache :=
  { toFolded := f, legacy := m.legacy.length, chain := m.chain.length, epoch := m.appliedEpoch,
    belowCut := belowCut }

def foldWikiFromBase (C : Crypto) (m : Memory) : Except BasePending WikiCache :=
  (m.fold C).map fun f => m.cacheOf f none

def wikiCacheBaseHeld (m : Memory) (c : WikiCache) : Bool := c.base.isNone || m.wikiBase.isSome

def Memory.extends (m : Memory) (c : WikiCache) : Bool :=
  c.epoch == m.appliedEpoch &&
    ((c.chain == 0 && m.chain.length == 0 && decide (c.legacy ≤ m.legacy.length)) ||
      (c.legacy == m.legacy.length && decide (c.chain ≤ m.chain.length))) &&
    wikiCacheBaseHeld m c

def Memory.tail (m : Memory) (c : WikiCache) : List Entry := m.legacy.drop c.legacy ++ m.chain.drop c.chain

def isBaseEntry (e : Entry) : Bool := (baseCommitmentOf e.2).isSome

def extendFold (f : Folded) (tail : List Entry) : Folded :=
  (tail.takeWhile fun e => !isBaseEntry e).foldl foldWikiStep f

def wikiStampsOf (f : Folded) : List (UInt64 × Nat) :=
  f.history.filterMap fun e => e.proposal.map fun p => (p, e.rev)

/-- `refresh_wiki_cache`: the cache at the current logs, and the revisions to stamp on the
cards. -/
def refreshWikiCache (C : Crypto) (m : Memory) (cache : Option WikiCache) :
    Option WikiCache × List (UInt64 × Nat) :=
  match cache.filter m.extends with
  | some c =>
    let extended := extendFold c.toFolded (m.tail c)
    let next :=
      if (m.tail c).any isBaseEntry then (foldWikiFromBase C m).toOption
      else some (m.cacheOf extended c.belowCut)
    (next, wikiStampsOf extended ++ (next.map fun c => wikiStampsOf c.toFolded).getD [])
  | none =>
    let next := (foldWikiFromBase C m).toOption
    (next, (next.map fun c => wikiStampsOf c.toFolded).getD [])

section

variable {C : Crypto} {m : Memory} {c : WikiCache}

def Current (C : Crypto) (m : Memory) (c : WikiCache) : Prop :=
  c.epoch = m.appliedEpoch → wikiCacheBaseHeld m c = true →
    c.legacy ≤ m.legacy.length ∧ c.chain ≤ m.chain.length ∧
      (m.legacy.take c.legacy ++ m.chain.take c.chain).foldlM (foldWikiEntry C m.wikiBase) {} = .ok c.toFolded

theorem foldWikiEntry_plain {held : Option Tree} {e : Entry} (h : isBaseEntry e = false) (f : Folded) :
    foldWikiEntry C held f e = .ok (foldWikiStep f e) := by
  unfold isBaseEntry at h
  unfold foldWikiEntry
  cases hbase : baseCommitmentOf e.2 with
  | none => rfl
  | some b =>
    rw [hbase] at h
    simp at h

theorem foldlM_plain {held : Option Tree} {l : List Entry} (h : ∀ e ∈ l, isBaseEntry e = false) (f : Folded) :
    l.foldlM (foldWikiEntry C held) f = .ok (l.foldl foldWikiStep f) := by
  induction l generalizing f with
  | nil => rfl
  | cons e l ih =>
    rw [foldlM_cons, foldWikiEntry_plain (h e (.head _))]
    exact ih (fun a ha => h a (.tail _ ha)) _

theorem extendFold_plain {tail : List Entry} (h : tail.any isBaseEntry = false) (f : Folded) :
    extendFold f tail = tail.foldl foldWikiStep f := by
  unfold extendFold
  have hall : (tail.takeWhile fun e => !isBaseEntry e) = tail := by
    apply takeWhile_eq_self_iff.mpr
    intro e he
    simpa using any_eq_false.mp h e he
  rw [hall]

theorem Memory.extends_split (h : m.extends c = true) :
    m.legacy.take c.legacy ++ m.chain.take c.chain ++ m.tail c = m.appliedEntries := by
  unfold Memory.extends at h
  unfold Memory.tail Memory.appliedEntries
  simp only [Bool.and_eq_true, Bool.or_eq_true, beq_iff_eq, decide_eq_true_eq] at h
  obtain ⟨⟨-, hsplit⟩, -⟩ := h
  rcases hsplit with ⟨⟨hzero, hempty⟩, -⟩ | ⟨hall, -⟩
  · have hchain : m.chain = [] := eq_nil_of_length_eq_zero hempty
    rw [hzero, hchain]
    simp
  · rw [hall]
    simp

variable {cache : Option WikiCache}

theorem refreshWikiCache_eq (h : ∀ c, cache = some c → Current C m c) :
    (refreshWikiCache C m cache).1 = (m.fold C).toOption.map (fun f => m.cacheOf f none) ∨
    ∃ f c, m.fold C = .ok f ∧ cache = some c ∧ m.extends c = true ∧
      f = (m.tail c).foldl foldWikiStep c.toFolded ∧
      (m.tail c).any isBaseEntry = false ∧
      (refreshWikiCache C m cache).1 = some (m.cacheOf f c.belowCut) := by
  have hfresh : (foldWikiFromBase C m).toOption = (m.fold C).toOption.map (fun f => m.cacheOf f none) := by
    unfold foldWikiFromBase
    cases m.fold C with
    | error e | ok f => rfl
  unfold refreshWikiCache
  cases hfilter : cache.filter m.extends with
  | none => exact .inl hfresh
  | some c =>
    obtain ⟨hc, hext⟩ := Option.filter_eq_some_iff.mp hfilter
    dsimp only
    cases hany : (m.tail c).any isBaseEntry with
    | true => exact .inl hfresh
    | false =>
      right
      refine ⟨(m.tail c).foldl foldWikiStep c.toFolded, c, ?_, hc, hext, rfl, hany, ?_⟩
      · have hepoch : c.epoch = m.appliedEpoch := by
          unfold Memory.extends at hext
          simp only [Bool.and_eq_true, beq_iff_eq] at hext
          exact hext.1.1
        have hheld : wikiCacheBaseHeld m c = true := by
          unfold Memory.extends at hext
          simp only [Bool.and_eq_true] at hext
          exact hext.2
        obtain ⟨-, -, hfold⟩ := h c hc hepoch hheld
        unfold Memory.fold
        rw [← Memory.extends_split hext, foldlM_append, hfold]
        exact foldlM_plain (fun e he => by simpa using any_eq_false.mp hany e he) _
      · simp only [Bool.false_eq_true, if_false]
        rw [extendFold_plain hany]

theorem refreshWikiCache_folded (h : ∀ c, cache = some c → Current C m c) :
    (refreshWikiCache C m cache).1.map WikiCache.toFolded = (m.fold C).toOption := by
  rcases refreshWikiCache_eq h with heq | ⟨f, c, hf, -, -, -, -, heq⟩
  · rw [heq]
    cases m.fold C with
    | error e | ok f => rfl
  · rw [heq, hf]
    rfl

theorem refreshWikiCache_stands (h : ∀ c, cache = some c → Current C m c) {c : WikiCache}
    (hc : (refreshWikiCache C m cache).1 = some c) :
    m.fold C = .ok c.toFolded ∧ c.epoch = m.appliedEpoch ∧ c.legacy = m.legacy.length ∧
      c.chain = m.chain.length := by
  rcases refreshWikiCache_eq h with heq | ⟨f, d, hf, -, -, -, -, heq⟩
  · rw [heq] at hc
    cases hf : m.fold C with
    | error e =>
      rw [hf] at hc
      exact absurd hc (by simp [Except.toOption])
    | ok f =>
      rw [hf] at hc
      cases hc
      exact ⟨rfl, rfl, rfl, rfl⟩
  · rw [heq] at hc
    cases hc
    exact ⟨hf, rfl, rfl, rfl⟩

theorem Current.of_stands (h : m.fold C = .ok c.toFolded) (hlegacy : c.legacy = m.legacy.length)
    (hchain : c.chain = m.chain.length) : Current C m c := by
  intro _ _
  refine ⟨le_of_eq hlegacy, le_of_eq hchain, ?_⟩
  rw [hlegacy, hchain, take_length, take_length]
  exact h

theorem Current.append (h : Current C m c) (e : Entry) :
    Current C { m with chain := m.chain ++ [e] } c := by
  intro hepoch hheld
  obtain ⟨hlegacy, hchain, hfold⟩ := h hepoch hheld
  refine ⟨hlegacy, ?_, ?_⟩
  · rw [length_append]
    exact Nat.le_add_right_of_le hchain
  · change (m.legacy.take c.legacy ++ (m.chain ++ [e]).take c.chain).foldlM
      (foldWikiEntry C m.wikiBase) {} = .ok c.toFolded
    rw [take_append_of_le_length hchain]
    exact hfold

theorem Current.appendLegacy (h : Current C m c) (e : Entry) :
    Current C { m with legacy := m.legacy ++ [e] } c := by
  intro hepoch hheld
  obtain ⟨hlegacy, hlen, hfold⟩ := h hepoch hheld
  refine ⟨?_, hlen, ?_⟩
  · rw [length_append]
    exact Nat.le_add_right_of_le hlegacy
  · change ((m.legacy ++ [e]).take c.legacy ++ m.chain.take c.chain).foldlM
      (foldWikiEntry C m.wikiBase) {} = .ok c.toFolded
    rw [take_append_of_le_length hlegacy]
    exact hfold

end

end Molt.Wiki
