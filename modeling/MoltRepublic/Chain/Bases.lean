import Mathlib
import MoltRepublic.Chain.Steps

/-! The reserved ops of a folded cut. Where no payload wears one, what a cut hashes does
not depend on the bases the holder keeps. -/

namespace Molt.Chain
open Molt.Core Json Check Vault List

variable {C : Crypto}

def baseOp : Surface → Option String
  | .memory => some "wiki_base"
  | .vault => some "vault_base"
  | _ => none

def wearsBase (surface : Surface) (payload : Value) : Bool :=
  match baseOp surface with
  | some op => payload.getStr "op" == some op
  | none => false

def appliesBase (b : ChainBlock) : Bool :=
  match b.change with
  | .applied _ surface payload => wearsBase surface payload
  | _ => false

def BaseFree (applied : List Group) : Prop := ∀ g ∈ applied, ∀ e ∈ g.2, wearsBase g.1 e.2 = false

variable {applied : List Group} {surface : Surface}

theorem mem_of_groupOf {list : List (UInt64 × Value)} (h : groupOf applied surface = some list) :
    (surface, list) ∈ applied := by
  obtain ⟨g, hg, rfl⟩ := Option.map_eq_some_iff.mp h
  have hsurface : g.1 = surface := by simpa using find?_some hg
  have hmem := mem_of_find?_eq_some hg
  rw [← hsurface]
  exact hmem

theorem groupOf_setGroup_of_ne {other : Surface} (hne : other ≠ surface) (list : List (UInt64 × Value))
    (applied : List Group) :
    groupOf (setGroup surface list applied) other = groupOf applied other := by
  induction applied with
  | nil => rfl
  | cons a l ih =>
    unfold groupOf at ih ⊢
    rw [setGroup]
    split_ifs with heq
    · have hskip : (a.1 == other) = false := by simpa [heq] using Ne.symm hne
      rw [find?_cons_of_neg (by simpa using hskip), find?_cons_of_neg (by simpa using hskip)]
    · by_cases hother : a.1 = other
      · rw [find?_cons_of_pos (by simpa using hother), find?_cons_of_pos (by simpa using hother)]
      · rw [find?_cons_of_neg (by simpa using hother), find?_cons_of_neg (by simpa using hother),
          ih]

variable {e : UInt64 × Value}

theorem mem_pushEntry {g : Group} (h : g ∈ pushEntry surface e applied) :
    g ∈ applied ∨ ∃ list, (surface, list) ∈ applied ∧ g = (surface, foldEntry surface list e) := by
  induction applied with
  | nil => simp [pushEntry] at h
  | cons a l ih =>
    rw [pushEntry] at h
    split_ifs at h with heq
    · rcases mem_cons.mp h with rfl | h
      · exact .inr ⟨a.2, by rw [← heq]; exact .head _, by rw [heq]⟩
      · exact .inl (.tail _ h)
    · rcases mem_cons.mp h with rfl | h
      · exact .inl (.head _)
      · refine (ih h).imp (mem_cons_of_mem _) ?_
        rintro ⟨list, hlist, rfl⟩
        exact ⟨list, .tail _ hlist, rfl⟩

theorem mem_birthGroup {g : Group} (h : g ∈ birthGroup surface applied) : g = (surface, []) ∨ g ∈ applied := by
  unfold birthGroup at h
  split_ifs at h
  · exact .inr h
  · exact eq_or_mem_of_mem_insertIdx h

theorem mem_foldEntry {list : List (UInt64 × Value)} {d : UInt64 × Value} (h : d ∈ foldEntry surface list e) :
    d = e ∨ d ∈ list := by
  unfold foldEntry Summary.keep at h
  split at h <;> simp only [mem_append, mem_singleton, mem_filter] at h <;> tauto

theorem BaseFree.foldOne {vault : Option VaultCtx} {s t : CheckpointState} {b : ChainBlock}
    (hs : BaseFree s.applied) (hb : appliesBase b = false)
    (h : foldOne C s b vault = (t, .ok ())) : BaseFree t.applied := by
  unfold Chain.foldOne at h
  split at h
  · rename_i id surface payload hc
    split at h <;> simp only [Prod.mk.injEq, reduceCtorEq, and_false, and_true] at h
    subst h
    have hborn : BaseFree (birthGroup surface s.applied) := by
      intro g hg e he
      rcases mem_birthGroup hg with rfl | hg
      · simp at he
      · exact hs g hg e he
    intro g hg e he
    rcases mem_pushEntry hg with hg | ⟨list, hlist, rfl⟩
    · exact hborn g hg e he
    · rcases mem_foldEntry he with rfl | he
      · simpa [appliesBase, hc] using hb
      · exact hborn _ hlist e he
  · split at h <;> simp only [Prod.mk.injEq, reduceCtorEq, and_false, and_true] at h
    exact h ▸ hs
  all_goals
    simp only [Prod.mk.injEq, and_true] at h
    exact h ▸ hs

theorem genesisBase_baseFree (g : Genesis) : BaseFree (genesisBase g).applied := by
  intro group hgroup e he
  simp only [genesisBase, mem_map] at hgroup
  obtain ⟨s, -, rfl⟩ := hgroup
  simp at he

theorem BaseFree.foldlM {g : Genesis} {vault : Option VaultCtx} {blocks : List ChainBlock}
    {s : CheckpointState} (hfree : ∀ b ∈ blocks, appliesBase b = false)
    (h : blocks.foldlM (foldNext C vault) (genesisBase g) = .ok s) : BaseFree s.applied :=
  foldlM_invariant (P := fun s : CheckpointState => BaseFree s.applied)
    (fun _ b _ hb hs hstep => hs.foldOne (hfree b hb) (foldNext_eq_ok.mp hstep))
    (genesisBase_baseFree g) h

theorem foldMemoryEntry_base (base base' : Wiki.Tree) (s : MemoryFold) (he : wearsBase .memory e.2 = false) :
    foldMemoryEntry C base s e = foldMemoryEntry C base' s e := by
  have hop : e.2.getStr "op" ≠ some "wiki_base" := by simpa [wearsBase, baseOp] using he
  unfold foldMemoryEntry
  rw [if_neg hop, if_neg hop]

theorem baseCommitmentOf_of_free {payload : Value} (h : wearsBase .vault payload = false) :
    baseCommitmentOf payload = none := by
  have hop : payload.getStr "op" ≠ some "vault_base" := by simpa [wearsBase, baseOp] using h
  unfold baseCommitmentOf
  rw [if_neg hop]

theorem foldVaultEntry_held (held held' : Option VaultBase) (republicId : String) (s : FoldState)
    (he : wearsBase .vault e.2 = false) :
    foldVaultEntry C held republicId s e = foldVaultEntry C held' republicId s e := by
  unfold foldVaultEntry
  rw [baseCommitmentOf_of_free he]

theorem foldMemoryGroup_vault {state : CheckpointState} {base : Wiki.Tree}
    {wiki : CheckpointState × Option Wiki.Tree} (h : foldMemoryGroup C state base = .ok wiki) :
    groupOf wiki.1.applied .vault = groupOf state.applied .vault := by
  unfold foldMemoryGroup at h
  split at h
  · rw [← Except.ok.inj h]
  · obtain ⟨folded, -, hwiki⟩ := bind_eq_ok.mp h
    rw [← pure_eq_ok.mp hwiki]
    exact groupOf_setGroup_of_ne (by decide) _ _

theorem foldCut_held {state : CheckpointState} (hs : BaseFree state.applied) (kind : CutKind)
    (held held' : Held) : foldCut C state kind held = foldCut C state kind held' := by
  have hmemory : ∀ base base', foldMemoryGroup C state base = foldMemoryGroup C state base' := by
    intro base base'
    unfold foldMemoryGroup
    cases hg : groupOf state.applied .memory with
    | none => rfl
    | some group =>
      have hfree := hs _ (mem_of_groupOf hg)
      unfold summarizeMemory
      simp [foldlM_congr fun e he s => foldMemoryEntry_base base base' s (hfree e he)]
  have hvault : ∀ s : CheckpointState, groupOf s.applied .vault = groupOf state.applied .vault →
      foldVaultGroup C s held.vault = foldVaultGroup C s held'.vault := by
    intro s hsame
    unfold foldVaultGroup
    cases hg : groupOf s.applied .vault with
    | none => rfl
    | some group =>
      have hfree := hs _ (mem_of_groupOf (hsame ▸ hg))
      unfold Vault.summarize
      simp only [foldlM_congr fun e he t =>
        foldVaultEntry_held held.vault held'.vault s.republicId t (hfree e he)]
  have hwiki : foldWikiPart C state kind held = foldWikiPart C state kind held' := by
    unfold foldWikiPart
    rw [hmemory]
  unfold foldCut
  rw [hwiki]
  cases h : foldWikiPart C state kind held' with
  | error e => rfl
  | ok wiki =>
    have hsame : groupOf wiki.1.applied .vault = groupOf state.applied .vault := by
      unfold foldWikiPart at h
      split_ifs at h
      · exact foldMemoryGroup_vault h
      · rw [← Except.ok.inj h]
    simp only [bind, Except.bind, foldVaultPart]
    rw [hvault wiki.1 hsame]

end Molt.Chain
