import Mathlib
import MoltRepublic.Chain.Bases

/-! A group folded at a cut folds on as the group it was made of: the patches and records
behind the cut act on the kept base as they act on the raw entries. -/

namespace Molt.Chain
open Molt.Core Json Check Vault List

variable {C : Crypto}

def SameMemory (s t : MemoryFold) : Prop := s.tree = t.tree ∧ s.kept = t.kept ∧ s.rev = t.rev

def memoryStart : MemoryFold := ⟨SortedMap.empty, [], false, 0⟩

def MemoryRefolds (C : Crypto) (base : Wiki.Tree) (raw folded : List (UInt64 × Value)) : Prop :=
  Agree SameMemory (raw.foldlM (foldMemoryEntry C SortedMap.empty) memoryStart)
    (folded.foldlM (foldMemoryEntry C base) memoryStart)

variable {base : Wiki.Tree} {e : UInt64 × Value}

theorem foldMemoryEntry_agree {base' : Wiki.Tree} {s t : MemoryFold} (h : SameMemory s t)
    (he : wearsBase .memory e.2 = false) :
    Agree SameMemory (foldMemoryEntry C base s e) (foldMemoryEntry C base' t e) := by
  have hop : e.2.getStr "op" ≠ some "wiki_base" := by simpa [wearsBase, baseOp] using he
  obtain ⟨htree, hkept, hrev⟩ := h
  unfold foldMemoryEntry
  rw [if_neg hop, if_neg hop]
  split_ifs
  · exact ⟨by rw [htree], hkept, by rw [htree, hrev]⟩
  · exact ⟨htree, by rw [hkept], hrev⟩

theorem MemoryRefolds.concat {raw folded : List (UInt64 × Value)} (h : MemoryRefolds C base raw folded)
    (he : wearsBase .memory e.2 = false) : MemoryRefolds C base (raw ++ [e]) (folded ++ [e]) := by
  unfold MemoryRefolds at h ⊢
  rw [foldlM_append, foldlM_append]
  refine h.bind fun s t hst => ?_
  refine (foldMemoryEntry_agree hst he).bind fun s' t' hst' => ?_
  exact hst'

def KeepsOthers (s : MemoryFold) : Prop :=
  s.seeded = false ∧ ∀ e ∈ s.kept, e.2.getStr "op" ≠ some "wiki_base" ∧
    e.2.getStr "op" ≠ some "wiki_patch"

theorem KeepsOthers.foldMemoryEntry {s t : MemoryFold} (hs : KeepsOthers s)
    (he : wearsBase .memory e.2 = false) (h : foldMemoryEntry C base s e = .ok t) : KeepsOthers t := by
  have hop : e.2.getStr "op" ≠ some "wiki_base" := by simpa [wearsBase, baseOp] using he
  unfold Chain.foldMemoryEntry at h
  rw [if_neg hop] at h
  split_ifs at h with hpatch
  · cases h
    exact hs
  · cases h
    refine ⟨hs.1, fun d hd => ?_⟩
    rcases mem_append.mp hd with hd | hd
    · exact hs.2 d hd
    · obtain rfl := mem_singleton.mp hd
      exact ⟨hop, hpatch⟩

theorem foldMemoryEntry_others (l : List (UInt64 × Value)) (s : MemoryFold)
    (h : ∀ e ∈ l, e.2.getStr "op" ≠ some "wiki_base" ∧ e.2.getStr "op" ≠ some "wiki_patch") :
    l.foldlM (foldMemoryEntry C base) s = .ok { s with kept := s.kept ++ l } := by
  induction l generalizing s with
  | nil => simp [pure, Except.pure]
  | cons e l ih =>
    obtain ⟨hbase, hpatch⟩ := h e (.head _)
    rw [foldlM_cons]
    have hstep : foldMemoryEntry C base s e = .ok { s with kept := s.kept ++ [e] } := by
      simp [foldMemoryEntry, if_neg hbase, if_neg hpatch]
    rw [hstep]
    change l.foldlM (foldMemoryEntry C base) { s with kept := s.kept ++ [e] } = _
    rw [ih _ fun d hd => h d (.tail _ hd)]
    simp

theorem foldMemoryEntry_baseEntry {s : MemoryFold} (hs : s.seeded = false) (tree : Wiki.Tree)
    (rev : UInt64) : foldMemoryEntry C tree s (wikiBaseEntry C tree rev) =
      .ok { s with tree := tree, rev := rev, seeded := true } := by
  have hop : (wikiBaseEntry C tree rev).2.getStr "op" = some "wiki_base" := rfl
  have hhash : (wikiBaseEntry C tree rev).2.getStr "hash" = some (wikiCommitment C tree).1 := rfl
  have hrev : revAtCutOf (wikiBaseEntry C tree rev).2 = some rev := rfl
  simp [foldMemoryEntry, hop, hhash, hrev, hs, ensure, bind, Except.bind, pure, Except.pure]

theorem summarizeMemory_refolds {raw folded : List (UInt64 × Value)} {tree : Wiki.Tree}
    {rev : UInt64} (hfree : ∀ e ∈ raw, wearsBase .memory e.2 = false)
    (h : summarizeMemory C raw SortedMap.empty = .ok (folded, tree, rev)) :
    MemoryRefolds C tree raw folded := by
  obtain ⟨s, hs, heq⟩ := bind_eq_ok.mp h
  obtain ⟨rfl, rfl, rfl⟩ := heq
  have hkeeps : KeepsOthers s := foldlM_invariant
    (fun _ e _ he hk hstep => hk.foldMemoryEntry (hfree e he) hstep) ⟨rfl, by simp⟩ hs
  change Agree SameMemory (raw.foldlM (foldMemoryEntry C SortedMap.empty) memoryStart) _
  rw [show raw.foldlM (foldMemoryEntry C SortedMap.empty) memoryStart = .ok s from hs,
    foldlM_cons, foldMemoryEntry_baseEntry rfl]
  change Agree SameMemory (.ok s) (s.kept.foldlM (foldMemoryEntry C s.tree) _)
  rw [foldMemoryEntry_others _ _ hkeeps.2]
  exact ⟨rfl, by simp [memoryStart], rfl⟩

theorem MemoryRefolds.summarize {raw folded : List (UInt64 × Value)} (h : MemoryRefolds C base raw folded) :
    Agree Eq (summarizeMemory C raw SortedMap.empty) (summarizeMemory C folded base) := by
  refine h.bind fun s t hst => ?_
  obtain ⟨htree, hkept, hrev⟩ := hst
  change (_, _, _) = (_, _, _)
  rw [htree, hkept, hrev]

def VaultRefolds (C : Crypto) (base : Option VaultBase) (republicId : String)
    (raw folded : List (UInt64 × Value)) : Prop :=
  Agree (fun s t : FoldState => s.slots = t.slots)
    (raw.foldlM (foldVaultEntry C none republicId) ⟨SortedMap.empty, false⟩)
    (folded.foldlM (foldVaultEntry C base republicId) ⟨SortedMap.empty, false⟩)

variable {republicId : String}

theorem VaultRefolds.concat {base : Option VaultBase} {raw folded : List (UInt64 × Value)}
    (h : VaultRefolds C base republicId raw folded) (he : wearsBase .vault e.2 = false) :
    VaultRefolds C base republicId (raw ++ [e]) (folded ++ [e]) := by
  unfold VaultRefolds at h ⊢
  rw [foldlM_append, foldlM_append]
  refine h.bind fun s t hst => ?_
  refine Agree.bind (R := fun s t : FoldState => s.slots = t.slots) ?_ fun s' t' hst' => hst'
  unfold foldVaultEntry
  rw [baseCommitmentOf_of_free he]
  simp only [hst]
  cases (VaultOp.fromValue e.2).bind (foldOp C republicId e.1 t.slots) with
  | none => trivial
  | some slots => exact rfl

def Filed (slots : Slots) : Prop := ∀ e ∈ slots.entries, e.2.key = e.1

theorem Filed.insert {slots : Slots} (h : Filed slots) (d : VaultBaseDeposit) :
    Filed (slots.insert d.key d) := by
  intro e he
  rcases mem_insertEntry he with rfl | he
  · rfl
  · exact h e he

theorem mem_modifyEntry {κ ν : Type*} {p : ν → Bool} {f : ν → ν} {l : List (κ × ν)} {e : κ × ν}
    (h : e ∈ SortedMap.modifyEntry p f l) : e ∈ l ∨ ∃ d ∈ l, e = (d.1, f d.2) := by
  induction l with
  | nil => simp [SortedMap.modifyEntry] at h
  | cons a l ih =>
    obtain ⟨k, v⟩ := a
    rw [SortedMap.modifyEntry] at h
    split_ifs at h
    · rcases mem_cons.mp h with rfl | h
      · exact .inr ⟨(k, v), .head _, rfl⟩
      · exact .inl (.tail _ h)
    · rcases mem_cons.mp h with rfl | h
      · exact .inl (.head _)
      · rcases ih h with h | ⟨d, hd, rfl⟩
        · exact .inl (.tail _ h)
        · exact .inr ⟨d, .tail _ hd, rfl⟩

theorem Filed.foldOp {id : UInt64} {slots slots' : Slots} {op : VaultOp} (hs : Filed slots)
    (h : foldOp C republicId id slots op = some slots') : Filed slots' := by
  unfold Vault.foldOp at h
  split at h
  · simp only [Option.some.injEq] at h
    subst h
    split_ifs
    · exact hs.insert ⟨_, []⟩
    · exact hs
  · simp only [Option.some.injEq] at h
    subst h
    intro e he
    rcases mem_modifyEntry he with he | ⟨d, hd, rfl⟩
    · exact hs e he
    · exact hs d hd
  · simp at h

theorem Filed.foldVaultEntry {s t : FoldState} (hs : Filed s.slots) (he : wearsBase .vault e.2 = false)
    (h : foldVaultEntry C none republicId s e = .ok t) : Filed t.slots := by
  unfold Vault.foldVaultEntry at h
  rw [baseCommitmentOf_of_free he] at h
  simp only at h
  split at h
  · rename_i slots hslots
    obtain ⟨op, -, hop⟩ := Option.bind_eq_some_iff.mp hslots
    obtain rfl := pure_eq_ok.mp h
    exact hs.foldOp hop
  · simp [throw, throwThe, MonadExceptOf.throw] at h

theorem summarizeVault_refolds {raw folded : List (UInt64 × Value)} {base : VaultBase}
    (hfree : ∀ e ∈ raw, wearsBase .vault e.2 = false)
    (h : Vault.summarize C raw none republicId = .ok (folded, base)) :
    VaultRefolds C (some base) republicId raw folded := by
  obtain ⟨s, hs, heq⟩ := bind_eq_ok.mp h
  simp only [pure_eq_ok, Prod.mk.injEq] at heq
  obtain ⟨rfl, rfl⟩ := heq
  have hfiled : Filed s.slots := foldlM_invariant (P := fun s : FoldState => Filed s.slots)
    (fun _ e _ he hf hstep => hf.foldVaultEntry (hfree e he) hstep)
    (by intro e he; simp [SortedMap.empty] at he) hs
  have hseed : seed SortedMap.empty ⟨s.slots.values⟩ = s.slots :=
    SortedMap.ofValues_values hfiled
  have hcommit : baseCommitmentOf (VaultOp.toValue (.vaultBase
      ⟨(commitment C ⟨s.slots.values⟩).1, (commitment C ⟨s.slots.values⟩).2⟩)) =
        some (commitment C ⟨s.slots.values⟩) := rfl
  unfold VaultRefolds
  rw [hs, foldlM_cons]
  simp only [foldVaultEntry, hcommit, Option.filter, beq_self_eq_true, if_true, hseed]
  exact rfl

theorem VaultRefolds.summarize {base : Option VaultBase} {raw folded : List (UInt64 × Value)}
    (h : VaultRefolds C base republicId raw folded) :
    Agree Eq (Vault.summarize C raw none republicId) (Vault.summarize C folded base republicId) := by
  refine Agree.bind h fun s t hst => ?_
  change (_, _) = (_, _)
  rw [hst]

/-- The entries of one surface in a full state and in one pruned at a cut of `kind`. -/
def EntriesRefold (C : Crypto) (kind : CutKind) (held : Held) (republicId : String)
    (surface : Surface) (raw folded : List (UInt64 × Value)) : Prop :=
  if surface = .memory ∧ kind.wiki then
    MemoryRefolds C (held.wiki.getD SortedMap.empty) raw folded
  else if surface = .vault ∧ kind.vault then VaultRefolds C held.vault republicId raw folded
  else folded = raw

def GroupRefolds (C : Crypto) (kind : CutKind) (held : Held) (republicId : String) (g k : Group) :
    Prop :=
  k.1 = g.1 ∧ EntriesRefold C kind held republicId g.1 g.2 k.2

section

variable {kind : CutKind} {held : Held} {rid : String} {l k : List Group}

variable {surface : Surface}

theorem EntriesRefold.foldEntry {raw folded : List (UInt64 × Value)}
    (h : EntriesRefold C kind held rid surface raw folded) {e : UInt64 × Value}
    (he : wearsBase surface e.2 = false) : EntriesRefold C kind held rid surface
      (foldEntry surface raw e) (foldEntry surface folded e) := by
  unfold EntriesRefold at h ⊢
  -- the two folded surfaces have no last-write-wins slots: their entries accumulate
  split_ifs at h ⊢ with hwiki hvault
  · obtain ⟨rfl, -⟩ := hwiki
    exact h.concat he
  · obtain ⟨rfl, -⟩ := hvault
    exact h.concat he
  · rw [h]

theorem EntriesRefold.nil (surface : Surface) : EntriesRefold C kind held rid surface [] [] := by
  unfold EntriesRefold
  split_ifs
  · exact ⟨rfl, rfl, rfl⟩
  · exact rfl
  · rfl

theorem refold_surfaces (h : List.Forall₂ (GroupRefolds C kind held rid) l k) :
    k.map Prod.fst = l.map Prod.fst := by
  induction h with
  | nil => rfl
  | cons hg _ ih => rw [map_cons, map_cons, hg.1, ih]

theorem refold_pushEntry (h : List.Forall₂ (GroupRefolds C kind held rid) l k) {e : UInt64 × Value}
    (he : wearsBase surface e.2 = false) :
    List.Forall₂ (GroupRefolds C kind held rid) (pushEntry surface e l) (pushEntry surface e k) := by
  induction h with
  | nil => exact .nil
  | @cons g g' l k hg hrest ih =>
    rw [pushEntry, pushEntry, hg.1]
    split_ifs with heq
    · refine .cons ⟨rfl, ?_⟩ hrest
      have := hg.2
      rw [heq] at this ⊢
      exact this.foldEntry he
    · exact .cons hg ih

theorem refold_insertIdx (h : List.Forall₂ (GroupRefolds C kind held rid) l k) (surface : Surface)
    (n : Nat) : List.Forall₂ (GroupRefolds C kind held rid) (l.insertIdx n (surface, []))
      (k.insertIdx n (surface, [])) := by
  induction h generalizing n with
  | nil =>
    cases n with
    | zero => exact .cons ⟨rfl, .nil surface⟩ .nil
    | succ n => exact .nil
  | cons hg hrest ih =>
    cases n with
    | zero => exact .cons ⟨rfl, .nil surface⟩ (.cons hg hrest)
    | succ n => exact .cons hg (ih n)

theorem findIdx_surface {p : Surface → Bool} {l k : List Group}
    (h : k.map Prod.fst = l.map Prod.fst) :
    (k.findIdx fun g => p g.1) = l.findIdx fun g => p g.1 := by
  have hmap : ∀ m : List Group, (m.findIdx fun g => p g.1) = (m.map Prod.fst).findIdx p := by
    intro m
    induction m with
    | nil => rfl
    | cons g m ih => simp [findIdx_cons, ih]
  rw [hmap, hmap, h]

theorem any_surface {p : Surface → Bool} {l k : List Group} (h : k.map Prod.fst = l.map Prod.fst) :
    (k.any fun g => p g.1) = l.any fun g => p g.1 := by
  have hmap : ∀ m : List Group, (m.any fun g => p g.1) = (m.map Prod.fst).any p := by
    intro m
    rw [any_map]
    rfl
  rw [hmap, hmap, h]

theorem refold_birthGroup (h : List.Forall₂ (GroupRefolds C kind held rid) l k) (surface : Surface) :
    List.Forall₂ (GroupRefolds C kind held rid) (birthGroup surface l) (birthGroup surface k) := by
  have hsurfaces := refold_surfaces h
  unfold birthGroup
  simp only [any_surface (p := (· == surface)) hsurfaces,
    findIdx_surface (p := fun s => decide (surfaceRank surface < surfaceRank s)) hsurfaces]
  split_ifs
  · exact h
  · exact refold_insertIdx h surface _

theorem pushEntry_surfaces (surface : Surface) (e : UInt64 × Value) (l : List Group) :
    (pushEntry surface e l).map Prod.fst = l.map Prod.fst := by
  induction l with
  | nil => rfl
  | cons g l ih =>
    rw [pushEntry]
    split_ifs
    · rfl
    · rw [map_cons, map_cons, ih]

theorem birthGroup_nodup {l : List Group} (h : (l.map Prod.fst).Nodup) :
    ((birthGroup surface l).map Prod.fst).Nodup := by
  unfold birthGroup
  split_ifs with hany
  · exact h
  · have hperm := (perm_insertIdx (surface, ([] : List (UInt64 × Value))) l
      (findIdx_le_length (p := fun g => decide (surfaceRank surface < surfaceRank g.1)))).map
        Prod.fst
    refine hperm.nodup_iff.mpr (nodup_cons.mpr ⟨?_, h⟩)
    intro hmem
    obtain ⟨g, hg, heq⟩ := mem_map.mp hmem
    exact hany (any_eq_true.mpr ⟨g, hg, by simpa using heq⟩)

theorem not_mem_of_groupOf {l : List Group} (h : groupOf l surface = none) :
    surface ∉ l.map Prod.fst := by
  intro hmem
  obtain ⟨g, hg, heq⟩ := mem_map.mp hmem
  have := find?_eq_none.mp (Option.map_eq_none_iff.mp h) g hg
  simp [heq] at this

theorem refold_groupOf (h : List.Forall₂ (GroupRefolds C kind held rid) l k) (surface : Surface) :
    (groupOf l surface = none ∧ groupOf k surface = none) ∨
      ∃ raw folded, groupOf l surface = some raw ∧ groupOf k surface = some folded ∧
        EntriesRefold C kind held rid surface raw folded := by
  induction h with
  | nil => exact .inl ⟨rfl, rfl⟩
  | @cons g g' l k hg hrest ih =>
    unfold groupOf at ih ⊢
    by_cases heq : g.1 = surface
    · rw [find?_cons_of_pos (by simpa using heq),
        find?_cons_of_pos (by simpa [hg.1] using heq)]
      exact .inr ⟨g.2, g'.2, rfl, rfl, heq ▸ hg.2⟩
    · rw [find?_cons_of_neg (by simpa using heq),
        find?_cons_of_neg (by simpa [hg.1] using heq)]
      exact ih

variable {kind' : CutKind} {held' : Held}

theorem refold_mono (h : List.Forall₂ (GroupRefolds C kind held rid) l k)
    (hto : ∀ other ≠ surface, ∀ raw folded, EntriesRefold C kind held rid other raw folded → EntriesRefold C kind' held' rid other raw folded)
    (hnot : surface ∉ l.map Prod.fst) : List.Forall₂ (GroupRefolds C kind' held' rid) l k := by
  induction h with
  | nil => exact .nil
  | cons hg _ ih =>
    rw [map_cons, mem_cons, not_or] at hnot
    exact .cons ⟨hg.1, hto _ (Ne.symm hnot.1) _ _ hg.2⟩ (ih hnot.2)

theorem refold_setGroup (h : List.Forall₂ (GroupRefolds C kind held rid) l k)
    (hnodup : (l.map Prod.fst).Nodup)
    (hto : ∀ other ≠ surface, ∀ raw folded, EntriesRefold C kind held rid other raw folded → EntriesRefold C kind' held' rid other raw folded)
    {list : List (UInt64 × Value)} (hself : EntriesRefold C kind' held' rid surface list list) :
    List.Forall₂ (GroupRefolds C kind' held' rid) (setGroup surface list l)
      (setGroup surface list k) := by
  induction h with
  | nil => exact .nil
  | cons hg hrest ih =>
    rw [map_cons, nodup_cons] at hnodup
    rw [setGroup, setGroup, hg.1]
    split_ifs with heq
    · exact .cons ⟨rfl, heq ▸ hself⟩ (refold_mono hrest hto (heq ▸ hnodup.1))
    · exact .cons ⟨hg.1, hto _ heq _ _ hg.2⟩ (ih hnodup.2)

theorem refold_setRight (h : List.Forall₂ (GroupRefolds C kind held rid) l k)
    (hnodup : (l.map Prod.fst).Nodup)
    (hto : ∀ other ≠ surface, ∀ raw folded, EntriesRefold C kind held rid other raw folded → EntriesRefold C kind' held' rid other raw folded)
    {list : List (UInt64 × Value)}
    (hlist : ∀ raw, groupOf l surface = some raw → EntriesRefold C kind' held' rid surface raw list) :
    List.Forall₂ (GroupRefolds C kind' held' rid) l (setGroup surface list k) := by
  induction h with
  | nil => exact .nil
  | @cons g g' l k hg hrest ih =>
    rw [map_cons, nodup_cons] at hnodup
    rw [setGroup, hg.1]
    unfold groupOf at hlist ih
    split_ifs with heq
    · rw [find?_cons_of_pos (by simpa using heq)] at hlist
      exact .cons ⟨rfl, heq ▸ hlist g.2 rfl⟩ (refold_mono hrest hto (heq ▸ hnodup.1))
    · rw [find?_cons_of_neg (by simpa using heq)] at hlist
      exact .cons ⟨hg.1, hto _ heq _ _ hg.2⟩ (ih hnodup.2 hlist)

theorem refold_refl (l : List Group) : List.Forall₂ (GroupRefolds C {} held rid) l l := by
  induction l with
  | nil => exact .nil
  | cons g l ih => exact .cons ⟨rfl, by simp [EntriesRefold]⟩ ih

theorem setGroup_surfaces (surface : Surface) (list : List (UInt64 × Value)) (l : List Group) :
    (setGroup surface list l).map Prod.fst = l.map Prod.fst := by
  induction l with
  | nil => rfl
  | cons g l ih =>
    rw [setGroup]
    split_ifs
    · rfl
    · rw [map_cons, map_cons, ih]

theorem refold_organization (h : List.Forall₂ (GroupRefolds C kind held rid) l k) :
    (k.filter fun g => g.1 == Surface.organization) =
      l.filter fun g => g.1 == Surface.organization := by
  induction h with
  | nil => rfl
  | @cons g g' l k hg _ ih =>
    rw [filter_cons, filter_cons, ih, hg.1]
    split_ifs with horg
    · have hsurface : g.1 = .organization := by simpa using horg
      have hentries := hg.2
      simp only [EntriesRefold, hsurface, reduceCtorEq, false_and, if_false] at hentries
      rw [Prod.ext hg.1 hentries]
    · rfl

end

/-- Two states that differ in the groups a cut of `kind` folded. -/
structure Refolds (C : Crypto) (kind : CutKind) (held : Held) (s t : CheckpointState) : Prop where
  rest : t = { s with applied := t.applied }
  groups : List.Forall₂ (GroupRefolds C kind held s.republicId) s.applied t.applied
  surfaces : (s.applied.map Prod.fst).Nodup

variable {held : Held}

theorem Refolds.eq {s t : CheckpointState} (h : Refolds C {} held s t) : t = s := by
  have hgroups : List.Forall₂ Eq s.applied t.applied :=
    h.groups.imp fun g k hg => Prod.ext hg.1.symm (by simpa [EntriesRefold, eq_comm] using hg.2)
  rw [forall₂_eq_eq_eq] at hgroups
  rw [h.rest, ← hgroups]

variable {kind' : CutKind}

variable {kind : CutKind}

theorem Refolds.setGroup {s t : CheckpointState} (h : Refolds C kind held s t) {surface : Surface}
    (hto : ∀ other ≠ surface, ∀ raw folded, EntriesRefold C kind held s.republicId other raw folded → EntriesRefold C kind' held s.republicId other raw folded)
    {list : List (UInt64 × Value)} (hself : EntriesRefold C kind' held s.republicId surface list list) :
    Refolds C kind' held { s with applied := setGroup surface list s.applied }
      { t with applied := setGroup surface list t.applied } where
  rest := by rw [h.rest]
  groups := refold_setGroup h.groups h.surfaces hto hself
  surfaces := by rw [setGroup_surfaces]; exact h.surfaces

theorem Refolds.foldWikiPart {s t : CheckpointState} (h : Refolds C kind held s t)
    (hwiki : kind.wiki = true → kind'.wiki = true) (hheld : kind.wiki = false → held.wiki = none) :
    Agree (fun a b => Refolds C ⟨false, kind.vault⟩ held a.1 b.1) (foldWikiPart C s kind' {})
      (foldWikiPart C t kind' held) := by
  have hto : ∀ other ≠ Surface.memory, ∀ raw folded,
      EntriesRefold C kind held s.republicId other raw folded →
        EntriesRefold C ⟨false, kind.vault⟩ held s.republicId other raw folded := by
    intro other hne raw folded hentries
    simpa [EntriesRefold, hne] using hentries
  have hsame : kind.wiki = false → Refolds C ⟨false, kind.vault⟩ held s t := by
    intro hkind
    have : kind = ⟨false, kind.vault⟩ := by rw [← hkind]
    exact this ▸ h
  unfold Chain.foldWikiPart
  split_ifs with hkind'
  · unfold foldMemoryGroup
    rcases refold_groupOf h.groups .memory with ⟨hs, ht⟩ | ⟨raw, folded, hs, ht, hentries⟩
    · rw [hs, ht]
      exact ⟨h.rest, refold_mono h.groups hto (not_mem_of_groupOf hs), h.surfaces⟩
    · rw [hs, ht]
      have hagree : Agree Eq (summarizeMemory C raw SortedMap.empty)
          (summarizeMemory C folded (held.wiki.getD SortedMap.empty)) := by
        unfold EntriesRefold at hentries
        cases hkind : kind.wiki with
        | true =>
          rw [if_pos ⟨rfl, hkind⟩] at hentries
          exact hentries.summarize
        | false =>
          rw [if_neg (by simp [hkind]), if_neg (by simp)] at hentries
          rw [hentries, hheld hkind]
          exact .refl
      refine hagree.bind fun a b hab => ?_
      subst hab
      exact h.setGroup hto (by simp [EntriesRefold])
  · have hkind : kind.wiki = false := by
      cases hk : kind.wiki with
      | false => rfl
      | true => exact absurd (hwiki hk) hkind'
    exact hsame hkind

theorem Refolds.foldVaultPart {vault : Bool} {s t : CheckpointState} (h : Refolds C ⟨false, vault⟩ held s t)
    (hvault : kind'.vault = vault) :
    Agree (fun a b => b.1 = a.1) (foldVaultPart C s kind' {}) (foldVaultPart C t kind' held) := by
  unfold Chain.foldVaultPart
  split_ifs with hkind'
  · obtain rfl : vault = true := hvault.symm.trans hkind'
    unfold foldVaultGroup
    have hrid : t.republicId = s.republicId := by rw [h.rest]
    rcases refold_groupOf h.groups .vault with ⟨hs, ht⟩ | ⟨raw, folded, hs, ht, hentries⟩
    · rw [hs, ht]
      trivial
    · rw [hs, ht]
      have hrefolds : VaultRefolds C held.vault s.republicId raw folded := by
        simpa [EntriesRefold] using hentries
      have hagree : Agree Eq (Vault.summarize C raw none s.republicId)
          (Vault.summarize C folded held.vault t.republicId) := by
        rw [hrid]
        exact hrefolds.summarize
      refine Agree.bind (R := fun a b : CheckpointState × VaultBase => b.1 = a.1)
        (hagree.bind fun a b hab => ?_) fun a b (hab : b.1 = a.1) => hab
      subst hab
      have hto : ∀ other ≠ Surface.vault, ∀ raw folded,
          EntriesRefold C ⟨false, true⟩ held s.republicId other raw folded →
            EntriesRefold C {} held s.republicId other raw folded := by
        intro other hne raw folded hother
        simpa [EntriesRefold, hne] using hother
      exact (h.setGroup hto (by simp [EntriesRefold])).eq
  · obtain rfl : vault = false := by
      rw [← hvault]
      simpa using hkind'
    exact h.eq

theorem Refolds.foldCut {s t : CheckpointState} (h : Refolds C kind held s t)
    (hwiki : kind.wiki = true → kind'.wiki = true) (hheld : kind.wiki = false → held.wiki = none)
    (hvault : kind'.vault = kind.vault) :
    Agree (fun a b => b.hash = a.hash) (foldCut C s kind' {}) (foldCut C t kind' held) := by
  refine (h.foldWikiPart hwiki hheld).bind fun a b hab => ?_
  refine (hab.foldVaultPart hvault).bind fun c d hcd => ?_
  exact congrArg C.checkpointStateHash hcd

end Molt.Chain
