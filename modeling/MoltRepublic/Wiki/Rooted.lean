import Mathlib
import MoltRepublic.Wiki.History

/-! The applied Memory log of a holder against the lineage it stands for: read from the
founding, or from the base of the last cut. A cut moves the root and keeps the lineage. -/

namespace Molt.Wiki
open Molt.Core Json Check Chain List Option

variable {C : Crypto}

/-- The log of a holder, read from `root` on, is the lineage. -/
inductive Rooted (C : Crypto) (m : Memory) (root : Lineage) : Lineage → Prop
  | founding (hplain : ∀ e ∈ m.appliedEntries, isBaseEntry e = false) (hroot : root = Lineage.founding) :
      Rooted C m root (m.appliedEntries.foldl Lineage.push root)
  | folded (e : Entry) (rest : List Entry) (hash : String) (size : UInt64) (hlegacy : m.legacy = [])
      (hchain : m.chain = e :: rest) (hbase : baseCommitmentOf e.2 = some (hash, size))
      (hheld : m.wikiBase = some root.now) (hhash : (wikiCommitment C root.now).1 = hash)
      (hcut : (revAtCutOf e.2).map UInt64.toNat = some root.rev ∨ (revAtCutOf e.2 = none ∧ root.rev = 0))
      (hplain : ∀ e ∈ rest, isBaseEntry e = false) :
      Rooted C m root (rest.foldl Lineage.push root)

section

variable {m : Memory} {root L : Lineage}

theorem Lineage.reads (L : Lineage) (base : Option String) (revAtCut : Option Nat) :
    Reads L L.rev ⟨L.now, L.rev, [], base, revAtCut⟩ := by
  refine ⟨rfl, rfl, ?_, Nat.le_add_right .., le_refl _⟩
  rw [drop_of_length_le (by unfold Lineage.rev; omega)]
  rfl

theorem Rooted.fold (h : Rooted C m root L) (hroom : L.rev < 2 ^ 64) :
    ∃ f, m.fold C = .ok f ∧ Reads L root.rev f ∧
      ((f.base = none ∧ root.rev = 0) ∨
        ((∃ hash, f.base = some hash) ∧
          (f.revAtCut = some root.rev ∨ (f.revAtCut = none ∧ root.rev = 0)))) := by
  cases h with
  | founding hplain hroot =>
    have hstart : Reads root root.rev {} := by
      rw [hroot]
      exact Lineage.founding.reads none none
    obtain ⟨hreads, hbase, -⟩ := hstart.entries m.appliedEntries hroom
    refine ⟨_, foldlM_plain hplain _, hreads, .inl ⟨hbase, by rw [hroot]; rfl⟩⟩
  | folded e rest hash size hlegacy hchain hbase hheld hhash hcut hplain =>
    have hentry : foldWikiEntry C m.wikiBase {} e = .ok ⟨root.now, root.rev, [], some hash,
        (revAtCutOf e.2).map UInt64.toNat⟩ := by
      have hrev : ((revAtCutOf e.2).map UInt64.toNat).getD 0 = root.rev := by
        rcases hcut with heq | ⟨hnone, hzero⟩
        · rw [heq]
          rfl
        · rw [hnone, hzero]
          rfl
      have hfilter : (m.wikiBase.filter fun tree => (wikiCommitment C tree).1 == hash) = some root.now := by
        rw [hheld]
        exact filter_eq_some_iff.mpr ⟨rfl, by simpa using hhash⟩
      unfold foldWikiEntry
      rw [hbase]
      dsimp only
      rw [hfilter]
      rw [hrev]
    have hreads := (root.reads (some hash) ((revAtCutOf e.2).map UInt64.toNat)).entries rest hroom
    obtain ⟨hreads, hbase', hcut'⟩ := hreads
    refine ⟨_, ?_, hreads, .inr ⟨⟨hash, hbase'⟩, ?_⟩⟩
    · unfold Memory.fold Memory.appliedEntries
      rw [hlegacy, hchain, nil_append, foldlM_cons, hentry]
      exact foldlM_plain hplain _
    · rcases hcut with heq | ⟨hnone, hzero⟩
      · exact .inl (hcut'.trans heq)
      · exact .inr ⟨hcut'.trans (by rw [hnone]; rfl), hzero⟩

theorem Rooted.block (h : Rooted C m root L) {e : Entry} (he : isBaseEntry e = false) :
    Rooted C { m with chain := m.chain ++ [e] } root (L.push e) := by
  cases h with
  | founding hplain hroot =>
    have hentries : ({ m with chain := m.chain ++ [e] } : Memory).appliedEntries = m.appliedEntries ++ [e] := by
      exact (append_assoc ..).symm
    have hall : ∀ a ∈ ({ m with chain := m.chain ++ [e] } : Memory).appliedEntries, isBaseEntry a = false := by
      rw [hentries]
      exact forall_mem_append.mpr ⟨hplain, forall_mem_singleton.mpr he⟩
    have hgoal : Rooted C { m with chain := m.chain ++ [e] } root _ := .founding hall hroot
    rwa [hentries, foldl_append] at hgoal
  | folded b rest hash size hlegacy hchain hbase hheld hhash hcut hplain =>
    have hall : ∀ a ∈ rest ++ [e], isBaseEntry a = false := by
      exact forall_mem_append.mpr ⟨hplain, forall_mem_singleton.mpr he⟩
    have hgoal : Rooted C { m with chain := m.chain ++ [e] } root _ :=
      .folded b (rest ++ [e]) hash size hlegacy (by rw [hchain]; rfl) hbase hheld hhash hcut hall
    rwa [foldl_append] at hgoal

end

section

def groupOfEntries (l : List Entry) : List (UInt64 × Value) := l.map fun e => (e.1.getD 0, e.2)

structure Matches (s : MemoryFold) (L : Lineage) : Prop where
  tree : s.tree = L.now
  rev : s.rev.toNat = L.rev
  kept : ∀ e ∈ s.kept, e.2.getStr "op" ≠ some "wiki_base" ∧ e.2.getStr "op" ≠ some "wiki_patch"

theorem isBaseEntry_eq (e : Entry) : isBaseEntry e = decide (e.2.getStr "op" = some "wiki_base") := by
  unfold isBaseEntry baseCommitmentOf
  split_ifs with h
  all_goals simp [h]

theorem saturatingSucc_toNat {n : UInt64} (h : n.toNat + 1 < 2 ^ 64) : (saturatingSucc n).toNat = n.toNat + 1 := by
  unfold saturatingSucc
  rw [if_pos h, UInt64.toNat_add]
  exact Nat.mod_eq_of_lt h

variable {s : MemoryFold} {L : Lineage}

theorem Matches.step (h : Matches s L) (base : Tree) {e : Entry} (he : isBaseEntry e = false)
    (hroom : (L.push e).rev < 2 ^ 64) :
    ∃ s', foldMemoryEntry C base s (e.1.getD 0, e.2) = .ok s' ∧ Matches s' (L.push e) := by
  rw [isBaseEntry_eq, decide_eq_false_iff_not] at he
  unfold foldMemoryEntry
  rw [if_neg he]
  by_cases hop : e.2.getStr "op" = some "wiki_patch"
  · rw [if_pos hop]
    refine ⟨_, rfl, ?_⟩
    have hfold : foldOne s.tree e.2 = (wikiPatchFiles e.2).elim (s.tree, false) fun files =>
        (applyPatch L.now files).toOption.elim (s.tree, false) fun next => (next, true) := by
      unfold foldOne wikiPatchFiles
      rw [if_neg (not_not.mpr hop), if_neg (not_not.mpr hop), h.tree]
      cases e.2.getStr "value" with
      | none => rfl
      | some patch =>
        rw [Option.map_some, Option.elim_some]
        dsimp only
        cases applyPatch L.now (parsePatch patch) <;> rfl
    rcases L.push_cases e with ⟨heq, hsame⟩ | ⟨files, tree, happ, hfiles, heq⟩
    · have hstill : foldOne s.tree e.2 = (s.tree, false) := by
        rw [hfold]
        cases hfiles : wikiPatchFiles e.2 with
        | none => rfl
        | some files =>
          rw [Option.elim_some]
          cases happ : applyPatch L.now files with
          | error err => rfl
          | ok tree =>
            -- an applied patch would have left one more revision in the history
            have hmoved := congrArg Folded.history (hsame ⟨L.now, 0, [], none, none⟩ rfl)
            simp [foldWikiStep, hfiles, happ] at hmoved
      rw [hstill, heq]
      exact ⟨h.tree, h.rev, h.kept⟩
    · have hmoved : foldOne s.tree e.2 = (tree, true) := by
        rw [hfold, hfiles, Option.elim_some, happ]
        rfl
      have hrev : (L.apply e.1 files tree happ).rev = L.rev + 1 := by
        simp only [Lineage.rev, Lineage.apply, length_append, length_singleton]
        omega
      rw [hmoved, heq]
      rw [heq, hrev] at hroom
      refine ⟨rfl, ?_, h.kept⟩
      rw [hrev]
      change (saturatingSucc s.rev).toNat = L.rev + 1
      rw [saturatingSucc_toNat (by rw [h.rev]; exact hroom), h.rev]
  · rw [if_neg hop]
    refine ⟨_, rfl, ?_⟩
    have hpush : L.push e = L := by
      unfold Lineage.push wikiPatchFiles
      rw [if_pos hop]
    rw [hpush]
    refine ⟨h.tree, h.rev, ?_⟩
    exact forall_mem_append.mpr ⟨h.kept, forall_mem_singleton.mpr ⟨he, hop⟩⟩

theorem Matches.entries (h : Matches s L) (base : Tree) {l : List Entry}
    (hplain : ∀ e ∈ l, isBaseEntry e = false) (hroom : (l.foldl Lineage.push L).rev < 2 ^ 64) :
    ∃ s', (groupOfEntries l).foldlM (foldMemoryEntry C base) s = .ok s' ∧
      Matches s' (l.foldl Lineage.push L) := by
  induction l generalizing s L with
  | nil => exact ⟨s, rfl, h⟩
  | cons e l ih =>
    have hone : (L.push e).rev < 2 ^ 64 := lt_of_le_of_lt ((L.push e).rev_le_foldl l) hroom
    obtain ⟨s', hs', hmatch⟩ := h.step base (hplain e (.head _)) hone
    obtain ⟨s'', hs'', hmatch'⟩ := ih hmatch (fun a ha => hplain a (.tail _ ha)) hroom
    refine ⟨s'', ?_, hmatch'⟩
    exact bind_eq_ok.mpr ⟨s', hs', hs''⟩

/-- A cut folds the first `n` entries of the log into the base it then holds. -/
def Memory.cut (C : Crypto) (m : Memory) (n : Nat) : Option Memory :=
  match summarizeMemory C (groupOfEntries (m.chain.take n)) (m.wikiBase.getD SortedMap.empty) with
  | .error _ => none
  | .ok (folded, tree, _) =>
    some { m with
      chain := folded.map (fun e => (some e.1, e.2)) ++ m.chain.drop n
      wikiBase := some tree }

theorem baseCommitmentOf_wikiBaseEntry (tree : Tree) (rev : UInt64) :
    baseCommitmentOf (wikiBaseEntry C tree rev).2 =
      some ((wikiCommitment C tree).1, (wikiCommitment C tree).2) := by
  simp [baseCommitmentOf, wikiBaseEntry, Value.getStr, Value.getU64, Value.get, Value.asStr, Value.asU64,
    List.lookup]

theorem revAtCutOf_wikiBaseEntry (tree : Tree) (rev : UInt64) :
    revAtCutOf (wikiBaseEntry C tree rev).2 = some rev := by
  simp [revAtCutOf, wikiBaseEntry, Value.getU64, Value.get, Value.asU64, List.lookup]

theorem foldl_push_kept {l : List Entry} (h : ∀ e ∈ l, e.2.getStr "op" ≠ some "wiki_patch") (L : Lineage) :
    l.foldl Lineage.push L = L := by
  induction l with
  | nil => rfl
  | cons e l ih =>
    have hpush : L.push e = L := by
      unfold Lineage.push wikiPatchFiles
      rw [if_pos (h e (.head _))]
    rw [foldl_cons, hpush]
    exact ih fun a ha => h a (.tail _ ha)

theorem rooted_of_folded {m : Memory} {n : Nat} {root : Lineage} {rest : List Entry} (hlegacy : m.legacy = [])
    (hmatch : Matches s root)
    (hfold : (groupOfEntries (m.chain.take n)).foldlM (foldMemoryEntry C (m.wikiBase.getD SortedMap.empty)) ⟨SortedMap.empty, [], false, 0⟩ = .ok s)
    (hrest : m.chain.drop n = rest) (hplain : ∀ e ∈ rest, isBaseEntry e = false) :
    ∃ m', m.cut C n = some m' ∧ Rooted C m' root (rest.foldl Lineage.push root) ∧
      m'.appliedEpoch = m.appliedEpoch ∧ m'.legacy = [] := by
  have hsum : summarizeMemory C (groupOfEntries (m.chain.take n)) (m.wikiBase.getD SortedMap.empty) =
      .ok (wikiBaseEntry C s.tree s.rev :: s.kept, s.tree, s.rev) := by
    exact bind_eq_ok.mpr ⟨s, hfold, rfl⟩
  refine ⟨{ m with
    chain := (wikiBaseEntry C s.tree s.rev :: s.kept).map (fun e => (some e.1, e.2)) ++ m.chain.drop n
    wikiBase := some s.tree }, by unfold Memory.cut; rw [hsum], ?_, rfl, hlegacy⟩
  obtain ⟨kept, hkeptEq⟩ : ∃ kept : List Entry, s.kept.map (fun e => (some e.1, e.2)) = kept := ⟨_, rfl⟩
  have hkept : ∀ e ∈ kept, isBaseEntry e = false ∧ e.2.getStr "op" ≠ some "wiki_patch" := by
    intro e he
    rw [← hkeptEq] at he
    obtain ⟨a, ha, rfl⟩ := mem_map.mp he
    obtain ⟨hbase, hpatch⟩ := hmatch.kept a ha
    rw [isBaseEntry_eq, decide_eq_false_iff_not]
    exact ⟨hbase, hpatch⟩
  have hgrow : (kept ++ rest).foldl Lineage.push root = rest.foldl Lineage.push root := by
    rw [foldl_append, foldl_push_kept fun e he => (hkept e he).2]
  rw [← hgrow]
  have hcommit := baseCommitmentOf_wikiBaseEntry (C := C) s.tree s.rev
  have hrev := revAtCutOf_wikiBaseEntry (C := C) s.tree s.rev
  refine .folded (some (wikiBaseEntry C s.tree s.rev).1, (wikiBaseEntry C s.tree s.rev).2) (kept ++ rest)
    (wikiCommitment C s.tree).1 (wikiCommitment C s.tree).2 hlegacy ?_ hcommit ?_ ?_ (.inl ?_) ?_
  · rw [hrest, map_cons, hkeptEq]
    rfl
  · rw [hmatch.tree]
  · rw [hmatch.tree]
  · change (revAtCutOf (wikiBaseEntry C s.tree s.rev).2).map UInt64.toNat = some root.rev
    rw [hrev, map_some, hmatch.rev]
  · exact forall_mem_append.mpr ⟨fun e he => (hkept e he).1, hplain⟩

theorem Rooted.cut {m : Memory} {root : Lineage} (h : Rooted C m root L) (hlegacy : m.legacy = []) {n : Nat}
    (hn : 0 < n) (hroom : L.rev < 2 ^ 64) :
    ∃ m' root', m.cut C n = some m' ∧ Rooted C m' root' L ∧ m'.appliedEpoch = m.appliedEpoch ∧
      m'.legacy = [] := by
  cases h with
  | founding hplain hroot =>
    have hentries : m.appliedEntries = m.chain := by
      unfold Memory.appliedEntries
      rw [hlegacy]
      rfl
    rw [hentries] at hplain hroom ⊢
    have hsplit : m.chain.foldl Lineage.push root =
        (m.chain.drop n).foldl Lineage.push ((m.chain.take n).foldl Lineage.push root) := by
      rw [← foldl_append, take_append_drop]
    rw [hsplit] at hroom ⊢
    have hstart : Matches ⟨SortedMap.empty, [], false, 0⟩ root := by
      rw [hroot]
      exact ⟨rfl, rfl, by simp⟩
    obtain ⟨s, hs, hmatch⟩ := hstart.entries (C := C) (m.wikiBase.getD SortedMap.empty)
      (fun e he => hplain e (mem_of_mem_take he)) (lt_of_le_of_lt (Lineage.rev_le_foldl ..) hroom)
    obtain ⟨m', hm', hrooted, hepoch, hleg⟩ :=
      rooted_of_folded hlegacy hmatch hs rfl fun e he => hplain e (mem_of_mem_drop he)
    exact ⟨m', _, hm', hrooted, hepoch, hleg⟩
  | folded e rest hash size hlegacy hchain hbase hheld hhash hcut hplain =>
    obtain ⟨k, rfl⟩ : ∃ k, n = k + 1 := ⟨n - 1, by omega⟩
    have hsplit : rest.foldl Lineage.push root =
        (rest.drop k).foldl Lineage.push ((rest.take k).foldl Lineage.push root) := by
      rw [← foldl_append, take_append_drop]
    rw [hsplit] at hroom ⊢
    have hop : e.2.getStr "op" = some "wiki_base" ∧ (e.2.getStr "hash").getD "" = hash := by
      unfold baseCommitmentOf at hbase
      split_ifs at hbase with hop
      exact ⟨hop, (Prod.mk.inj (Option.some.inj hbase)).1⟩
    have hrev : ((revAtCutOf e.2).getD 0).toNat = root.rev := by
      rcases hcut with heq | ⟨hnone, hzero⟩
      · cases hrevs : revAtCutOf e.2 with
        | none =>
          rw [hrevs] at heq
          simp at heq
        | some r =>
          rw [hrevs] at heq
          exact Option.some.inj heq
      · rw [hnone, hzero]
        rfl
    have hseed : foldMemoryEntry C (m.wikiBase.getD SortedMap.empty) ⟨SortedMap.empty, [], false, 0⟩
        (e.1.getD 0, e.2) = .ok ⟨root.now, [], true, (revAtCutOf e.2).getD 0⟩ := by
      unfold foldMemoryEntry
      rw [if_pos hop.1, hheld]
      refine bind_eq_ok.mpr ⟨⟨⟩, ensure_eq_ok.mpr rfl, bind_eq_ok.mpr ⟨⟨⟩, ensure_eq_ok.mpr ?_, rfl⟩⟩
      exact hhash.trans hop.2.symm
    have hstart : Matches ⟨root.now, [], true, (revAtCutOf e.2).getD 0⟩ root := ⟨rfl, hrev, by simp⟩
    obtain ⟨s, hs, hmatch⟩ := hstart.entries (C := C) (m.wikiBase.getD SortedMap.empty)
      (fun e he => hplain e (mem_of_mem_take he)) (lt_of_le_of_lt (Lineage.rev_le_foldl ..) hroom)
    have hfold : (groupOfEntries (m.chain.take (k + 1))).foldlM
        (foldMemoryEntry C (m.wikiBase.getD SortedMap.empty)) ⟨SortedMap.empty, [], false, 0⟩ = .ok s := by
      rw [hchain, take_succ_cons, groupOfEntries, map_cons, foldlM_cons]
      exact bind_eq_ok.mpr ⟨_, hseed, hs⟩
    obtain ⟨m', hm', hrooted, hepoch, hleg⟩ :=
      rooted_of_folded hlegacy hmatch hfold (by rw [hchain, drop_succ_cons])
        fun e he => hplain e (mem_of_mem_drop he)
    exact ⟨m', _, hm', hrooted, hepoch, hleg⟩

end

end Molt.Wiki
