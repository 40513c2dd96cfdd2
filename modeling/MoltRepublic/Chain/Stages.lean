import Mathlib
import MoltRepublic.Chain.Refold
import MoltRepublic.Lib.Stages

/-! The memory folded cut by cut is the memory folded at once (`wiki_base::summarize`). -/

namespace Molt.Chain
open Molt.Core Json Check List

variable {C : Crypto}

def summarizeStages (C : Crypto) (segs : List (List (UInt64 × Value))) :
    Except String (List (UInt64 × Value) × Wiki.Tree × UInt64) :=
  stages (fun base group => summarizeMemory C group base.1) ([], SortedMap.empty, 0) segs

def isWiki (e : UInt64 × Value) : Bool :=
  e.2.getStr "op" = some "wiki_base" || e.2.getStr "op" = some "wiki_patch"

variable {base : Wiki.Tree}

theorem foldMemoryEntry_kept {s t : MemoryFold} {e : UInt64 × Value} (h : foldMemoryEntry C base s e = .ok t) :
    t.kept = s.kept ++ [e].filter fun e => !isWiki e := by
  unfold foldMemoryEntry at h
  by_cases hbase : e.2.getStr "op" = some "wiki_base"
  · simp only [if_pos hbase, bind_eq_ok, pure_eq_ok] at h
    obtain ⟨_, -, _, -, rfl⟩ := h
    simp [isWiki, hbase]
  · rw [if_neg hbase] at h
    split_ifs at h with hpatch
    · rw [← Except.ok.inj h]
      simp [isWiki, hpatch]
    · rw [← Except.ok.inj h]
      simp [isWiki, hbase, hpatch]

variable {group : List (UInt64 × Value)}

theorem foldMemoryEntries_kept {t : MemoryFold}
    (h : group.foldlM (foldMemoryEntry C base) memoryStart = .ok t) :
    t.kept = group.filter fun e => !isWiki e := by
  have hkept := foldlM_history
    (P := fun k (s : MemoryFold) => s.kept = k.filter fun e => !isWiki e)
    (fun k s e t hs hstep => by rw [foldMemoryEntry_kept hstep, hs, filter_append])
    (k := []) (s := memoryStart) rfl h
  simpa using hkept

variable {folded : List (UInt64 × Value) × Wiki.Tree × UInt64}

theorem summarizeMemory_group (h : summarizeMemory C group base = .ok folded) :
    folded.1 = wikiBaseEntry C folded.2.1 folded.2.2 :: group.filter fun e => !isWiki e := by
  obtain ⟨s, hs, heq⟩ := bind_eq_ok.mp h
  rw [← pure_eq_ok.mp heq, foldMemoryEntries_kept hs]

theorem summarizeMemory_isOk (base : Wiki.Tree) (hfree : ∀ e ∈ group, wearsBase .memory e.2 = false) :
    ∃ folded, summarizeMemory C group base = .ok folded := by
  have hrun : ∀ s, ∃ t, group.foldlM (foldMemoryEntry C base) s = .ok t := by
    induction group with
    | nil => exact fun s => ⟨s, rfl⟩
    | cons e group ih =>
      intro s
      have hop : e.2.getStr "op" ≠ some "wiki_base" := by
        simpa [wearsBase, baseOp] using hfree e (.head _)
      have hstep : ∃ r, foldMemoryEntry C base s e = .ok r := by
        unfold foldMemoryEntry
        rw [if_neg hop]
        split_ifs
        all_goals exact ⟨_, rfl⟩
      obtain ⟨r, hr⟩ := hstep
      obtain ⟨t, ht⟩ := ih (fun d hd => hfree d (.tail _ hd)) r
      exact ⟨t, foldlM_cons_eq_ok.mpr ⟨r, hr, ht⟩⟩
  obtain ⟨t, ht⟩ := hrun memoryStart
  exact ⟨_, bind_eq_ok.mpr ⟨t, ht, rfl⟩⟩

theorem summarizeMemory_committed (h : summarizeMemory C group base = .ok folded) {e : UInt64 × Value}
    (he : e ∈ group) (hop : e.2.getStr "op" = some "wiki_base") :
    (e.2.getStr "hash").getD "" = (wikiCommitment C base).1 := by
  obtain ⟨before, after, rfl⟩ := append_of_mem he
  obtain ⟨t, ht, -⟩ := bind_eq_ok.mp h
  obtain ⟨s, -, hs⟩ := foldlM_append_eq_ok.mp ht
  obtain ⟨r, hr, -⟩ := foldlM_cons_eq_ok.mp hs
  simp only [foldMemoryEntry, if_pos hop, bind_eq_ok, ensure_eq_ok] at hr
  obtain ⟨_, -, _, hhash, -⟩ := hr
  exact hhash.symm

theorem summarizeStages_eq_ok (seg : List (UInt64 × Value)) (segs : List (List (UInt64 × Value)))
    (hfree : ∀ e ∈ (seg :: segs).flatten, wearsBase .memory e.2 = false) :
    summarizeStages C (seg :: segs) = .ok folded ↔
      summarizeMemory C (seg :: segs).flatten SortedMap.empty = .ok folded := by
  refine stages_eq_ok (fun raw => summarizeMemory C raw SortedMap.empty)
    (R := fun raw p => MemoryRefolds C p.2.1 raw p.1) (V := fun e => wearsBase .memory e.2 = false)
    (fun raw p e hp he => hp.concat he) ?_ ?_ ?_ [] ?_ seg segs hfree
  · intro raw p q _ hp
    exact hp.summarize.eq_ok_iff.symm
  · intro raw q hraw hq
    exact summarizeMemory_refolds hraw hq
  · intro raw hraw
    exact summarizeMemory_isOk _ hraw
  · exact ⟨rfl, rfl, rfl⟩

/-- However the entries are cut into segments, the stages yield what one fold yields: the
same group, tree and revision, with every entry that is not wiki kept in order. No fold
goes on from a tree the group does not commit to. -/
theorem memory_folds_in_stages (C : Crypto) :
    (∀ (seg : List (UInt64 × Value)) (segs : List (List (UInt64 × Value))),
      (∀ e ∈ (seg :: segs).flatten, e.2.getStr "op" ≠ some "wiki_base") →
      ∃ folded, summarizeStages C (seg :: segs) = .ok folded ∧
        summarizeMemory C (seg :: segs).flatten SortedMap.empty = .ok folded ∧
        folded.1 = wikiBaseEntry C folded.2.1 folded.2.2 ::
          (seg :: segs).flatten.filter fun e => !isWiki e) ∧
    (∀ (group : List (UInt64 × Value)) (base : Wiki.Tree), ∀ e ∈ group,
      e.2.getStr "op" = some "wiki_base" →
      (e.2.getStr "hash").getD "" ≠ (wikiCommitment C base).1 →
      ∃ why, summarizeMemory C group base = .error why) := by
  refine ⟨fun seg segs hbase => ?_, fun group base e he hop hhash => ?_⟩
  · have hfree : ∀ e ∈ (seg :: segs).flatten, wearsBase .memory e.2 = false := by
      intro e he
      simpa [wearsBase, baseOp] using hbase e he
    obtain ⟨folded, hfolded⟩ := summarizeMemory_isOk (C := C) SortedMap.empty hfree
    exact ⟨folded, (summarizeStages_eq_ok seg segs hfree).mpr hfolded, hfolded,
      summarizeMemory_group hfolded⟩
  · cases h : summarizeMemory C group base with
    | error why => exact ⟨why, rfl⟩
    | ok folded => exact absurd (summarizeMemory_committed h he hop) hhash

def sampleEntries : List (List (UInt64 × Value)) :=
  [[(1, .obj [("op", .str "add_note")])], [(2, .obj [("op", .str "wiki_patch"),
    ("value", .str "diff --git a/p b/p\nnew file mode 100644\n@@ -0,0 +1 @@\n+x\n")])]]

theorem memory_folds_in_stages_sample :
    (∃ folded, summarizeStages Crypto.toy sampleEntries = .ok folded ∧
      summarizeMemory Crypto.toy sampleEntries.flatten SortedMap.empty = .ok folded ∧
      folded.1 = wikiBaseEntry Crypto.toy folded.2.1 folded.2.2 ::
        sampleEntries.flatten.filter fun e => !isWiki e) ∧
    ∃ why, summarizeMemory Crypto.toy [(0, .obj [("op", .str "wiki_base")])] SortedMap.empty =
      .error why := by
  refine ⟨(memory_folds_in_stages Crypto.toy).1 _ _ (by decide), ?_⟩
  exact (memory_folds_in_stages Crypto.toy).2 _ _ _ (List.mem_singleton.mpr rfl) (by decide)
    (by decide +kernel)

end Molt.Chain
