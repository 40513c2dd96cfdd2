import Mathlib
import MoltRepublic.Wiki.Base
import MoltRepublic.Wiki.Cache
import MoltRepublic.Wiki.Graph

/-! The wiki indexes: a link graph and a search index over the folded tree, built off the
actor on a snapshot and brought up to date by the paths that applied patches name. -/

namespace Molt.Wiki
open Molt.Core Json Check Chain List SortedMap Option

abbrev WikiSearch := SortedMap String String

def WikiSearch.build (tree : Tree) : WikiSearch :=
  tree.entries.foldl (fun s e => s.insert e.1 e.2) SortedMap.empty

def WikiSearch.update (s : WikiSearch) (tree : Tree) (touched : List String) : WikiSearch :=
  touched.foldl (fun s path =>
    match tree.get? path with
    | none => s.erase path
    | some content => (s.erase path).insert path content) s

structure WikiIndexes where
  graph : WikiGraph
  search : WikiSearch

structure IndexState where
  memory : Memory
  wikiCache : Option WikiCache
  wikiGraph : Option WikiGraph
  wikiGraphEpoch : Nat
  wikiGraphDirty : List String
  wikiSearch : Option WikiSearch
  wikiSearchEpoch : Nat
  wikiSearchDirty : List String
  wikiIndexBuilding : Option Nat
  staging : Option WikiIndexes
  /-- The builds that run off the actor, with the tree each works on. -/
  tasks : List (Nat × Tree)
  /-- The completions under way to the actor (`NetWikiIndexReady`). -/
  ready : List Nat

def IndexState.opened (memory : Memory) : IndexState :=
  ⟨memory, none, none, 0, [], none, 0, [], none, none, [], []⟩

def touchedPaths (files : List PatchFile) : List String :=
  files.flatMap fun f => [f.oldPath, f.newPath].filter (· ≠ "")

def wikiPayloadPaths (payload : Value) : Option (List String) := (wikiPatchFiles payload).map touchedPaths

namespace IndexState

variable (C : Crypto) (R : DocReader)

def refreshCache (s : IndexState) : IndexState :=
  { s with wikiCache := (refreshWikiCache C s.memory s.wikiCache).1 }

/-- `wiki_base`: from the cache while it describes the logs, else folded fresh. -/
def wikiTree (s : IndexState) : Except BasePending Tree :=
  match s.wikiCache with
  | some c =>
    if c.epoch = s.memory.appliedEpoch ∧ c.legacy = s.memory.legacy.length ∧
        c.chain = s.memory.chain.length ∧ wikiCacheBaseHeld s.memory c = true then .ok c.tree
    else (s.memory.fold C).map Folded.tree
  | none => (s.memory.fold C).map Folded.tree

def noteWikiChange (s : IndexState) : Option (List String) → IndexState
  | some paths =>
    { s with
      wikiGraphDirty := s.wikiGraphDirty ++ paths
      wikiSearchDirty := s.wikiSearchDirty ++ paths }
  | none =>
    { s with wikiGraph := none, wikiGraphDirty := [], wikiSearch := none, wikiSearchDirty := [] }

def cachedTree (s : IndexState) : Tree := (s.wikiCache.map fun c => c.tree).getD SortedMap.empty

def refreshWikiGraph (s : IndexState) : IndexState :=
  let s := s.refreshCache C
  match s.wikiGraph with
  | none => s
  | some g =>
    if s.wikiGraphEpoch ≠ s.memory.appliedEpoch then { s with wikiGraph := none }
    else if s.wikiGraphDirty.isEmpty then s
    else { s with wikiGraph := some (g.update R s.cachedTree s.wikiGraphDirty), wikiGraphDirty := [] }

def refreshWikiSearch (s : IndexState) : IndexState :=
  let s := s.refreshCache C
  let dirty := s.wikiSearchDirty
  match s.wikiSearch with
  | none => { s with wikiSearchDirty := [] }
  | some m =>
    if s.wikiSearchEpoch ≠ s.memory.appliedEpoch then { s with wikiSearch := none, wikiSearchDirty := [] }
    else if dirty.isEmpty then s
    else { s with wikiSearch := some (m.update s.cachedTree dirty), wikiSearchDirty := [] }

def buildWikiIndexesNow (s : IndexState) : IndexState :=
  let s := s.refreshCache C
  match s.wikiTree C with
  | .error _ => s
  | .ok tree =>
    { s with
      wikiGraph := some (WikiGraph.build R tree)
      wikiGraphEpoch := s.memory.appliedEpoch
      wikiSearch := some (WikiSearch.build tree)
      wikiSearchEpoch := s.memory.appliedEpoch
      wikiGraphDirty := []
      wikiSearchDirty := [] }

def spawnWikiIndexBuild (actor : Bool) (s : IndexState) : IndexState :=
  if s.wikiIndexBuilding.isSome then s
  else if actor = false then s.buildWikiIndexesNow C R
  else
    let s := s.refreshCache C
    match s.wikiTree C with
    | .error _ => s
    | .ok tree =>
      { s with
        wikiIndexBuilding := some s.memory.appliedEpoch
        tasks := s.tasks ++ [(s.memory.appliedEpoch, tree)] }

/-- `cmd_net_wiki_index_ready`: installed only if no re-projection landed meanwhile. -/
def netWikiIndexReady (s : IndexState) (epoch : Nat) : IndexState :=
  let built := s.staging
  let s := { s with wikiIndexBuilding := none, staging := none }
  match built with
  | none => s
  | some indexes =>
    if epoch ≠ s.memory.appliedEpoch then s
    else
      refreshWikiSearch C (refreshWikiGraph C R { s with
        wikiGraph := some indexes.graph
        wikiGraphEpoch := epoch
        wikiSearch := some indexes.search
        wikiSearchEpoch := epoch })

def graphRead (actor : Bool) (s : IndexState) : IndexState :=
  let s := s.refreshWikiGraph C R
  if s.wikiGraph.isNone then s.spawnWikiIndexBuild C R actor else s

def searchRead (actor : Bool) (s : IndexState) : IndexState :=
  let s := s.refreshWikiSearch C
  if s.wikiSearch.isNone then s.spawnWikiIndexBuild C R actor else s

end IndexState

inductive IndexEvent where
  /-- A sealed block applies a Memory payload. -/
  | applied (e : Entry)
  /-- The same before there is a chain. -/
  | legacyApplied (e : Entry)
  /-- The blob is swapped: the epoch moves, the logs follow. -/
  | setBlob
  /-- The logs and the base are projected anew; a fetched base and an opened workspace kick
  off a build. -/
  | reproject (legacy chain : List Entry) (wikiBase : Option Tree) (kick actor : Bool)
  | graphRead (actor : Bool)
  | searchRead (actor : Bool)
  /-- A build ends, with its indexes or without. -/
  | built (ok : Bool)
  /-- A completion reaches the actor. -/
  | arrived

namespace IndexState

variable (C : Crypto) (R : DocReader)

def apply (s : IndexState) (memory : Memory) (payload : Value) : IndexState :=
  ({ s with memory := memory }).noteWikiChange (wikiPayloadPaths payload)

/-- What an event does; `none` where it cannot happen. -/
def step (s : IndexState) : IndexEvent → Option IndexState
  | .applied e =>
    -- the chain refuses the ops a cut writes
    if isBaseEntry e then none
    else some ((s.apply { s.memory with chain := s.memory.chain ++ [e] } e.2).refreshCache C)
  | .legacyApplied e =>
    if isBaseEntry e ∨ s.memory.chain ≠ [] then none
    else some (s.apply { s.memory with legacy := s.memory.legacy ++ [e] } e.2)
  | .setBlob => some { s with memory := s.memory.bumpAppliedEpoch }
  | .reproject legacy chain wikiBase kick actor =>
    let s := ({ s with memory := (⟨legacy, chain, wikiBase, s.memory.appliedEpoch⟩ : Memory).bumpAppliedEpoch })
    let s := s.refreshCache C
    some (if kick then s.spawnWikiIndexBuild C R actor else s)
  | .graphRead actor => some (s.graphRead C R actor)
  | .searchRead actor => some (s.searchRead C R actor)
  | .built ok =>
    match s.tasks with
    | [] => none
    | (epoch, tree) :: tasks =>
      some { s with
        tasks := tasks
        ready := s.ready ++ [epoch]
        staging := if ok then some ⟨WikiGraph.build R tree, WikiSearch.build tree⟩ else s.staging }
  | .arrived =>
    match s.ready with
    | [] => none
    | epoch :: ready => some (({ s with ready := ready }).netWikiIndexReady C R epoch)

def run (s : IndexState) : List IndexEvent → Option IndexState
  | [] => some s
  | e :: events => (s.step C R e).bind fun s => run s events

end IndexState

def PatchFile.Named (f : PatchFile) : Prop := f.added = true → f.deleted = true → f.newPath ≠ ""

instance (f : PatchFile) : Decidable f.Named := inferInstanceAs (Decidable (_ → _ → _))

section

variable {C : Crypto}

variable {p : String}

theorem applyFile_frame {now next : Tree} {f : PatchFile} (h : applyFile now f = .ok next) (hnamed : f.Named)
    (hp : p ∉ touchedPaths [f]) : next.get? p = now.get? p := by
  have hpaths : ∀ q, q = f.oldPath ∨ q = f.newPath → q ≠ "" → p ≠ q := by
    rintro q hq hne rfl
    refine hp ?_
    simp only [touchedPaths, flatMap_cons, flatMap_nil, append_nil]
    refine mem_filter.mpr ⟨?_, by simpa using hne⟩
    rcases hq with rfl | rfl
    · exact .head _
    · exact .tail _ (.head _)
  have hvalid : f.oldPath ≠ "" ∧ (f.deleted = false → f.newPath ≠ "") := by
    have hempty : validPath "" = false := rfl
    unfold applyFile at h
    obtain ⟨hnew, h⟩ := passes h
    obtain ⟨hold, -⟩ := passes h
    constructor
    · intro heq
      rw [heq, hempty] at hold
      exact absurd rfl hold
    · intro hdel heq
      rw [heq, hempty, hdel] at hnew
      exact absurd rfl hnew
  have hold := hpaths _ (.inl rfl) hvalid.1
  rcases applyFile_cases h with ⟨hadded, -, content, rfl⟩ | ⟨-, -, ⟨-, rfl⟩ | ⟨hdel, -, content, rfl⟩⟩
  · have hne : f.newPath ≠ "" := by
      cases hdel : f.deleted with
      | true => exact hnamed hadded hdel
      | false => exact hvalid.2 hdel
    rw [get?_insert, if_neg (hpaths _ (.inr rfl) hne)]
  · rw [get?_erase, if_neg hold]
  · rw [get?_insert, if_neg (hpaths _ (.inr rfl) (hvalid.2 hdel)), get?_erase,
      if_neg hold]

theorem applyFiles_frame {now next : Tree} {files : List PatchFile}
    (h : files.foldlM applyFile now = .ok next) (hnamed : ∀ f ∈ files, f.Named) (hp : p ∉ touchedPaths files) :
    next.get? p = now.get? p := by
  induction files generalizing now with
  | nil =>
    obtain rfl := pure_eq_ok.mp h
    rfl
  | cons f files ih =>
    obtain ⟨mid, hmid, hrest⟩ := bind_eq_ok.mp h
    have hsplit : touchedPaths (f :: files) = touchedPaths [f] ++ touchedPaths files := by
      simp [touchedPaths]
    rw [hsplit, mem_append, not_or] at hp
    rw [ih hrest (fun a ha => hnamed a (.tail _ ha)) hp.2]
    exact applyFile_frame hmid (hnamed f (.head _)) hp.1

theorem foldWikiStep_frame (f : Folded) {e : Entry}
    (hnamed : ∀ files, wikiPatchFiles e.2 = some files → ∀ f ∈ files, f.Named)
    (hp : p ∉ (wikiPayloadPaths e.2).getD []) : (foldWikiStep f e).tree.get? p = f.tree.get? p := by
  unfold foldWikiStep
  unfold wikiPayloadPaths at hp
  cases hfiles : wikiPatchFiles e.2 with
  | none => rfl
  | some files =>
    rw [hfiles] at hp
    dsimp only
    cases happ : applyPatch f.tree files with
    | error err => rfl
    | ok tree => exact applyFiles_frame (applyPatch_files happ) (hnamed files hfiles) hp

theorem fold_entries {m m' : Memory} {e : Entry} (hentries : m'.appliedEntries = m.appliedEntries ++ [e])
    (hbase : m'.wikiBase = m.wikiBase) (he : isBaseEntry e = false) {f' : Folded} (h : m'.fold C = .ok f') :
    ∃ f, m.fold C = .ok f ∧ f' = foldWikiStep f e := by
  unfold Memory.fold at h
  rw [hentries, hbase, foldlM_append] at h
  obtain ⟨f, hf, hlast⟩ := bind_eq_ok.mp h
  rw [foldlM_cons, foldWikiEntry_plain he] at hlast
  exact ⟨f, hf, (pure_eq_ok.mp hlast).symm⟩

end

section

/-- The index is the tree, but for the paths in `stale`. -/
def SearchLags (m : WikiSearch) (tree : Tree) (stale : List String) : Prop :=
  ∀ p, p ∉ stale → m.get? p = tree.get? p

theorem searchLags_build (tree : Tree) : SearchLags (WikiSearch.build tree) tree [] := by
  intro p _
  unfold WikiSearch.build
  rw [foldl_insert_entries]

theorem SearchLags.update {m : WikiSearch} {tree : Tree} {stale touched : List String} (h : SearchLags m tree stale)
    (hall : ∀ p ∈ stale, p ∈ touched) : SearchLags (m.update tree touched) tree [] := by
  have key : ∀ (l : List String) (m : WikiSearch) (stale : List String), SearchLags m tree stale →
      SearchLags (m.update tree l) tree (stale.filter (· ∉ l)) := by
    intro l
    induction l with
    | nil =>
      intro m stale h p hp
      exact h p (by simpa using hp)
    | cons t l ih =>
      intro m stale h
      have hone : SearchLags (match tree.get? t with
          | none => m.erase t
          | some content => (m.erase t).insert t content) tree (stale.filter (· ≠ t)) := by
        intro p hp
        by_cases heq : p = t
        · rw [heq]
          cases hget : tree.get? t with
          | none => exact (get?_erase ..).trans (if_pos rfl)
          | some content => exact (get?_insert ..).trans (if_pos rfl)
        · have hold := h p fun hmem => hp (mem_filter.mpr ⟨hmem, by simpa using heq⟩)
          cases hget : tree.get? t with
          | none => exact ((get?_erase ..).trans (if_neg heq)).trans hold
          | some content =>
            exact ((get?_insert ..).trans (if_neg heq)).trans
              (((get?_erase ..).trans (if_neg heq)).trans hold)
      intro p hp
      refine ih _ _ hone p fun hmem => hp ?_
      obtain ⟨hmem, hnot⟩ := mem_filter.mp hmem
      obtain ⟨hmem, hne⟩ := mem_filter.mp hmem
      refine mem_filter.mpr ⟨hmem, ?_⟩
      simp [hne, hnot]
  intro p _
  refine key touched m stale h p fun hmem => ?_
  obtain ⟨hstale, hnot⟩ := mem_filter.mp hmem
  exact absurd (hall p hstale) (by simpa using hnot)

theorem SearchLags.moved {m : WikiSearch} {tree next : Tree} {stale stale' : List String} (h : SearchLags m tree stale)
    (hsub : ∀ p ∈ stale, p ∈ stale') (hmoved : ∀ p, p ∉ stale' → next.get? p = tree.get? p) :
    SearchLags m next stale' := by
  intro p hp
  rw [hmoved p hp]
  exact h p fun hmem => hp (hsub p hmem)

end

section

variable {C : Crypto} {R : DocReader}

structure CacheSound (C : Crypto) (s : IndexState) : Prop where
  current : ∀ c, s.wikiCache = some c → Current C s.memory c
  past : ∀ c, s.wikiCache = some c → c.epoch ≤ s.memory.appliedEpoch

def Snapshot (C : Crypto) (s : IndexState) (landed : List String) (tree : Tree) : Prop :=
  ∀ f, s.memory.fold C = .ok f → ∀ p, p ∉ landed → tree.get? p = f.tree.get? p

inductive Flight (C : Crypto) (R : DocReader) (s : IndexState) (landed : List String) : Prop
  | idle (hbuilding : s.wikiIndexBuilding = none) (htasks : s.tasks = []) (hready : s.ready = [])
      (hstaging : s.staging = none)
  | running (epoch : Nat) (tree : Tree) (hbuilding : s.wikiIndexBuilding = some epoch)
      (htasks : s.tasks = [(epoch, tree)]) (hready : s.ready = []) (hstaging : s.staging = none)
      (hpast : epoch ≤ s.memory.appliedEpoch)
      (hsnap : epoch = s.memory.appliedEpoch → Snapshot C s landed tree)
  | done (epoch : Nat) (hbuilding : s.wikiIndexBuilding = some epoch) (htasks : s.tasks = [])
      (hready : s.ready = [epoch]) (hpast : epoch ≤ s.memory.appliedEpoch)
      (hstaging : ∀ indexes, s.staging = some indexes → epoch = s.memory.appliedEpoch →
        ∃ tree, indexes = ⟨WikiGraph.build R tree, WikiSearch.build tree⟩ ∧ Snapshot C s landed tree)

structure Installed (C : Crypto) (R : DocReader) (s : IndexState) : Prop where
  graph : ∀ g, s.wikiGraph = some g → s.wikiGraphEpoch = s.memory.appliedEpoch →
    ∀ f, s.memory.fold C = .ok f → Lags R g f.tree s.wikiGraphDirty
  search : ∀ m, s.wikiSearch = some m → s.wikiSearchEpoch = s.memory.appliedEpoch →
    ∀ f, s.memory.fold C = .ok f → SearchLags m f.tree s.wikiSearchDirty
  graphPast : s.wikiGraphEpoch ≤ s.memory.appliedEpoch
  searchPast : s.wikiSearchEpoch ≤ s.memory.appliedEpoch

def IndexState.hasGraph (s : IndexState) : Prop :=
  s.wikiGraph ≠ none ∧ s.wikiGraphEpoch = s.memory.appliedEpoch

def IndexState.hasSearch (s : IndexState) : Prop :=
  s.wikiSearch ≠ none ∧ s.wikiSearchEpoch = s.memory.appliedEpoch

structure IndexSound (C : Crypto) (R : DocReader) (s : IndexState) (landed : List String) : Prop where
  cache : CacheSound C s
  flight : Flight C R s landed
  installed : Installed C R s
  /-- The two indexes come and go together. -/
  both : s.hasGraph ↔ s.hasSearch
  /-- While a build of the current epoch is under way there is no index, and what was
  applied since waits for it. -/
  waits : s.wikiIndexBuilding = some s.memory.appliedEpoch →
    ¬ s.hasGraph ∧ (∀ p ∈ landed, p ∈ s.wikiGraphDirty) ∧ (∀ p ∈ landed, p ∈ s.wikiSearchDirty)
  epoch : s.memory.appliedEpoch < 2 ^ 64

variable {s : IndexState} {landed : List String}

theorem CacheSound.refresh (h : CacheSound C s) : CacheSound C (s.refreshCache C) := by
  refine ⟨?_, ?_⟩
  · intro c hc
    obtain ⟨hfold, -, hlegacy, hchain⟩ := refreshWikiCache_stands h.current hc
    exact Current.of_stands hfold hlegacy hchain
  · intro c hc
    obtain ⟨-, hepoch, -⟩ := refreshWikiCache_stands h.current hc
    exact le_of_eq hepoch

theorem CacheSound.cachedTree (h : CacheSound C s) {f : Folded} (hf : s.memory.fold C = .ok f) :
    (s.refreshCache C).cachedTree = f.tree := by
  have hcache := refreshWikiCache_folded h.current
  rw [hf] at hcache
  obtain ⟨c, hc, hfolded⟩ := map_eq_some_iff.mp hcache
  unfold IndexState.cachedTree IndexState.refreshCache
  rw [hc, ← hfolded]
  rfl

theorem CacheSound.wikiTree (h : CacheSound C s) : s.wikiTree C = (s.memory.fold C).map Folded.tree := by
  unfold IndexState.wikiTree
  cases hc : s.wikiCache with
  | none => rfl
  | some c =>
    dsimp only
    split_ifs with hstands
    · obtain ⟨hepoch, hlegacy, hchain, hheld⟩ := hstands
      obtain ⟨-, -, hfold⟩ := h.current c hc hepoch hheld
      rw [hlegacy, hchain, take_length, take_length] at hfold
      have hwhole : s.memory.fold C = .ok c.toFolded := hfold
      rw [hwhole]
      rfl
    · rfl

theorem IndexSound.refreshCache (h : IndexSound C R s landed) : IndexSound C R (s.refreshCache C) landed := by
  refine ⟨h.cache.refresh, ?_, ⟨h.installed.graph, h.installed.search, h.installed.graphPast,
    h.installed.searchPast⟩, h.both, h.waits, h.epoch⟩
  cases h.flight with
  | idle hbuilding htasks hready hstaging => exact .idle hbuilding htasks hready hstaging
  | running epoch tree hbuilding htasks hready hstaging hpast hsnap =>
    exact .running epoch tree hbuilding htasks hready hstaging hpast hsnap
  | done epoch hbuilding htasks hready hpast hstaging => exact .done epoch hbuilding htasks hready hpast hstaging

theorem Flight.moved {s' : IndexState} {landed' : List String} (h : Flight C R s landed)
    (hbuilding : s'.wikiIndexBuilding = s.wikiIndexBuilding) (htasks : s'.tasks = s.tasks)
    (hready : s'.ready = s.ready) (hstaging : s'.staging = s.staging)
    (hle : s.memory.appliedEpoch ≤ s'.memory.appliedEpoch)
    (hsnap : s'.memory.appliedEpoch = s.memory.appliedEpoch → ∀ tree, Snapshot C s landed tree →
      Snapshot C s' landed' tree) : Flight C R s' landed' := by
  cases h with
  | idle hb ht hr hs => exact .idle (hbuilding.trans hb) (htasks.trans ht) (hready.trans hr) (hstaging.trans hs)
  | running epoch tree hb ht hr hs hpast hsn =>
    refine .running epoch tree (hbuilding.trans hb) (htasks.trans ht) (hready.trans hr) (hstaging.trans hs)
      (hpast.trans hle) ?_
    intro heq
    have hsame : epoch = s.memory.appliedEpoch := le_antisymm hpast (heq ▸ hle)
    exact hsnap (heq.symm.trans hsame) tree (hsn hsame)
  | done epoch hb ht hr hpast hs =>
    refine .done epoch (hbuilding.trans hb) (htasks.trans ht) (hready.trans hr) (hpast.trans hle) ?_
    rw [hstaging]
    intro indexes hi heq
    have hsame : epoch = s.memory.appliedEpoch := le_antisymm hpast (heq ▸ hle)
    obtain ⟨tree, hbuild, hsn⟩ := hs indexes hi hsame
    exact ⟨tree, hbuild, hsnap (heq.symm.trans hsame) tree hsn⟩

theorem Flight.congr {s' : IndexState} (h : Flight C R s landed) (hmemory : s'.memory = s.memory)
    (hbuilding : s'.wikiIndexBuilding = s.wikiIndexBuilding) (htasks : s'.tasks = s.tasks)
    (hready : s'.ready = s.ready) (hstaging : s'.staging = s.staging) : Flight C R s' landed := by
  refine h.moved hbuilding htasks hready hstaging (le_of_eq (by rw [hmemory])) ?_
  intro _ tree hs f hf
  rw [hmemory] at hf
  exact hs f hf

theorem IndexSound.refreshGraph (h : IndexSound C R s landed) :
    IndexSound C R (s.refreshWikiGraph C R) landed ∧
      (∀ g f, (s.refreshWikiGraph C R).wikiGraph = some g → s.memory.fold C = .ok f →
        g = WikiGraph.build R f.tree) := by
  have hr := h.refreshCache
  unfold IndexState.refreshWikiGraph
  dsimp only
  cases hg : (s.refreshCache C).wikiGraph with
  | none =>
    refine ⟨hr, ?_⟩
    intro g f hgraph
    simpa using hg.symm.trans hgraph
  | some g =>
    split_ifs with hepoch hdirty
    · have hno : ¬ (s.refreshCache C).hasGraph := fun hhas => hepoch hhas.2
      refine ⟨⟨⟨hr.cache.current, hr.cache.past⟩, hr.flight.congr rfl rfl rfl rfl rfl, ⟨?_, hr.installed.search,
        hr.installed.graphPast, hr.installed.searchPast⟩, ?_, ?_, hr.epoch⟩, ?_⟩
      · intro g' hg'
        simp at hg'
      · constructor
        · exact fun hhas => absurd rfl hhas.1
        · exact fun hhas => absurd (hr.both.mpr hhas) hno
      · intro hbuilding
        exact ⟨fun hhas => absurd rfl hhas.1, (hr.waits hbuilding).2⟩
      · intro g' f hg'
        simp at hg'
    · have hempty : (s.refreshCache C).wikiGraphDirty = [] := by simpa using hdirty
      refine ⟨hr, ?_⟩
      intro g' f hg' hf
      have hlags := hr.installed.graph g' hg' (not_not.mp hepoch) f hf
      rw [hempty] at hlags
      exact hlags.eq_build
    · have hhas : (s.refreshCache C).hasGraph := ⟨by rw [hg]; simp, not_not.mp hepoch⟩
      have hlags : ∀ f, s.memory.fold C = .ok f →
          Lags R (g.update R (s.refreshCache C).cachedTree (s.refreshCache C).wikiGraphDirty) f.tree [] := by
        intro f hf
        rw [h.cache.cachedTree hf]
        exact (hr.installed.graph g hg (not_not.mp hepoch) f hf).update fun p hp => hp
      refine ⟨⟨⟨hr.cache.current, hr.cache.past⟩, hr.flight.congr rfl rfl rfl rfl rfl, ⟨?_, hr.installed.search,
        hr.installed.graphPast, hr.installed.searchPast⟩, ?_, ?_, hr.epoch⟩, ?_⟩
      · intro g' hg' _ f hf
        rw [← Option.some.inj hg']
        exact hlags f hf
      · constructor
        · exact fun _ => hr.both.mp hhas
        · exact fun _ => ⟨by simp, hhas.2⟩
      · intro hbuilding
        exact absurd hhas (hr.waits hbuilding).1
      · intro g' f hg' hf
        rw [← Option.some.inj hg']
        exact (hlags f hf).eq_build

theorem IndexSound.refreshSearch (h : IndexSound C R s landed)
    (hcalm : s.wikiIndexBuilding = some s.memory.appliedEpoch → landed = []) :
    IndexSound C R (s.refreshWikiSearch C) landed := by
  have hr := h.refreshCache
  have hnone : ∀ p, s.wikiIndexBuilding = some s.memory.appliedEpoch → p ∈ landed → p ∈ ([] : List String) := by
    intro p hbuilding hp
    rwa [hcalm hbuilding] at hp
  unfold IndexState.refreshWikiSearch
  dsimp only
  cases hm : (s.refreshCache C).wikiSearch with
  | none =>
    have hno : ¬ (s.refreshCache C).hasSearch := fun hhas => hhas.1 hm
    refine ⟨⟨hr.cache.current, hr.cache.past⟩, hr.flight.congr rfl rfl rfl rfl rfl, ⟨hr.installed.graph, ?_,
      hr.installed.graphPast, hr.installed.searchPast⟩, ?_, ?_, hr.epoch⟩
    · intro m hm'
      simp at hm'
    · constructor
      · exact fun hhas => absurd (hr.both.mp hhas) hno
      · exact fun hhas => absurd rfl hhas.1
    · intro hbuilding
      exact ⟨(hr.waits hbuilding).1, (hr.waits hbuilding).2.1, fun p hp => hnone p hbuilding hp⟩
  | some m =>
    split_ifs with hepoch hdirty
    · have hno : ¬ (s.refreshCache C).hasSearch := fun hhas => hepoch hhas.2
      refine ⟨⟨hr.cache.current, hr.cache.past⟩, hr.flight.congr rfl rfl rfl rfl rfl, ⟨hr.installed.graph, ?_,
        hr.installed.graphPast, hr.installed.searchPast⟩, ?_, ?_, hr.epoch⟩
      · intro m' hm'
        simp at hm'
      · constructor
        · exact fun hhas => absurd (hr.both.mp hhas) hno
        · exact fun hhas => absurd rfl hhas.1
      · intro hbuilding
        exact ⟨(hr.waits hbuilding).1, (hr.waits hbuilding).2.1, fun p hp => hnone p hbuilding hp⟩
    · exact hr
    · have hhas : (s.refreshCache C).hasSearch := ⟨by rw [hm]; simp, not_not.mp hepoch⟩
      refine ⟨⟨hr.cache.current, hr.cache.past⟩, hr.flight.congr rfl rfl rfl rfl rfl, ⟨hr.installed.graph, ?_,
        hr.installed.graphPast, hr.installed.searchPast⟩, ?_, ?_, hr.epoch⟩
      · intro m' hm' _ f hf
        rw [← Option.some.inj hm', h.cache.cachedTree hf]
        exact (hr.installed.search m hm (not_not.mp hepoch) f hf).update fun p hp => hp
      · constructor
        · exact fun _ => ⟨by simp, hhas.2⟩
        · exact fun _ => hr.both.mpr hhas
      · intro hbuilding
        exact absurd (hr.both.mpr hhas) (hr.waits hbuilding).1

theorem IndexSound.search_eq (h : IndexSound C R s landed) {m : WikiSearch} {f : Folded}
    (hm : (s.refreshWikiSearch C).wikiSearch = some m) (hf : s.memory.fold C = .ok f) : m = f.tree := by
  have hr := h.refreshCache
  unfold IndexState.refreshWikiSearch at hm
  dsimp only at hm
  cases hold : (s.refreshCache C).wikiSearch with
  | none =>
    rw [hold] at hm
    simp at hm
  | some m' =>
    rw [hold] at hm
    split_ifs at hm with hepoch hdirty
    · have hempty : (s.refreshCache C).wikiSearchDirty = [] := by simpa using hdirty
      have hlags := hr.installed.search m hm (not_not.mp hepoch) f hf
      rw [hempty] at hlags
      exact ext_get? fun p => hlags p (by simp)
    · rw [← Option.some.inj hm, h.cache.cachedTree hf]
      have hlags := (hr.installed.search m' hold (not_not.mp hepoch) f hf).update fun p hp => hp
      exact ext_get? fun p => hlags p (by simp)

theorem IndexSound.rebase (h : IndexSound C R s landed) (hidle : s.wikiIndexBuilding = none)
    (landed' : List String) : IndexSound C R s landed' := by
  refine ⟨h.cache, ?_, h.installed, h.both, ?_, h.epoch⟩
  · cases h.flight with
    | idle hb ht hr hs => exact .idle hb ht hr hs
    | running epoch tree hb | done epoch hb => simpa using hidle.symm.trans hb
  · intro hbuilding
    exact absurd (hidle.symm.trans hbuilding) (by simp)

theorem IndexSound.buildNow (h : IndexSound C R s []) (hidle : s.wikiIndexBuilding = none) :
    IndexSound C R (s.buildWikiIndexesNow C R) [] := by
  have hr := h.refreshCache
  unfold IndexState.buildWikiIndexesNow
  dsimp only
  rw [hr.cache.wikiTree]
  cases hfold : (s.refreshCache C).memory.fold C with
  | error e => exact hr
  | ok f =>
    dsimp only [Except.map]
    refine ⟨⟨hr.cache.current, hr.cache.past⟩, hr.flight.congr rfl rfl rfl rfl rfl,
      ⟨?_, ?_, le_refl _, le_refl _⟩, ?_, ?_, hr.epoch⟩
    · intro g hg _ f' hf'
      cases hfold.symm.trans hf'
      rw [← Option.some.inj hg]
      exact WikiGraph.build_lags _
    · intro m hm _ f' hf'
      cases hfold.symm.trans hf'
      rw [← Option.some.inj hm]
      exact searchLags_build _
    · exact ⟨fun _ => ⟨by simp, rfl⟩, fun _ => ⟨by simp, rfl⟩⟩
    · intro hbuilding
      simpa using hidle.symm.trans hbuilding

/-- What has landed behind the build under way once a read or a projection may have started
one. -/
def IndexState.landedAt (s : IndexState) (landed : List String) : List String :=
  if s.wikiIndexBuilding.isNone then [] else landed

theorem IndexSound.at (h : IndexSound C R s landed) : IndexSound C R s (s.landedAt landed) := by
  unfold IndexState.landedAt
  split_ifs with hidle
  · exact h.rebase (isNone_iff_eq_none.mp hidle) []
  · exact h

theorem IndexSound.spawn (h : IndexSound C R s landed) (hno : ¬ s.hasGraph) (actor : Bool) :
    IndexSound C R (s.spawnWikiIndexBuild C R actor) (s.landedAt landed) := by
  have hat := h.at
  unfold IndexState.landedAt at hat ⊢
  unfold IndexState.spawnWikiIndexBuild
  cases hbuilding : s.wikiIndexBuilding with
  | some epoch =>
    rwa [hbuilding] at hat
  | none =>
    rw [hbuilding] at hat
    have hidle : IndexSound C R s [] := hat
    have hr := hidle.refreshCache
    simp only [isSome_none, Bool.false_eq_true, if_false, isNone_none, if_true]
    split_ifs with hactor
    · exact hidle.buildNow hbuilding
    · rw [hr.cache.wikiTree]
      cases hfold : (s.refreshCache C).memory.fold C with
      | error e => exact hr
      | ok f =>
        obtain ⟨htasks, hready, hstaging⟩ : s.tasks = [] ∧ s.ready = [] ∧ s.staging = none := by
          cases hidle.flight with
          | idle hb ht hrd hs => exact ⟨ht, hrd, hs⟩
          | running epoch tree hb | done epoch hb => simpa using hbuilding.symm.trans hb
        refine ⟨⟨hr.cache.current, hr.cache.past⟩, ?_, ⟨hr.installed.graph, hr.installed.search,
          hr.installed.graphPast, hr.installed.searchPast⟩, hr.both, ?_, hr.epoch⟩
        · refine .running s.memory.appliedEpoch f.tree rfl ?_ hready hstaging (le_refl _) ?_
          · change s.tasks ++ [(s.memory.appliedEpoch, f.tree)] = _
            rw [htasks]
            rfl
          · intro _ f' hf' p _
            cases hfold.symm.trans hf'
            rfl
        · intro _
          exact ⟨hno, fun p hp => absurd hp (by simp), fun p hp => absurd hp (by simp)⟩

theorem IndexSound.apply (h : IndexSound C R s landed) {m : Memory} {e : Entry}
    (hentries : m.appliedEntries = s.memory.appliedEntries ++ [e]) (hbase : m.wikiBase = s.memory.wikiBase)
    (hepoch : m.appliedEpoch = s.memory.appliedEpoch) (hplain : isBaseEntry e = false)
    (hcurrent : ∀ c, Current C s.memory c → Current C m c)
    (hnamed : ∀ files, wikiPatchFiles e.2 = some files → ∀ f ∈ files, f.Named)
    (hcalm : wikiPayloadPaths e.2 = none → s.wikiIndexBuilding = some s.memory.appliedEpoch → landed = []) :
    IndexSound C R (s.apply m e.2) (landed ++ (wikiPayloadPaths e.2).getD []) := by
  have hframe : ∀ f', m.fold C = .ok f' → ∃ f, s.memory.fold C = .ok f ∧
      ∀ p, p ∉ (wikiPayloadPaths e.2).getD [] → f'.tree.get? p = f.tree.get? p := by
    intro f' hf'
    obtain ⟨f, hf, rfl⟩ := fold_entries hentries hbase hplain hf'
    exact ⟨f, hf, fun p hp => foldWikiStep_frame f hnamed hp⟩
  have hcache : ∀ c, s.wikiCache = some c → Current C m c := fun c hc => hcurrent c (h.cache.current c hc)
  have hpast : ∀ c, s.wikiCache = some c → c.epoch ≤ m.appliedEpoch := by
    rw [hepoch]
    exact h.cache.past
  have hsnap : ∀ tree, Snapshot C s landed tree → ∀ f', m.fold C = .ok f' →
      ∀ p, p ∉ landed ++ (wikiPayloadPaths e.2).getD [] → tree.get? p = f'.tree.get? p := by
    intro tree hs f' hf' p hp
    obtain ⟨f, hf, hsame⟩ := hframe f' hf'
    rw [mem_append, not_or] at hp
    rw [hsame p hp.2]
    exact hs f hf p hp.1
  unfold IndexState.apply IndexState.noteWikiChange
  cases hpaths : wikiPayloadPaths e.2 with
  | none =>
    rw [hpaths] at hsnap
    refine ⟨⟨hcache, hpast⟩, h.flight.moved rfl rfl rfl rfl (le_of_eq hepoch.symm) fun _ => hsnap,
      ⟨?_, ?_, ?_, ?_⟩, ?_, ?_, ?_⟩
    · exact fun g hg => absurd hg (by simp)
    · exact fun g hg => absurd hg (by simp)
    · exact h.installed.graphPast.trans (le_of_eq hepoch.symm)
    · exact h.installed.searchPast.trans (le_of_eq hepoch.symm)
    · exact ⟨fun hhas => absurd rfl hhas.1, fun hhas => absurd rfl hhas.1⟩
    · intro hbuilding
      have hnone := hcalm hpaths (hbuilding.trans (congrArg some hepoch))
      rw [hnone]
      exact ⟨fun hhas => absurd rfl hhas.1, fun p hp => hp, fun p hp => hp⟩
    · exact lt_of_eq_of_lt hepoch h.epoch
  | some paths =>
    rw [hpaths] at hsnap hframe
    refine ⟨⟨hcache, hpast⟩, h.flight.moved rfl rfl rfl rfl (le_of_eq hepoch.symm) fun _ => hsnap,
      ⟨?_, ?_, ?_, ?_⟩, ?_, ?_, ?_⟩
    · intro g hg hg' f' hf'
      obtain ⟨f, hf, hsame⟩ := hframe f' hf'
      refine (h.installed.graph g hg (hg'.trans hepoch) f hf).moved (fun p hp => mem_append_left _ hp) ?_
      exact fun p hp => hsame p fun hmem => hp (mem_append_right _ hmem)
    · intro g hg hg' f' hf'
      obtain ⟨f, hf, hsame⟩ := hframe f' hf'
      refine (h.installed.search g hg (hg'.trans hepoch) f hf).moved (fun p hp => mem_append_left _ hp) ?_
      exact fun p hp => hsame p fun hmem => hp (mem_append_right _ hmem)
    · exact h.installed.graphPast.trans (le_of_eq hepoch.symm)
    · exact h.installed.searchPast.trans (le_of_eq hepoch.symm)
    · have hboth := h.both
      unfold IndexState.hasGraph IndexState.hasSearch at hboth ⊢
      rw [hepoch]
      exact hboth
    · intro hbuilding
      obtain ⟨hno, hgraph, hsearch⟩ := h.waits (hbuilding.trans (congrArg some hepoch))
      refine ⟨fun hhas => hno ⟨hhas.1, hhas.2.trans hepoch⟩, ?_, ?_⟩
      · intro p hp
        exact mem_append.mpr ((mem_append.mp hp).imp_left (hgraph p))
      · intro p hp
        exact mem_append.mpr ((mem_append.mp hp).imp_left (hsearch p))
    · exact lt_of_eq_of_lt hepoch h.epoch

theorem IndexSound.bumped (h : IndexSound C R s landed) {m : Memory} (hm : m.appliedEpoch = s.memory.appliedEpoch)
    (hroom : s.memory.appliedEpoch + 1 < 2 ^ 64) :
    IndexSound C R { s with memory := m.bumpAppliedEpoch } landed ∧
      ¬ ({ s with memory := m.bumpAppliedEpoch } : IndexState).hasGraph := by
  have hnext : m.bumpAppliedEpoch.appliedEpoch = s.memory.appliedEpoch + 1 := by
    unfold Memory.bumpAppliedEpoch
    dsimp only
    rw [hm, Nat.mod_eq_of_lt hroom]
  have hold : ∀ n, n ≤ s.memory.appliedEpoch → n ≠ m.bumpAppliedEpoch.appliedEpoch := by
    intro n hn heq
    exact absurd (heq.trans hnext) (Nat.ne_of_lt (Nat.lt_succ_of_le hn))
  have hle : s.memory.appliedEpoch ≤ m.bumpAppliedEpoch.appliedEpoch := by
    rw [hnext]
    exact Nat.le_succ _
  have hnograph : ¬ ({ s with memory := m.bumpAppliedEpoch } : IndexState).hasGraph :=
    fun hhas => hold _ h.installed.graphPast hhas.2
  refine ⟨⟨⟨?_, ?_⟩, ?_, ⟨?_, ?_, ?_, ?_⟩, ?_, ?_, ?_⟩, hnograph⟩
  · exact fun c hc hepoch => absurd hepoch (hold _ (h.cache.past c hc))
  · exact fun c hc => (h.cache.past c hc).trans hle
  · exact h.flight.moved rfl rfl rfl rfl hle fun heq => absurd heq.symm (hold _ (le_refl _))
  · exact fun g hg hepoch => absurd hepoch (hold _ h.installed.graphPast)
  · exact fun g hg hepoch => absurd hepoch (hold _ h.installed.searchPast)
  · exact h.installed.graphPast.trans hle
  · exact h.installed.searchPast.trans hle
  · exact ⟨fun hhas => absurd hhas hnograph, fun hhas => absurd hhas.2 (hold _ h.installed.searchPast)⟩
  · intro hbuilding
    cases h.flight with
    | idle hb => exact absurd (hbuilding.symm.trans hb) (by simp)
    | running epoch tree hb ht hr hs hpast =>
      exact absurd (Option.some.inj (hb.symm.trans hbuilding)) (hold _ hpast)
    | done epoch hb ht hr hpast => exact absurd (Option.some.inj (hb.symm.trans hbuilding)) (hold _ hpast)
  · exact lt_of_eq_of_lt hnext hroom

theorem refreshWikiGraph_building : (s.refreshWikiGraph C R).wikiIndexBuilding = s.wikiIndexBuilding := by
  unfold IndexState.refreshWikiGraph
  dsimp only
  split
  · rfl
  · split_ifs <;> rfl

theorem refreshWikiSearch_building : (s.refreshWikiSearch C).wikiIndexBuilding = s.wikiIndexBuilding := by
  unfold IndexState.refreshWikiSearch
  dsimp only
  split
  · rfl
  · split_ifs <;> rfl

theorem IndexSound.graphRead (h : IndexSound C R s landed) (actor : Bool) :
    IndexSound C R (s.graphRead C R actor) (s.landedAt landed) := by
  have hg := h.refreshGraph.1
  have hat : s.landedAt landed = (s.refreshWikiGraph C R).landedAt landed := by
    unfold IndexState.landedAt
    rw [refreshWikiGraph_building]
  rw [hat]
  unfold IndexState.graphRead
  dsimp only
  split_ifs with hnone
  · exact hg.spawn (fun hhas => hhas.1 (isNone_iff_eq_none.mp hnone)) actor
  · exact hg.at

theorem IndexSound.searchRead (h : IndexSound C R s landed)
    (hcalm : s.wikiIndexBuilding = some s.memory.appliedEpoch → landed = []) (actor : Bool) :
    IndexSound C R (s.searchRead C R actor) (s.landedAt landed) := by
  have hm := h.refreshSearch hcalm
  have hat : s.landedAt landed = (s.refreshWikiSearch C).landedAt landed := by
    unfold IndexState.landedAt
    rw [refreshWikiSearch_building]
  rw [hat]
  unfold IndexState.searchRead
  dsimp only
  split_ifs with hnone
  · refine hm.spawn (fun hhas => ?_) actor
    exact (hm.both.mp hhas).1 (isNone_iff_eq_none.mp hnone)
  · exact hm.at

theorem IndexSound.arrive (h : IndexSound C R s landed) {epoch : Nat} {ready : List Nat}
    (hready : s.ready = epoch :: ready) :
    IndexSound C R (({ s with ready := ready }).netWikiIndexReady C R epoch) landed := by
  cases h.flight with
  | idle hb ht hr hs => simpa using hready.symm.trans hr
  | running epoch' tree hb ht hr hs => simpa using hready.symm.trans hr
  | done epoch' hbuilding htasks hr hpast hstaging =>
    obtain ⟨rfl, rfl⟩ := List.cons.inj (hready.symm.trans hr)
    unfold IndexState.netWikiIndexReady
    cases hbuilt : s.staging with
    | none =>
      refine ⟨⟨h.cache.current, h.cache.past⟩, .idle rfl htasks rfl rfl, ⟨h.installed.graph, h.installed.search,
        h.installed.graphPast, h.installed.searchPast⟩, h.both, ?_, h.epoch⟩
      exact fun hb => absurd hb (by simp)
    | some indexes =>
      dsimp only
      split_ifs with hepoch
      · refine ⟨⟨h.cache.current, h.cache.past⟩, .idle rfl htasks rfl rfl, ⟨h.installed.graph,
          h.installed.search, h.installed.graphPast, h.installed.searchPast⟩, h.both, ?_, h.epoch⟩
        exact fun hb => absurd hb (by simp)
      · have hsame : epoch = s.memory.appliedEpoch := not_not.mp hepoch
        obtain ⟨tree, rfl, hsnap⟩ := hstaging indexes hbuilt hsame
        obtain ⟨-, hgraph, hsearch⟩ := h.waits (hbuilding.trans (congrArg some hsame))
        have hinstalled : IndexSound C R { s with
            ready := [], wikiIndexBuilding := none, staging := none,
            wikiGraph := some (WikiGraph.build R tree), wikiGraphEpoch := epoch,
            wikiSearch := some (WikiSearch.build tree), wikiSearchEpoch := epoch } landed := by
          refine ⟨⟨h.cache.current, h.cache.past⟩, .idle rfl htasks rfl rfl, ⟨?_, ?_, hpast, hpast⟩, ?_, ?_,
            h.epoch⟩
          · intro g hg _ f hf
            rw [← Option.some.inj hg]
            refine (WikiGraph.build_lags tree).moved (fun p hp => absurd hp (by simp)) ?_
            exact fun p hp => (hsnap f hf p fun hmem => hp (hgraph p hmem)).symm
          · intro m hm _ f hf
            rw [← Option.some.inj hm]
            refine (searchLags_build tree).moved (fun p hp => absurd hp (by simp)) ?_
            exact fun p hp => (hsnap f hf p fun hmem => hp (hsearch p hmem)).symm
          · exact ⟨fun _ => ⟨by simp, hsame⟩, fun _ => ⟨by simp, hsame⟩⟩
          · exact fun hb => absurd hb (by simp)
        refine hinstalled.refreshGraph.1.refreshSearch fun hb => ?_
        rw [refreshWikiGraph_building] at hb
        simp at hb

theorem IndexSound.built (h : IndexSound C R s landed) {epoch : Nat} {tree : Tree} {tasks : List (Nat × Tree)}
    (htasks : s.tasks = (epoch, tree) :: tasks) (ok : Bool) :
    IndexSound C R { s with
      tasks := tasks
      ready := s.ready ++ [epoch]
      staging := if ok then some ⟨WikiGraph.build R tree, WikiSearch.build tree⟩ else s.staging } landed := by
  refine ⟨⟨h.cache.current, h.cache.past⟩, ?_, ⟨h.installed.graph, h.installed.search, h.installed.graphPast,
    h.installed.searchPast⟩, h.both, h.waits, h.epoch⟩
  cases h.flight with
  | idle hb ht hr hs => simpa using htasks.symm.trans ht
  | running epoch' tree' hb ht hr hs hpast hsnap =>
    obtain ⟨heq, rfl⟩ := List.cons.inj (htasks.symm.trans ht)
    cases heq
    refine .done epoch hb rfl (by rw [hr]; rfl) hpast ?_
    intro indexes hi hepoch
    refine ⟨tree, ?_, hsnap hepoch⟩
    split_ifs at hi
    · exact (Option.some.inj hi).symm
    · simpa using hs.symm.trans hi
  | done epoch' hb ht hr hpast hs => simpa using htasks.symm.trans ht

end

section

variable {C : Crypto} {R : DocReader}

def landedAfter (s : IndexState) (landed : List String) : IndexEvent → List String
  | .applied e => landed ++ (wikiPayloadPaths e.2).getD []
  | .legacyApplied e => landed ++ (wikiPayloadPaths e.2).getD []
  | .setBlob => landed
  | .reproject _ _ _ _ _ => s.landedAt landed
  | .graphRead _ => s.landedAt landed
  | .searchRead _ => s.landedAt landed
  | .built _ => landed
  | .arrived => landed

def IndexState.Unawaited (s : IndexState) (landed : List String) : Prop :=
  s.wikiIndexBuilding = some s.memory.appliedEpoch → landed = []

/-- An entry whose sections name what they write, and which is a patch wherever a build
under way has been overtaken. -/
def CalmEntry (s : IndexState) (landed : List String) (payload : Value) : Prop :=
  (∀ files, wikiPatchFiles payload = some files → ∀ f ∈ files, f.Named) ∧
    (wikiPayloadPaths payload = none → s.Unawaited landed)

/-- The steps that lose nothing: no search read while applied paths wait for a build, no
entry that is no patch then, and the epoch does not wrap. -/
def Calm (s : IndexState) (landed : List String) : IndexEvent → Prop
  | .applied e => CalmEntry s landed e.2
  | .legacyApplied e => CalmEntry s landed e.2
  | .setBlob => s.memory.appliedEpoch + 1 < 2 ^ 64
  | .reproject _ _ _ _ _ => s.memory.appliedEpoch + 1 < 2 ^ 64
  | .graphRead _ => True
  | .searchRead _ => s.Unawaited landed
  | .built _ => True
  | .arrived => True

def CalmRun (C : Crypto) (R : DocReader) (s : IndexState) (landed : List String) : List IndexEvent → Prop
  | [] => True
  | e :: events =>
    Calm s landed e ∧ ∀ next, s.step C R e = some next → CalmRun C R next (landedAfter s landed e) events

theorem opened_sound {m : Memory} (h : m.appliedEpoch < 2 ^ 64) : IndexSound C R (IndexState.opened m) [] := by
  refine ⟨⟨?_, ?_⟩, .idle rfl rfl rfl rfl, ⟨?_, ?_, Nat.zero_le _, Nat.zero_le _⟩, ?_, ?_, h⟩
  · exact fun c hc => absurd hc (by simp [IndexState.opened])
  · exact fun c hc => absurd hc (by simp [IndexState.opened])
  · exact fun g hg => absurd hg (by simp [IndexState.opened])
  · exact fun g hg => absurd hg (by simp [IndexState.opened])
  · exact ⟨fun hhas => absurd rfl hhas.1, fun hhas => absurd rfl hhas.1⟩
  · exact fun hb => absurd hb (by simp [IndexState.opened])

theorem IndexSound.step {s next : IndexState} {landed : List String} {e : IndexEvent} (h : IndexSound C R s landed)
    (hcalm : Calm s landed e) (hstep : s.step C R e = some next) :
    IndexSound C R next (landedAfter s landed e) := by
  unfold IndexState.step at hstep
  cases e with
  | applied e =>
    dsimp only at hstep
    split_ifs at hstep with hbase
    obtain rfl := Option.some.inj hstep
    have hentries : ({ s.memory with chain := s.memory.chain ++ [e] } : Memory).appliedEntries =
        s.memory.appliedEntries ++ [e] := by
      unfold Memory.appliedEntries
      rw [append_assoc]
    exact (h.apply hentries rfl rfl (by simpa using hbase) (fun c hc => hc.append e) hcalm.1 hcalm.2).refreshCache
  | legacyApplied e =>
    dsimp only at hstep
    split_ifs at hstep with hbase
    obtain rfl := Option.some.inj hstep
    rw [not_or] at hbase
    have hchain : s.memory.chain = [] := not_not.mp hbase.2
    have hentries : ({ s.memory with legacy := s.memory.legacy ++ [e] } : Memory).appliedEntries =
        s.memory.appliedEntries ++ [e] := by
      unfold Memory.appliedEntries
      rw [hchain]
      simp
    exact h.apply hentries rfl rfl (by simpa using hbase.1) (fun c hc => hc.appendLegacy e) hcalm.1 hcalm.2
  | setBlob =>
    obtain rfl := Option.some.inj hstep
    exact (h.bumped rfl hcalm).1
  | reproject legacy chain wikiBase kick actor =>
    obtain rfl := Option.some.inj hstep
    obtain ⟨hb, hno⟩ := @IndexSound.bumped C R s landed h ⟨legacy, chain, wikiBase, s.memory.appliedEpoch⟩ rfl hcalm
    unfold landedAfter
    split_ifs
    · exact hb.refreshCache.spawn hno actor
    · exact hb.refreshCache.at
  | graphRead actor =>
    obtain rfl := Option.some.inj hstep
    exact h.graphRead actor
  | searchRead actor =>
    obtain rfl := Option.some.inj hstep
    exact h.searchRead hcalm actor
  | built ok =>
    cases htasks : s.tasks with
    | nil =>
      rw [htasks] at hstep
      exact absurd hstep (by simp)
    | cons task tasks =>
      rw [htasks] at hstep
      obtain rfl := Option.some.inj hstep
      exact h.built htasks ok
  | arrived =>
    dsimp only at hstep
    cases hready : s.ready with
    | nil =>
      rw [hready] at hstep
      exact absurd hstep (by simp)
    | cons epoch ready =>
      rw [hready] at hstep
      cases hstep
      exact h.arrive hready

theorem IndexSound.run {s last : IndexState} {landed : List String} {events : List IndexEvent}
    (h : IndexSound C R s landed) (hcalm : CalmRun C R s landed events) (hrun : s.run C R events = some last) :
    ∃ landed', IndexSound C R last landed' := by
  induction events generalizing s landed with
  | nil =>
    cases hrun
    exact ⟨landed, h⟩
  | cons e events ih =>
    obtain ⟨next, hstep, hrest⟩ := bind_eq_some_iff.mp hrun
    exact ih (h.step hcalm.1 hstep) (hcalm.2 next hstep) hrest

/-- In every run of calm steps, an answer of the link graph is from the build of the current
tree, and one of the search index is from the current tree. -/
theorem wiki_indexes_describe_base {m : Memory} (hepoch : m.appliedEpoch < 2 ^ 64) {events : List IndexEvent}
    (hcalm : CalmRun C R (IndexState.opened m) [] events) {s : IndexState}
    (hrun : (IndexState.opened m).run C R events = some s) {f : Folded} (hf : s.memory.fold C = .ok f) :
    (∀ g, (s.refreshWikiGraph C R).wikiGraph = some g → g = WikiGraph.build R f.tree) ∧
      (∀ i, (s.refreshWikiSearch C).wikiSearch = some i → i = f.tree) := by
  obtain ⟨landed, hs⟩ := (opened_sound hepoch).run hcalm hrun
  exact ⟨fun g hg => hs.refreshGraph.2 g f hg hf, fun i hi => hs.search_eq hi hf⟩

end

section

def plainReader : DocReader := ⟨fun _ => ⟨none, none, none, []⟩, fun _ => [], fun _ => [], fun _ => [], fun _ => []⟩

/-- A patch that adds the document `a`. -/
def landing : Entry :=
  (some 1, .obj [("op", .str "wiki_patch"),
    ("value", .str "diff --git a/a b/a\nnew file mode 100644\n@@ -0,0 +1 @@\n+a\n")])

def landsBehindBuild : List IndexEvent := [.searchRead true, .applied landing, .graphRead true, .built true, .arrived]

theorem landing_named : ∃ files, wikiPatchFiles landing.2 = some files ∧ ∀ f ∈ files, f.Named := by
  have heval : (wikiPatchFiles landing.2).map (fun files => files.all fun f => decide f.Named) = some true := by
    decide +kernel
  obtain ⟨files, hfiles, hall⟩ := map_eq_some_iff.mp heval
  exact ⟨files, hfiles, fun f hf => by simpa using all_eq_true.mp hall f hf⟩

theorem landsBehindBuild_calm :
    CalmRun .toy plainReader (IndexState.opened ⟨[], [], none, 0⟩) [] landsBehindBuild := by
  obtain ⟨files, hfiles, hnamed⟩ := landing_named
  have hpaths : wikiPayloadPaths landing.2 = some (touchedPaths files) := by
    unfold wikiPayloadPaths
    rw [hfiles]
    rfl
  refine ⟨fun hb => absurd hb (by simp [IndexState.opened]), fun _ _ => ⟨⟨?_, ?_⟩, fun _ _ => ⟨trivial, fun _ _ =>
    ⟨trivial, fun _ _ => ⟨trivial, fun _ _ => trivial⟩⟩⟩⟩⟩
  · intro files' hfiles'
    cases hfiles.symm.trans hfiles'
    exact hnamed
  · exact fun hnone => absurd (hpaths.symm.trans hnone) (by simp)

theorem landsBehindBuild_run : ((IndexState.opened ⟨[], [], none, 0⟩).run .toy plainReader landsBehindBuild).map
    (fun s => ((s.refreshWikiGraph .toy plainReader).wikiGraph.isSome, (s.refreshWikiSearch .toy).wikiSearch.isSome,
      (s.memory.fold .toy).toOption.map fun f => f.tree.get? "a")) = some (true, true, some (some "a\n")) := by
  decide +kernel

theorem wiki_indexes_describe_landed :
    ∃ s f, (IndexState.opened ⟨[], [], none, 0⟩).run .toy plainReader landsBehindBuild = some s ∧
      s.memory.fold .toy = .ok f ∧ f.tree.get? "a" = some "a\n" ∧
      (s.refreshWikiGraph .toy plainReader).wikiGraph = some (WikiGraph.build plainReader f.tree) ∧
      (s.refreshWikiSearch .toy).wikiSearch = some f.tree := by
  obtain ⟨s, hrun, hs⟩ := Option.map_eq_some_iff.mp landsBehindBuild_run
  obtain ⟨hgraph, hrest⟩ := Prod.mk.inj hs
  obtain ⟨hsearch, hfold⟩ := Prod.mk.inj hrest
  obtain ⟨f, hf, hget⟩ := Option.map_eq_some_iff.mp hfold
  have hok : s.memory.fold .toy = .ok f := by
    cases hres : s.memory.fold .toy with
    | error e =>
      rw [hres] at hf
      exact absurd hf (by simp [Except.toOption])
    | ok f' =>
      rw [hres] at hf
      rw [Option.some.inj hf]
  obtain ⟨g, hg⟩ := Option.isSome_iff_exists.mp hgraph
  obtain ⟨i, hi⟩ := Option.isSome_iff_exists.mp hsearch
  obtain ⟨hgs, his⟩ := wiki_indexes_describe_base (by decide) landsBehindBuild_calm hrun hok
  exact ⟨s, f, hrun, hok, hget, by rw [hg, hgs g hg], by rw [hi, his i hi]⟩

/-- A search during the build takes the dirty paths with it: the installed index never
hears of the document. -/
def searchesDuringBuild : List IndexEvent :=
  [.searchRead true, .applied landing, .searchRead true, .built true, .arrived]

theorem searchesDuringBuild_run :
    ((IndexState.opened ⟨[], [], none, 0⟩).run .toy plainReader searchesDuringBuild).map
      (fun s => ((s.refreshWikiSearch .toy).wikiSearch.map fun i => i.get? "a",
        (s.memory.fold .toy).toOption.map fun f => f.tree.get? "a")) =
      some (some none, some (some "a\n")) := by
  decide +kernel

theorem search_index_misses_landed :
    ¬ ∀ events s f, (IndexState.opened ⟨[], [], none, 0⟩).run .toy plainReader events = some s →
      s.memory.fold .toy = .ok f →
      (∀ g, (s.refreshWikiGraph .toy plainReader).wikiGraph = some g → g = WikiGraph.build plainReader f.tree) ∧
        (∀ i, (s.refreshWikiSearch .toy).wikiSearch = some i → i = f.tree) := by
  intro h
  obtain ⟨s, hrun, hs⟩ := Option.map_eq_some_iff.mp searchesDuringBuild_run
  obtain ⟨hsearch, hfold⟩ := Prod.mk.inj hs
  obtain ⟨i, hi, hnone⟩ := Option.map_eq_some_iff.mp hsearch
  cases hres : s.memory.fold .toy with
  | error e =>
    rw [hres] at hfold
    exact absurd hfold (by simp [Except.toOption])
  | ok f =>
    rw [hres] at hfold
    have hget : f.tree.get? "a" = some "a\n" := Option.some.inj hfold
    have heq := (h _ s f hrun hres).2 i hi
    rw [heq, hget] at hnone
    exact absurd hnone (by simp)

end

end Molt.Wiki
