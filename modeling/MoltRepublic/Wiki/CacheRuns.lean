import Mathlib
import MoltRepublic.Wiki.Base
import MoltRepublic.Wiki.Holder

/-! The cached fold over a holder's life: appends to either log, re-projections, bases lost and
adopted, with refreshes and reads anywhere in between. -/

namespace Molt.Wiki
open Molt.Core Text Json Check Chain Framing List SortedMap Option

abbrev HeldTree := {tree : Tree // Framed tree}

/-- `wiki_base_committed`: the first commitment of the fold order. -/
def Memory.wikiBaseCommitted (m : Memory) : Option String :=
  m.appliedEntries.findSome? fun e => (baseCommitmentOf e.2).map Prod.fst

/-- `adopt_wiki_base`: the bytes take the place of the base if they answer the commitment. -/
def Memory.adoptWikiBase (C : Crypto) (m : Memory) (bytes : List UInt8) : Memory :=
  { m with wikiBase := m.wikiBaseCommitted.bind fun want =>
      if C.contentHash bytes = want then (wikiBaseFromCanonicalBytes bytes).toOption else none }

/-- `wiki_base`: the cache answers while it describes the logs, else a fresh fold does. -/
def Holder.wikiBase (C : Crypto) (h : Holder) : Except BasePending (Tree × Nat) :=
  let current := h.wikiCache.filter fun c => c.epoch == h.memory.appliedEpoch &&
    (c.legacy == h.memory.legacy.length && c.chain == h.memory.chain.length) && wikiCacheBaseHeld h.memory c
  match current with
  | some c => .ok (c.tree, c.rev)
  | none => (foldWikiFromBase C h.memory).map fun c => (c.tree, c.rev)

inductive CacheStep where
  | append (e : Entry)
  | appendLegacy (e : Entry)
  /-- The logs and the base are projected anew. -/
  | reproject (legacy chain : List Entry) (wikiBase : Option HeldTree)
  | loseBase
  | adoptBase (bytes : List UInt8)
  | refresh
  | register (id : UInt64) (surface : Surface) (payload : Value) (by_ : String)
  | settle (id : UInt64) (applied : Bool)
  | lose (id : UInt64)
  | forgetWikiStamps

def Holder.opened (legacy chain : List Entry) (epoch : Nat) (cards : SortedMap Nat Card) (memoryOn : Bool) : Holder :=
  ⟨⟨legacy, chain, none, epoch⟩, cards, none, memoryOn⟩

def Holder.next (C : Crypto) (h : Holder) : CacheStep → Holder
  | .append e => { h with memory := { h.memory with chain := h.memory.chain ++ [e] } }
  | .appendLegacy e => { h with memory := { h.memory with legacy := h.memory.legacy ++ [e] } }
  | .reproject legacy chain wikiBase => { h with
      memory := (⟨legacy, chain, wikiBase.map Subtype.val, h.memory.appliedEpoch⟩ : Memory).bumpAppliedEpoch }
  | .loseBase => { h with memory := { h.memory with wikiBase := none } }
  | .adoptBase bytes => { h with memory := h.memory.adoptWikiBase C bytes }
  | .refresh => h.refresh C
  | .register id surface payload by_ => h.register id surface payload by_
  | .settle id applied => h.settle id applied
  | .lose id => h.lose id
  | .forgetWikiStamps => h.forgetWikiStamps

def Holder.life (C : Crypto) (h : Holder) (steps : List CacheStep) : Holder := steps.foldl (Holder.next C) h

def CacheStep.behind (n : Nat) : CacheStep → Nat
  | .reproject .. => n + 1
  | .refresh => 0
  | _ => n

def Timely : Nat → List CacheStep → Prop
  | n, [] => n < 2 ^ 64
  | n, step :: rest => n < 2 ^ 64 ∧ Timely (step.behind n) rest

def CacheStep.hashed : CacheStep → List (List UInt8)
  | .reproject _ _ (some tree) => [wikiBaseCanonicalBytes tree.1]
  | .adoptBase bytes => bytes :: ((wikiBaseFromCanonicalBytes bytes).toOption.map wikiBaseCanonicalBytes).toList
  | _ => []

def Produced (C : Crypto) (held : Option Tree) (log : List Entry) (id : UInt64) (rev : Nat) : Prop :=
  ∃ before e after f files tree, log = before ++ e :: after ∧ e.1 = some id ∧
    before.foldlM (foldWikiEntry C held) {} = .ok f ∧ wikiPatchFiles e.2 = some files ∧
    applyPatch f.tree files = .ok tree ∧ rev = min (f.rev + 1) (2 ^ 64 - 1)

variable {C : Crypto}

theorem foldWikiStep_base (f : Folded) (e : Entry) : (foldWikiStep f e).base = f.base :=
  (foldl_foldWikiStep_cut [e] f).1

variable {held : Option Tree}

theorem foldWikiEntry_cases {f g : Folded} {e : Entry} (h : foldWikiEntry C held f e = .ok g) :
    (isBaseEntry e = false ∧ g = foldWikiStep f e) ∨
      ∃ want size tree, baseCommitmentOf e.2 = some (want, size) ∧ held = some tree ∧
        (wikiCommitment C tree).1 = want ∧ g.base = some want ∧ g.history = [] := by
  unfold foldWikiEntry at h
  cases hbase : baseCommitmentOf e.2 with
  | none =>
    rw [hbase] at h
    exact .inl ⟨by unfold isBaseEntry; rw [hbase]; rfl, (Except.ok.inj h).symm⟩
  | some b =>
    obtain ⟨want, size⟩ := b
    rw [hbase] at h
    dsimp only at h
    split at h
    · cases h
    · rename_i tree htree
      obtain ⟨hheld, hwant⟩ := filter_eq_some_iff.mp htree
      cases h
      exact .inr ⟨want, size, tree, rfl, hheld, by simpa using hwant, rfl, rfl⟩

variable {l : List Entry}

theorem fold_commits {f g : Folded} (h : l.foldlM (foldWikiEntry C held) f = .ok g) :
    ∀ e ∈ l, ∀ b, baseCommitmentOf e.2 = some b →
      ∃ tree, held = some tree ∧ (wikiCommitment C tree).1 = b.1 := by
  induction l generalizing f with
  | nil => nofun
  | cons e l ih =>
    obtain ⟨f', hone, hrest⟩ := foldlM_cons_eq_ok.mp h
    intro d hd b hb
    rcases mem_cons.mp hd with rfl | hd
    · rcases foldWikiEntry_cases hone with ⟨hplain, -⟩ | ⟨want, size, tree, hcommit, hheld, hwant, -⟩
      · unfold isBaseEntry at hplain
        rw [hb] at hplain
        cases hplain
      · cases hcommit.symm.trans hb
        exact ⟨tree, hheld, hwant⟩
    · exact ih hrest d hd b hb

theorem fold_base {f g : Folded} (h : l.foldlM (foldWikiEntry C held) f = .ok g) :
    (g.base = none → ∀ e ∈ l, isBaseEntry e = false) ∧ (f.base.isSome → g.base.isSome) ∧
      ((∀ e ∈ l, isBaseEntry e = false) → g.base = f.base) := by
  induction l generalizing f with
  | nil =>
    obtain rfl := foldlM_nil_eq_ok.mp h
    exact ⟨fun _ => nofun, id, fun _ => rfl⟩
  | cons e l ih =>
    obtain ⟨f', hone, hrest⟩ := foldlM_cons_eq_ok.mp h
    obtain ⟨hnone, hsome, hplain⟩ := ih hrest
    rcases foldWikiEntry_cases hone with ⟨hflat, rfl⟩ | ⟨want, size, tree, hcommit, -, -, hbase, -⟩
    · rw [foldWikiStep_base] at hsome hplain
      refine ⟨fun hg d hd => ?_, hsome, fun hall => hplain fun d hd => hall d (.tail _ hd)⟩
      rcases mem_cons.mp hd with rfl | hd
      · exact hflat
      · exact hnone hg d hd
    · have hset : g.base.isSome := hsome (by rw [hbase]; rfl)
      refine ⟨fun hg => ?_, fun _ => hset, fun hall => ?_⟩
      · rw [hg] at hset
        cases hset
      · have hflat := hall e mem_cons_self
        unfold isBaseEntry at hflat
        rw [hcommit] at hflat
        cases hflat

theorem fold_held {held' : Option Tree} (h : ∀ e ∈ l, isBaseEntry e = false) (f : Folded) :
    l.foldlM (foldWikiEntry C held') f = l.foldlM (foldWikiEntry C held) f :=
  (foldlM_plain h f).trans (foldlM_plain h f).symm

theorem history_produced {g : Folded} (h : l.foldlM (foldWikiEntry C held) {} = .ok g) :
    ∀ s ∈ wikiStampsOf g, Produced C held l s.1 s.2 := by
  suffices hall : ∀ c ∈ g.history, ∀ id, c.proposal = some id → Produced C held l id c.rev by
    intro s hs
    obtain ⟨c, hc, heq⟩ := mem_filterMap.mp hs
    obtain ⟨id, hid, rfl⟩ := map_eq_some_iff.mp heq
    exact hall c hc id hid
  induction l using List.reverseRecOn generalizing g with
  | nil =>
    obtain rfl := foldlM_nil_eq_ok.mp h
    nofun
  | append_singleton l e ih =>
    obtain ⟨f, hbefore, hone⟩ := foldlM_concat_eq_ok.mp h
    have hlater : ∀ c ∈ f.history, ∀ id, c.proposal = some id → Produced C held (l ++ [e]) id c.rev := by
      intro c hc id hid
      obtain ⟨before, d, after, f', files, tree, rfl, hrest⟩ := ih hbefore c hc id hid
      exact ⟨before, d, after ++ [e], f', files, tree, by rw [append_assoc]; rfl, hrest⟩
    rcases foldWikiEntry_cases hone with ⟨-, rfl⟩ | ⟨_, _, _, -, -, -, -, hhistory⟩
    · unfold foldWikiStep
      cases hfiles : wikiPatchFiles e.2 with
      | none => exact hlater
      | some files =>
        dsimp only
        cases happly : applyPatch f.tree files with
        | error err => exact hlater
        | ok tree =>
          intro c hc id hid
          rcases mem_append.mp hc with hc | hc
          · exact hlater c hc id hid
          · obtain rfl := mem_singleton.mp hc
            exact ⟨l, e, [], f, files, tree, rfl, hid, hbefore, hfiles, happly, rfl⟩
    · rw [hhistory]
      nofun

theorem Produced.append {id : UInt64} {rev : Nat} (h : Produced C held l id rev) (more : List Entry) :
    Produced C held (l ++ more) id rev := by
  obtain ⟨before, e, after, f, files, tree, rfl, hrest⟩ := h
  exact ⟨before, e, after ++ more, f, files, tree, by rw [append_assoc]; rfl, hrest⟩

section
variable {S : Set (List UInt8)}

def Told (S : Set (List UInt8)) (tree : Tree) : Prop := Framed tree ∧ wikiBaseCanonicalBytes tree ∈ S

def WikiCache.read (c : WikiCache) (m : Memory) : List Entry := m.legacy.take c.legacy ++ m.chain.take c.chain

def WikiCache.Ends (c : WikiCache) (m : Memory) : Prop := c.chain = 0 ∧ m.chain = [] ∨ c.legacy = m.legacy.length

structure ReadSoFar (C : Crypto) (S : Set (List UInt8)) (m : Memory) (c : WikiCache) : Prop where
  legacy : c.legacy ≤ m.legacy.length
  chain : c.chain ≤ m.chain.length
  fold : ∃ held : Option Tree, (c.read m).foldlM (foldWikiEntry C held) {} = .ok c.toFolded ∧
    (∀ tree, held = some tree → Told S tree) ∧
    (c.base.isSome → c.Ends m → m.wikiBase.isSome → m.wikiBase = held)

/-- A holder whose cache was left by the last refresh, `n` re-projections ago. -/
structure Cached (C : Crypto) (S : Set (List UInt8)) (n : Nat) (h : Holder) : Prop where
  epoch : h.memory.appliedEpoch < 2 ^ 64
  told : ∀ tree, h.memory.wikiBase = some tree → Told S tree
  cache : ∀ c, h.wikiCache = some c → c.epoch < 2 ^ 64 ∧ (c.epoch + n) % 2 ^ 64 = h.memory.appliedEpoch ∧
    (n = 0 → ReadSoFar C S h.memory c)

variable {n : Nat} {h h' : Holder} {m : Memory} {c : WikiCache}

theorem extends_ends (hext : m.extends c = true) : c.Ends m := by
  unfold Memory.extends at hext
  simp only [Bool.and_eq_true, Bool.or_eq_true, beq_iff_eq, decide_eq_true_eq] at hext
  rcases hext.1.2 with ⟨⟨hzero, hempty⟩, -⟩ | ⟨hall, -⟩
  · exact .inl ⟨hzero, eq_nil_of_length_eq_zero hempty⟩
  · exact .inr hall

theorem WikiCache.Ends.prefix (hends : c.Ends m) : c.read m <+: m.appliedEntries := by
  unfold read Memory.appliedEntries
  rcases hends with ⟨hzero, hempty⟩ | hall
  · rw [hzero, hempty, take_zero, append_nil, append_nil]
    exact take_prefix _ _
  · rw [hall, take_length]
    exact (prefix_append_right_inj _).mpr ( take_prefix _ _)

theorem Cached.current (hh : Cached C S n h) (hn : n < 2 ^ 64) (hc : h.wikiCache = some c)
    (hext : h.memory.extends c = true) : Current C h.memory c := by
  intro hepoch hheld
  obtain ⟨hlt, hbumped, hfits⟩ := hh.cache c hc
  have hzero : n = 0 := by
    omega
  obtain ⟨hlegacy, hchain, held, hfold, -, hsame⟩ := hfits hzero
  refine ⟨hlegacy, hchain, ?_⟩
  show (c.read h.memory).foldlM (foldWikiEntry C h.memory.wikiBase) {} = .ok c.toFolded
  cases hbase : c.base with
  | none => rw [fold_held ((fold_base hfold).1 hbase), hfold]
  | some want =>
    unfold wikiCacheBaseHeld at hheld
    rw [hbase] at hheld
    rw [hsame (by rw [hbase]; rfl) (extends_ends hext) hheld, hfold]

theorem refreshWikiCache_filter (C : Crypto) (m : Memory) (cache : Option WikiCache) :
    refreshWikiCache C m (cache.filter m.extends) = refreshWikiCache C m cache := by
  have htwice : (cache.filter m.extends).filter m.extends = cache.filter m.extends := by
    simp
  unfold refreshWikiCache
  rw [htwice]

theorem Cached.extended (hh : Cached C S n h) (hn : n < 2 ^ 64) :
    ∀ c, h.wikiCache.filter h.memory.extends = some c → Current C h.memory c := by
  intro c hc
  obtain ⟨hcache, hext⟩ := filter_eq_some_iff.mp hc
  exact hh.current hn hcache hext

theorem Cached.stamps (hh : Cached C S n h) (hn : n < 2 ^ 64) :
    ∀ s ∈ (refreshWikiCache C h.memory h.wikiCache).2,
      Produced C h.memory.wikiBase h.memory.appliedEntries s.1 s.2 := by
  have hfresh : ∀ s ∈ (((foldWikiFromBase C h.memory).toOption).map fun c => wikiStampsOf c.toFolded).getD [],
      Produced C h.memory.wikiBase h.memory.appliedEntries s.1 s.2 := by
    unfold foldWikiFromBase
    cases hfold : h.memory.fold C with
    | error e => nofun
    | ok f => exact history_produced hfold
  unfold refreshWikiCache
  cases hfilter : h.wikiCache.filter h.memory.extends with
  | none => exact hfresh
  | some c =>
    obtain ⟨hcache, hext⟩ := filter_eq_some_iff.mp hfilter
    have hcond := hext
    unfold Memory.extends at hcond
    simp only [Bool.and_eq_true, beq_iff_eq] at hcond
    obtain ⟨-, -, hread⟩ := hh.current hn hcache hext hcond.1.1 hcond.2
    -- the extension is the fold of the log up to the first cut of the tail
    have hextended : (h.memory.legacy.take c.legacy ++ h.memory.chain.take c.chain ++
        (h.memory.tail c).takeWhile fun e => !isBaseEntry e).foldlM (foldWikiEntry C h.memory.wikiBase) {} =
        .ok (extendFold c.toFolded (h.memory.tail c)) := by
      rw [foldlM_append, hread]
      exact foldlM_plain (fun e he => by simpa using mem_takeWhile_imp he) _
    have hextension : ∀ s ∈ wikiStampsOf (extendFold c.toFolded (h.memory.tail c)),
        Produced C h.memory.wikiBase h.memory.appliedEntries s.1 s.2 := by
      intro s hs
      have hlog := (history_produced hextended s hs).append ((h.memory.tail c).dropWhile fun e => !isBaseEntry e)
      rwa [append_assoc, takeWhile_append_dropWhile, Memory.extends_split hext] at hlog
    dsimp only
    intro s hs
    rcases mem_append.mp hs with hs | hs
    · exact hextension s hs
    · split at hs
      · exact hfresh s hs
      · exact hextension s hs

theorem Cached.refresh (hh : Cached C S n h) (hn : n < 2 ^ 64) : Cached C S 0 (h.refresh C) := by
  refine ⟨hh.epoch, hh.told, ?_⟩
  intro c hc
  have hleft : (refreshWikiCache C h.memory (h.wikiCache.filter h.memory.extends)).1 = some c := by
    rw [refreshWikiCache_filter]
    exact hc
  obtain ⟨hfold, hepoch, hlegacy, hchain⟩ := refreshWikiCache_stands (hh.extended hn) hleft
  refine ⟨hepoch ▸ hh.epoch, ?_, fun _ => ⟨hlegacy.le, hchain.le, h.memory.wikiBase, ?_, hh.told, fun _ _ _ => rfl⟩⟩
  · rw [Nat.add_zero, hepoch]
    exact Nat.mod_eq_of_lt hh.epoch
  · show (h.memory.legacy.take c.legacy ++ h.memory.chain.take c.chain).foldlM _ _ = _
    rw [hlegacy, hchain, take_length, take_length]
    exact hfold

theorem Cached.same (hh : Cached C S n h) (hmemory : h'.memory = h.memory)
    (hcache : ∀ c', h'.wikiCache = some c' → ∃ c, h.wikiCache = some c ∧ c'.toFolded = c.toFolded ∧
      c'.legacy = c.legacy ∧ c'.chain = c.chain ∧ c'.epoch = c.epoch) : Cached C S n h' := by
  refine ⟨hmemory ▸ hh.epoch, hmemory ▸ hh.told, ?_⟩
  intro c' hc'
  obtain ⟨c, hc, hfolded, hlegacy, hchain, hepoch⟩ := hcache c' hc'
  obtain ⟨hlt, hbumped, hfits⟩ := hh.cache c hc
  rw [hmemory, hepoch]
  refine ⟨hlt, hbumped, fun hn => ?_⟩
  obtain ⟨hle, hle', held, hfold, htold, hsame⟩ := hfits hn
  refine ⟨hlegacy ▸ hle, hchain ▸ hle', held, ?_, htold, ?_⟩
  · unfold WikiCache.read at hfold ⊢
    rw [hlegacy, hchain, hfolded]
    exact hfold
  · unfold WikiCache.Ends at hsame ⊢
    rw [hlegacy, hchain, hfolded]
    exact hsame

theorem ReadSoFar.append (hf : ReadSoFar C S m c) (e : Entry) : ReadSoFar C S { m with chain := m.chain ++ [e] } c := by
  obtain ⟨hlegacy, hchain, held, hfold, htold, hsame⟩ := hf
  refine ⟨hlegacy, ?_, held, ?_, htold, ?_⟩
  · rw [length_append]
    exact Nat.le_add_right_of_le hchain
  · show (m.legacy.take c.legacy ++ (m.chain ++ [e]).take c.chain).foldlM _ _ = _
    rw [take_append_of_le_length hchain]
    exact hfold
  · rintro hbase (⟨-, hempty⟩ | hall) hheld
    · simp at hempty
    · exact hsame hbase (.inr hall) hheld

theorem ReadSoFar.appendLegacy (hf : ReadSoFar C S m c) (e : Entry) :
    ReadSoFar C S { m with legacy := m.legacy ++ [e] } c := by
  obtain ⟨hlegacy, hchain, held, hfold, htold, hsame⟩ := hf
  refine ⟨?_, hchain, held, ?_, htold, ?_⟩
  · rw [length_append]
    exact Nat.le_add_right_of_le hlegacy
  · show ((m.legacy ++ [e]).take c.legacy ++ m.chain.take c.chain).foldlM _ _ = _
    rw [take_append_of_le_length hlegacy]
    exact hfold
  · rintro hbase (hempty | hall) hheld
    · exact hsame hbase (.inl hempty) hheld
    · have hpast : c.legacy = m.legacy.length + 1 := by
        rw [hall, length_append]
        rfl
      omega

theorem decodeEntries_framed {count : Nat} {tree after : Tree} {s r : List UInt8}
    (hread : decodeEntries count tree s = .ok (after, r)) (hfields : ∀ e ∈ tree.entries, StrFits e.1 ∧ StrFits e.2) :
    after.entries.length ≤ tree.entries.length + count ∧ ∀ e ∈ after.entries, StrFits e.1 ∧ StrFits e.2 := by
  induction count generalizing tree s with
  | zero =>
    obtain ⟨rfl, -⟩ := Prod.mk.inj (Except.ok.inj hread)
    exact ⟨le_rfl, hfields⟩
  | succ count ih =>
    obtain ⟨⟨path, rest⟩, hpath, hnext⟩ := bind_eq_ok.mp hread
    obtain ⟨⟨content, rest'⟩, hcontent, hnext⟩ := bind_eq_ok.mp hnext
    have hlonger := length_insert_le tree path content
    obtain ⟨hlength, hframed⟩ := ih hnext fun e he => by
      rcases mem_insertEntry he with rfl | he
      · exact ⟨(readText_eq_ok hpath).2, (readText_eq_ok hcontent).2⟩
      · exact hfields e he
    exact ⟨by omega, hframed⟩

theorem framed_of_read {bytes : List UInt8} {tree : Tree} (hread : wikiBaseFromCanonicalBytes bytes = .ok tree) :
    Framed tree := by
  obtain ⟨_, -, hnext⟩ := bind_eq_ok.mp hread
  obtain ⟨⟨count, rest⟩, hcount, hnext⟩ := bind_eq_ok.mp hnext
  obtain ⟨⟨after, rest'⟩, hentries, hnext⟩ := bind_eq_ok.mp hnext
  obtain ⟨_, -, hdone⟩ := bind_eq_ok.mp hnext
  obtain rfl := pure_eq_ok.mp hdone
  obtain ⟨hlength, hfields⟩ := decodeEntries_framed hentries nofun
  obtain ⟨-, hlt⟩ := Vault.readU64_eq_ok hcount
  have hempty : (SortedMap.empty : Tree).entries.length = 0 := rfl
  exact ⟨by omega, hfields⟩

theorem ReadSoFar.committed (hinj : Set.InjOn C.sha256 S) (hf : ReadSoFar C S m c) {bytes : List UInt8}
    (hbytes : bytes ∈ S) (hbase : c.base.isSome) (hends : c.Ends m)
    (hwant : m.wikiBaseCommitted = some (C.contentHash bytes)) :
    ∃ held, (c.read m).foldlM (foldWikiEntry C held) {} = .ok c.toFolded ∧
      (∀ tree, held = some tree → Told S tree) ∧
      (wikiBaseFromCanonicalBytes bytes).toOption = held := by
  obtain ⟨-, -, held, hfold, htold, -⟩ := hf
  refine ⟨held, hfold, htold, ?_⟩
  obtain ⟨rest, hsplit⟩ := hends.prefix
  unfold Memory.wikiBaseCommitted at hwant
  rw [← hsplit, findSome?_append] at hwant
  cases hfirst : (c.read m).findSome? fun e => (baseCommitmentOf e.2).map Prod.fst with
  | none =>
    have hplain : ∀ e ∈ c.read m, isBaseEntry e = false := by
      intro e he
      have hnone := findSome?_eq_none_iff.mp hfirst e he
      unfold isBaseEntry
      rw [map_eq_none_iff.mp hnone]
      rfl
    rw [(fold_base hfold).2.2 hplain] at hbase
    cases hbase
  | some want =>
    rw [hfirst] at hwant
    cases hwant
    obtain ⟨e, he, hcommit⟩ := exists_of_findSome?_eq_some hfirst
    obtain ⟨b, hb, hname⟩ := map_eq_some_iff.mp hcommit
    obtain ⟨tree, rfl, hcommitment⟩ := fold_commits hfold e he b hb
    obtain ⟨hframed, hmem⟩ := htold tree rfl
    have hhash : C.contentHash (wikiBaseCanonicalBytes tree) = C.contentHash bytes := hcommitment.trans hname
    obtain rfl := hinj hmem hbytes (hexEncode_injective hhash)
    rw [wikiBaseFromCanonicalBytes_canonical hframed]
    rfl

theorem Cached.step (hinj : Set.InjOn C.sha256 S) (hh : Cached C S n h) (hn : n < 2 ^ 64) (step : CacheStep)
    (hhashed : ∀ b ∈ step.hashed, b ∈ S) : Cached C S (step.behind n) (h.next C step) := by
  cases step with
  | append e =>
    refine ⟨hh.epoch, hh.told, fun c hc => ?_⟩
    obtain ⟨hlt, hbumped, hfits⟩ := hh.cache c hc
    exact ⟨hlt, hbumped, fun hzero => (hfits hzero).append e⟩
  | appendLegacy e =>
    refine ⟨hh.epoch, hh.told, fun c hc => ?_⟩
    obtain ⟨hlt, hbumped, hfits⟩ := hh.cache c hc
    exact ⟨hlt, hbumped, fun hzero => (hfits hzero).appendLegacy e⟩
  | reproject legacy chain wikiBase =>
    refine ⟨Nat.mod_lt _ (by norm_num), ?_, fun c hc => ?_⟩
    · intro tree htree
      obtain ⟨⟨tree, hframed⟩, rfl, rfl⟩ := map_eq_some_iff.mp htree
      exact ⟨hframed, hhashed _ mem_cons_self⟩
    · obtain ⟨hlt, hbumped, -⟩ := hh.cache c hc
      refine ⟨hlt, ?_, nofun⟩
      show (c.epoch + (n + 1)) % 2 ^ 64 = (h.memory.appliedEpoch + 1) % 2 ^ 64
      omega
  | loseBase =>
    refine ⟨hh.epoch, nofun, fun c hc => ?_⟩
    obtain ⟨hlt, hbumped, hfits⟩ := hh.cache c hc
    refine ⟨hlt, hbumped, fun hzero => ?_⟩
    obtain ⟨hlegacy, hchain, held, hfold, htold, -⟩ := hfits hzero
    exact ⟨hlegacy, hchain, held, hfold, htold, nofun⟩
  | adoptBase bytes =>
    have hbytes : bytes ∈ S := hhashed bytes mem_cons_self
    refine ⟨hh.epoch, ?_, fun c hc => ?_⟩
    · intro tree htree
      obtain ⟨want, -, hread⟩ := bind_eq_some_iff.mp htree
      split_ifs at hread
      refine ⟨?_, hhashed _ (.tail _ ?_)⟩
      · cases hparse : wikiBaseFromCanonicalBytes bytes with
        | error e =>
          rw [hparse] at hread
          cases hread
        | ok read =>
          rw [hparse] at hread
          cases hread
          exact framed_of_read hparse
      · rw [hread]
        exact mem_cons_self
    · obtain ⟨hlt, hbumped, hfits⟩ := hh.cache c hc
      refine ⟨hlt, hbumped, fun hzero => ?_⟩
      have hf := hfits hzero
      obtain ⟨hlegacy, hchain, held, hfold, htold, -⟩ := hfits hzero
      by_cases hanswers : h.memory.wikiBaseCommitted = some (C.contentHash bytes)
      · have hadopted : (h.memory.adoptWikiBase C bytes).wikiBase = (wikiBaseFromCanonicalBytes bytes).toOption := by
          unfold Memory.adoptWikiBase
          rw [hanswers]
          exact if_pos rfl
        by_cases hlive : c.base.isSome ∧ c.Ends h.memory
        · obtain ⟨held', hfold', htold', hsame⟩ := hf.committed hinj hbytes hlive.1 hlive.2 hanswers
          exact ⟨hlegacy, hchain, held', hfold', htold', fun _ _ _ => hadopted.trans hsame⟩
        · exact ⟨hlegacy, hchain, held, hfold, htold, fun hbase hends _ => absurd ⟨hbase, hends⟩ hlive⟩
      · have hrefused : (h.memory.adoptWikiBase C bytes).wikiBase = none := by
          unfold Memory.adoptWikiBase
          cases hcommitted : h.memory.wikiBaseCommitted with
          | none => rfl
          | some want =>
            refine if_neg fun hwant => hanswers ?_
            rw [hcommitted, hwant]
        refine ⟨hlegacy, hchain, held, hfold, htold, fun _ _ hheld => ?_⟩
        change (h.memory.adoptWikiBase C bytes).wikiBase.isSome at hheld
        rw [hrefused] at hheld
        cases hheld
  | refresh => exact hh.refresh hn
  | register id surface payload by_ =>
    show Cached C S n (h.register id surface payload by_)
    unfold Holder.register
    split
    · exact hh
    · exact hh.same rfl fun c hc => ⟨c, hc, rfl, rfl, rfl, rfl⟩
  | settle id applied =>
    show Cached C S n (h.settle id applied)
    unfold Holder.settle
    split
    · exact hh
    · exact hh.same rfl fun c hc => ⟨c, hc, rfl, rfl, rfl, rfl⟩
  | lose id => exact hh.same rfl fun c hc => ⟨c, hc, rfl, rfl, rfl, rfl⟩
  | forgetWikiStamps =>
    refine hh.same rfl fun c' hc' => ?_
    obtain ⟨c, hc, rfl⟩ := map_eq_some_iff.mp hc'
    exact ⟨c, hc, rfl, rfl, rfl, rfl⟩

theorem Cached.stamped (hh : Cached C S n h) (hn : n < 2 ^ 64) (step : CacheStep) {id : Nat} {p : Card} {rev : Nat}
    (hp : (h.next C step).cards.get? id = some p) (hrev : p.wikiRev = some rev) :
    (∃ q, h.cards.get? id = some q ∧ q.wikiRev = some rev) ∨
      ∃ pid : UInt64, pid.toNat = id ∧ Produced C h.memory.wikiBase h.memory.appliedEntries pid rev := by
  cases step with
  | refresh =>
    obtain ⟨q, hq, -, -, -, hstamp⟩ := get?_stamps hp
    rcases hstamp with hkept | ⟨s, hs, hid, hnew⟩
    · exact .inl ⟨q, hq, hkept.symm.trans hrev⟩
    · cases hnew.symm.trans hrev
      exact .inr ⟨s.1, hid, hh.stamps hn s hs⟩
  | register pid surface payload by_ =>
    change (h.register pid surface payload by_).cards.get? id = some p at hp
    unfold Holder.register at hp
    split at hp
    · exact .inl ⟨p, hp, hrev⟩
    · change (h.cards.insert _ _).get? id = some p at hp
      rw [get?_insert] at hp
      split_ifs at hp
      · cases hp
        cases hrev
      · exact .inl ⟨p, hp, hrev⟩
  | settle pid applied =>
    change (h.settle pid applied).cards.get? id = some p at hp
    unfold Holder.settle at hp
    split at hp
    · exact .inl ⟨p, hp, hrev⟩
    · rename_i q hq
      rw [get?_insert] at hp
      split_ifs at hp with hid
      · cases hp
        exact .inl ⟨q, hid ▸ hq, hrev⟩
      · exact .inl ⟨p, hp, hrev⟩
  | lose pid =>
    change (h.cards.erase _).get? id = some p at hp
    rw [get?_erase] at hp
    split_ifs at hp
    exact .inl ⟨p, hp, hrev⟩
  | forgetWikiStamps =>
    change (h.cards.map _).get? id = some p at hp
    rw [get?_map] at hp
    obtain ⟨q, hq, rfl⟩ := map_eq_some_iff.mp hp
    refine .inl ⟨q, hq, ?_⟩
    split_ifs at hrev
    exact hrev
  | append e | appendLegacy e | reproject legacy chain wikiBase | loseBase => exact .inl ⟨p, hp, hrev⟩
  | adoptBase bytes => exact .inl ⟨p, hp, hrev⟩

theorem Cached.life (hinj : Set.InjOn C.sha256 S) (hh : Cached C S n h) {steps : List CacheStep}
    (htimely : Timely n steps) (hhashed : ∀ step ∈ steps, ∀ b ∈ step.hashed, b ∈ S) :
    ∃ n' < 2 ^ 64, Cached C S n' (h.life C steps) := by
  induction steps generalizing h n with
  | nil => exact ⟨n, htimely, hh⟩
  | cons step rest ih =>
    exact ih (hh.step hinj htimely.1 step (hhashed step mem_cons_self)) htimely.2
      fun s hs => hhashed s (mem_cons_of_mem _ hs)

end

namespace Sample

def plain : Crypto := { Crypto.toy with sha256 := fun bytes => 1 :: bytes }

end Sample

end Molt.Wiki
