import Mathlib
import MoltRepublic.Chain.WikiExport
import MoltRepublic.Engine.Governance
import MoltRepublic.Wiki.Index
import MoltRepublic.Wiki.Rooted

/-! The open wiki cards of a seat under the supersede walk: block by block on a live seat,
and once over the whole chain on a seat that adopts it (`supersede_stale_wiki`). -/

namespace Molt.Engine
open Molt.Core Json Chain Wiki List SortedMap Nat

/-- What the walk reads and writes of a seat: the Memory log with its base, the blocks
kept, the ids the chain spent and the cards held. The cards a block makes up for ids nobody
proposed here are applied from the start and not followed. -/
structure WikiSeat where
  memory : Memory
  adoptionPending : Bool
  blocks : List ChainBlock
  spent : List UInt64
  cards : SortedMap Nat ProposalRecord
  replayHeldAt : SortedMap Nat UInt64

def isOpenWikiPatch (p : ProposalRecord) : Bool :=
  p.surface == .memory && p.state == .proposed && p.payload.getStr "op" == some "wiki_patch"

def restrict (tree : Tree) (paths : List String) : Tree :=
  paths.foldl (fun restricted path =>
    match tree.get? path with
    | some content => restricted.insert path content
    | none => restricted) SortedMap.empty

def wikiPatchApplies (tree : Tree) (files : List PatchFile) : Bool :=
  (applyPatch (restrict tree (touchedPaths files)) files).isOk

def disjointPaths (a b : List String) : Bool := a.all fun p => !b.contains p

/-- `chain_moved_since`: a cut touches every path. -/
def chainMovedSince (blocks : List ChainBlock) (height : UInt64) (paths : List String) : Bool :=
  (blocks.filter fun b => height ≤ b.height).any fun b =>
    match b.change with
    | .applied _ .memory payload => (wikiPayloadPaths payload).any fun moved => !disjointPaths moved paths
    | .checkpoint .. | .checkpointFolded .. | .checkpointVault .. => true
    | _ => false

namespace WikiSeat

/-- The walk on one card: `moved` names the paths that a block touched, `none` re-checks. -/
def judge (s : WikiSeat) (tree : Tree) (moved : Option (List String)) (id : Nat) (p : ProposalRecord) :
    ProposalRecord :=
  if !isOpenWikiPatch p then p
  else match wikiPatchFiles p.payload with
    | none => p
    | some files =>
      let paths := touchedPaths files
      if moved.any (disjointPaths paths) then p
      else if wikiPatchApplies tree files then
        let replayed := (s.replayHeldAt.get? id).any fun at_ => chainMovedSince s.blocks at_ paths
        if moved.isSome || replayed then { p with supersededKind := some .rebase } else p
      else p.retire

def supersedeStaleWiki (C : Crypto) (s : WikiSeat) (moved : Option (List String)) : WikiSeat :=
  if s.adoptionPending then s
  else if !s.cards.values.any isOpenWikiPatch then { s with replayHeldAt := SortedMap.empty }
  else match s.memory.fold C with
    -- without the base every patch would look stale
    | .error _ => s
    | .ok folded =>
      { s with
        replayHeldAt := SortedMap.empty
        cards := s.cards.mapWithKey (s.judge folded.tree moved) }

def markOpenWikiPatchesRebased (s : WikiSeat) : WikiSeat :=
  { s with cards := s.cards.map fun p =>
      if isOpenWikiPatch p then { p with supersededKind := some .rebase } else p }

def settleCardsAgainstChain (s : WikiSeat) : WikiSeat :=
  { s with cards := s.cards.mapWithKey fun id p =>
      if (s.spent.map UInt64.toNat).contains id && p.state != .applied then p.settleApplied else p }

/-- `apply_chain_to_state`. -/
def applyChainToState (C : Crypto) (s : WikiSeat) : WikiSeat :=
  s.settleCardsAgainstChain.supersedeStaleWiki C none

def append (s : WikiSeat) (b : ChainBlock) : WikiSeat :=
  let s := { s with blocks := s.blocks ++ [b] }
  match b.change with
  | .applied id surface payload =>
    { s with
      spent := s.spent ++ [id]
      memory := if surface = .memory then { s.memory with chain := s.memory.chain ++ [(some id, payload)] }
        else s.memory }
  | _ => s

/-- The chain data behind a cut whose history is dropped: a folded one puts the base into
the place of the patches. -/
def drop (C : Crypto) (s : WikiSeat) (height : UInt64) (kind : CutKind) : Option WikiSeat :=
  let memory := if kind.wiki then s.memory.cut C s.memory.chain.length else some s.memory
  memory.map fun memory =>
    { s with memory := memory, blocks := s.blocks.filter fun b => height ≤ b.height }

/-- `after_block_applied`. A holder that cannot build or store the cut keeps its history. -/
def afterBlockApplied (C : Crypto) (s : WikiSeat) (b : ChainBlock) (kept : Bool) : WikiSeat :=
  match b.change with
  | .applied id surface payload =>
    let s := { s with cards := s.cards.mapWithKey fun i p =>
      if i = id.toNat then Node.settleCard payload p else p }
    if surface = .memory then s.supersedeStaleWiki C (wikiPayloadPaths payload) else s
  | change =>
    match CutKind.of change with
    | none => s
    | some (_, _, kind) =>
      if kept then s
      else match s.drop C b.height kind with
        | none => s
        | some s => (s.applyChainToState C).markOpenWikiPatchesRebased

def block (C : Crypto) (s : WikiSeat) (b : ChainBlock × Bool) : WikiSeat :=
  (s.append b.1).afterBlockApplied C b.1 b.2

def live (C : Crypto) (s : WikiSeat) (blocks : List (ChainBlock × Bool)) : WikiSeat :=
  blocks.foldl (block C) s

def store (C : Crypto) (s : WikiSeat) (b : ChainBlock × Bool) : WikiSeat :=
  let s := s.append b.1
  match CutKind.of b.1.change with
  | none => s
  | some (_, _, kind) => if b.2 then s else (s.drop C b.1.height kind).getD s

/-- The chain at once, under the cards of `s`. -/
def adopt (C : Crypto) (s : WikiSeat) (blocks : List (ChainBlock × Bool)) : WikiSeat :=
  (blocks.foldl (store C) s).applyChainToState C

end WikiSeat

section

def memoryEntry (b : ChainBlock) : Option Wiki.Entry :=
  match b.change with
  | .applied id .memory payload => some (some id, payload)
  | _ => none

def grow (L : Lineage) (blocks : List (ChainBlock × Bool)) : Lineage :=
  (blocks.filterMap fun b => memoryEntry b.1).foldl Lineage.push L

def treesBehind (L : Lineage) : List (ChainBlock × Bool) → List Tree
  | [] => [L.now]
  | b :: blocks => L.now :: treesBehind (grow L [b]) blocks

def standsOn (tree : Tree) (payload : Value) : Bool :=
  match wikiPatchFiles payload with
  | none => true
  | some files => wikiPatchApplies tree files

variable (L : Lineage)

theorem grow_append (blocks more : List (ChainBlock × Bool)) :
    grow L (blocks ++ more) = grow (grow L blocks) more := by
  simp [grow]

theorem treesBehind_concat (blocks : List (ChainBlock × Bool)) (b : ChainBlock × Bool) :
    treesBehind L (blocks ++ [b]) = treesBehind L blocks ++ [(grow L (blocks ++ [b])).now] := by
  induction blocks generalizing L with
  | nil => rfl
  | cons a blocks ih =>
    rw [cons_append, treesBehind, ih, treesBehind, cons_append]
    congr 4
    rw [← grow_append]
    rfl

theorem now_mem_treesBehind (blocks : List (ChainBlock × Bool)) :
    (grow L blocks).now ∈ treesBehind L blocks := by
  rcases eq_nil_or_concat blocks with rfl | ⟨before, b, rfl⟩
  · exact mem_singleton.mpr rfl
  · rw [concat_eq_append, treesBehind_concat]
    exact mem_append_right _ (mem_singleton.mpr rfl)

variable {p : String}

theorem mem_touchedPaths {files : List PatchFile} (h : p ∈ touchedPaths files) : p ≠ "" := by
  obtain ⟨f, -, hp⟩ := mem_flatMap.mp h
  simpa using (mem_filter.mp hp).2

theorem applyFile_frame_named {now next : Tree} {f : PatchFile} (h : applyFile now f = .ok next)
    (hne : p ≠ "") (hp : p ∉ touchedPaths [f]) : next.get? p = now.get? p := by
  by_cases hnamed : f.Named
  · exact applyFile_frame h hnamed hp
  · -- such a section writes at the empty path
    obtain ⟨hadded, -, hpath⟩ : f.added = true ∧ f.deleted = true ∧ f.newPath = "" := by
      simpa [PatchFile.Named] using hnamed
    rcases applyFile_cases h with ⟨-, -, content, rfl⟩ | ⟨hnot, -⟩
    · rw [get?_insert, hpath, if_neg hne]
    · rw [hadded] at hnot
      cases hnot

theorem applyFiles_frame_named {now next : Tree} {files : List PatchFile}
    (h : files.foldlM applyFile now = .ok next) (hne : p ≠ "") (hp : p ∉ touchedPaths files) :
    next.get? p = now.get? p := by
  induction files generalizing now with
  | nil =>
    obtain rfl := Check.pure_eq_ok.mp h
    rfl
  | cons f files ih =>
    obtain ⟨mid, hmid, hrest⟩ := Check.bind_eq_ok.mp h
    have hsplit : touchedPaths (f :: files) = touchedPaths [f] ++ touchedPaths files := by
      simp [touchedPaths]
    rw [hsplit, mem_append, not_or] at hp
    rw [ih hrest hp.2]
    exact applyFile_frame_named hmid hne hp.1

theorem push_frame {e : Wiki.Entry} (hne : p ≠ "") (hp : p ∉ (wikiPayloadPaths e.2).getD []) :
    (L.push e).now.get? p = L.now.get? p := by
  rcases L.push_cases e with ⟨heq, -⟩ | ⟨files, tree, happ, hfiles, heq⟩
  · rw [heq]
  · rw [heq]
    simp only [wikiPayloadPaths, hfiles, Option.map_some, Option.getD_some] at hp
    exact applyFiles_frame_named (applyPatch_files happ) hne hp

theorem standsOn_congr {tree tree' : Tree} {payload : Value}
    (h : ∀ p ∈ (wikiPayloadPaths payload).getD [], tree.get? p = tree'.get? p) :
    standsOn tree payload = standsOn tree' payload := by
  unfold standsOn
  unfold wikiPayloadPaths at h
  cases hfiles : wikiPatchFiles payload with
  | none => rfl
  | some files =>
    rw [hfiles] at h
    have hrestrict : restrict tree (touchedPaths files) = restrict tree' (touchedPaths files) := by
      apply foldl_ext
      intro restricted p hp
      rw [h p hp]
    dsimp only [wikiPatchApplies]
    rw [hrestrict]

end

namespace WikiSeat

variable {C : Crypto} {s t : WikiSeat} {L : Lineage}

/-- The chain data a seat holds behind the blocks `k`, whatever it kept of them. -/
structure Stored (C : Crypto) (spent : List UInt64) (L : Lineage) (k : List (ChainBlock × Bool))
    (s : WikiSeat) : Prop where
  rooted : ∃ root, Rooted C s.memory root (grow L k)
  legacy : s.memory.legacy = []
  ready : s.adoptionPending = false
  spent : s.spent = spent ++ k.filterMap fun b => appliedId b.1

variable {k : List (ChainBlock × Bool)}

variable {spent : List UInt64}

theorem Stored.append (h : Stored C spent L k s) (b : ChainBlock × Bool)
    (hplain : ∀ e, memoryEntry b.1 = some e → isBaseEntry e = false) :
    Stored C spent L (k ++ [b]) (s.append b.1) := by
  obtain ⟨root, hrooted⟩ := h.rooted
  have hother : memoryEntry b.1 = none → grow L (k ++ [b]) = grow L k := by
    intro hnone
    simp [grow, hnone]
  unfold WikiSeat.append
  split
  · rename_i id surface payload hc
    have hspent : s.spent ++ [id] = spent ++ (k ++ [b]).filterMap fun b => appliedId b.1 := by
      simp [h.spent, appliedId, hc]
    by_cases hmemory : surface = .memory
    · subst hmemory
      have hentry : memoryEntry b.1 = some (some id, payload) := by simp [memoryEntry, hc]
      have hgrow : grow L (k ++ [b]) = (grow L k).push (some id, payload) := by
        simp [grow, hentry]
      refine ⟨⟨root, ?_⟩, h.legacy, h.ready, hspent⟩
      rw [hgrow]
      exact hrooted.block (hplain _ hentry)
    · have hentry : memoryEntry b.1 = none := by
        cases surface <;> first | exact absurd rfl hmemory | simp [memoryEntry, hc]
      simp only [if_neg hmemory]
      exact ⟨⟨root, (hother hentry).symm ▸ hrooted⟩, h.legacy, h.ready, hspent⟩
  · rename_i hnot
    have hentry : memoryEntry b.1 = none := by
      unfold memoryEntry
      split
      · exact absurd (by assumption) (hnot _ _ _)
      · rfl
    have hid : appliedId b.1 = none := by
      unfold appliedId
      split
      · exact absurd (by assumption) (hnot _ _ _)
      · rfl
    exact ⟨⟨root, (hother hentry).symm ▸ hrooted⟩, h.legacy, h.ready, by simp [h.spent, hid]⟩

theorem Stored.drop (h : Stored C spent L k s) (height : UInt64) (kind : CutKind)
    (hroom : (grow L k).rev < 2 ^ 64) :
    ∃ t, s.drop C height kind = some t ∧ Stored C spent L k t ∧ t.cards = s.cards ∧
      t.replayHeldAt = s.replayHeldAt := by
  unfold WikiSeat.drop
  cases kind.wiki with
  | false => exact ⟨_, rfl, ⟨h.rooted, h.legacy, h.ready, h.spent⟩, rfl, rfl⟩
  | true =>
    obtain ⟨root, hrooted⟩ := h.rooted
    obtain ⟨m, root', hcut, hrooted', -, hlegacy⟩ :=
      hrooted.cut h.legacy (n := s.memory.chain.length + 1) (succ_pos _) hroom
    have hall : s.memory.cut C s.memory.chain.length = some m := by
      rw [← hcut]
      unfold Memory.cut
      rw [take_length, drop_length, take_of_length_le (le_succ _),
        drop_of_length_le (le_succ _)]
    simp only [if_true, hall, Option.map_some]
    exact ⟨_, rfl, ⟨⟨root', hrooted'⟩, hlegacy, h.ready, h.spent⟩, rfl, rfl⟩

theorem Stored.fold (h : Stored C spent L k s) (hroom : (grow L k).rev < 2 ^ 64) :
    ∃ f, s.memory.fold C = .ok f ∧ f.tree = (grow L k).now := by
  obtain ⟨root, hrooted⟩ := h.rooted
  obtain ⟨f, hf, hreads, -⟩ := hrooted.fold hroom
  exact ⟨f, hf, hreads.tree⟩

theorem Stored.store (h : Stored C spent L k s) (b : ChainBlock × Bool)
    (hplain : ∀ e, memoryEntry b.1 = some e → isBaseEntry e = false)
    (hroom : (grow L (k ++ [b])).rev < 2 ^ 64) : Stored C spent L (k ++ [b]) (s.store C b) := by
  have happend := h.append b hplain
  unfold WikiSeat.store
  dsimp only
  split
  · exact happend
  · rename_i upto hash kind hcut
    split
    · exact happend
    · obtain ⟨t, ht, hstored, -⟩ := happend.drop b.1.height kind hroom
      rw [ht]
      exact hstored

theorem supersedeStaleWiki_frame (s : WikiSeat) (moved : Option (List String)) :
    ∃ cards held, s.supersedeStaleWiki C moved = { s with cards := cards, replayHeldAt := held } := by
  unfold supersedeStaleWiki
  split
  · exact ⟨_, _, rfl⟩
  · split
    · exact ⟨_, _, rfl⟩
    · split
      all_goals exact ⟨_, _, rfl⟩

theorem Stored.withCards (h : Stored C spent L k s) {cards : SortedMap Nat ProposalRecord}
    {held : SortedMap Nat UInt64} (ht : t = { s with cards := cards, replayHeldAt := held }) :
    Stored C spent L k t := by
  rw [ht]
  exact ⟨h.rooted, h.legacy, h.ready, h.spent⟩

theorem get?_supersedeStaleWiki {f : Folded} (hready : s.adoptionPending = false)
    (hf : s.memory.fold C = .ok f) (moved : Option (List String)) (id : Nat) :
    (s.supersedeStaleWiki C moved).cards.get? id = (s.cards.get? id).map (s.judge f.tree moved id) := by
  unfold supersedeStaleWiki
  rw [hready, hf]
  simp only [Bool.false_eq_true, if_false]
  split
  · rename_i hnone
    cases hp : s.cards.get? id with
    | none => simp
    | some p =>
      have hclosed : isOpenWikiPatch p = false := by
        have hall : ∀ q ∈ s.cards.values, isOpenWikiPatch q = false := by simpa using hnone
        exact hall p (mem_values.mpr ⟨id, hp⟩)
      simp [judge, hclosed]
  · exact get?_mapWithKey _ _ _

theorem judge_closed {p : ProposalRecord} (h : isOpenWikiPatch p = false) (tree : Tree)
    (moved : Option (List String)) (id : Nat) : s.judge tree moved id p = p := by
  unfold judge
  rw [h]
  rfl

theorem judge_open {p : ProposalRecord} (h : isOpenWikiPatch p = true) (tree : Tree)
    (moved : Option (List String)) (id : Nat) :
    ((standsOn tree p.payload = true ∨
        ∃ m, moved = some m ∧ disjointPaths ((wikiPayloadPaths p.payload).getD []) m = true) →
      ∃ kind, s.judge tree moved id p = { p with supersededKind := kind }) ∧
    (standsOn tree p.payload = false →
      (∀ m, moved = some m → disjointPaths ((wikiPayloadPaths p.payload).getD []) m = false) →
      s.judge tree moved id p = p.retire) := by
  unfold judge standsOn wikiPayloadPaths
  simp only [h, Bool.not_true, Bool.false_eq_true, if_false]
  cases wikiPatchFiles p.payload with
  | none => exact ⟨fun _ => ⟨_, rfl⟩, fun hbad => by simp at hbad⟩
  | some files =>
    dsimp only [Option.map_some, Option.getD_some]
    constructor
    · intro hkeeps
      split_ifs with hskip happlies hmarks
      · exact ⟨_, rfl⟩
      · exact ⟨_, rfl⟩
      · exact ⟨_, rfl⟩
      · rcases hkeeps with hstands | ⟨m, rfl, hm⟩
        · exact absurd hstands happlies
        · exact absurd hm (by simpa using hskip)
    · intro hrefused htouched
      have hskip : ¬ moved.any (disjointPaths (touchedPaths files)) = true := by
        cases moved with
        | none => simp
        | some m => simpa using htouched m rfl
      rw [if_neg hskip, if_neg (by simpa using hrefused)]

/-- Whether a block settles the card that `p` was: it names it, or a cut whose history is
dropped finds its id spent. -/
def settledBy (spent : List UInt64) (id : Nat) (p : ProposalRecord) (b : ChainBlock × Bool) : Bool :=
  match b.1.change with
  | .applied i _ payload => i.toNat == id && (p.payload == payload || p.proposer == "")
  | change => (CutKind.of change).isSome && !b.2 && (spent.map UInt64.toNat).contains id

def settles (id : Nat) (p : ProposalRecord) : List UInt64 → List (ChainBlock × Bool) → Bool
  | _, [] => false
  | spent, b :: blocks =>
    settledBy spent id p b || settles id p (spent ++ (appliedId b.1).toList) blocks

theorem settles_concat (id : Nat) (p : ProposalRecord) (spent : List UInt64)
    (blocks : List (ChainBlock × Bool)) (b : ChainBlock × Bool) :
    settles id p spent (blocks ++ [b]) = (settles id p spent blocks ||
      settledBy (spent ++ blocks.filterMap fun b => appliedId b.1) id p b) := by
  induction blocks generalizing spent with
  | nil => simp [settles]
  | cons a blocks ih =>
    rw [cons_append, settles, ih, settles, Bool.or_assoc]
    cases hid : appliedId a.1 <;> simp [hid]

structure Fate (p₀ : ProposalRecord) (settled refused : Prop) (p : ProposalRecord) : Prop where
  surface : p.surface = p₀.surface
  payload : p.payload = p₀.payload
  proposer : p.proposer = p₀.proposer
  fate : (settled ∧ p.state = .applied ∧ p.superseded = false) ∨
    (¬settled ∧ refused ∧ p.state = .rejected ∧ p.superseded = true) ∨
    (¬settled ∧ ¬refused ∧ p.state = .proposed ∧ p.superseded = false)

variable {p₀ p : ProposalRecord} {settled refused : Prop}

theorem Fate.congr (h : Fate p₀ settled refused p) {settled' refused' : Prop} (hs : settled ↔ settled')
    (hr : refused ↔ refused') : Fate p₀ settled' refused' p :=
  ⟨h.surface, h.payload, h.proposer, by rw [← hs, ← hr]; exact h.fate⟩

theorem Fate.marked (h : Fate p₀ settled refused p) (kind : Option SupersededKind) :
    Fate p₀ settled refused { p with supersededKind := kind } :=
  ⟨h.surface, h.payload, h.proposer, h.fate⟩

theorem Fate.settle (h : Fate p₀ settled refused p) (now : Prop) [Decidable now] :
    Fate p₀ (settled ∨ now) refused (if now then p.settleApplied else p) := by
  split_ifs with hnow
  · exact ⟨h.surface, h.payload, h.proposer, .inl ⟨.inr hnow, rfl, rfl⟩⟩
  · refine h.congr ?_ .rfl
    simp [hnow]

theorem Fate.settleSpent (h : Fate p₀ settled refused p) (spent : Bool) :
    Fate p₀ (settled ∨ spent = true) refused
      (if spent && p.state != .applied then p.settleApplied else p) := by
  by_cases hstate : p.state = .applied
  · have hskip : (spent && p.state != .applied) = false := by simp [hstate]
    rw [hskip, if_neg (by decide)]
    rcases h.fate with ⟨hs, _, hsup⟩ | ⟨_, _, hother, _⟩ | ⟨_, _, hother, _⟩
    · exact ⟨h.surface, h.payload, h.proposer, .inl ⟨.inl hs, hstate, hsup⟩⟩
    · rw [hstate] at hother
      cases hother
    · rw [hstate] at hother
      cases hother
  · have htake : (spent && p.state != .applied) = spent := by simp [hstate]
    rw [htake]
    exact h.settle (spent = true)

theorem Fate.judged (h : Fate p₀ settled refused p) (hp₀ : isOpenWikiPatch p₀ = true) {tree : Tree}
    {moved : Option (List String)} {id : Nat}
    (hskip : ¬refused → ∀ m, moved = some m →
      disjointPaths ((wikiPayloadPaths p₀.payload).getD []) m = true → standsOn tree p₀.payload = true) :
    Fate p₀ settled (refused ∨ standsOn tree p₀.payload = false) (s.judge tree moved id p) := by
  have hclosed : p.state ≠ .proposed → s.judge tree moved id p = p := by
    intro hstate
    apply judge_closed
    simp [isOpenWikiPatch, hstate]
  rcases h.fate with ⟨hs, hstate, hsup⟩ | ⟨hs, hr, hstate, hsup⟩ | ⟨hs, hr, hstate, hsup⟩
  · rw [hclosed (by rw [hstate]; decide)]
    exact ⟨h.surface, h.payload, h.proposer, .inl ⟨hs, hstate, hsup⟩⟩
  · rw [hclosed (by rw [hstate]; decide)]
    exact ⟨h.surface, h.payload, h.proposer, .inr (.inl ⟨hs, .inl hr, hstate, hsup⟩)⟩
  · have hopen : isOpenWikiPatch p = true := by
      simp only [isOpenWikiPatch, Bool.and_eq_true, beq_iff_eq] at hp₀ ⊢
      exact ⟨⟨h.surface.trans hp₀.1.1, hstate⟩, h.payload ▸ hp₀.2⟩
    obtain ⟨hkeeps, hretires⟩ := judge_open (s := s) hopen tree moved id
    cases hstands : standsOn tree p₀.payload with
    | true =>
      obtain ⟨kind, heq⟩ := hkeeps (.inl (by rw [h.payload, hstands]))
      rw [heq]
      refine (h.marked kind).congr .rfl ?_
      simp
    | false =>
      rw [hretires (by rw [h.payload, hstands]) ?_]
      · exact ⟨h.surface, h.payload, h.proposer, .inr (.inl ⟨hs, .inr rfl, rfl, rfl⟩)⟩
      · intro m hm
        by_contra hdisjoint
        rw [Bool.not_eq_false, h.payload] at hdisjoint
        rw [hskip hr m hm hdisjoint] at hstands
        cases hstands

/-- What an open card has gone through behind the blocks `k`. -/
def FateBehind (spent : List UInt64) (L : Lineage) (id : Nat) (p₀ : ProposalRecord)
    (k : List (ChainBlock × Bool)) (p : ProposalRecord) : Prop :=
  Fate p₀ (settles id p₀ spent k = true) (∃ t ∈ treesBehind L k, standsOn t p₀.payload = false) p

theorem refused_concat (L : Lineage) (k : List (ChainBlock × Bool)) (b : ChainBlock × Bool)
    (payload : Value) : (∃ t ∈ treesBehind L (k ++ [b]), standsOn t payload = false) ↔
      (∃ t ∈ treesBehind L k, standsOn t payload = false) ∨
        standsOn (grow L (k ++ [b])).now payload = false := by
  rw [treesBehind_concat]
  simp only [mem_append, mem_singleton]
  constructor
  · rintro ⟨t, ht | rfl, hstands⟩
    · exact .inl ⟨t, ht, hstands⟩
    · exact .inr hstands
  · rintro (⟨t, ht, hstands⟩ | hstands)
    · exact ⟨t, .inl ht, hstands⟩
    · exact ⟨_, .inr rfl, hstands⟩

variable {b : ChainBlock × Bool}

theorem refused_still {L : Lineage} (hb : memoryEntry b.1 = none) (payload : Value) :
    (∃ t ∈ treesBehind L k, standsOn t payload = false) ↔
      (∃ t ∈ treesBehind L k, standsOn t payload = false) ∨
        standsOn (grow L (k ++ [b])).now payload = false := by
  have hsame : grow L (k ++ [b]) = grow L k := by simp [grow, hb]
  rw [hsame]
  refine ⟨.inl, fun h => h.elim id fun hstands => ?_⟩
  exact ⟨_, now_mem_treesBehind L k, hstands⟩

theorem standsOn_untouched {L : Lineage} {id : UInt64} {payload : Value}
    (hb : b.1.change = .applied id .memory payload) {p : Value}
    (hstands : ¬ ∃ t ∈ treesBehind L k, standsOn t p = false) {m : List String}
    (hm : wikiPayloadPaths payload = some m)
    (hdisjoint : disjointPaths ((wikiPayloadPaths p).getD []) m = true) :
    standsOn (grow L (k ++ [b])).now p = true := by
  have hgrow : grow L (k ++ [b]) = (grow L k).push (some id, payload) := by
    simp [grow, memoryEntry, hb]
  have hsame : standsOn (grow L (k ++ [b])).now p = standsOn (grow L k).now p := by
    apply standsOn_congr
    intro q hq
    have hne : q ≠ "" := by
      unfold wikiPayloadPaths at hq
      cases hfiles : wikiPatchFiles p with
      | none => simp [hfiles] at hq
      | some files =>
        rw [hfiles] at hq
        exact mem_touchedPaths hq
    have hnot : q ∉ m := by
      simpa using all_eq_true.mp hdisjoint q hq
    rw [hgrow]
    exact push_frame _ hne (by simpa [hm] using hnot)
  rw [hsame]
  by_contra hrefused
  exact hstands ⟨_, now_mem_treesBehind L k, by simpa using hrefused⟩

theorem append_cards (s : WikiSeat) (b : ChainBlock) : (s.append b).cards = s.cards := by
  unfold WikiSeat.append
  split <;> rfl

theorem Stored.walk (h : Stored C spent L k s) (hroom : (grow L k).rev < 2 ^ 64)
    (moved : Option (List String)) (id : Nat) :
    Stored C spent L k (s.supersedeStaleWiki C moved) ∧
      (s.supersedeStaleWiki C moved).cards.get? id =
        (s.cards.get? id).map (s.judge (grow L k).now moved id) := by
  obtain ⟨cards, held, hframe⟩ := @supersedeStaleWiki_frame C s moved
  obtain ⟨f, hf, htree⟩ := h.fold hroom
  refine ⟨h.withCards hframe, ?_⟩
  rw [← htree]
  exact get?_supersedeStaleWiki h.ready hf moved id

variable {id : Nat}

theorem settledBy_other (hb : ∀ i surface payload, b.1.change ≠ .applied i surface payload) :
    settledBy spent id p₀ b =
      ((CutKind.of b.1.change).isSome && !b.2 && (spent.map UInt64.toNat).contains id) := by
  unfold settledBy
  split
  · exact absurd (by assumption) (hb _ _ _)
  · rfl

theorem FateBehind.applied (hstored : Stored C spent L (k ++ [b]) (s.append b.1))
    (hroom : (grow L (k ++ [b])).rev < 2 ^ 64) (hp₀ : isOpenWikiPatch p₀ = true)
    (hp : s.cards.get? id = some p) (h : FateBehind spent L id p₀ k p) {i : UInt64} {surface : Surface}
    {payload : Value} (hb : b.1.change = .applied i surface payload) :
    Stored C spent L (k ++ [b]) (s.block C b) ∧
      ∃ q, (s.block C b).cards.get? id = some q ∧ FateBehind spent L id p₀ (k ++ [b]) q := by
  -- the card of the block first
  have hsettled : ∀ q : ProposalRecord, q.payload = p₀.payload → q.proposer = p₀.proposer →
      (if id = i.toNat then Node.settleCard payload q else q) =
        if settledBy (spent ++ k.filterMap fun b => appliedId b.1) id p₀ b = true then q.settleApplied
        else q := by
    intro q hpay hprop
    simp only [settledBy, hb, Node.settleCard, hpay, hprop, Bool.and_eq_true, Bool.or_eq_true, beq_iff_eq]
    by_cases hid : id = i.toNat
    · simp [hid]
    · simp [hid, Ne.symm hid]
  have hfate := h.settle (settledBy (spent ++ k.filterMap fun b => appliedId b.1) id p₀ b = true)
  rw [← hsettled p h.payload h.proposer] at hfate
  have hdone : (settles id p₀ spent k = true ∨
      settledBy (spent ++ k.filterMap fun b => appliedId b.1) id p₀ b = true) ↔
      settles id p₀ spent (k ++ [b]) = true := by
    rw [settles_concat, Bool.or_eq_true]
  unfold block afterBlockApplied
  simp only [hb]
  generalize hcards : (s.append b.1).cards.mapWithKey
    (fun j q => if j = i.toNat then Node.settleCard payload q else q) = cards
  have hcard : cards.get? id = some (if id = i.toNat then Node.settleCard payload p else p) := by
    rw [← hcards, get?_mapWithKey, append_cards, hp]
    rfl
  have hstored' : Stored C spent L (k ++ [b]) { s.append b.1 with cards := cards } := hstored.withCards rfl
  split_ifs with hmemory
  · -- then the walk over the others
    subst hmemory
    obtain ⟨hwalked, hjudged⟩ := hstored'.walk hroom (wikiPayloadPaths payload) id
    refine ⟨hwalked, _, hjudged.trans (congrArg _ hcard), ?_⟩
    refine (hfate.judged hp₀ fun hr m hm hdis => ?_).congr hdone (refused_concat L k b p₀.payload).symm
    exact standsOn_untouched hb hr hm hdis
  · have hentry : memoryEntry b.1 = none := by
      cases surface <;> first | exact absurd rfl hmemory | simp [memoryEntry, hb]
    refine ⟨hstored', _, hcard, hfate.congr hdone ?_⟩
    exact (refused_still hentry p₀.payload).trans (refused_concat L k b p₀.payload).symm

theorem get?_settleCards (s : WikiSeat) (id : Nat) :
    s.settleCardsAgainstChain.cards.get? id = (s.cards.get? id).map fun p =>
      if (s.spent.map UInt64.toNat).contains id && p.state != .applied then p.settleApplied else p := by
  exact get?_mapWithKey _ _ _

theorem Stored.adopted {k : List (ChainBlock × Bool)} (h : Stored C spent L k s)
    (hroom : (grow L k).rev < 2 ^ 64) {id : Nat} (hp : s.cards.get? id = some p) :
    Stored C spent L k (s.applyChainToState C) ∧
      (s.applyChainToState C).cards.get? id = some (s.judge (grow L k).now none id
        (if (s.spent.map UInt64.toNat).contains id && p.state != .applied then p.settleApplied else p)) := by
  have hsettled : Stored C spent L k s.settleCardsAgainstChain := ⟨h.rooted, h.legacy, h.ready, h.spent⟩
  obtain ⟨hwalked, hjudged⟩ := hsettled.walk hroom none id
  refine ⟨hwalked, hjudged.trans ?_⟩
  rw [get?_settleCards, hp]
  rfl

theorem FateBehind.cut (hstored : Stored C spent L (k ++ [b]) (s.append b.1))
    (hroom : (grow L (k ++ [b])).rev < 2 ^ 64) (hp₀ : isOpenWikiPatch p₀ = true)
    (hp : s.cards.get? id = some p) (h : FateBehind spent L id p₀ k p)
    (hb : ∀ i surface payload, b.1.change ≠ .applied i surface payload) :
    Stored C spent L (k ++ [b]) (s.block C b) ∧
      ∃ q, (s.block C b).cards.get? id = some q ∧ FateBehind spent L id p₀ (k ++ [b]) q := by
  have hentry : memoryEntry b.1 = none := by
    unfold memoryEntry
    split
    · exact absurd (by assumption) (hb _ _ _)
    · rfl
  have hid : appliedId b.1 = none := by
    unfold appliedId
    split
    · exact absurd (by assumption) (hb _ _ _)
    · rfl
  have hrefused := (refused_still hentry p₀.payload).trans (refused_concat L k b p₀.payload).symm
  have hsettles := settles_concat id p₀ spent k b
  rw [settledBy_other hb] at hsettles
  have hcard : (s.append b.1).cards.get? id = some p := by rw [append_cards, hp]
  -- a block after which nothing is looked at
  have hstill : (CutKind.of b.1.change).isSome = false ∨ b.2 = true →
      FateBehind spent L id p₀ (k ++ [b]) p := by
    intro hnone
    refine h.congr ?_ hrefused
    rw [hsettles]
    rcases hnone with hnone | hnone <;> simp [hnone]
  unfold block afterBlockApplied
  split
  · exact absurd (by assumption) (hb _ _ _)
  · split
    · rename_i hcut
      exact ⟨hstored, p, hcard, hstill (.inl (by rw [hcut]; rfl))⟩
    · rename_i upto hash kind hcut
      split_ifs with hkept
      · exact ⟨hstored, p, hcard, hstill (.inr hkept)⟩
      · obtain ⟨t, ht, hdropped, hcards, -⟩ := hstored.drop b.1.height kind hroom
        rw [ht]
        have htcard : t.cards.get? id = some p := by rw [hcards, hcard]
        obtain ⟨hadopted, hjudged⟩ := hdropped.adopted hroom htcard
        have hspent : t.spent = spent ++ k.filterMap fun b => appliedId b.1 := by
          simp [hdropped.spent, hid]
        rw [hspent] at hjudged
        have hdone : (settles id p₀ spent k = true ∨
            ((spent ++ k.filterMap fun b => appliedId b.1).map UInt64.toNat).contains id = true) ↔
            settles id p₀ spent (k ++ [b]) = true := by
          rw [hsettles, hcut]
          simp [hkept]
        have hfate := (@Fate.judged t _ _ _ _ (h.settleSpent _) hp₀ (grow L (k ++ [b])).now none id
          (fun _ _ hm => by simp at hm)).congr hdone (refused_concat L k b p₀.payload).symm
        generalize t.judge _ _ _ _ = q at hjudged hfate
        have hmarked : (t.applyChainToState C).markOpenWikiPatchesRebased.cards.get? id =
            some (if isOpenWikiPatch q then { q with supersededKind := some .rebase } else q) := by
          unfold markOpenWikiPatchesRebased
          rw [get?_map, hjudged]
          rfl
        refine ⟨⟨hadopted.rooted, hadopted.legacy, hadopted.ready, hadopted.spent⟩, _, hmarked, ?_⟩
        split_ifs
        · exact hfate.marked _
        · exact hfate

structure Judged (C : Crypto) (L : Lineage) (s : WikiSeat) : Prop where
  rooted : ∃ root, Rooted C s.memory root L
  legacy : s.memory.legacy = []
  ready : s.adoptionPending = false
  cards : ∀ id p, s.cards.get? id = some p → isOpenWikiPatch p = true →
    p.superseded = false ∧ standsOn L.now p.payload = true

theorem Judged.stored (h : s.Judged C L) : Stored C s.spent L [] s :=
  ⟨h.rooted, h.legacy, h.ready, (append_nil _).symm⟩

theorem Judged.fate (h : s.Judged C L) (hp : s.cards.get? id = some p) (hopen : isOpenWikiPatch p = true) :
    FateBehind s.spent L id p [] p := by
  obtain ⟨hsup, hstands⟩ := h.cards id p hp hopen
  have hstate : p.state = .proposed := by
    simp only [isOpenWikiPatch, Bool.and_eq_true, beq_iff_eq] at hopen
    exact hopen.1.2
  refine ⟨rfl, rfl, rfl, .inr (.inr ⟨by simp [settles], ?_, hstate, hsup⟩)⟩
  rintro ⟨t, ht, hrefused⟩
  obtain rfl := mem_singleton.mp ht
  rw [hstands] at hrefused
  cases hrefused

theorem grow_rev_le (L : Lineage) (k more : List (ChainBlock × Bool)) :
    (grow L k).rev ≤ (grow L (k ++ more)).rev := by
  rw [grow_append]
  exact Lineage.rev_le_foldl _ _

variable {blocks : List (ChainBlock × Bool)}

theorem Judged.live (h : s.Judged C L)
    (hplain : ∀ b ∈ blocks, ∀ e, memoryEntry b.1 = some e → isBaseEntry e = false)
    (hroom : (grow L blocks).rev < 2 ^ 64) (hp : s.cards.get? id = some p) (hopen : isOpenWikiPatch p = true) :
    Stored C s.spent L blocks (s.live C blocks) ∧
      ∃ q, (s.live C blocks).cards.get? id = some q ∧ FateBehind s.spent L id p blocks q := by
  induction blocks using List.reverseRecOn with
  | nil => exact ⟨h.stored, p, hp, h.fate hp hopen⟩
  | append_singleton k b ih =>
    have hbefore : ∀ a ∈ k, ∀ e, memoryEntry a.1 = some e → isBaseEntry e = false := fun a ha =>
      hplain a (mem_append_left _ ha)
    obtain ⟨hstored, q, hq, hfate⟩ := ih hbefore (lt_of_le_of_lt (grow_rev_le L k [b]) hroom)
    have happend := hstored.append b (hplain b (mem_append_right _ (mem_singleton_self b)))
    have hrun : s.live C (k ++ [b]) = (s.live C k).block C b := by
      simp [WikiSeat.live]
    rw [hrun]
    by_cases hb : ∃ i surface payload, b.1.change = .applied i surface payload
    · obtain ⟨i, surface, payload, hb⟩ := hb
      exact FateBehind.applied happend hroom hopen hq hfate hb
    · have hnot : ∀ i surface payload, b.1.change ≠ .applied i surface payload := fun i surface payload heq =>
        hb ⟨i, surface, payload, heq⟩
      exact FateBehind.cut happend hroom hopen hq hfate hnot

theorem store_cards (s : WikiSeat) (b : ChainBlock × Bool) : (s.store C b).cards = s.cards := by
  have hdrop : ∀ (t : WikiSeat) (height : UInt64) (kind : CutKind),
      ((t.drop C height kind).getD t).cards = t.cards := by
    intro t height kind
    unfold WikiSeat.drop
    generalize (if kind.wiki then t.memory.cut C t.memory.chain.length else some t.memory) = memory
    cases memory <;> rfl
  unfold WikiSeat.store
  split
  · exact append_cards s b.1
  · split
    · exact append_cards s b.1
    · rw [hdrop]
      exact append_cards s b.1

theorem Judged.replayed (h : s.Judged C L)
    (hplain : ∀ b ∈ blocks, ∀ e, memoryEntry b.1 = some e → isBaseEntry e = false)
    (hroom : (grow L blocks).rev < 2 ^ 64) :
    Stored C s.spent L blocks (blocks.foldl (store C) s) ∧ (blocks.foldl (store C) s).cards = s.cards := by
  induction blocks using List.reverseRecOn with
  | nil => exact ⟨h.stored, rfl⟩
  | append_singleton k b ih =>
    have hbefore : ∀ a ∈ k, ∀ e, memoryEntry a.1 = some e → isBaseEntry e = false := fun a ha =>
      hplain a (mem_append_left _ ha)
    obtain ⟨hstored, hcards⟩ := ih hbefore (lt_of_le_of_lt (grow_rev_le L k [b]) hroom)
    rw [foldl_append, foldl_cons, foldl_nil]
    exact ⟨hstored.store b (hplain b (mem_append_right _ (mem_singleton_self b))) hroom,
      (store_cards _ b).trans hcards⟩

def retired (s : WikiSeat) (id : Nat) : Bool := (s.cards.get? id).any fun p => p.superseded

def spentBehind (spent : List UInt64) (blocks : List (ChainBlock × Bool)) : List Nat :=
  (spent ++ blocks.filterMap fun b => appliedId b.1).map UInt64.toNat

theorem FateBehind.retired (hp : s.cards.get? id = some p) (h : FateBehind spent L id p₀ k p) :
    s.retired id = true ↔ settles id p₀ spent k = false ∧
      ∃ t ∈ treesBehind L k, standsOn t p₀.payload = false := by
  unfold WikiSeat.retired
  rw [hp, Option.any_some]
  rcases h.fate with ⟨hs, -, hsup⟩ | ⟨hs, hr, -, hsup⟩ | ⟨hs, hr, -, hsup⟩
  · simp [hsup, hs]
  · simp only [hsup, true_iff]
    exact ⟨by simpa using hs, hr⟩
  · simp only [hsup, Bool.false_eq_true, false_iff]
    exact fun hboth => hr hboth.2

theorem Judged.adopted_retired (h : s.Judged C L)
    (hplain : ∀ b ∈ blocks, ∀ e, memoryEntry b.1 = some e → isBaseEntry e = false)
    (hroom : (grow L blocks).rev < 2 ^ 64) (hp : s.cards.get? id = some p) (hopen : isOpenWikiPatch p = true) :
    (s.adopt C blocks).retired id = true ↔
      id ∉ spentBehind s.spent blocks ∧ standsOn (grow L blocks).now p.payload = false := by
  obtain ⟨hstored, hcards⟩ := h.replayed hplain hroom
  obtain ⟨-, hjudged⟩ := hstored.adopted hroom (by rw [hcards]; exact hp)
  have hsup := (h.cards id p hp hopen).1
  have hstate : (p.state != .applied) = true := by
    simp only [isOpenWikiPatch, Bool.and_eq_true, beq_iff_eq] at hopen
    rw [hopen.1.2]
    decide
  rw [hstored.spent, hstate, Bool.and_true] at hjudged
  have hcontains : (spentBehind s.spent blocks).contains id = true ↔ id ∈ spentBehind s.spent blocks :=
    contains_iff_mem
  change (s.adopt C blocks).cards.get? id = some (judge _ _ _ _ (if
    (spentBehind s.spent blocks).contains id = true then p.settleApplied else p)) at hjudged
  unfold WikiSeat.retired
  rw [hjudged, Option.any_some]
  split_ifs with hspent
  · rw [judge_closed (by simp [isOpenWikiPatch, ProposalRecord.settleApplied])]
    simp [ProposalRecord.settleApplied, hcontains.mp hspent]
  · obtain ⟨hkeeps, hretires⟩ := @judge_open (blocks.foldl (store C) s) p hopen (grow L blocks).now none id
    have hfree : id ∉ spentBehind s.spent blocks := fun hin => hspent (hcontains.mpr hin)
    cases hstands : standsOn (grow L blocks).now p.payload with
    | true =>
      obtain ⟨kind, heq⟩ := hkeeps (.inl hstands)
      rw [heq]
      simp [hsup]
    | false =>
      rw [hretires hstands (by simp)]
      simp [ProposalRecord.retire, hfree]

theorem settles_spent (h : settles id p spent blocks = true) : id ∈ spentBehind spent blocks := by
  induction blocks generalizing spent with
  | nil => simp [settles] at h
  | cons b blocks ih =>
    have hids : spentBehind spent (b :: blocks) = spentBehind (spent ++ (appliedId b.1).toList) blocks := by
      unfold spentBehind
      cases hid : appliedId b.1 <;> simp [hid]
    rw [settles, Bool.or_eq_true] at h
    rcases h with hnow | hlater
    · unfold settledBy at hnow
      split at hnow
      · rename_i i surface payload hc
        simp only [Bool.and_eq_true, beq_iff_eq] at hnow
        rw [hids]
        simp [spentBehind, appliedId, hc, hnow.1]
      · simp only [Bool.and_eq_true] at hnow
        have hin := contains_iff_mem.mp hnow.2
        rw [hids]
        unfold spentBehind
        rw [append_assoc, map_append]
        exact mem_append_left _ hin
    · rw [hids]
      exact ih hlater

theorem grow_congr {stored : List (ChainBlock × Bool)} (h : stored.map Prod.fst = blocks.map Prod.fst)
    (L : Lineage) (spent : List UInt64) :
    grow L stored = grow L blocks ∧ spentBehind spent stored = spentBehind spent blocks := by
  have hentries : ∀ l : List (ChainBlock × Bool), (l.filterMap fun b => memoryEntry b.1) =
      (l.map Prod.fst).filterMap memoryEntry := fun l => by rw [filterMap_map]; rfl
  have hids : ∀ l : List (ChainBlock × Bool), (l.filterMap fun b => appliedId b.1) =
      (l.map Prod.fst).filterMap appliedId := fun l => by rw [filterMap_map]; rfl
  unfold grow spentBehind
  rw [hentries, hids, hentries blocks, hids blocks, h]
  exact ⟨rfl, rfl⟩

end WikiSeat

open WikiSeat

/-- Without its base a seat retires nothing. With it, the live walks and the one of the
replay retire the same cards exactly when no open patch is refused by a tree on the way
and then stands again, or stays open under an id that the chain gave to another change. -/
theorem replay_retires_alike (C : Crypto) :
    (∀ (s : WikiSeat) (moved : Option (List String)),
      (s.adoptionPending = true ∨ ∃ e, s.memory.fold C = .error e) →
        (s.supersedeStaleWiki C moved).cards = s.cards) ∧
    ∀ (s : WikiSeat) (L : Lineage) (blocks stored : List (ChainBlock × Bool)), s.Judged C L →
      stored.map Prod.fst = blocks.map Prod.fst →
      (∀ b ∈ blocks, ∀ e, memoryEntry b.1 = some e → isBaseEntry e = false) →
      (grow L blocks).rev < 2 ^ 64 →
      ((∀ id p, s.cards.get? id = some p → isOpenWikiPatch p = true →
          (s.live C blocks).retired id = (s.adopt C stored).retired id) ↔
        ∀ id p, s.cards.get? id = some p → isOpenWikiPatch p = true →
          (∃ t ∈ treesBehind L blocks, standsOn t p.payload = false) →
            settles id p s.spent blocks = true ∨
              (id ∉ spentBehind s.spent blocks ∧ standsOn (grow L blocks).now p.payload = false)) := by
  constructor
  · intro s moved hpending
    unfold supersedeStaleWiki
    rcases hpending with hpending | ⟨e, he⟩
    · rw [hpending]
      rfl
    · rw [he]
      split_ifs <;> rfl
  · intro s L blocks stored hs hsame hplain hroom
    obtain ⟨hgrow, hspent⟩ := grow_congr hsame L s.spent
    have hplain' : ∀ b ∈ stored, ∀ e, memoryEntry b.1 = some e → isBaseEntry e = false := by
      intro b hb e he
      obtain ⟨a, ha, heq⟩ := List.mem_map.mp (hsame ▸ List.mem_map_of_mem (f := Prod.fst) hb)
      exact hplain a ha e (heq ▸ he)
    refine forall_congr' fun id => forall_congr' fun p => forall_congr' fun hp => forall_congr' fun hopen => ?_
    obtain ⟨-, q, hq, hfate⟩ := hs.live hplain hroom hp hopen
    have hlive := hfate.retired hq
    have hadopted := hs.adopted_retired hplain' (hgrow ▸ hroom) hp hopen
    rw [hgrow, hspent] at hadopted
    rw [Bool.eq_iff_iff, hlive, hadopted]
    have hfinal : standsOn (grow L blocks).now p.payload = false →
        ∃ t ∈ treesBehind L blocks, standsOn t p.payload = false := fun hstands =>
      ⟨_, now_mem_treesBehind L blocks, hstands⟩
    cases hsettles : settles id p s.spent blocks with
    | true =>
      have hin := settles_spent hsettles
      simp [hin]
    | false =>
      simp only [true_and, Bool.false_eq_true, false_or]
      exact ⟨fun h => h.mp, fun h => ⟨h, fun hboth => hfinal hboth.2⟩⟩

namespace Sample.Retired

open Chain.Sample

def patch (text : String) : Value := .obj [("op", .str "wiki_patch"), ("value", .str text)]

def created : Value := patch "diff --git a/p b/p\nnew file mode\n@@ -0,0 +1 @@\n+a\n"

def deleted : Value := patch "diff --git a/p b/p\ndeleted file mode\n@@ -1 +0,0 @@\n-a\n"

def edited : Value := patch "diff --git a/p b/p\n@@ -1 +1 @@\n-a\n+b\n"

def chainWith (chain : List ChainBlock) (id : UInt64) (payload : Value) : List ChainBlock :=
  chain ++ [next solo [("ann", 1)] chain (.applied id .memory payload)]

def begun : List ChainBlock := chainWith opened 7 created

def gone : List ChainBlock := chainWith begun 8 deleted

def back : List ChainBlock := chainWith gone 9 created

def seat : WikiSeat where
  memory := ⟨[], [(some 7, created)], none, 0⟩
  adoptionPending := false
  blocks := begun
  spent := [7]
  cards := SortedMap.empty.insert 5 { surface := .memory, payload := edited, proposer := "ann" }
  replayHeldAt := SortedMap.empty

def lineage : Lineage := [(some 7, created)].foldl Lineage.push Lineage.founding

def blocks : List (ChainBlock × Bool) := (back.drop 2).map fun b => (b, true)

theorem chainWith_accepted {chain : List ChainBlock}
    (h : ∃ w, walkChain Crypto.toy chain = .ok w ∧ Walked Crypto.toy solo chain w)
    (hlen : chain.length < 2 ^ 64) {id : UInt64} (hid : id ∉ chain.filterMap appliedId) (payload : Value) :
    ∃ w, walkChain Crypto.toy (chainWith chain id payload) = .ok w ∧
      Walked Crypto.toy solo (chainWith chain id payload) w := by
  obtain ⟨w, hw, hwalked⟩ := h
  have hseen : id ∉ w.seen := by
    rw [hwalked.seen, mem_toFinset]
    exact hid
  have hne : chain ≠ [] := by
    rintro rfl
    obtain ⟨_, _, heq, -⟩ := hwalked.opens
    simp at heq
  obtain ⟨w', hstep⟩ := applied_accepted hwalked hlen hseen .memory payload
  exact ⟨w', walk_concat hne hw hstep, hwalked.advance hstep⟩

theorem back_accepted : ∃ w, walkChain Crypto.toy back = .ok w := by
  have hopened : ∃ w, walkChain Crypto.toy opened = .ok w ∧ Walked Crypto.toy solo opened w := by
    obtain ⟨w, hw⟩ := opened_accepted
    obtain ⟨g, hwalked⟩ := walkChain_walked hw
    obtain ⟨_, _, hopens, hg⟩ := hwalked.opens
    obtain ⟨rfl, rfl⟩ := List.cons.inj hopens
    obtain rfl : solo = g := ChainChange.genesis.inj hg
    exact ⟨w, hw, hwalked⟩
  have hbegun := @chainWith_accepted _ hopened (by decide) 7 (by decide) created
  have hgone := @chainWith_accepted _ hbegun (by decide) 8 (by decide) deleted
  obtain ⟨w, hw, -⟩ := @chainWith_accepted _ hgone (by decide) 9 (by decide) created
  exact ⟨w, hw⟩

theorem seat_judged : seat.Judged Crypto.toy lineage := by
  have hstands : standsOn lineage.now edited = true := by decide +kernel
  refine ⟨⟨Lineage.founding, .founding ?_ rfl⟩, rfl, rfl, ?_⟩
  · intro e he
    obtain rfl := mem_singleton.mp he
    rfl
  · intro id p hp _
    simp only [seat, get?_insert, get?_empty] at hp
    split_ifs at hp
    cases hp
    exact ⟨rfl, hstands⟩

end Sample.Retired

open Sample.Retired in
theorem replay_retires_alike_sample :
    (seat.live Crypto.toy (blocks.take 1)).retired 5 = (seat.adopt Crypto.toy (blocks.take 1)).retired 5 := by
  have hiff := (replay_retires_alike Crypto.toy).2 seat lineage (blocks.take 1) (blocks.take 1) seat_judged rfl
    (by decide) (by decide +kernel)
  refine hiff.mpr ?_ 5 { surface := .memory, payload := edited, proposer := "ann" } (by rfl) (by rfl)
  intro id p hp _ _
  simp only [seat, SortedMap.get?_insert, SortedMap.get?_empty] at hp
  split_ifs at hp with hid
  obtain rfl := Option.some.inj hp
  rw [hid]
  exact Or.inr (by decide +kernel)

open Sample.Retired in
/-- A page is deleted and comes back as it was: the live seat has retired the card that edits
it, and the one that adopts the chain keeps it open. -/
theorem replay_keeps_what_live_retired : (∃ w, walkChain Crypto.toy back = .ok w) ∧
    seat.Judged Crypto.toy lineage ∧ (seat.live Crypto.toy blocks).retired 5 = true ∧
      (seat.adopt Crypto.toy blocks).retired 5 = false :=
  ⟨back_accepted, seat_judged, by decide +kernel⟩

end Molt.Engine
