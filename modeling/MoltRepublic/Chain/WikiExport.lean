import Mathlib
import MoltRepublic.Chain.Consent

/-! The wiki export and the outsider who checks it (`verify_wiki_export`): a part of the
chain, without its links, its cuts and its other surfaces, and the tree it folds to. -/

namespace Molt.Wiki
open Molt.Core Json

def wikiFold (applied : List Value) : Tree :=
  applied.foldl (fun tree payload => (foldOne tree payload).1) SortedMap.empty

end Molt.Wiki

namespace Molt.Chain
open Molt.Core Json Check List SortedMap

def wikiExportFormat : String := "molt-wiki-export-v1"

structure WikiExportBundle where
  format : String
  genesis : ChainBlock
  blocks : List ChainBlock

def isWikiPatch : ChainChange → Bool
  | .applied _ .memory payload => payload.getStr "op" == some "wiki_patch"
  | _ => false

def isMembership : ChainChange → Bool
  | .membership _ => true
  | _ => false

def isExported (b : ChainBlock) : Bool := isMembership b.change || isWikiPatch b.change

def bundleFromChain : List ChainBlock → Option WikiExportBundle
  | [] => none
  | genesis :: rest =>
    match genesis.change with
    | .genesis _ => some ⟨wikiExportFormat, genesis, rest.filter isExported⟩
    | _ => none

structure WikiExportReport where
  republicId : String
  name : String
  ruleM : UInt8
  ruleN : UInt8
  members : List String
  membershipBlocks : Nat
  patches : Nat
  files : Nat

structure ExportWalk where
  identities : List MemberIdentity
  membershipBlocks : Nat := 0
  anchors : SortedMap String String := SortedMap.empty
  payloads : List Value := []
  seen : Finset UInt64 := ∅
  lastHeight : UInt64 := 0

def ExportWalk.working (x : ExportWalk) (m : String) : String :=
  match x.anchors.get? m with
  | some pk => pk
  | none => ((x.identities.find? fun i => i.member == m).map (·.nostrPk)).getD ""

def ExportWalk.reanchor (x : ExportWalk) : ChainChange → ExportWalk
  | .membership m =>
    match m.nostrPk.filter (· != "") with
    | some pk => { x with anchors := x.anchors.insert m.member pk }
    | none => x
  | _ => x

def ExportWalk.record (x : ExportWalk) (block : ChainBlock) : Except String ExportWalk :=
  let height := block.height
  match block.change with
  | .membership m => do
    let identities ← (applyMembership x.identities m.op m.member m.identityPk).mapError fun e =>
      s!"block {height}: {e}"
    return { x with identities := identities, membershipBlocks := x.membershipBlocks + 1 }
  | .applied id _ payload => do
    ensure (id ∉ x.seen) s!"block {height}: proposal {id} is applied twice"
    return { x with seen := insert id x.seen, payloads := x.payloads ++ [payload] }
  -- the admission leaves only membership and applied blocks
  | _ => throw "unreachable"

def exportStep (C : Crypto) (head : ChainHead) (x : ExportWalk) (block : ChainBlock) :
    Except String ExportWalk := do
  let height := block.height
  ensure (x.lastHeight < height) s!"block {height}: heights must ascend"
  let x := { x with lastHeight := height }
  ensure (isExported block)
    s!"block {height}: only membership blocks and wiki patches are exported"
  let signers ← blockSigners C head.republicId x.identities block
  (consentSpends block.change x.working).mapError fun why => s!"block {height}: {why}"
  let x := x.reanchor block.change
  let count := signers.card
  let m := head.ruleM
  ensure (m.toNat ≤ count) s!"block {height}: {count} valid approvals, threshold is {m}"
  x.record block

def checkShipped (tree : Wiki.Tree) (e : String × String) : Except String Unit :=
  let path := e.1
  match tree.get? path with
  | none => .error s!"tree: {path} is missing from the export"
  | some shipped => ensure (shipped = e.2) s!"tree: {path} differs from the folded patches"

def checkTree (folded tree : Wiki.Tree) : Except String Unit := do
  folded.entries.forM (checkShipped tree)
  match tree.entries.find? fun e => (folded.get? e.1).isNone with
  | some extra =>
    let path := extra.1
    throw s!"tree: {path} is not in the folded patches"
  | none => return

/-- `verify_wiki_export`, with the reader of the bundle's JSON beside it. -/
def verifyWikiExport (C : Crypto) (fromStr : String → Except String WikiExportBundle)
    (bundleJson : String) (tree : Wiki.Tree) : Except String WikiExportReport := do
  let bundle ← (fromStr bundleJson).mapError fun e => s!"bundle: {e}"
  let format := bundle.format
  ensure (format = wikiExportFormat) s!"bundle format {format} is not {wikiExportFormat}"
  let head ← (verifyGenesis C bundle.genesis).mapError fun e => s!"genesis: {e}"
  match bundle.genesis.change with
  | .genesis g =>
    let x ← bundle.blocks.foldlM (exportStep C head) { identities := head.identities }
    checkTree (Wiki.wikiFold x.payloads) tree
    return {
      republicId := head.republicId
      name := g.name
      ruleM := head.ruleM
      ruleN := g.ruleN
      members := x.identities.map MemberIdentity.member
      membershipBlocks := x.membershipBlocks
      patches := x.payloads.length
      files := tree.entries.length }
  | _ => throw "genesis: block 0 is not a genesis"

def memoryPayload (b : ChainBlock) : Option Value :=
  match b.change with
  | .applied _ .memory payload => some payload
  | _ => none

def memoryPayloads (blocks : List ChainBlock) : List Value := blocks.filterMap memoryPayload

variable {C : Crypto}

variable {head : ChainHead} {x : ExportWalk} {b : ChainBlock}

variable {y : ExportWalk}

theorem exportStep_eq_ok :
    exportStep C head x b = .ok y ↔ x.lastHeight < b.height ∧ isExported b = true ∧
      (∃ signers, blockSigners C head.republicId x.identities b = .ok signers ∧
        head.ruleM.toNat ≤ signers.card) ∧
      consentSpends b.change x.working = .ok () ∧
      (ExportWalk.reanchor { x with lastHeight := b.height } b.change).record b = .ok y := by
  unfold exportStep
  simp only [bind_eq_ok, ensure_eq_ok, exists_const, mapError_eq_ok]
  constructor
  · rintro ⟨hlt, hexp, signers, hsigners, _, hspends, hm, hrecord⟩
    exact ⟨hlt, hexp, ⟨signers, hsigners, hm⟩, hspends, hrecord⟩
  · rintro ⟨hlt, hexp, ⟨signers, hsigners, hm⟩, hspends, hrecord⟩
    exact ⟨hlt, hexp, signers, hsigners, ⟨⟩, hspends, hm, hrecord⟩

theorem isExported_cases (h : isExported b = true) :
    (∃ m, b.change = .membership m) ∨ ∃ id payload, b.change = .applied id .memory payload := by
  unfold isExported at h
  cases hc : b.change with
  | membership m => exact .inl ⟨m, rfl⟩
  | applied id surface payload =>
    cases surface with
    | memory => exact .inr ⟨id, payload, rfl⟩
    | _ => simp [hc, isMembership, isWikiPatch] at h
  | _ => simp [hc, isMembership, isWikiPatch] at h

theorem reanchor_frame (x : ExportWalk) (change : ChainChange) : ∃ anchors,
    x.reanchor change = { x with anchors := anchors } := by
  unfold ExportWalk.reanchor
  split
  · split
    all_goals exact ⟨_, rfl⟩
  · exact ⟨_, rfl⟩

theorem reanchor_working (x : ExportWalk) (b : ChainBlock) (u : String) :
    (x.reanchor b.change).working u =
      match reanchors b with
      | some (v, pk) => if u = v then pk else x.working u
      | none => x.working u := by
  unfold ExportWalk.reanchor reanchors
  cases b.change with
  | membership m =>
    dsimp only
    cases hpk : m.nostrPk.filter (· != "") with
    | none => rfl
    | some pk =>
      simp only [Option.map_some, ExportWalk.working, get?_insert]
      by_cases hu : u = m.member <;> simp [hu]
  | _ => rfl

structure Recorded (x y : ExportWalk) (b : ChainBlock) : Prop where
  identities : y.identities = x.identities
  anchors : y.anchors = x.anchors
  lastHeight : y.lastHeight = x.lastHeight
  payloads : y.payloads = x.payloads ++ memoryPayloads [b]
  seen : y.seen = x.seen ∪ ([b].filterMap appliedId).toFinset
  fresh : ∀ id, appliedId b = some id → id ∉ x.seen

theorem record_eq_ok (hexp : isExported b = true) (h : x.record b = .ok y) : Recorded x y b := by
  rcases isExported_cases hexp with ⟨m, hc⟩ | ⟨id, payload, hc⟩
  · simp only [ExportWalk.record, hc, bind_eq_ok, mapError_eq_ok, pure_eq_ok] at h
    obtain ⟨identities, hroster, rfl⟩ := h
    exact ⟨(applyMembership_eq_ok hroster).2, rfl, rfl, by simp [memoryPayloads, memoryPayload, hc],
      by simp [appliedId, hc], by simp [appliedId, hc]⟩
  · simp only [ExportWalk.record, hc, bind_eq_ok, ensure_eq_ok, exists_const, pure_eq_ok] at h
    obtain ⟨hfresh, rfl⟩ := h
    refine ⟨rfl, rfl, rfl, by simp [memoryPayloads, memoryPayload, hc], ?_, ?_⟩
    · simp [appliedId, hc]
    · simpa [appliedId, hc] using hfresh

structure Exported (C : Crypto) (head : ChainHead) (blocks : List ChainBlock) (x : ExportWalk) :
    Prop where
  identities : x.identities = head.identities
  payloads : x.payloads = memoryPayloads blocks
  seen : x.seen = (blocks.filterMap appliedId).toFinset
  once : (blocks.filterMap appliedId).Nodup
  admitted : ∀ b ∈ blocks, isExported b = true
  below : ∀ b ∈ blocks, b.height ≤ x.lastHeight
  ascends : blocks.Pairwise fun a b => a.height < b.height
  backed : ∀ b ∈ blocks, ∃ signers, blockSigners C head.republicId head.identities b = .ok signers ∧
    head.ruleM.toNat ≤ signers.card

theorem Exported.start (head : ChainHead) :
    Exported C head [] { identities := head.identities } := by
  constructor <;> simp [memoryPayloads]

theorem Exported.step {blocks : List ChainBlock} (h : Exported C head blocks x)
    (hstep : exportStep C head x b = .ok y) :
    Exported C head (blocks ++ [b]) y := by
  obtain ⟨hlt, hexp, hsigners, -, hrecord⟩ := exportStep_eq_ok.mp hstep
  have hr := record_eq_ok hexp hrecord
  obtain ⟨anchors, hframe⟩ := reanchor_frame { x with lastHeight := b.height } b.change
  rw [hframe] at hr
  have hlast : y.lastHeight = b.height := hr.lastHeight
  have hbelow : ∀ a ∈ blocks, a.height < b.height := fun a ha =>
    UInt64.lt_of_le_of_lt (h.below a ha) hlt
  refine ⟨hr.identities.trans h.identities, ?_, ?_, ?_, ?_, ?_, ?_, ?_⟩
  · rw [hr.payloads, h.payloads]
    simp [memoryPayloads]
  · rw [hr.seen, h.seen, filterMap_append, toFinset_append]
  · rw [filterMap_append, nodup_append]
    refine ⟨h.once, ?_, ?_⟩
    · cases hid : appliedId b <;> simp [hid]
    · intro i hi j hj heq
      cases hid : appliedId b with
      | none => simp [hid] at hj
      | some id =>
        obtain rfl : j = id := by simpa [hid] using hj
        apply hr.fresh j hid
        change j ∈ x.seen
        rw [h.seen, mem_toFinset]
        exact heq ▸ hi
  · intro a ha
    rcases mem_append.mp ha with ha | ha
    · exact h.admitted a ha
    · rwa [mem_singleton.mp ha]
  · intro a ha
    rw [hlast]
    rcases mem_append.mp ha with ha | ha
    · exact UInt64.le_of_lt (hbelow a ha)
    · rw [mem_singleton.mp ha]
      exact UInt64.le_refl _
  · rw [pairwise_append]
    refine ⟨h.ascends, pairwise_singleton _ _, fun a ha c hc => ?_⟩
    rw [mem_singleton.mp hc]
    exact hbelow a ha
  · intro a ha
    rcases mem_append.mp ha with ha | ha
    · exact h.backed a ha
    · rw [mem_singleton.mp ha, ← h.identities]
      exact hsigners

theorem Exported.run {blocks : List ChainBlock}
    (h : blocks.foldlM (exportStep C head) { identities := head.identities } = .ok x) :
    Exported C head blocks x :=
  foldlM_history (P := Exported C head) (k := []) (fun _ _ _ _ hk hstep => hk.step hstep)
    (Exported.start head) h

structure Beside (head : ChainHead) (w : ChainWalk) (x : ExportWalk) : Prop where
  republicId : w.head.republicId = head.republicId
  ruleM : w.head.ruleM = head.ruleM
  identities : x.identities = w.head.identities
  working : ∀ u, x.working u = walkWorkingAnchor w.running u
  seen : x.seen ⊆ w.seen
  height : x.lastHeight.toNat ≤ w.head.height.toNat

variable {held : Held}

theorem Beside.skip {w w' : ChainWalk} (h : Beside head w x) (hb : isExported b = false)
    (hstep : advance C held w b = .ok w') : Beside head w' x := by
  obtain ⟨next, consumed, wiki, running, hnext, _, _, hfold, rfl⟩ := advance_eq_ok.mp hstep
  obtain ⟨hheight, _, _, _, identities, hroster, rfl⟩ := verifyNext_eq_ok.mp hnext
  obtain rfl := rosterAfter_eq_ok hroster
  have hstill : reanchors b = none := by
    unfold reanchors
    split
    · rename_i m hc
      simp [isExported, isMembership, hc] at hb
    · rfl
  refine ⟨h.republicId, h.ruleM, h.identities, ?_, ?_, ?_⟩
  · intro u
    rw [h.working u]
    rw [foldOne_workingAnchor hfold, hstill]
  · cases consumed with
    | none => exact h.seen
    | some id => exact h.seen.trans (Finset.subset_insert _ _)
  · have hle := h.height
    change _ ≤ b.height.toNat
    omega

theorem Beside.step {w w' : ChainWalk} (h : Beside head w x) (hb : isExported b = true)
    (hstep : advance C held w b = .ok w') :
    ∃ y, exportStep C head x b = .ok y ∧ Beside head w' y := by
  obtain ⟨next, consumed, wiki, running, hnext, hspends, _, hfold, rfl⟩ := advance_eq_ok.mp hstep
  obtain ⟨hheight, _, hchange, hsigners, identities, hroster, rfl⟩ := verifyNext_eq_ok.mp hnext
  rw [h.republicId, h.ruleM, ← h.identities] at hsigners
  have hworking : x.working = walkWorkingAnchor w.running := funext h.working
  rw [← hworking] at hspends
  have hlt : x.lastHeight < b.height := by
    have hle := h.height
    rw [UInt64.lt_iff_toNat_lt]
    omega
  obtain ⟨anchors, hframe⟩ := reanchor_frame { x with lastHeight := b.height } b.change
  have hmoved : ∀ u, (ExportWalk.reanchor { x with lastHeight := b.height } b.change).working u =
      walkWorkingAnchor running u := by
    intro u
    rw [reanchor_working, foldOne_workingAnchor hfold, ← h.working u]
    rfl
  -- the record accepts what the roster and the guard of the walk accepted
  obtain ⟨y, hrecord, hids, hanchors, hlast, hseen⟩ : ∃ y,
      (ExportWalk.reanchor { x with lastHeight := b.height } b.change).record b = .ok y ∧
        y.identities = x.identities ∧ y.anchors = anchors ∧ y.lastHeight = b.height ∧
        y.seen ⊆ consumed.elim w.seen fun id => insert id w.seen := by
    rw [hframe]
    rcases isExported_cases hb with ⟨m, hc⟩ | ⟨id, payload, hc⟩
    · have hop : applyMembership x.identities m.op m.member m.identityPk = .ok identities := by
        rw [h.identities]
        simpa [rosterAfter, hc] using hroster
      obtain rfl := (applyMembership_eq_ok hop).2
      obtain rfl : none = consumed := by simpa [checkChange, hc] using hchange
      refine ⟨⟨x.identities, x.membershipBlocks + 1, anchors, x.payloads, x.seen, b.height⟩, ?_,
        rfl, rfl, rfl, h.seen⟩
      simp only [ExportWalk.record, hc, bind_eq_ok, mapError_eq_ok, pure_eq_ok]
      exact ⟨_, hop, rfl⟩
    · simp only [checkChange, hc, bind_eq_ok, ensure_eq_ok, exists_const, pure_eq_ok] at hchange
      obtain ⟨hfresh, rfl⟩ := hchange
      refine ⟨⟨x.identities, x.membershipBlocks, anchors, x.payloads ++ [payload],
        insert id x.seen, b.height⟩, ?_, rfl, rfl, rfl, Finset.insert_subset_insert id h.seen⟩
      simp only [ExportWalk.record, hc, bind_eq_ok, ensure_eq_ok, exists_const, pure_eq_ok]
      exact ⟨fun hin => hfresh (h.seen hin), by trivial⟩
  refine ⟨y, exportStep_eq_ok.mpr ⟨hlt, hb, hsigners, hspends, hrecord⟩,
    h.republicId, h.ruleM, ?_, ?_, hseen, ?_⟩
  · rw [hids, h.identities]
    exact (rosterAfter_eq_ok hroster).symm
  · intro u
    rw [hframe] at hmoved
    rw [← hmoved u]
    simp [ExportWalk.working, hids, hanchors]
  · rw [hlast]

theorem Beside.run {rest : List ChainBlock} {w w' : ChainWalk}
    (h : Beside head w { identities := head.identities }) (hrun : rest.foldlM (advance C held) w = .ok w') :
    ∃ x, (rest.filter isExported).foldlM (exportStep C head) { identities := head.identities } =
      .ok x ∧ Beside head w' x := by
  refine foldlM_history (k := []) (P := fun k w => ∃ x, (k.filter isExported).foldlM
    (exportStep C head) { identities := head.identities } = .ok x ∧ Beside head w x) ?_
    ⟨_, rfl, h⟩ hrun
  rintro k w b w' ⟨x, hx, hbeside⟩ hstep
  rw [filter_append]
  cases hb : isExported b with
  | false => exact ⟨x, by simpa [hb] using hx, hbeside.skip hb hstep⟩
  | true =>
    obtain ⟨y, hy, hbeside'⟩ := hbeside.step hb hstep
    refine ⟨y, ?_, hbeside'⟩
    rw [filter_cons_of_pos hb, filter_nil]
    exact foldlM_concat_eq_ok.mpr ⟨x, hx, hy⟩

variable {tree : Wiki.Tree}

theorem checkTree_eq_ok {folded : Wiki.Tree} {u : Unit} :
    checkTree folded tree = .ok u ↔ tree = folded := by
  have hshipped : ∀ e, checkShipped tree e = .ok () ↔ tree.get? e.1 = some e.2 := by
    intro e
    unfold checkShipped
    dsimp only
    split
    · rename_i hnone
      simp [hnone]
    · rename_i shipped hsome
      simp [hsome, ensure_eq_ok]
  have hextra : (match tree.entries.find? fun e => (folded.get? e.1).isNone with
      | some extra => throw s!"tree: {extra.1} is not in the folded patches"
      | none => return : Except String Unit) = .ok u ↔
      ∀ e ∈ tree.entries, folded.get? e.1 ≠ none := by
    cases hfind : tree.entries.find? fun e => (folded.get? e.1).isNone with
    | none =>
      have hall := find?_eq_none.mp hfind
      simp only [pure_eq_ok, true_iff]
      intro e he hnone
      exact hall e he (by simp [hnone])
    | some extra =>
      have hmem := mem_of_find?_eq_some hfind
      have hnone := find?_some hfind
      simp only [throw, throwThe, MonadExceptOf.throw, reduceCtorEq, false_iff]
      intro hall
      exact hall extra hmem (by simpa using hnone)
  unfold checkTree
  rw [bind_eq_ok]
  constructor
  · rintro ⟨_, hforM, hfind⟩
    have hforall := forM_eq_ok hforM
    have hall := hextra.mp hfind
    apply ext_get?
    intro p
    cases hp : folded.get? p with
    | some content => exact (hshipped _).mp (hforall _ (get?_eq_some.mp hp))
    | none =>
      cases ht : tree.get? p with
      | none => rfl
      | some content => exact absurd hp (hall _ (get?_eq_some.mp ht))
  · rintro rfl
    refine ⟨(), forM_of_forall fun e he => ?_, hextra.mpr fun e he => ?_⟩
    · exact (hshipped e).mpr (get?_eq_some.mpr he)
    · rw [get?_eq_some.mpr he]
      simp

theorem memoryPayloads_cons (b : ChainBlock) (blocks : List ChainBlock) :
    memoryPayloads (b :: blocks) = memoryPayloads [b] ++ memoryPayloads blocks := by
  unfold memoryPayloads
  rw [← filterMap_append]
  rfl

theorem foldl_memoryPayloads_skipped (h : isExported b = false) (tree : Wiki.Tree) :
    (memoryPayloads [b]).foldl (fun tree payload => (Wiki.foldOne tree payload).1) tree = tree := by
  simp only [memoryPayloads, filterMap_cons, filterMap_nil, memoryPayload]
  split
  · rfl
  · rename_i payload hc
    split at hc
    · rename_i id inner hchange
      obtain rfl : inner = payload := Option.some.inj hc
      have hop : inner.getStr "op" ≠ some "wiki_patch" := by
        simpa [isExported, isMembership, isWikiPatch, hchange] using h
      simp [Wiki.foldOne, hop]
    · simp at hc

theorem wikiFold_exported (blocks : List ChainBlock) :
    Wiki.wikiFold (memoryPayloads (blocks.filter isExported)) =
      Wiki.wikiFold (memoryPayloads blocks) := by
  have key : ∀ (l : List ChainBlock) (tree : Wiki.Tree),
      (memoryPayloads (l.filter isExported)).foldl
        (fun tree payload => (Wiki.foldOne tree payload).1) tree =
      (memoryPayloads l).foldl (fun tree payload => (Wiki.foldOne tree payload).1) tree := by
    intro l
    induction l with
    | nil => exact fun _ => rfl
    | cons b l ih =>
      intro tree
      rw [memoryPayloads_cons b l, foldl_append]
      cases hb : isExported b with
      | false =>
        rw [filter_cons_of_neg (by simp [hb]), foldl_memoryPayloads_skipped hb]
        exact ih tree
      | true =>
        rw [filter_cons_of_pos hb, memoryPayloads_cons, foldl_append]
        exact ih _
  exact key blocks SortedMap.empty

theorem length_memoryPayloads_exported (blocks : List ChainBlock) :
    (memoryPayloads (blocks.filter isExported)).length =
      (blocks.filter fun b => isWikiPatch b.change).length := by
  induction blocks with
  | nil => rfl
  | cons b blocks ih =>
    cases hb : isExported b with
    | false =>
      have hpatch : isWikiPatch b.change = false := by
        simpa [isExported] using (Bool.or_eq_false_iff.mp hb).2
      rw [filter_cons_of_neg (by simp [hb]), filter_cons_of_neg (by simp [hpatch]), ih]
    | true =>
      rw [filter_cons_of_pos hb, memoryPayloads_cons, length_append, ih]
      rcases isExported_cases hb with ⟨m, hc⟩ | ⟨id, payload, hc⟩
      · simp [memoryPayloads, memoryPayload, isWikiPatch, hc]
      · have hop : isWikiPatch b.change = true := by
          simpa [isExported, isMembership, hc] using hb
        have hone : (memoryPayloads [b]).length = 1 := by
          simp [memoryPayloads, memoryPayload, hc]
        simp [hone, hop, Nat.add_comm]

structure Proves (C : Crypto) (g : Genesis) (bundle : WikiExportBundle) (tree : Wiki.Tree) :
    Prop where
  opens : bundle.genesis.change = .genesis g
  republicId : C.republicId g.name g.ruleM g.ruleN g.identities = g.republicId
  seats : (g.identities.map MemberIdentity.member).Nodup
  founded : ∀ id ∈ g.identities, Signed C g.republicId id bundle.genesis
  admitted : ∀ b ∈ bundle.blocks, isExported b = true
  folds : tree = Wiki.wikiFold (memoryPayloads bundle.blocks)
  ascends : (bundle.genesis :: bundle.blocks).Pairwise fun a b => a.height < b.height
  own : (bundle.blocks.filterMap appliedId).Nodup
  backed : ∀ b ∈ bundle.blocks, isWikiPatch b.change = true → ∃ voices : Finset String,
    g.ruleM.toNat ≤ voices.card ∧
      ∀ v ∈ voices, ∃ id ∈ g.identities, id.member = v ∧ Signed C g.republicId id b

theorem verifyWikiExport_eq_ok {fromStr : String → Except String WikiExportBundle} {json : String}
    {report : WikiExportReport} :
    verifyWikiExport C fromStr json tree = .ok report ↔ ∃ bundle head g x,
      fromStr json = .ok bundle ∧ bundle.format = wikiExportFormat ∧
      verifyGenesis C bundle.genesis = .ok head ∧ bundle.genesis.change = .genesis g ∧
      bundle.blocks.foldlM (exportStep C head) { identities := head.identities } = .ok x ∧
      tree = Wiki.wikiFold x.payloads ∧
      report = ⟨head.republicId, g.name, head.ruleM, g.ruleN,
        x.identities.map MemberIdentity.member, x.membershipBlocks, x.payloads.length,
        tree.entries.length⟩ := by
  unfold verifyWikiExport
  simp only [bind_eq_ok, ensure_eq_ok, exists_const, mapError_eq_ok]
  constructor
  · rintro ⟨bundle, hread, hformat, head, hgen, h⟩
    split at h
    · rename_i g hg
      simp only [bind_eq_ok] at h
      obtain ⟨x, hx, _, htree, h⟩ := h
      exact ⟨bundle, head, g, x, hread, hformat, hgen, hg, hx, checkTree_eq_ok.mp htree,
        (pure_eq_ok.mp h).symm⟩
    · simp [throw, throwThe, MonadExceptOf.throw] at h
  · rintro ⟨bundle, head, g, x, hread, hformat, hgen, hg, hx, htree, rfl⟩
    refine ⟨bundle, hread, hformat, head, hgen, ?_⟩
    rw [hg]
    exact bind_eq_ok.mpr ⟨x, hx, bind_eq_ok.mpr ⟨(), checkTree_eq_ok.mpr htree, rfl⟩⟩

theorem verifyWikiExport_proves {fromStr : String → Except String WikiExportBundle} {json : String}
    {report : WikiExportReport} (h : verifyWikiExport C fromStr json tree = .ok report) :
    ∃ bundle g, fromStr json = .ok bundle ∧ Proves C g bundle tree := by
  obtain ⟨bundle, head, g, x, hread, _, hgen, hg, hx, htree, -⟩ := verifyWikiExport_eq_ok.mp h
  obtain ⟨g', hg', hheight, -, -, -, -, hrid, hall, rfl⟩ := verifyGenesis_eq_ok.mp hgen
  obtain rfl : g = g' := ChainChange.genesis.inj (hg.symm.trans hg')
  have hrun := Exported.run hx
  obtain ⟨hseats, hsigned⟩ := validSigners_all hall
  refine ⟨bundle, g, hread, hg, hrid, hseats, ?_, hrun.admitted, ?_, ?_, hrun.once, ?_⟩
  · intro id hid
    have hmem := hsigned id hid
    rw [← hheight] at hmem
    obtain ⟨id', hfind, hsig⟩ := mem_validSigners_iff_signed.mp hmem
    obtain rfl := Option.some.inj ((find?_member hseats hid).symm.trans hfind)
    exact hsig
  · rw [htree, hrun.payloads]
  · refine List.Pairwise.cons ?_ hrun.ascends
    -- the first block already stands above the height the pass starts from
    have hpos : ∀ b ∈ bundle.blocks, 0 < b.height := by
      intro b hb
      obtain ⟨before, after, heq⟩ := append_of_mem hb
      rw [heq] at hx
      obtain ⟨y, -, hrest⟩ := foldlM_append_eq_ok.mp hx
      obtain ⟨z, hstep, -⟩ := foldlM_cons_eq_ok.mp hrest
      have hlt := (exportStep_eq_ok.mp hstep).1
      rw [UInt64.lt_iff_toNat_lt] at hlt ⊢
      simp
      omega
    rw [hheight]
    exact hpos
  · intro b hb hpatch
    obtain ⟨voices, hvoices, hm⟩ := hrun.backed b hb
    refine ⟨voices, hm, fun v hv => ?_⟩
    obtain ⟨id, hid, hvoice⟩ := blockSigners_eq_ok hvoices v hv
    refine ⟨id, mem_of_find?_eq_some hid, by simpa using find?_some hid, ?_⟩
    -- a patch carries no consent
    rcases hvoice with ⟨hsig, -⟩ | ⟨⟨m, _, _, hc, -⟩, -⟩
    · exact hsig
    · simp [isWikiPatch, hc] at hpatch

theorem verifyWikiExport_of_chain {chain : List ChainBlock} (h : verifyChain C chain = .ok head) :
    ∃ bundle, bundleFromChain chain = some bundle ∧
      ∀ fromStr json, fromStr json = .ok bundle →
        ∃ report : Wiki.Tree → WikiExportReport,
          (∀ tree got, verifyWikiExport C fromStr json tree = .ok got ↔
            tree = Wiki.wikiFold (memoryPayloads chain) ∧ got = report tree) ∧
          ∀ tree, (report tree).republicId = head.republicId ∧ (report tree).ruleM = head.ruleM ∧
            (report tree).members = head.identities.map MemberIdentity.member ∧
            (report tree).patches = (chain.filter fun b => isWikiPatch b.change).length := by
  obtain ⟨w, hwalk, rfl⟩ := verifyChain_eq_ok.mp h
  obtain ⟨b, rest, start, g, rfl, hgen, hg, hrun⟩ := walkChain_eq_ok.mp hwalk
  have hbegin : Beside start (genesisWalk start g) { identities := start.identities } := by
    obtain ⟨g', hg', -, -, -, -, -, -, -, rfl⟩ := verifyGenesis_eq_ok.mp hgen
    obtain rfl : g = g' := ChainChange.genesis.inj (hg.symm.trans hg')
    exact ⟨rfl, rfl, rfl, fun _ => rfl, Finset.Subset.refl _, Nat.le_refl _⟩
  obtain ⟨x, hx, hbeside⟩ := hbegin.run hrun
  have hpayloads := (Exported.run hx).payloads
  have hfold : Wiki.wikiFold x.payloads = Wiki.wikiFold (memoryPayloads (b :: rest)) := by
    rw [hpayloads, wikiFold_exported, memoryPayloads_cons]
    simp [memoryPayloads, memoryPayload, hg]
  refine ⟨⟨wikiExportFormat, b, rest.filter isExported⟩, by simp [bundleFromChain, hg], ?_⟩
  intro fromStr json hread
  refine ⟨fun tree => ⟨start.republicId, g.name, start.ruleM, g.ruleN,
    x.identities.map MemberIdentity.member, x.membershipBlocks, x.payloads.length,
    tree.entries.length⟩, fun tree got => ?_, fun tree => ?_⟩
  · rw [verifyWikiExport_eq_ok]
    constructor
    · rintro ⟨bundle, head', g', x', hread', -, hgen', hg', hx', htree, rfl⟩
      cases hread.symm.trans hread'
      cases hgen.symm.trans hgen'
      cases hx.symm.trans hx'
      obtain rfl : g = g' := ChainChange.genesis.inj (hg.symm.trans hg')
      exact ⟨htree.trans hfold, rfl⟩
    · rintro ⟨rfl, rfl⟩
      exact ⟨_, start, g, x, hread, rfl, hgen, hg, hx, hfold.symm, rfl⟩
  · refine ⟨hbeside.republicId.symm, hbeside.ruleM.symm, by rw [hbeside.identities], ?_⟩
    have hgenesis : isWikiPatch b.change = false := by simp [isWikiPatch, hg]
    rw [filter_cons_of_neg (by simp [hgenesis]), ← length_memoryPayloads_exported, hpayloads]

/-- A full holder's export of an accepted chain is accepted with the fold of its memory and
with no other tree; and whatever is accepted is a fold that the genesis table signed. -/
theorem wiki_export_verifies {C : Crypto} (fromStr : String → Except String WikiExportBundle) :
    (∀ chain head, verifyChain C chain = .ok head → ∃ bundle, bundleFromChain chain = some bundle ∧
      ∀ json, fromStr json = .ok bundle →
        (∃ report, verifyWikiExport C fromStr json (Wiki.wikiFold (memoryPayloads chain)) =
            .ok report ∧ report.republicId = head.republicId ∧ report.ruleM = head.ruleM ∧
          report.members = head.identities.map MemberIdentity.member ∧
          report.patches = (chain.filter fun b => isWikiPatch b.change).length) ∧
        ∀ tree, tree ≠ Wiki.wikiFold (memoryPayloads chain) →
          ∃ e, verifyWikiExport C fromStr json tree = .error e) ∧
    ∀ json tree report, verifyWikiExport C fromStr json tree = .ok report →
      ∃ bundle g, fromStr json = .ok bundle ∧ Proves C g bundle tree := by
  refine ⟨fun chain head h => ?_, fun json tree report h => verifyWikiExport_proves h⟩
  obtain ⟨bundle, hbundle, hverify⟩ := verifyWikiExport_of_chain h
  refine ⟨bundle, hbundle, fun json hread => ?_⟩
  obtain ⟨report, haccepts, hreport⟩ := hverify fromStr json hread
  refine ⟨⟨_, (haccepts _ _).mpr ⟨rfl, rfl⟩, hreport _⟩, fun tree hne => ?_⟩
  cases hresult : verifyWikiExport C fromStr json tree with
  | error e => exact ⟨e, rfl⟩
  | ok got => exact absurd ((haccepts _ _).mp hresult).1 hne

namespace Sample

def notePatch : String :=
  "diff --git a/notes.md b/notes.md\nnew file mode 100644\n--- /dev/null\n+++ b/notes.md\n" ++
    "@@ -0,0 +1,1 @@\n+hello\n"

def jotted : List ChainBlock :=
  opened ++ [next solo [("ann", 1)] opened
    (.applied 7 .memory (.obj [("op", .str "wiki_patch"), ("value", .str notePatch)]))]

def numberValue (n : Nat) : Value := .num (.posInt (UInt64.ofNat n))

def identityValue (i : MemberIdentity) : Value :=
  .obj [("member", .str i.member), ("identity_pk", .str i.identityPk), ("nostr_pk", .str i.nostrPk)]

def changeValue : ChainChange → Value
  | .genesis g => .obj [("kind", .str "genesis"), ("name", .str g.name),
      ("republic_id", .str g.republicId), ("rule_m", numberValue g.ruleM.toNat),
      ("rule_n", numberValue g.ruleN.toNat), ("identities", .arr (g.identities.map identityValue)),
      ("agenda", .str g.agenda), ("relays", .arr (g.relays.map .str))]
  | .applied id surface payload => .obj [("kind", .str "applied"),
      ("proposal_id", numberValue id.toNat), ("surface", .str surface.asStr), ("payload", payload)]
  | _ => .null

def blockValue (b : ChainBlock) : Value :=
  .obj [("height", numberValue b.height.toNat), ("prev", .str b.prev),
    ("change", changeValue b.change),
    ("sigs", .arr (b.sigs.map fun a => .obj [("member", .str a.member), ("sig", .str a.sig)]))]

def bundleText (bundle : WikiExportBundle) : String :=
  String.ofList ((toVec (.obj [("format", .str bundle.format),
    ("genesis", blockValue bundle.genesis),
    ("blocks", .arr (bundle.blocks.map blockValue))])).map fun b => Char.ofNat b.toNat)

def jottedBundle : WikiExportBundle := ⟨wikiExportFormat, jotted.headD cut, jotted.tail⟩

def readBundle (json : String) : Except String WikiExportBundle :=
  if json = bundleText jottedBundle then .ok jottedBundle else .error "expected value"

theorem ann_seat : (solo.identities.find? fun i => i.member == "ann") = some (seat "ann" 1) := by
  simp [solo, founding, seat]

theorem applied_accepted {chain : List ChainBlock} {w : ChainWalk}
    (hw : Walked Crypto.toy solo chain w) (hlen : chain.length < 2 ^ 64) {id : UInt64}
    (hid : id ∉ w.seen) (surface : Surface) (payload : Value) :
    ∃ w', advance Crypto.toy {} w (next solo [("ann", 1)] chain (.applied id surface payload)) =
      .ok w' := by
  obtain ⟨last, hlast, hhash⟩ := hw.hash
  have hheight : (next solo [("ann", 1)] chain (.applied id surface payload)).height.toNat =
      w.head.height.toNat + 1 := by
    rw [hw.height]
    simpa [next, signed] using Nat.mod_eq_of_lt hlen
  have hprev : (next solo [("ann", 1)] chain (.applied id surface payload)).prev = w.head.hash := by
    simp [next, signed, hlast, hhash]
  have hsigns : "ann" ∈ validSigners Crypto.toy w.head.identities
      (approvalBytes w.head.republicId (UInt64.ofNat chain.length) (.applied id surface payload))
      (next solo [("ann", 1)] chain (.applied id surface payload)).sigs := by
    rw [mem_validSigners, hw.identities, hw.republicId]
    refine ⟨_, ann_seat, _, mem_singleton.mpr rfl, rfl, ?_⟩
    exact toySign_verifies (by decide) (by simp [Crypto.toy])
  have hvault : w.vault = none := hw.vault
  have hchange : checkChange w.seen (next solo [("ann", 1)] chain (.applied id surface payload)) =
      .ok (some id) := by
    simp only [checkChange, next, signed, bind_eq_ok, ensure_eq_ok, exists_const, pure_eq_ok]
    exact ⟨hid, by trivial⟩
  have hcount : w.head.ruleM.toNat ≤ (validSigners Crypto.toy w.head.identities
      (approvalBytes w.head.republicId (UInt64.ofNat chain.length) (.applied id surface payload))
      (next solo [("ann", 1)] chain (.applied id surface payload)).sigs).card := by
    rw [hw.ruleM]
    exact Finset.card_pos.mpr ⟨"ann", hsigns⟩
  have hnext := verifyNext_eq_ok.mpr
    ⟨hheight, hprev, hchange, ⟨_, rfl, hcount⟩, w.head.identities, rfl, rfl⟩
  have hspends : consentSpends (.applied id surface payload)
      (walkWorkingAnchor w.running) = .ok () := rfl
  have hcut : checkCut Crypto.toy w (next solo [("ann", 1)] chain (.applied id surface payload)) {} =
      .ok false := checkCut_of_not_cut rfl
  obtain ⟨running, hfold⟩ : ∃ running, foldOne Crypto.toy w.running
      (next solo [("ann", 1)] chain (.applied id surface payload)) w.vault = (running, .ok ()) := by
    rw [hvault]
    exact ⟨_, rfl⟩
  exact ⟨_, advance_eq_ok.mpr ⟨_, _, _, _, hnext, hspends, hcut, hfold, rfl⟩⟩

theorem opened_accepted : ∃ w, walkChain Crypto.toy opened = .ok w := by
  obtain ⟨_, hall⟩ := chain_accepted
  have hsplit : moved ++ [cut] = opened ++ moved.drop 1 ++ [cut] := rfl
  rw [hsplit, append_assoc, walkChain_append_eq_ok (by simp [opened])] at hall
  obtain ⟨w, hw, -⟩ := hall
  exact ⟨w, hw⟩

theorem jotted_accepted : ∃ w, walkChain Crypto.toy jotted = .ok w := by
  obtain ⟨w, hw⟩ := opened_accepted
  obtain ⟨g, hwalked⟩ := walkChain_walked hw
  obtain ⟨_, _, hopens, hg⟩ := hwalked.opens
  obtain ⟨rfl, rfl⟩ := List.cons.inj hopens
  obtain rfl : solo = g := ChainChange.genesis.inj hg
  have hseen : (7 : UInt64) ∉ w.seen := by
    rw [hwalked.seen]
    decide
  obtain ⟨w', hstep⟩ := applied_accepted hwalked (by decide) hseen .memory
    (.obj [("op", .str "wiki_patch"), ("value", .str notePatch)])
  exact ⟨w', walk_concat (by simp [opened]) hw hstep⟩

theorem jotted_bundle : bundleFromChain jotted = some jottedBundle := rfl

end Sample

theorem wiki_export_verifies_sample : ∃ report,
    verifyWikiExport Crypto.toy Sample.readBundle (Sample.bundleText Sample.jottedBundle)
      (Wiki.wikiFold (memoryPayloads Sample.jotted)) = .ok report ∧ report.patches = 1 ∧
    ∃ bundle g, Sample.readBundle (Sample.bundleText Sample.jottedBundle) = .ok bundle ∧
      Proves Crypto.toy g bundle (Wiki.wikiFold (memoryPayloads Sample.jotted)) := by
  obtain ⟨hexports, hproves⟩ := wiki_export_verifies (C := Crypto.toy) Sample.readBundle
  obtain ⟨w, hw⟩ := Sample.jotted_accepted
  obtain ⟨bundle, hbundle, hread⟩ := hexports _ _ (verifyChain_eq_ok.mpr ⟨w, hw, rfl⟩)
  obtain rfl := Option.some.inj (Sample.jotted_bundle.symm.trans hbundle)
  obtain ⟨⟨report, haccepted, -, -, -, hpatches⟩, -⟩ := hread _ (if_pos rfl)
  exact ⟨report, haccepted, hpatches.trans (by rfl), hproves _ _ _ haccepted⟩

end Molt.Chain
