import Mathlib
import MoltRepublic.Engine.Books

/-! What one turn does to the chain a node holds: every call and every input leaves it, tries
a block on it, adopts another branch, swaps its tip, anchors anew or cuts it. -/

namespace Molt.Engine
open Molt.Core Json Chain List

inductive Move where
  | still
  | refused (block : ChainBlock)
  | appended (block : ChainBlock)
  | adopted (blocks : List ChainBlock)
  | swapped (block : ChainBlock)
  | reanchored (blob : CheckpointState) (blocks : List ChainBlock)
  | pruned (cut : ChainBlock) (folded : FoldedCut)

def afterBlocks (calls : List Task) : List ChainBlock :=
  calls.filterMap fun
    | .afterBlock block => some block
    | _ => none

def Bumped (n : Node) : Prop :=
  ∀ w, n.chain.walk = some w → ∀ id ∈ w.seen, (saturatingSucc id).toNat ≤ n.nextId.toNat

/-- A branch that leaves the chain above its anchor with a smaller hash. The bookkeeping
that follows is of its own blocks, or of those above the old head. -/
def Branches (C : Crypto) (n : Node) (blocks after : List ChainBlock) : Prop :=
  ∃ first fork ours theirs rest, n.chain.blocks.head? = some first ∧ first.height < fork ∧
    n.blockAt fork = some ours ∧
    blocks = (n.chain.blocks.filter fun b => b.height < fork) ++ theirs :: rest ∧
    C.blockHash n.chain.republicId theirs < C.blockHash n.chain.republicId ours ∧
    ∀ b ∈ after, b ∈ blocks ∧
      (b ∈ theirs :: rest ∨ (n.head.map ChainHead.height).getD 0 < b.height)

structure Contends (C : Crypto) (n : Node) (block : ChainBlock) : Prop where
  slot : ∃ existing, n.blockAt block.height = some existing ∧
    C.blockHash n.chain.republicId block < C.blockHash n.chain.republicId existing
  tip : ∃ tip, n.chain.blocks.getLast? = some tip ∧ tip.height = block.height

def anchoredOn (h : Holder) (blob : CheckpointState) (blocks : List ChainBlock) : Holder :=
  { h with checkpointBlob := some blob, walk := none, blocks := blocks }

def prunedAt (h : Holder) (cut : ChainBlock) (folded : FoldedCut) : Holder :=
  { h with
    held := ⟨folded.tree <|> h.held.wiki, folded.vault <|> h.held.vault⟩
    checkpointBlob := some folded.state
    walk := none
    blocks := h.blocks.filter fun b => cut.height ≤ b.height }

/-- `Q` are the cards the turn may settle where it leaves the chain; where it moves the
chain it settles cards this node knew. -/
inductive Moves (S : Site) (Q : Settling) (n : Node) (o : Outcome) : Move → Prop
  | still (still : Still Q n o.node) (after : afterBlocks o.calls = []) : Moves S Q n o .still
  | refused {block : ChainBlock} {why : String}
      (tried : n.chain.extendOwn S.C block = (o.node.chain, .error why))
      (head : o.node.head = n.head) (books : Books .none n o.node)
      (after : afterBlocks o.calls = []) : Moves S Q n o (.refused block)
  | appended {block : ChainBlock} {chain : Holder} {head : ChainHead}
      (tried : n.chain.extendOwn S.C block = (chain, .ok head))
      (chain : o.node.chain = { chain with blocks := chain.blocks ++ [block] })
      (head : o.node.head = some head) (bumped : Bumped o.node) (books : Books .none n o.node)
      (after : afterBlocks o.calls = [block]) : Moves S Q n o (.appended block)
  | adopted {blocks : List ChainBlock} {w : ChainWalk}
      (verified : n.chain.walkOwn S.C blocks = .ok w)
      (branches : Branches S.C n blocks (afterBlocks o.calls))
      (chain : o.node.chain = { n.chain with blocks := blocks, walk := some w })
      (head : o.node.head = some w.head) (bumped : Bumped o.node)
      (books : Books (.known n) n o.node) : Moves S Q n o (.adopted blocks)
  | swapped {block : ChainBlock} {w : ChainWalk}
      (verified : n.chain.walkOwn S.C (n.chain.blocks.dropLast ++ [block]) = .ok w)
      (contends : Contends S.C n block)
      (chain : o.node.chain = { n.chain with blocks := n.chain.blocks.dropLast ++ [block] })
      (head : o.node.head = some w.head) (books : Books (.known n) n o.node)
      (displaced : ∀ id, n.chain.blocks.getLast?.bind appliedId = some id →
        ∀ q, o.node.proposals.lookup id = some q → q.state = .applied → q.proposer = "")
      (after : afterBlocks o.calls = [block]) : Moves S Q n o (.swapped block)
  | reanchored {blob : CheckpointState} {blocks : List ChainBlock} {w : ChainWalk} {k : Node}
      (verified : walkSuffixChain S.C blob blocks n.chain.republicId n.chain.held = .ok w)
      (behind : n.head.all fun h => decide (h.height ≤ blob.upto))
      (anchored : k.chain = anchoredOn n.chain blob blocks) (keyed : k.head = some w.head)
      (chain : o.node.chain = (k.dropStaleBases S).chain) (head : o.node.head = some w.head)
      (books : Books (.known n) n o.node) (after : afterBlocks o.calls = []) :
      Moves S Q n o (.reanchored blob blocks)
  | pruned {cut : ChainBlock} {folded : FoldedCut} {upto : UInt64} {hash : String} {kind : CutKind}
      (cuts : CutKind.of cut.change = some (upto, hash, kind))
      (own : n.ownCutState S upto kind = .ok folded)
      (chain : o.node.chain = prunedAt n.chain cut folded) (head : o.node.head = n.head)
      (books : Books (.known n) n o.node) (after : afterBlocks o.calls = []) :
      Moves S Q n o (.pruned cut folded)

section

@[simp] theorem afterBlocks_nil : afterBlocks [] = [] := rfl

@[simp] theorem afterBlocks_append (l k : List Task) :
    afterBlocks (l ++ k) = afterBlocks l ++ afterBlocks k := filterMap_append ..

@[simp] theorem afterBlocks_cons (t : Task) (l : List Task) : afterBlocks (t :: l) =
    (match t with | .afterBlock block => [block] | _ => []) ++ afterBlocks l := by
  cases t <;> rfl

theorem afterBlocks_map {α : Type} (f : α → Task) (hf : ∀ a, ∀ b, f a ≠ .afterBlock b) (l : List α) :
    afterBlocks (l.map f) = [] := by
  induction l with
  | nil => rfl
  | cons a l ih =>
    rw [map_cons, afterBlocks_cons, ih]
    cases h : f a with
    | afterBlock b => exact absurd h (hf a b)
    | _ => rfl

theorem afterBlocks_afterBlock (l : List ChainBlock) : afterBlocks (l.map .afterBlock) = l := by
  induction l with
  | nil => rfl
  | cons b l ih => rw [map_cons, afterBlocks_cons, ih]; rfl

end

namespace Node

variable {S : Site} {e : Env} {Q : Settling} {n : Node}

theorem toNat_saturatingSucc_mono {a b : UInt64} (h : a.toNat ≤ b.toNat) :
    (saturatingSucc a).toNat ≤ (saturatingSucc b).toNat := by
  rw [toNat_saturatingSucc, toNat_saturatingSucc]
  omega

theorem bumped_bumpNextIdPastChain : Bumped n.bumpNextIdPastChain := by
  intro w hw id hid
  have hchain : n.bumpNextIdPastChain.chain = n.chain :=
    (still_bumpNextIdPastChain (Q := .none)).chain
  rw [hchain] at hw
  have hle : id.toNat ≤ w.seen.sup UInt64.toNat := Finset.le_sup (f := UInt64.toNat) hid
  have hlt : w.seen.sup UInt64.toNat < 2 ^ 64 :=
    (Finset.sup_lt_iff (by simp)).mpr fun a _ => a.toNat_lt
  have htop : (UInt64.ofNat (w.seen.sup UInt64.toNat)).toNat = w.seen.sup UInt64.toNat :=
    UInt64.toNat_ofNat_of_lt' (by simpa [UInt64.size] using hlt)
  have hne : w.seen ≠ ∅ := Finset.ne_empty_of_mem hid
  unfold bumpNextIdPastChain
  rw [hw]
  simp only [if_neg hne]
  rw [bump_nextId]
  refine le_max_of_le_right (toNat_saturatingSucc_mono ?_)
  rwa [htop]

variable {m : Node}

theorem Bumped.still {n : Node} (h : Bumped n) (hs : Still Q n m) : Bumped m := by
  intro w hw id hid
  rw [hs.chain] at hw
  exact (h w hw id hid).trans hs.nextId

variable (id : UInt64)

theorem still_displace : Still Q n (n.displace id) := by
  unfold displace
  split
  · exact .refl n
  · split_ifs
    · refine ⟨⟨le_rfl, fun {j q} hq ha hp => ?_⟩, rfl, rfl⟩
      by_cases hj : j = id
      · subst hj
        exact absurd ((AList.lookup_erase j n.proposals).symm.trans hq) (by simp)
      · exact .inr ⟨q, (AList.lookup_erase_ne hj).symm.trans hq, ha, hp, rfl, rfl⟩
    · exact still_adjust fun p _ => .of_open rfl rfl rfl (by simp)

variable {k : Node} {block : ChainBlock} {calls : List Task} {log : List Entry}

theorem append_moves (hk : Still .none n k) (h : k.appendCommittedBlock S e block = (m, true))
    (hafter : afterBlocks calls = [block]) : Moves S Q n ⟨m, calls, log⟩ (.appended block) := by
  unfold appendCommittedBlock at h
  split at h
  · rename_i chain head htried
    simp only [Prod.mk.injEq, and_true] at h
    subst h
    set moved : Node := { k with
      chain := { chain with blocks := chain.blocks ++ [block] }
      head := some head
      headMovedAt := e.now } with hmoved
    have hstill : Still .none moved moved.adoptHeadRoster.bumpNextIdPastChain :=
      still_adoptHeadRoster.trans still_bumpNextIdPastChain
    have hbooks : Books .none k moved :=
      .of_eq rfl rfl
    rw [hk.chain] at htried
    exact .appended htried hstill.chain hstill.head bumped_bumpNextIdPastChain
      (hk.toBooks.trans (hbooks.trans hstill.toBooks)) hafter
  · simp at h

theorem refuse_moves {m' : Node} (hk : Still .none n k) (h : k.appendCommittedBlock S e block = (m, false))
    (hm : Still .none m m') (hafter : afterBlocks calls = []) :
    Moves S Q n ⟨m', calls, log⟩ (.refused block) := by
  unfold appendCommittedBlock at h
  split at h
  · simp at h
  · rename_i chain why htried
    simp only [Prod.mk.injEq, and_true] at h
    subst h
    have hbooks : Books .none k { k with chain := chain } :=
      .of_eq rfl rfl
    have htried' : n.chain.extendOwn S.C block = (m'.chain, .error why) := by
      rw [hk.chain] at htried
      rw [htried]
      exact congrArg (·, _) hm.chain.symm
    exact .refused htried' (hm.head.trans hk.head)
      (hk.toBooks.trans (hbooks.trans hm.toBooks)) hafter

theorem tryCommit_moves : ∃ mv, Moves S Q n (n.tryCommit S e id) mv := by
  unfold tryCommit
  split
  · exact ⟨_, .still (.refl n) rfl⟩
  · rename_i block _
    dsimp only
    split_ifs
    · exact ⟨_, .still (.of_eq rfl rfl rfl rfl) rfl⟩
    · have hk : Still .none n { n with sealHeld := n.sealHeld.erase id } := .of_eq rfl rfl rfl rfl
      split <;> rename_i m h
      · exact ⟨_, append_moves hk h rfl⟩
      · exact ⟨_, refuse_moves hk h (.refl m) rfl⟩

theorem applyNextBlock_moves {l : List Entry} (hk : Still .none n k)
    (h : k.applyNextBlock S e block = (m, calls)) :
    (calls ≠ [] ∧ Moves S Q n ⟨m, calls, l⟩ (.appended block)) ∨
      (calls = [] ∧ ∀ m', Still .none m m' → Moves S Q n ⟨m', [], l⟩ (.refused block)) := by
  unfold applyNextBlock at h
  split at h <;> rename_i k' happend <;> simp only [Prod.mk.injEq] at h <;>
    obtain ⟨rfl, rfl⟩ := h
  · exact .inl ⟨by simp, append_moves hk happend rfl⟩
  · exact .inr ⟨rfl, fun m' hm => refuse_moves hk happend hm rfl⟩

theorem drain_moves : ∃ mv, Moves S Q n (n.drain S e) mv := by
  unfold drain
  split
  · exact ⟨_, .still still_trimBuffer rfl⟩
  · split
    · exact ⟨_, .still still_trimBuffer rfl⟩
    · rename_i head _ _ block _
      have hk : Still .none n { n with pendingBlocks := n.pendingBlocks.erase (head.height + 1) } :=
        .of_eq rfl rfl rfl rfl
      dsimp only
      split <;> rename_i h
      · rcases applyNextBlock_moves (Q := Q) (l := []) hk h with ⟨hne, -⟩ | ⟨-, hrefused⟩
        · exact absurd rfl hne
        · exact ⟨_, hrefused _ still_trimBuffer⟩
      · rename_i hcalls
        rcases applyNextBlock_moves (Q := Q) (l := []) hk h with ⟨-, happended⟩ | ⟨hnil, -⟩
        · exact ⟨_, happended⟩
        · exact absurd hnil (by simpa using hcalls)

theorem prune_moves (block : ChainBlock) {upto : UInt64} {hash : String} {kind : CutKind}
    (hcut : CutKind.of block.change = some (upto, hash, kind)) (hk : Still .none n k) (hkn : Steady n k)
    (hm : Still .none (k.prune S e block upto kind) m) (hmn : Steady (k.prune S e block upto kind) m)
    (hafter : afterBlocks calls = []) :
    ∃ mv, Moves S Q n ⟨m, calls, log⟩ mv := by
  have hquiet : Quiet n m := (hkn.toQuiet.trans (steady_prune block upto kind).toQuiet).trans hmn.toQuiet
  unfold prune at hm
  split at hm
  · exact ⟨_, .still (hk.trans hm).of_none hafter⟩
  · rename_i folded hown
    split_ifs at hm
    · exact ⟨_, .still (hk.trans hm).of_none hafter⟩
    · set cut : Node := { k with chain := prunedAt k.chain block folded } with hcutNode
      have hsettled : Still .any cut (cut.applyChainToState e).markOpenWikiPatchesRebased :=
        still_applyChainToState.trans still_markOpenWikiPatchesRebased
      have hbooks : Books .any k cut := .of_eq rfl rfl
      have hall : Books .any n m :=
        (hk.of_none.toBooks.trans hbooks).trans (hsettled.toBooks.trans hm.of_none.toBooks)
      have howned : n.ownCutState S upto kind = .ok folded := by
        unfold ownCutState at hown ⊢
        rwa [hk.chain] at hown
      have hchain : m.chain = prunedAt n.chain block folded := by
        rw [hm.chain]
        exact hsettled.chain.trans (by rw [hcutNode, hk.chain])
      have hhead : m.head = n.head := by
        rw [hm.head]
        exact hsettled.head.trans hk.head
      exact ⟨_, .pruned hcut howned hchain hhead
        ((hall.known hquiet).mono fun _ _ _ h => h.2) hafter⟩

def taskCards (n : Node) : Task → Settling
  | .afterBlock block => fun j surface payload => Settling.known n j surface payload ∧
    match block.change with
    | .applied id _ payload' => j = id ∧ payload = payload'
    | .membership m => n.membershipCards m j surface payload
    | _ => False
  | _ => .none

theorem rebase_after : afterBlocks (n.rebase e).calls = [] := by
  unfold rebase
  split
  · rfl
  · simp [afterBlocks_map]

theorem afterBlock_moves (block : ChainBlock) :
    ∃ mv, Moves S (n.taskCards (.afterBlock block)) n ((n.afterChange S e block).rebase e) mv := by
  cases hc : block.change with
  | applied id surface payload =>
    have hchange : n.afterChange S e block = n.afterApplied e id surface payload := by
      simp [afterChange, hc]
    have hstill : Still (blockCard id payload) n ((n.afterApplied e id surface payload).rebase e).node :=
      (still_afterApplied id surface payload).trans still_rebase
    have hquiet : Quiet n ((n.afterApplied e id surface payload).rebase e).node :=
      ((steady_afterApplied id surface payload).trans steady_rebase).toQuiet
    rw [hchange]
    refine ⟨_, .still ((hstill.known hquiet).mono fun j s v h => ?_) rebase_after⟩
    simp only [taskCards, hc]
    exact ⟨h.2, h.1⟩
  | membership m =>
    have hchange : n.afterChange S e block = n.settleMembershipRecords e (.membership m) := by
      simp [afterChange, hc]
    have hstill : Still (n.membershipCards m) n
        ((n.settleMembershipRecords e (.membership m)).rebase e).node :=
      (still_settleMembershipRecords m).trans still_rebase
    have hquiet : Quiet n ((n.settleMembershipRecords e (.membership m)).rebase e).node :=
      ((steady_settleMembershipRecords _).trans steady_rebase).toQuiet
    rw [hchange]
    refine ⟨_, .still ((hstill.known hquiet).mono fun j s v h => ?_) rebase_after⟩
    simp only [taskCards, hc]
    exact ⟨h.2, h.1⟩
  | genesis g =>
    have hchange : n.afterChange S e block = n := by simp [afterChange, hc]
    rw [hchange]
    exact ⟨_, .still still_rebase rebase_after⟩
  | checkpoint upto hash =>
    have hchange : n.afterChange S e block =
        (n.forgetVotesFor e block.change).prune S e block upto {} := by
      simp [afterChange, hc, CutKind.of]
    rw [hchange]
    exact prune_moves block (by rw [hc]; rfl) (still_forgetVotesFor _) (steady_forgetVotesFor _)
      still_rebase steady_rebase rebase_after
  | checkpointFolded upto hash =>
    have hchange : n.afterChange S e block =
        (n.forgetVotesFor e block.change).prune S e block upto { wiki := true } := by
      simp [afterChange, hc, CutKind.of]
    rw [hchange]
    exact prune_moves block (by rw [hc]; rfl) (still_forgetVotesFor _) (steady_forgetVotesFor _)
      still_rebase steady_rebase rebase_after
  | checkpointVault upto hash wikiFolded =>
    have hchange : n.afterChange S e block =
        (n.forgetVotesFor e block.change).prune S e block upto ⟨wikiFolded, true⟩ := by
      simp [afterChange, hc, CutKind.of]
    rw [hchange]
    exact prune_moves block (by rw [hc]; rfl) (still_forgetVotesFor _) (steady_forgetVotesFor _)
      still_rebase steady_rebase rebase_after

variable {blocks : List ChainBlock} {w : ChainWalk}

theorem adoptChain_ok (h : k.chain.walkOwn S.C blocks = .ok w) :
    (k.adoptChain S e blocks).chain = { k.chain with blocks := blocks, walk := some w } ∧
      (k.adoptChain S e blocks).head = some w.head ∧ Bumped (k.adoptChain S e blocks) ∧
      Books .any k (k.adoptChain S e blocks) := by
  unfold adoptChain
  rw [h]
  set adopted : Node := { k with
    chain := { k.chain with blocks := blocks, walk := some w }
    head := some w.head
    headMovedAt := e.now } with hadopted
  have hbump : Still .any adopted adopted.bumpNextIdPastChain := still_bumpNextIdPastChain
  have hstill : Still .any adopted.bumpNextIdPastChain
      (adopted.bumpNextIdPastChain.applyChainToState e) := still_applyChainToState
  have hbooks : Books .any k adopted := .of_eq rfl rfl
  exact ⟨hstill.chain.trans hbump.chain, hstill.head.trans hbump.head,
    Bumped.still bumped_bumpNextIdPastChain hstill, hbooks.trans (hbump.trans hstill).toBooks⟩

theorem still_displaceAll (ids : List UInt64) : Still Q n (ids.foldl displace n) :=
  .foldl (fun _ id _ => still_displace id) n

theorem adopt_moves (hk : Still .none n k) (hkn : Steady n k) (h : k.chain.walkOwn S.C blocks = .ok w)
    (hbranches : Branches S.C k blocks (afterBlocks calls)) (ids : List UInt64) :
    Moves S Q n ⟨ids.foldl displace (k.adoptChain S e blocks), calls, log⟩ (.adopted blocks) := by
  obtain ⟨hchain, hhead, hbumped, hbooks⟩ := adoptChain_ok (e := e) h
  have hdisplaced : Still .any (k.adoptChain S e blocks) (ids.foldl displace (k.adoptChain S e blocks)) :=
    still_displaceAll ids
  have hquiet : Quiet n (ids.foldl displace (k.adoptChain S e blocks)) :=
    (hkn.toQuiet.trans (steady_adoptChain blocks).toQuiet).trans (quiet_displaceAll ids)
  have hall : Books .any n (ids.foldl displace (k.adoptChain S e blocks)) :=
    (hk.of_none.toBooks.trans hbooks).trans hdisplaced.toBooks
  have hbranches' : Branches S.C n blocks (afterBlocks calls) := by
    unfold Branches blockAt at hbranches ⊢
    rwa [hk.chain, hk.head] at hbranches
  rw [hk.chain] at h hchain
  exact .adopted h hbranches' (hdisplaced.chain.trans hchain) (hdisplaced.head.trans hhead)
    (Bumped.still hbumped hdisplaced) ((hall.known hquiet).mono fun _ _ _ hsettled => hsettled.2)

theorem relink_append (rid : String) (C : Crypto) (own candidate : List ChainBlock) :
    ∃ rest, own.foldl (fun c b =>
      c ++ [{ b with prev := (c.getLast?.map (C.blockHash rid)).getD "" }]) candidate =
        candidate ++ rest := by
  induction own generalizing candidate with
  | nil => exact ⟨[], by simp⟩
  | cons b own ih =>
    obtain ⟨rest, hrest⟩ := ih
      (candidate ++ [{ b with prev := (candidate.getLast?.map (C.blockHash rid)).getD "" }])
    exact ⟨_ :: rest, by rw [foldl_cons, hrest, append_assoc]; rfl⟩

theorem relink_moves {candidate : List ChainBlock} (hk : Still .none n k) (hkn : Steady n k)
    (hbranch : ∀ more after, (∀ b ∈ after, b ∈ candidate ++ more ∧ (k.head.map ChainHead.height).getD 0 < b.height) → Branches S.C k (candidate ++ more) after) :
    ∃ mv, Moves S Q n (k.relinkOntoVariant S e candidate) mv := by
  have hcleared : Still .none k { k with forkCandidates := ∅ } := .of_eq rfl rfl rfl rfl
  have hcleared' : Steady k { k with forkCandidates := ∅ } := .of_eq rfl rfl subset_rfl
  unfold relinkOntoVariant
  extract_lets oldHead top relinked cleared
  obtain ⟨more, hmore⟩ := relink_append k.chain.republicId S.C
    (k.chain.blocks.filter fun b => top < b.height) candidate
  split
  · exact ⟨_, .still (hk.trans hcleared).of_none rfl⟩
  · rename_i w hw
    refine ⟨_, adopt_moves (hk.trans hcleared) (hkn.trans hcleared') hw ?_ []⟩
    rw [afterBlocks_afterBlock, show relinked = candidate ++ more from hmore]
    refine hbranch more _ fun b hb => ?_
    obtain ⟨hmem, hfresh⟩ := mem_filter.mp hb
    have hmem' : b ∈ candidate ++ more := hmore ▸ hmem
    exact ⟨hmem', by simpa using hfresh⟩

theorem forkPoint_above {anchor fork : UInt64} (h : n.forkPoint S anchor = some fork) :
    anchor < fork := by
  have hfound := find?_some h
  simp only [Bool.and_eq_true, decide_eq_true_eq] at hfound
  exact hfound.1

theorem tryReorg_moves (hk : Still .none n k) (hkn : Steady n k) :
    ∃ mv, Moves S Q n (k.tryReorg S e) mv := by
  have hcleared : Still .none k { k with forkCandidates := ∅ } := .of_eq rfl rfl rfl rfl
  unfold tryReorg
  split
  · exact ⟨_, .still hk.of_none rfl⟩
  rename_i first hfirst
  split
  · exact ⟨_, .still (hk.trans (still_requestBelow _)).of_none rfl⟩
  rename_i fork hfork
  extract_lets suffix rid candidate sameDecisions
  split
  · rename_i ours theirs hours htheirs
    obtain ⟨rest, hsuffix⟩ : ∃ rest, suffix = theirs :: rest := by
      cases hs : suffix with
      | nil => simp [hs] at htheirs
      | cons b rest =>
        rw [hs, head?_cons, Option.some.injEq] at htheirs
        exact ⟨rest, by rw [htheirs]⟩
    split_ifs with hloses hsame
    · exact ⟨_, .still (hk.trans hcleared).of_none rfl⟩
    · have hwins : S.C.blockHash k.chain.republicId theirs < S.C.blockHash k.chain.republicId ours :=
        not_le.mp hloses
      have hbranch : ∀ more after, (∀ b ∈ after, b ∈ candidate ++ more ∧
          (k.head.map ChainHead.height).getD 0 < b.height) →
          Branches S.C k (candidate ++ more) after := by
        intro more after hafter
        refine ⟨first, fork, ours, theirs, rest ++ more, hfirst, forkPoint_above hfork, hours, ?_, hwins,
          fun b hb => ⟨(hafter b hb).1, .inr (hafter b hb).2⟩⟩
        simp [candidate, hsuffix]
      exact relink_moves hk hkn hbranch
    · have hwins : S.C.blockHash k.chain.republicId theirs < S.C.blockHash k.chain.republicId ours :=
        not_le.mp hloses
      split
      · exact ⟨_, .still (hk.trans hcleared).of_none rfl⟩
      · rename_i w hw
        refine ⟨_, adopt_moves hk hkn hw ?_ _⟩
        have hcalls : afterBlocks (suffix.map Task.afterBlock ++ [.resignAll]) = suffix := by
          rw [afterBlocks_append, afterBlocks_afterBlock]
          simp
        rw [hcalls]
        refine ⟨first, fork, ours, theirs, rest, hfirst, forkPoint_above hfork, hours, ?_, hwins,
          fun b hb => ⟨mem_append_right _ hb, .inl (hsuffix ▸ hb)⟩⟩
        simp [candidate, hsuffix]
  · exact ⟨_, .still hk.of_none rfl⟩

theorem displace_open {q : ProposalRecord} (hq : (n.displace id).proposals.lookup id = some q)
    (ha : q.state = .applied) :
    q.proposer = "" := by
  unfold displace at hq
  split at hq
  · rename_i hnone
    simpa using hnone.symm.trans hq
  · rename_i p hp
    split_ifs at hq
    · exact absurd ((AList.lookup_erase id n.proposals).symm.trans hq) (by simp)
    · simp only [adjust, hp, AList.lookup_insert, Option.some.injEq] at hq
      rw [← hq] at ha
      simp at ha

theorem swapTip_moves (hk : Still .none n k) (hkn : Steady n k) (hcontends : Contends S.C k block) :
    ∃ mv, Moves S Q n (k.swapTip S e block) mv := by
  unfold swapTip
  extract_lets blocks displaced
  split
  · exact ⟨_, .still hk.of_none rfl⟩
  rename_i w hw
  set tipped : Node := { k with
    chain := { k.chain with blocks := blocks }, head := some w.head, headMovedAt := e.now } with htipped
  have hsettled : Still .any tipped (k.adoptTip e blocks w.head) := still_applyChainToState
  have hdisplaced : Still .any (k.adoptTip e blocks w.head)
      (displaced.foldl displace (k.adoptTip e blocks w.head)) := still_displaceAll _
  have hbooks : Books .any k tipped := .of_eq rfl rfl
  have hall := hk.of_none.toBooks.trans (hbooks.trans (hsettled.trans hdisplaced).toBooks)
  have hquiet : Quiet n (displaced.foldl displace (k.adoptTip e blocks w.head)) :=
    (hkn.toQuiet.trans (steady_adoptTip _ _).toQuiet).trans (quiet_displaceAll _)
  have hverified : n.chain.walkOwn S.C (n.chain.blocks.dropLast ++ [block]) = .ok w := by
    rw [← hk.chain]
    exact hw
  have hcontends' : Contends S.C n block := by
    obtain ⟨⟨existing, hslot, hwins⟩, tip, htip, hheight⟩ := hcontends
    unfold blockAt at hslot
    rw [hk.chain] at hslot hwins htip
    exact ⟨⟨existing, hslot, hwins⟩, tip, htip, hheight⟩
  have hchain : (displaced.foldl displace (k.adoptTip e blocks w.head)).chain =
      { n.chain with blocks := n.chain.blocks.dropLast ++ [block] } := by
    rw [hdisplaced.chain, hsettled.chain, htipped, ← hk.chain]
  refine ⟨_, .swapped hverified hcontends' hchain (hdisplaced.head.trans hsettled.head)
    ((hall.known hquiet).mono fun _ _ _ hsettled => hsettled.2) ?_ rfl⟩
  intro id hid q hq ha
  have hlist : displaced = [id] := by
    rw [← hk.chain] at hid
    simp only [displaced, hid, Option.toList_some]
  simp only [hlist, foldl_cons, foldl_nil] at hq
  exact displace_open id hq ha

theorem tieBreak_moves (block : ChainBlock) (hk : Still .none n k) (hkn : Steady n k) :
    ∃ mv, Moves S Q n (k.tieBreak S e block) mv := by
  have hstay : ∃ mv, Moves S Q n ⟨k, [], []⟩ mv := ⟨_, .still hk.of_none rfl⟩
  have hreorg : ∃ mv, Moves S Q n ((k.stashForkCandidate block).tryReorg S e) mv :=
    tryReorg_moves (hk.trans (still_stashForkCandidate block))
      (hkn.trans (steady_stashForkCandidate block))
  unfold tieBreak
  split
  · exact hstay
  rename_i existing hexisting
  extract_lets rid wins isTip below sharedPrev signed
  split_ifs with hsame hvariant hstash hdeep hwins
  · exact hstay
  · exact hreorg
  · exact hstay
  · exact hreorg
  · refine swapTip_moves hk hkn ⟨⟨existing, hexisting, hwins.1⟩, ?_⟩
    have htip : isTip = true := by
      by_contra hne
      exact hdeep (.inr (by simpa using hne))
    obtain ⟨tip, hlast, hheight⟩ := (Option.any_eq_true _ _).mp htip
    exact ⟨tip, hlast, by simpa using hheight⟩
  · exact hstay

theorem books_dropStaleBases : Books Q n (n.dropStaleBases S) := .of_eq rfl rfl

variable (blob : CheckpointState)

theorem still_reanchor (blocks : List ChainBlock) (head : ChainHead) :
    ∃ k : Node, Still .any { n with chain := anchoredOn n.chain blob blocks, head := some head } k ∧
      Still .any (k.dropStaleBases S) (n.reanchor S e blob blocks head).node := by
  refine ⟨_, still_trimBuffer.trans (still_applyChainToState (e := e)), ?_⟩
  refine Still.trans ?_ (still_walletSupersedeDead.trans still_rebase)
  exact .foldl (fun _ b _ => still_supersedeBehind b) _

theorem reanchor_after (blocks : List ChainBlock) (head : ChainHead) :
    afterBlocks (n.reanchor S e blob blocks head).calls = [] := by
  unfold reanchor
  simp [rebase_after]

theorem reanchor_moves {blob : CheckpointState} (hk : Still .none n k) (hkn : Steady n k)
    (hw : walkSuffixChain S.C blob blocks k.chain.republicId k.chain.held = .ok w)
    (hbehind : k.head.all fun h => decide (h.height ≤ blob.upto)) {more : List Task}
    (hmore : afterBlocks more = []) :
    Moves S Q n ⟨(k.reanchor S e blob blocks w.head).node,
      (k.reanchor S e blob blocks w.head).calls ++ more,
      (k.reanchor S e blob blocks w.head).log⟩ (.reanchored blob blocks) := by
  have hafter : afterBlocks ((k.reanchor S e blob blocks w.head).calls ++ more) = [] := by
    rw [afterBlocks_append, reanchor_after, hmore, append_nil]
  have hquiet : Quiet n (k.reanchor S e blob blocks w.head).node :=
    hkn.toQuiet.trans (steady_reanchor blob blocks w.head).toQuiet
  obtain ⟨projected, hproject, hrest⟩ := still_reanchor (S := S) (e := e) (n := k) blob blocks w.head
  generalize k.reanchor S e blob blocks w.head = o at hafter hquiet hrest ⊢
  have hanchored : Books .any k
      { k with chain := anchoredOn k.chain blob blocks, head := some w.head } := .of_eq rfl rfl
  have hall := hk.of_none.toBooks.trans
    ((hanchored.trans hproject.toBooks).trans (books_dropStaleBases.trans hrest.toBooks))
  have hkchain : projected.chain = anchoredOn n.chain blob blocks := by
    rw [hproject.chain, hk.chain]
  have hkhead : projected.head = some w.head := hproject.head
  have hhead : o.node.head = some w.head := hrest.head.trans hkhead
  rw [hk.chain] at hw
  rw [hk.head] at hbehind
  exact .reanchored hw hbehind hkchain hkhead hrest.chain hhead
    ((hall.known hquiet).mono fun _ _ _ hsettled => hsettled.2) hafter

theorem tryAdoptFromBlob_moves (hk : Still .none n k) (hkn : Steady n k) {more : List Task}
    (hmore : afterBlocks more = []) :
    ∃ mv, Moves S Q n ⟨(k.tryAdoptFromBlob S e).node, (k.tryAdoptFromBlob S e).calls ++ more,
      (k.tryAdoptFromBlob S e).log⟩ mv := by
  have hcleared : Still .none k { k with pendingServedBlob := none } := .of_eq rfl rfl rfl rfl
  have hcleared' : Steady k { k with pendingServedBlob := none } := .of_eq rfl rfl subset_rfl
  have hdrop : ∃ mv, Moves S Q n ⟨{ k with pendingServedBlob := none }, [] ++ more, []⟩ mv :=
    ⟨_, .still (hk.trans hcleared).of_none hmore⟩
  unfold tryAdoptFromBlob
  split
  · exact ⟨_, .still hk.of_none hmore⟩
  rename_i blob hblob
  extract_lets cleared candidate
  split_ifs with hdead hnone
  · exact hdrop
  · exact ⟨_, .still hk.of_none hmore⟩
  · split
    · exact hdrop
    · rename_i w hw
      refine ⟨_, reanchor_moves (hk.trans hcleared) (hkn.trans hcleared') hw ?_ hmore⟩
      simp only [Bool.or_eq_true, not_or] at hdead
      cases hhead : k.head with
      | none => rfl
      | some h =>
        have hle : ¬ blob.upto < h.height := by simpa [hhead] using hdead.1
        simpa [hhead] using UInt64.not_lt.mp hle

theorem receiveBlock_moves (source : String) (block : ChainBlock) :
    ∃ mv, Moves S Q n (n.receiveBlock S e source block) mv := by
  have hk : Still .none n (n.notePeerHeight S source block.height) := still_notePeerHeight ..
  have hkn : Steady n (n.notePeerHeight S source block.height) := steady_notePeerHeight ..
  unfold receiveBlock
  extract_lets k
  split
  · exact ⟨_, .still hk.of_none rfl⟩
  split_ifs
  · exact tryReorg_moves (hk.trans (still_stashForkCandidate block))
      (hkn.trans (steady_stashForkCandidate block))
  · split
    rename_i m calls happly
    rcases applyNextBlock_moves (Q := Q) (l := []) hk happly with ⟨-, happended⟩ | ⟨rfl, hrefused⟩
    · exact ⟨_, happended⟩
    · exact ⟨_, hrefused m (.refl m)⟩
  · exact tieBreak_moves block hk hkn
  · unfold buffer
    dsimp only
    split_ifs
    · exact ⟨_, .still hk.of_none rfl⟩
    · exact tryAdoptFromBlob_moves
        ((hk.trans still_trimBuffer).trans (still_keepPending block))
        ((hkn.trans steady_trimBuffer).trans (steady_keepPending block)) rfl

theorem receiveCheckpointBlob_moves :
    ∃ mv, Moves S Q n (n.receiveCheckpointBlob S e blob) mv := by
  have hk : Still .none n { n with pendingServedBlob := some blob } := .of_eq rfl rfl rfl rfl
  have hkn : Steady n { n with pendingServedBlob := some blob } := .of_eq rfl rfl subset_rfl
  unfold receiveCheckpointBlob
  dsimp only
  split_ifs
  · exact ⟨_, .still (.refl n) rfl⟩
  · obtain ⟨mv, hmoves⟩ := tryAdoptFromBlob_moves (S := S) (e := e) (Q := Q) hk hkn
      (show afterBlocks [] = [] from rfl)
    rw [append_nil] at hmoves
    exact ⟨mv, hmoves⟩

theorem chainSign_after : afterBlocks (n.chainSign S e id).calls = [] := by
  unfold chainSign
  split
  · split_ifs <;> rfl
  · rfl

theorem proposeCheckpoint_after : afterBlocks (n.proposeCheckpoint S e).calls = [] := by
  unfold proposeCheckpoint
  split
  · rfl
  split
  · rfl
  split
  · rfl
  dsimp only
  split
  · split_ifs
    · exact chainSign_after _
    · rfl
  · rfl

theorem command_after (c : Command) : afterBlocks (n.command S e c).calls = [] := by
  cases c with
  | propose surface payload =>
    simp only [command, cmdPropose]
    split
    · rfl
    split
    · rfl
    split
    · rfl
    split_ifs
    · exact chainSign_after _
    · rfl
  | approve id =>
    simp only [command, cmdApprove]
    split
    · rfl
    split_ifs
    · rfl
    · exact chainSign_after id
  | decline id =>
    simp only [command, cmdDecline]
    split
    · rfl
    split_ifs <;> rfl
  | withdraw id =>
    simp only [command, cmdWithdraw]
    split
    · rfl
    split_ifs <;> rfl
  | proposeCheckpoint => exact proposeCheckpoint_after

theorem deliver_moves (source : String) (f : Frame) :
    ∃ mv, Moves S (n.frameCards S f) n (n.deliver S e source f) mv := by
  cases f with
  | proposed id surface payload => exact ⟨_, .still (still_deliverProposed ..) rfl⟩
  | approved id member height sig =>
    refine ⟨_, .still (still_deliverApproved ..) ?_⟩
    simp only [deliver, deliverApproved]
    split_ifs <;> rfl
  | declined id member ts hash =>
    simp only [deliver]
    split_ifs
    · exact ⟨_, .still (.refl n) rfl⟩
    · exact ⟨_, .still (still_registerDecline ..) rfl⟩
  | withdrawn id member ts =>
    simp only [deliver]
    split_ifs
    · exact ⟨_, .still (.refl n) rfl⟩
    · exact ⟨_, .still (still_registerWithdraw ..) rfl⟩
  | checkpointProposed id upto stateHash folded =>
    refine ⟨_, .still (still_deliverCheckpointProposed ..) ?_⟩
    simp only [deliver, deliverCheckpointProposed]
    split
    · rfl
    split
    · split
      · rfl
      · split
        · rfl
        · exact chainSign_after id
    · rfl
  | membershipProposed id m =>
    refine ⟨_, .still (still_deliverMembershipProposed ..) ?_⟩
    simp only [deliver, deliverMembershipProposed]
    split_ifs <;> rfl
  | committed block => exact receiveBlock_moves source block
  | checkpointServed blob => exact receiveCheckpointBlob_moves blob

def inputCards (S : Site) (n : Node) : Input → Settling
  | .frame _ f => n.frameCards S f
  | _ => .none

theorem handle_moves (i : Input) : ∃ mv, Moves S (n.inputCards S i) n (n.handle S e i) mv := by
  cases i with
  | command c =>
    simp only [handle]
    split_ifs
    · exact ⟨_, .still (.refl n) rfl⟩
    · exact ⟨_, .still (still_command c) (command_after c)⟩
  | frame source f =>
    simp only [handle]
    split_ifs
    · exact ⟨_, .still (.refl n) rfl⟩
    · exact deliver_moves source f
  | tick =>
    refine ⟨_, .still (.of_eq rfl rfl rfl rfl) ?_⟩
    exact afterBlocks_map _ (by simp) _

end Node

open Node

variable {S : Site} {e : Env} {n : Node}

theorem exec_moves (call : Task) : ∃ mv, Moves S (n.taskCards call) n (exec S e n call) mv := by
  cases call with
  | tryCommit id => exact tryCommit_moves id
  | sealed block id =>
    refine ⟨_, .still (still_forgetVote id) ?_⟩
    simp only [exec, afterSeal]
    split_ifs <;> rfl
  | afterBlock block => exact afterBlock_moves block
  | resign id =>
    refine ⟨_, .still (still_resign id) ?_⟩
    simp only [exec, resign]
    split_ifs
    · exact chainSign_after id
    · rfl
  | sweepRestores =>
    refine ⟨_, .still still_sweepRestores ?_⟩
    simp only [exec, sweepRestores]
    split
    · rfl
    · exact afterBlocks_map _ (by simp) _
  | autoApprove id =>
    refine ⟨_, .still (still_autoApprove id) ?_⟩
    simp only [exec, autoApprove]
    split
    · split_ifs
      · exact chainSign_after id
      · rfl
    · rfl
  | autoCheckpoint =>
    refine ⟨_, .still still_autoCheckpoint ?_⟩
    simp only [exec, autoCheckpoint]
    split
    · rfl
    · split_ifs
      · rfl
      · exact proposeCheckpoint_after
  | caughtUp height => exact ⟨_, .still (still_caughtUp height) rfl⟩
  | requestCatchup height => exact ⟨_, .still (still_requestCatchup height) rfl⟩
  | drain => exact drain_moves
  | keepApproved source id member height sig => exact ⟨_, .still (still_keepApproved ..) rfl⟩
  | resignAll => exact ⟨_, .still (.of_eq rfl rfl rfl rfl) rfl⟩
  | signOwn ids =>
    refine ⟨_, .still (still_signOwn ids) ?_⟩
    cases ids with
    | nil => rfl
    | cons id ids =>
      simp only [exec, signOwn, afterBlocks_append, chainSign_after]
      rfl
  | endReorg => exact ⟨_, .still still_endReorg rfl⟩

namespace Machine

variable {m : Machine} {t : Env × Input}

def outcome (S : Site) (m : Machine) (t : Env × Input) : Outcome :=
  match m.calls with
  | call :: _ => exec S t.1 m.node call
  | [] => m.node.handle S t.1 t.2

def settles (S : Site) (m : Machine) (i : Input) : Settling :=
  match m.calls with
  | call :: _ => m.node.taskCards call
  | [] => m.node.inputCards S i

theorem turn_node : (m.turn S t).node = (m.outcome S t).node := by
  unfold turn outcome
  cases m.calls <;> rfl

theorem outcome_moves : ∃ mv, Moves S (m.settles S t.2) m.node (m.outcome S t) mv := by
  unfold settles outcome
  split
  · exact exec_moves _
  · exact handle_moves _

/-- A node that has just opened its stored chain, over whatever its log left of cards and
buffers. -/
structure Reopened (S : Site) (m : Machine) : Prop where
  calls : m.calls = []
  adopted : ∃ (e : Env) (k : Node) (blocks : List ChainBlock) (w : ChainWalk),
    k.chain.walkOwn S.C blocks = .ok w ∧ m.node = k.adoptChain S e blocks

def AllMoves (S : Site) (P : Machine → Env × Input → Move → Prop) :
    Machine → List (Env × Input) → Prop
  | _, [] => True
  | m, t :: turns => (∀ mv, Moves S (m.settles S t.2) m.node (m.outcome S t) mv → P m t mv) ∧
      AllMoves S P (m.turn S t) turns

theorem AllMoves.keeps {P : Machine → Env × Input → Move → Prop} {I : Machine → Prop}
    (hstep : ∀ m t mv, I m → Moves S (m.settles S t.2) m.node (m.outcome S t) mv → P m t mv →
      I (m.turn S t)) {turns : List (Env × Input)} (hI : I m) (hall : AllMoves S P m turns) :
    I (m.run S turns) := by
  induction turns generalizing m with
  | nil => exact hI
  | cons t turns ih =>
    obtain ⟨mv, hmv⟩ := outcome_moves (S := S) (m := m) (t := t)
    exact ih (hstep m t mv hI hmv (hall.1 mv hmv)) hall.2

end Machine

namespace Sample

/-- Primitives that evaluate fast: a short checksum, and a signature that opens with the
signer's key. -/
def brief : Crypto := { Crypto.toy with
  sha256 := fun bytes =>
    leBytes 2 (bytes.foldl (fun acc b => (acc * 257 + b.toNat + 1) % 65521) 7)
  ed25519Verify := fun key _ sig => sig.take 32 == key }

def annKey : String := "0101010101010101010101010101010101010101010101010101010101010101"

def benKey : String := "0202020202020202020202020202020202020202020202020202020202020202"

def annSigns : RosterAttestation := ⟨"ann", annKey ++ annKey⟩

def benSigns : RosterAttestation := ⟨"ben", benKey ++ benKey⟩

def duo : Genesis :=
  { name := "C", republicId := "5ad3", ruleM := 1, ruleN := 2,
    identities := [⟨"ann", annKey, "", ""⟩, ⟨"ben", benKey, "", ""⟩], agenda := "", relays := [],
    features := none }

def founded : List ChainBlock := [⟨0, genesisPrev, .genesis duo, [annSigns, benSigns]⟩]

def annSite : Site := { site with C := brief, sign := none }

def replayed : Node := { start.node with
  chain := ⟨none, [], none, duo.republicId, {}⟩, identities := duo.identities }

def reopened : Machine := ⟨replayed.adoptChain annSite env founded, [], []⟩

def decision (height : UInt64) (prev : String) (id : UInt64) (name : String) : ChainBlock :=
  ⟨height, prev, .applied id .organization (rename name), [benSigns]⟩

theorem founded_verifies : ∃ w, walkChain annSite.C founded = .ok w :=
  isOk_exists (by decide +kernel)

theorem reopened_reopened : reopened.Reopened annSite := by
  obtain ⟨w, hw⟩ := founded_verifies
  have hown : replayed.chain.walkOwn annSite.C founded = walkChain annSite.C founded := by
    have hblob : replayed.chain.checkpointBlob = none := rfl
    simp [Holder.walkOwn, hblob]
  exact ⟨rfl, env, replayed, founded, w, hown.trans hw, by simp [reopened]⟩

end Sample

end Molt.Engine
