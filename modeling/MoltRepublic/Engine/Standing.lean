import Mathlib
import MoltRepublic.Engine.Consumed

/-! The chain a node holds, over whole runs: it passes the walk from its anchor, and the head the
node reports is the head of that walk. -/

namespace Molt.Chain.Holder
open Molt.Core Check List

variable {C : Crypto} {h : Holder} {w w' : ChainWalk} {b : ChainBlock} {blocks rest : List ChainBlock}

theorem walkOwn_cons (hwalk : h.walkOwn C (b :: rest) = .ok w) :
    ∃ w₀, h.walkOwn C [b] = .ok w₀ ∧ w₀.head.height = b.height ∧ rest.foldlM (advance C h.ownBases) w₀ = .ok w := by
  unfold walkOwn ownBases at *
  split at hwalk <;> rename_i hblob <;> rw [hblob]
  · obtain ⟨b', rest', head, g, heq, hgenesis, hchange, hrest⟩ := walkChain_eq_ok.mp hwalk
    obtain ⟨rfl, rfl⟩ := List.cons.inj heq
    refine ⟨_, walkChain_eq_ok.mpr ⟨b, [], head, g, rfl, hgenesis, hchange, rfl⟩, ?_, hrest⟩
    obtain ⟨_, _, hheight, _, _, _, _, _, _, rfl⟩ := verifyGenesis_eq_ok.mp hgenesis
    exact hheight.symm
  · obtain ⟨anchor, rest', w₀, heq, hanchor, hrest⟩ := walkSuffixChain_eq_ok.mp hwalk
    obtain ⟨rfl, rfl⟩ := List.cons.inj heq
    refine ⟨w₀, walkSuffixChain_eq_ok.mpr ⟨b, [], w₀, rfl, hanchor, rfl⟩, ?_, hrest⟩
    obtain ⟨_, _, _, _, _, _, _, _, _, _, _, _, rfl⟩ := verifyAnchor_eq_ok.mp hanchor
    rfl

theorem advance_head {held : Held} (hstep : advance C held w b = .ok w') :
    b.height.toNat = w.head.height.toNat + 1 ∧ w'.head.height = b.height ∧
      w'.head.republicId = w.head.republicId := by
  obtain ⟨head, consumed, wiki, running, hnext, -, -, -, rfl⟩ := advance_eq_ok.mp hstep
  obtain ⟨hheight, -, -, -, identities, -, rfl⟩ := verifyNext_eq_ok.mp hnext
  exact ⟨hheight, rfl, rfl⟩

theorem walkOwn_republicId (hwalk : h.walkOwn C blocks = .ok w) (hwalk' : h.walkOwn C rest = .ok w')
    (hfirst : blocks.head? = rest.head?) : w'.head.republicId = w.head.republicId := by
  have hkeeps : ∀ {l : List ChainBlock} {v v' : ChainWalk}, l.foldlM (advance C h.ownBases) v = .ok v' →
      v'.head.republicId = v.head.republicId := fun {l v v'} hl =>
    foldlM_history (P := fun (_ : List ChainBlock) (u : ChainWalk) => u.head.republicId = v.head.republicId)
      (fun _ _ _ _ hu ha => (advance_head ha).2.2.trans hu) (k := []) rfl hl
  cases blocks with
  | nil =>
    cases rest with
    | nil => rw [Except.ok.inj (hwalk.symm.trans hwalk')]
    | cons b rest => simp at hfirst
  | cons b blocks =>
    cases rest with
    | nil => simp at hfirst
    | cons b' rest =>
      obtain rfl : b = b' := Option.some.inj hfirst
      obtain ⟨w₀, hone, -, hrest⟩ := walkOwn_cons hwalk
      obtain ⟨w₁, hone', -, hrest'⟩ := walkOwn_cons hwalk'
      obtain rfl : w₀ = w₁ := Except.ok.inj (hone.symm.trans hone')
      exact (hkeeps hrest').trans (hkeeps hrest).symm

theorem walkOwn_heights (hwalk : h.walkOwn C blocks = .ok w) :
    blocks.Pairwise fun a b => a.height.toNat < b.height.toNat := by
  cases blocks with
  | nil => exact .nil
  | cons b rest =>
    obtain ⟨w₀, -, hopens, hrest⟩ := walkOwn_cons hwalk
    have hrun := foldlM_history (P := fun (l : List ChainBlock) (u : ChainWalk) =>
      (∀ a ∈ l, a.height.toNat ≤ u.head.height.toNat) ∧ l.Pairwise fun a b => a.height.toNat < b.height.toNat)
      (k := [b]) (fun l u a t hu ha => ?_) ⟨by simp [hopens], pairwise_singleton ..⟩ hrest
    · exact hrun.2
    · obtain ⟨hnext, hhead, -⟩ := advance_head ha
      refine ⟨fun c hc => ?_, pairwise_append.mpr ⟨hu.2, pairwise_singleton .., fun c hc d hd => ?_⟩⟩
      · rw [hhead]
        rcases mem_append.mp hc with hc | hc
        · exact (hu.1 c hc).trans (by omega)
        · rw [mem_singleton.mp hc]
      · rw [mem_singleton.mp hd, hnext]
        exact Nat.lt_succ_of_le (hu.1 c hc)

/-- What holds of a holder between two turns. A walk it keeps is that of its blocks, or was left
behind when a smaller tip took the place of the tip it ends on. -/
structure Standing (C : Crypto) (h : Holder) (w : ChainWalk) : Prop where
  walked : h.walkOwn C h.blocks = .ok w
  named : w.head.republicId = h.republicId
  bases : h.checkpointBlob = none → h.held = {}
  kept : ∀ v, h.walk = some v → v = w ∨ v.head.republicId = h.republicId ∧
    ∃ tip, h.blocks.getLast? = some tip ∧ C.blockHash h.republicId tip < v.head.hash

namespace Standing

variable (hs : Standing C h w)
include hs

theorem extendOwn (b : ChainBlock) : h.extendOwn C b = ({ h with walk := some (step C w b h.held).1 },
    (step C w b h.held).2.map fun _ => (step C w b h.held).1.head) := by
  cases hkept : h.walk.filter fun v => v.describes C h.blocks h.checkpointBlob with
  | none => simp [Holder.extendOwn, hkept, hs.walked]
  | some v =>
    obtain ⟨hv, hdescribes⟩ := Option.filter_eq_some_iff.mp hkept
    have hsame : v = w := by
      rcases hs.kept v hv with heq | ⟨hnamed, tip, htip, hbehind⟩
      · exact heq
      · simp only [ChainWalk.describes, htip, hnamed, Bool.and_eq_true, beq_iff_eq] at hdescribes
        exact absurd (hdescribes.2 ▸ hbehind) (lt_irrefl _)
    simp [Holder.extendOwn, hkept, hsame]

theorem accepts (b : ChainBlock) (head : ChainHead) : (h.extendOwn C b).2 = .ok head ↔
    ∃ w', h.walkOwn C (h.blocks ++ [b]) = .ok w' ∧ w'.head = head := by
  have hsame : h.SameBases := fun hblob => Or.inl (hs.bases hblob)
  simp only [walkOwn_concat hs.walked, ← advance_ownBases hsame hs.walked, hs.extendOwn]
  unfold advance
  cases (step C w b h.held).2 <;> simp [Except.map]

theorem append {k : Holder} {head : ChainHead} (htried : h.extendOwn C b = (k, .ok head)) :
    ∃ w', Standing C { k with blocks := k.blocks ++ [b] } w' ∧ head = w'.head := by
  have hok : (h.extendOwn C b).2 = .ok head := by rw [htried]
  obtain ⟨w', hwalk, rfl⟩ := (hs.accepts b head).mp hok
  have hadvance := (walkOwn_concat hs.walked).mp hwalk
  rw [← advance_ownBases (fun hblob => Or.inl (hs.bases hblob)) hs.walked] at hadvance
  rw [hs.extendOwn, Prod.mk.injEq] at htried
  obtain ⟨rfl, -⟩ := htried
  have hw' : (step C w b h.held).1 = w' := by
    unfold advance at hadvance
    cases hstep : (step C w b h.held).2 <;> simp_all [Except.map]
  exact ⟨w', ⟨hwalk, (advance_head hadvance).2.2.trans hs.named, hs.bases,
    fun v hv => Or.inl ((Option.some.inj hv).symm.trans hw')⟩, rfl⟩

theorem refuse {k : Holder} {why : String} (htried : h.extendOwn C b = (k, .error why)) : Standing C k w := by
  rw [hs.extendOwn, Prod.mk.injEq] at htried
  obtain ⟨rfl, hwhy⟩ := htried
  have hw : (step C w b h.held).1 = w := by
    cases hstep : (step C w b h.held).2 with
    | ok => simp [hstep, Except.map] at hwhy
    | error e => exact step_of_error hstep
  exact ⟨hs.walked, hs.named, hs.bases, fun v hv => Or.inl ((Option.some.inj hv).symm.trans hw)⟩

theorem adopt (hwalk : h.walkOwn C blocks = .ok w') (hfirst : h.blocks.head? = blocks.head?) :
    Standing C { h with blocks := blocks, walk := some w' } w' :=
  ⟨hwalk, (walkOwn_republicId hs.walked hwalk hfirst).trans hs.named, hs.bases,
    fun _ hv => Or.inl (Option.some.inj hv).symm⟩

theorem swap {tip : ChainBlock} (hwalk : h.walkOwn C (h.blocks.dropLast ++ [b]) = .ok w') (hlong : 2 ≤ h.blocks.length)
    (htip : h.blocks.getLast? = some tip) (hsmaller : C.blockHash h.republicId b < C.blockHash h.republicId tip) :
    Standing C { h with blocks := h.blocks.dropLast ++ [b] } w' := by
  have hfirst : h.blocks.head? = (h.blocks.dropLast ++ [b]).head? := by
    obtain ⟨l, hl⟩ : ∃ l, h.blocks = l := ⟨_, rfl⟩
    rw [hl] at hlong ⊢
    match l, hlong with
    | a :: c :: l, _ => rfl
  refine ⟨hwalk, (walkOwn_republicId hs.walked hwalk hfirst).trans hs.named, hs.bases, fun v hv => Or.inr ?_⟩
  rcases hs.kept v hv with rfl | ⟨hnamed, tip', htip', hbehind⟩
  · obtain ⟨-, -, last, hlast, hhash⟩ := walkOwn_covers hs.walked
    obtain rfl : tip = last := Option.some.inj (htip.symm.trans hlast)
    exact ⟨hs.named, b, getLast?_concat, by rw [← hhash, hs.named]; exact hsmaller⟩
  · obtain rfl : tip = tip' := Option.some.inj (htip.symm.trans htip')
    exact ⟨hnamed, b, getLast?_concat, hsmaller.trans hbehind⟩

end Standing

end Molt.Chain.Holder

namespace Molt.Engine
open Molt.Core Json Chain List

/-- The moves between two cuts: no cut, no new anchor, and a tip is swapped above the anchor
only. -/
def Move.onward (n : Node) : Move → Prop
  | .swapped _ => 2 ≤ n.chain.blocks.length
  | .reanchored .. | .pruned .. => False
  | _ => True

def Verified (S : Site) (n : Node) : Prop :=
  ∃ w, Holder.Standing S.C n.chain w ∧ n.head = some w.head

section

variable {S : Site} {Q : Settling} {n : Node} {o : Outcome}

theorem Verified.moves (h : Verified S n) {mv : Move} (hmv : Moves S Q n o mv) (honward : mv.onward n) :
    Verified S o.node := by
  obtain ⟨w, hs, hhead⟩ := h
  unfold Verified
  cases hmv with
  | still hstill _ => exact ⟨w, hstill.chain ▸ hs, hstill.head.trans hhead⟩
  | refused htried hkeeps _ _ => exact ⟨w, hs.refuse htried, hkeeps.trans hhead⟩
  | appended htried hchain hnew _ _ _ =>
    obtain ⟨w', hs', rfl⟩ := hs.append htried
    exact ⟨w', hchain ▸ hs', hnew⟩
  | adopted hwalk hbranches hchain hnew _ _ =>
    obtain ⟨first, fork, ours, theirs, rest, hfirst, hbelow, -, rfl, -, -⟩ := hbranches
    refine ⟨_, hchain ▸ hs.adopt hwalk ?_, hnew⟩
    obtain ⟨more, hmore⟩ := head?_eq_some_iff.mp hfirst
    simp [hmore, hbelow]
  | @swapped block w' hwalk hcontends hchain hnew _ _ _ =>
    obtain ⟨⟨existing, hslot, hsmaller⟩, tip, htip, hheight⟩ := hcontends
    have hexisting : existing = tip := by
      have hmem : existing ∈ n.chain.blocks := mem_of_find?_eq_some hslot
      have hsame : existing.height = block.height := by simpa using find?_some hslot
      have hrising := Holder.walkOwn_heights hs.walked
      rw [← dropLast_append_getLast? tip htip] at hmem hrising
      rcases mem_append.mp hmem with hbefore | hlast
      · have hlt := (pairwise_append.mp hrising).2.2 existing hbefore tip (.head _)
        rw [hsame, hheight] at hlt
        exact absurd hlt (lt_irrefl _)
      · exact mem_singleton.mp hlast
    exact ⟨w', hchain ▸ hs.swap hwalk honward htip (hexisting ▸ hsmaller), hnew⟩
  | reanchored => exact honward.elim
  | pruned => exact honward.elim

end

theorem Machine.Reopened.verified {S : Site} {m : Machine} (h : m.Reopened S)
    (hnamed : m.node.head.map ChainHead.republicId = some m.node.chain.republicId)
    (hbases : m.node.chain.checkpointBlob = none → m.node.chain.held = {}) : Verified S m.node := by
  obtain ⟨e, k, blocks, w, hwalk, hnode⟩ := h.adopted
  obtain ⟨hchain, hhead, -, -⟩ := Node.adoptChain_ok (e := e) hwalk
  rw [← hnode] at hchain hhead
  rw [hhead] at hnamed
  rw [hchain] at hnamed hbases
  refine ⟨w, ?_, hhead⟩
  rw [hchain]
  exact ⟨hwalk, Option.some.inj hnamed, hbases, fun _ hv => Or.inl (Option.some.inj hv).symm⟩

theorem run_chain_verifies (S : Site) (m : Machine) (turns : List (Env × Input)) (hopened : m.Reopened S)
    (hnamed : m.node.head.map ChainHead.republicId = some m.node.chain.republicId)
    (hbases : m.node.chain.checkpointBlob = none → m.node.chain.held = {})
    (honward : m.AllMoves S (fun m _ mv => mv.onward m.node) turns) :
    let n := (m.run S turns).node
    (∃ w, n.chain.walkOwn S.C n.chain.blocks = .ok w ∧ n.head = some w.head) ∧
    ∀ b head, (n.chain.extendOwn S.C b).2 = .ok head ↔
      ∃ w, n.chain.walkOwn S.C (n.chain.blocks ++ [b]) = .ok w ∧ w.head = head := by
  have hrun : Verified S (m.run S turns).node := by
    refine Machine.AllMoves.keeps (I := fun m => Verified S m.node) (fun m t mv hm hmv hP => ?_)
      (hopened.verified hnamed hbases) honward
    rw [Machine.turn_node]
    exact hm.moves hmv hP
  obtain ⟨w, hs, hhead⟩ := hrun
  exact ⟨⟨w, hs.walked, hhead⟩, hs.accepts⟩

namespace Sample

theorem appended_onward {mv : Move} (hmv : Moves annSite
    (reopened.settles annSite (served (decision 1 "7ac4" 4 "A")).2) reopened.node
    (reopened.outcome annSite (served (decision 1 "7ac4" 4 "A"))) mv) : mv.onward reopened.node := by
  have hbefore : reopened.node.chain.blocks = founded := by decide +kernel
  have hafter : (reopened.outcome annSite (served (decision 1 "7ac4" 4 "A"))).node.chain.blocks.length = 2 ∧
      (reopened.outcome annSite (served (decision 1 "7ac4" 4 "A"))).node.chain.checkpointBlob = none := by
    decide +kernel
  obtain ⟨hlength, hblob⟩ := hafter
  cases hmv with
  | swapped _ _ hchain =>
    rw [hchain, hbefore] at hlength
    simp [founded] at hlength
  | @reanchored blob blocks w k _ _ hanchored _ hchain =>
    rw [hchain] at hblob
    change k.chain.checkpointBlob = none at hblob
    simp [hanchored, anchoredOn] at hblob
  | pruned _ _ hchain =>
    rw [hchain] at hblob
    simp [prunedAt] at hblob
  | _ => trivial

end Sample

open Sample in
theorem run_chain_verifies_sample :
    let n := (reopened.run annSite [served (decision 1 "7ac4" 4 "A")]).node
    n.chain.blocks.length = 2 ∧ ∃ w, n.chain.walkOwn annSite.C n.chain.blocks = .ok w ∧ n.head = some w.head := by
  have honward : reopened.AllMoves annSite (fun m _ mv => mv.onward m.node)
      [served (decision 1 "7ac4" 4 "A")] := ⟨fun _ hmv => appended_onward hmv, trivial⟩
  obtain ⟨w, hw⟩ := founded_verifies
  have hown : replayed.chain.walkOwn annSite.C founded = .ok w := by
    have hblob : replayed.chain.checkpointBlob = none := rfl
    simpa [Holder.walkOwn, hblob] using hw
  have hheld : reopened.node.chain.held = {} := by
    rw [reopened, (Node.adoptChain_ok hown).1]
    rfl
  exact ⟨by decide +kernel,
    (run_chain_verifies annSite reopened _ reopened_reopened (by decide +kernel) (fun _ => hheld) honward).1⟩

end Molt.Engine
