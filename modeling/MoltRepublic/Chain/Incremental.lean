import Mathlib
import MoltRepublic.Chain.Bases
import MoltRepublic.Chain.Soundness

/-! A holder that keeps its walk: extending it block by block is verifying the chain
from its anchor. -/

namespace Molt.Chain
open Molt.Core Check List

variable {C : Crypto}

structure Holder where
  checkpointBlob : Option CheckpointState
  blocks : List ChainBlock
  walk : Option ChainWalk
  republicId : String
  held : Held

def ChainWalk.describes (C : Crypto) (w : ChainWalk) (chain : List ChainBlock)
    (blob : Option CheckpointState) : Bool :=
  w.folded == chain.length && w.floor == blob.map CheckpointState.upto &&
    match chain.getLast? with
    | some b => C.blockHash w.head.republicId b == w.head.hash
    | none => false

namespace Holder

/-- `walk_own`: a chain in this holder's context, from the genesis or from its blob. -/
def walkOwn (C : Crypto) (h : Holder) (blocks : List ChainBlock) : Except String ChainWalk :=
  match h.checkpointBlob with
  | none => walkChain C blocks
  | some blob => walkSuffixChain C blob blocks h.republicId h.held

/-- `extend_own`: one block on the chain the holder has, on the kept walk where it still
describes that chain. -/
def extendOwn (C : Crypto) (h : Holder) (block : ChainBlock) : Holder × Except String ChainHead :=
  let kept := h.walk.filter fun w => w.describes C h.blocks h.checkpointBlob
  match kept.elim (h.walkOwn C h.blocks) .ok with
  | .error e => ({ h with walk := none }, .error e)
  | .ok w =>
    let stepped := step C w block h.held
    ({ h with walk := some stepped.1 }, stepped.2.map fun _ => stepped.1.head)

def appendCommittedBlock (C : Crypto) (h : Holder) (block : ChainBlock) : Holder × Bool :=
  match h.extendOwn C block with
  | (h', .ok _) => ({ h' with blocks := h'.blocks ++ [block] }, true)
  | (h', .error _) => (h', false)

def offerAll (C : Crypto) (h : Holder) (offered : List ChainBlock) : Holder :=
  offered.foldl (fun h b => (h.appendCommittedBlock C b).1) h

/-- A holder whose walk was built by `walk_own`, or by extending such a one. -/
inductive Built (C : Crypto) : Holder → Prop
  | walked {h : Holder} {w : ChainWalk} :
      h.walk = some w → h.walkOwn C h.blocks = .ok w → Built C h
  | offered {h : Holder} (b : ChainBlock) : Built C h → Built C (h.appendCommittedBlock C b).1

/-- The holder steps on the bases it is verified with: a full holder, which is verified
with none, keeps none or has no block that commits to one. -/
def SameBases (h : Holder) : Prop :=
  h.checkpointBlob = none → h.held = {} ∨ ∀ b ∈ h.blocks, appliesBase b = false

def Covers (C : Crypto) (floor : Option UInt64) (chain : List ChainBlock) (w : ChainWalk) : Prop :=
  w.folded = chain.length ∧ w.floor = floor ∧
    ∃ b, chain.getLast? = some b ∧ C.blockHash w.head.republicId b = w.head.hash

variable {w : ChainWalk}

theorem Covers.describes {blob : Option CheckpointState} {chain : List ChainBlock}
    (h : Covers C (blob.map CheckpointState.upto) chain w) : w.describes C chain blob = true := by
  obtain ⟨hfolded, hfloor, b, hlast, hhash⟩ := h
  simp [ChainWalk.describes, hfolded, hfloor, hlast, hhash]

variable {b : ChainBlock}

theorem Covers.advance {floor : Option UInt64} {held : Held} {chain : List ChainBlock} {w' : ChainWalk}
    (hw : Covers C floor chain w) (h : advance C held w b = .ok w') : Covers C floor (chain ++ [b]) w' := by
  obtain ⟨head, consumed, wiki, running, hnext, -, -, -, rfl⟩ := advance_eq_ok.mp h
  obtain ⟨-, -, -, -, identities, -, rfl⟩ := verifyNext_eq_ok.mp hnext
  exact ⟨by simp [hw.1], hw.2.1, b, getLast?_concat, rfl⟩

variable {h : Holder}

theorem walkOwn_covers {blocks : List ChainBlock} (hwalk : h.walkOwn C blocks = .ok w) :
    Covers C (h.checkpointBlob.map CheckpointState.upto) blocks w := by
  unfold walkOwn at hwalk
  split at hwalk <;> rename_i hblob <;> rw [hblob]
  · obtain ⟨g, hw⟩ := walkChain_walked hwalk
    obtain ⟨b, hlast, hhash⟩ := hw.hash
    exact ⟨hw.folded, hw.floor, b, hlast, by rw [hw.republicId, hhash]⟩
  · obtain ⟨anchor, rest, w₀, rfl, hanchor, hrest⟩ := walkSuffixChain_eq_ok.mp hwalk
    obtain ⟨-, kind, -, -, -, -, -, -, -, -, -, -, rfl⟩ := verifyAnchor_eq_ok.mp hanchor
    refine foldlM_history (P := Covers C _) (fun _ _ _ _ hw ha => hw.advance ha) (k := [anchor]) ?_ hrest
    exact ⟨rfl, rfl, anchor, rfl, rfl⟩

def ownBases (h : Holder) : Held := if h.checkpointBlob.isSome then h.held else {}

theorem walkOwn_concat {blocks : List ChainBlock} {w' : ChainWalk} (hwalk : h.walkOwn C blocks = .ok w) :
    h.walkOwn C (blocks ++ [b]) = .ok w' ↔ advance C h.ownBases w b = .ok w' := by
  unfold walkOwn ownBases at *
  split at hwalk <;> rename_i hblob <;> rw [hblob] <;> simp only [Option.isSome]
  · have hne : blocks ≠ [] := by rintro rfl; simp [walkChain] at hwalk
    simp [walkChain_append_eq_ok hne, hwalk]
  · obtain ⟨anchor, rest, w₀, rfl, hanchor, hrest⟩ := walkSuffixChain_eq_ok.mp hwalk
    rw [cons_append, walkSuffixChain_eq_ok]
    constructor
    · rintro ⟨anchor', rest', w₁, heq, hanchor', hrest'⟩
      obtain ⟨rfl, rfl⟩ := List.cons.inj heq
      obtain rfl : w₀ = w₁ := Except.ok.inj (hanchor.symm.trans hanchor')
      obtain ⟨r, hr, hb⟩ := foldlM_concat_eq_ok.mp hrest'
      obtain rfl : w = r := Except.ok.inj (hrest.symm.trans hr)
      exact hb
    · intro hb
      exact ⟨anchor, rest ++ [b], w₀, rfl, hanchor, foldlM_concat_eq_ok.mpr ⟨w, hrest, hb⟩⟩

theorem checkCut_ownBases (hsame : h.SameBases) (hwalk : h.walkOwn C h.blocks = .ok w) (b : ChainBlock) :
    checkCut C w b h.held = checkCut C w b h.ownBases := by
  cases hblob : h.checkpointBlob with
  | some blob => simp [ownBases, hblob]
  | none =>
    have hown : h.ownBases = {} := by simp [ownBases, hblob]
    rw [hown]
    rcases hsame hblob with hheld | hfree
    · rw [hheld]
    · unfold walkOwn at hwalk
      rw [hblob] at hwalk
      obtain ⟨g, hw⟩ := walkChain_walked hwalk
      have hrunning : BaseFree w.running.applied :=
        BaseFree.foldlM (fun c hc => hfree c (mem_of_mem_tail hc)) hw.running
      unfold checkCut
      split
      · rfl
      · rename_i upto _ kind _
        have hcut : BaseFree (atCut w.running upto).applied := hrunning
        simp only [hashWalkState, foldCut_held hcut kind h.held {}]

theorem advance_ownBases (hsame : h.SameBases) (hwalk : h.walkOwn C h.blocks = .ok w) (b : ChainBlock) :
    advance C h.held w b = advance C h.ownBases w b := by
  unfold advance step
  rw [checkCut_ownBases hsame hwalk b]

theorem extendOwn_eq (hkept : h.walk = some w) (hwalk : h.walkOwn C h.blocks = .ok w) (b : ChainBlock) :
    h.extendOwn C b = ({ h with walk := some (step C w b h.held).1 },
      (step C w b h.held).2.map fun _ => (step C w b h.held).1.head) := by
  have hdescribes := (walkOwn_covers hwalk).describes
  simp [extendOwn, hkept, Option.filter, hdescribes]

theorem appendCommittedBlock_cases (hkept : h.walk = some w) (hwalk : h.walkOwn C h.blocks = .ok w)
    (b : ChainBlock) :
    (∃ w', advance C h.held w b = .ok w' ∧ (h.appendCommittedBlock C b).1 =
        { h with walk := some w', blocks := h.blocks ++ [b] }) ∨
      (∃ e, advance C h.held w b = .error e ∧ (h.appendCommittedBlock C b).1 = h) := by
  unfold appendCommittedBlock
  rw [extendOwn_eq hkept hwalk]
  cases hstep : (step C w b h.held).2 with
  | ok =>
    exact .inl ⟨(step C w b h.held).1, by simp [advance, hstep, Except.map], by simp [Except.map]⟩
  | error e =>
    refine .inr ⟨e, by simp [advance, hstep, Except.map], ?_⟩
    simp [Except.map, step_of_error hstep, ← hkept]

theorem extendOwn_same (C : Crypto) (h : Holder) (b : ChainBlock) :
    ∃ walk, (h.extendOwn C b).1 = { h with walk := walk } := by
  unfold extendOwn
  simp only
  split
  · exact ⟨none, rfl⟩
  · exact ⟨_, rfl⟩

theorem appendCommittedBlock_same (C : Crypto) (h : Holder) (b : ChainBlock) :
    (h.appendCommittedBlock C b).1.checkpointBlob = h.checkpointBlob ∧
      (h.appendCommittedBlock C b).1.held = h.held ∧
      (h.appendCommittedBlock C b).1.republicId = h.republicId ∧
      h.blocks ⊆ (h.appendCommittedBlock C b).1.blocks := by
  obtain ⟨walk, hsame⟩ := extendOwn_same C h b
  unfold appendCommittedBlock
  split <;> rename_i h' _ heq <;> rw [heq] at hsame <;> simp only at hsame <;> subst hsame
  · exact ⟨rfl, rfl, rfl, subset_append_left ..⟩
  · exact ⟨rfl, rfl, rfl, List.Subset.refl _⟩

theorem walkOwn_congr {k : Holder} (hblob : k.checkpointBlob = h.checkpointBlob) (hheld : k.held = h.held)
    (hrid : k.republicId = h.republicId) (blocks : List ChainBlock) :
    k.walkOwn C blocks = h.walkOwn C blocks := by
  unfold walkOwn
  rw [hblob, hheld, hrid]

theorem SameBases.before (hsame : (h.appendCommittedBlock C b).1.SameBases) : h.SameBases := by
  obtain ⟨hblob, hheld, -, hsub⟩ := appendCommittedBlock_same C h b
  intro hnone
  have := hsame (hblob.trans hnone)
  rw [hheld] at this
  exact this.imp_right fun hfree c hc => hfree c (hsub hc)

theorem SameBases.before_all (offered : List ChainBlock) (hsame : (h.offerAll C offered).SameBases) :
    h.SameBases := by
  induction offered generalizing h with
  | nil => exact hsame
  | cons b l ih => exact (ih hsame).before

theorem Built.coherent (hb : Built C h) (hsame : h.SameBases) :
    ∃ w, h.walk = some w ∧ h.walkOwn C h.blocks = .ok w := by
  induction hb with
  | @walked h w hkept hwalk => exact ⟨w, hkept, hwalk⟩
  | @offered h b hb ih =>
    obtain ⟨hblob, hheld, hrid, -⟩ := appendCommittedBlock_same C h b
    have hbefore := hsame.before
    obtain ⟨w, hkept, hwalk⟩ := ih hbefore
    rcases appendCommittedBlock_cases hkept hwalk b with ⟨w', hstep, heq⟩ | ⟨e, -, heq⟩
    · rw [advance_ownBases hbefore hwalk] at hstep
      exact ⟨w', by rw [heq], by rw [heq]; exact (walkOwn_concat hwalk).mpr hstep⟩
    · rw [heq]
      exact ⟨w, hkept, hwalk⟩

theorem Built.offerAll (hb : Built C h) (offered : List ChainBlock) :
    Built C (h.offerAll C offered) := by
  induction offered generalizing h with
  | nil => exact hb
  | cons b l ih => exact ih (hb.offered b)

/-- Extending the kept walk block by block is verifying the chain from its anchor:
whatever was offered, the walk that is kept is the one of the accepted chain, a block is
accepted with a head exactly when the chain with it is, and a refused one changes
nothing. -/
theorem extendOwn_iff_walkOwn {h : Holder} (hb : Built C h) (offered : List ChainBlock)
    (hsame : (h.offerAll C offered).SameBases) :
    let k := h.offerAll C offered
    (∃ w, k.walk = some w ∧ k.walkOwn C k.blocks = .ok w) ∧
      (∀ b head, (k.extendOwn C b).2 = .ok head ↔
        ∃ w, k.walkOwn C (k.blocks ++ [b]) = .ok w ∧ w.head = head) ∧
      (∀ b e, (k.extendOwn C b).2 = .error e → (k.extendOwn C b).1 = k) ∧
      ∀ (w : ChainWalk) b held e, (step C w b held).2 = .error e → (step C w b held).1 = w := by
  intro k
  obtain ⟨w, hkept, hwalk⟩ := (hb.offerAll offered).coherent hsame
  change k.SameBases at hsame
  change k.walk = some w at hkept
  change k.walkOwn C k.blocks = .ok w at hwalk
  clear_value k
  refine ⟨⟨w, hkept, hwalk⟩, ?_, ?_, fun _ _ _ _ => step_of_error⟩
  · intro b head
    simp only [walkOwn_concat hwalk, ← advance_ownBases hsame hwalk, extendOwn_eq hkept hwalk]
    unfold advance
    cases (step C w b k.held).2 <;> simp [Except.map]
  · intro b e herr
    rw [extendOwn_eq hkept hwalk] at herr ⊢
    cases hstep : (step C w b k.held).2 with
    | ok => simp [hstep, Except.map] at herr
    | error e' => rw [step_of_error hstep, ← hkept]

theorem offerAll_held (C : Crypto) (h : Holder) (offered : List ChainBlock) :
    (h.offerAll C offered).held = h.held := by
  unfold offerAll
  induction offered generalizing h with
  | nil => rfl
  | cons b l ih => exact (ih _).trans (appendCommittedBlock_same C h b).2.1

theorem extendOwn_iff_walkOwn_sample : ∃ h : Holder, Built Crypto.toy h ∧
    h.blocks = Sample.opened ∧ ∃ w, (h.offerAll Crypto.toy Sample.moved).walk = some w ∧
      (h.offerAll Crypto.toy Sample.moved).walkOwn Crypto.toy
        (h.offerAll Crypto.toy Sample.moved).blocks = .ok w := by
  obtain ⟨w, hw⟩ := Sample.chain_accepted
  obtain ⟨w₁, hw₁, -⟩ := (walkChain_append_eq_ok (by simp [Sample.moved])).mp hw
  have hopened : Sample.opened ≠ [] := by simp [Sample.opened]
  obtain ⟨w₀, hw₀, -⟩ := (walkChain_append_eq_ok hopened).mp hw₁
  have hb : Built Crypto.toy ⟨none, Sample.opened, some w₀, "", {}⟩ := .walked rfl hw₀
  exact ⟨_, hb, rfl, (extendOwn_iff_walkOwn hb Sample.moved fun _ => Or.inl (offerAll_held ..)).1⟩

end Holder

end Molt.Chain
