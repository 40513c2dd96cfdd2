import Mathlib
import MoltRepublic.Chain.Incremental
import MoltRepublic.Core.SignedBytes
import MoltRepublic.Lib.Linked

/-! The catch-up between two holders: the samples a request carries, where a server
starts on them, and the run it serves. -/

namespace Molt.Chain
open Molt.Core Check Text List Nat

variable {C : Crypto}

structure HeightHash where
  height : UInt64
  hash : String

def knownHeadsMax : ℕ := 16

def stepBack (back : UInt64) : UInt64 :=
  if back = 0 then 1 else if back.toNat * 2 < 2 ^ 64 then back * 2 else UInt64.ofNat (2 ^ 64 - 1)

/-- The loop of `known_heads` with `room` entries left: it ends at the first height it has no
block for. -/
def samplesFrom (C : Crypto) (rid : String) (blocks : List ChainBlock) (head : UInt64) :
    ℕ → UInt64 → List HeightHash
  | 0, _ => []
  | room + 1, back =>
    if back ≤ head then
      match blocks.find? fun b => b.height == head - back with
      | some b => ⟨head - back, C.blockHash rid b⟩ :: samplesFrom C rid blocks head room (stepBack back)
      | none => []
    else []

inductive Sent
  | checkpointServed (blob : CheckpointState)
  | committed (block : ChainBlock)

namespace Holder

def knownHeads (C : Crypto) (h : Holder) : List HeightHash :=
  match h.blocks.getLast? with
  | none => []
  | some b => samplesFrom C h.republicId h.blocks b.height knownHeadsMax 0

/-- `request_catchup`: nothing without a head, or while the same gap is outstanding. -/
def requestCatchup (C : Crypto) (h : Holder) (head : Option ChainHead) (outstanding : Option UInt64)
    (from_ : UInt64) : Option (UInt64 × List HeightHash) :=
  if head.isNone ∨ outstanding = some from_ then none else some (from_, h.knownHeads C)

def holds (C : Crypto) (h : Holder) (k : HeightHash) : Bool :=
  h.blocks.any fun b => b.height == k.height && C.blockHash h.republicId b == k.hash

def serveFromFor (C : Crypto) (h : Holder) (fromHeight : UInt64) (known : List HeightHash) : UInt64 :=
  (((known.filter fun k => h.holds C k).map fun k => saturatingSucc k.height).max?).getD fromHeight

/-- `serve_chain_from`, over the test whether a blob fits one frame. -/
def serveChainFrom (fits : CheckpointState → Bool) (h : Holder) (from_ : UInt64) : List Sent :=
  let blocks := h.blocks.filter fun b => b.height ≥ from_
  if blocks.isEmpty then []
  else
    let blob := match h.checkpointBlob, h.blocks.head? with
      | some blob, some anchor => if from_ < anchor.height ∧ fits blob then [Sent.checkpointServed blob] else []
      | _, _ => []
    blob ++ blocks.map Sent.committed

end Holder

def Links (C : Crypto) (rid : String) (blocks : List ChainBlock) : Prop :=
  Linked.Run (fun b => b.height.toNat) ChainBlock.prev (C.blockHash rid) blocks

structure StandsOn (C : Crypto) (rid : String) (blocks : List ChainBlock) (w : ChainWalk) : Prop where
  links : Links C rid blocks
  last : ∃ b, blocks.getLast? = some b ∧ w.head.height = b.height ∧ w.head.hash = C.blockHash rid b
  republicId : w.head.republicId = rid

theorem StandsOn.advance {rid : String} {held : Held} {blocks : List ChainBlock} {w w' : ChainWalk} {b : ChainBlock}
    (hw : StandsOn C rid blocks w) (h : advance C held w b = .ok w') : StandsOn C rid (blocks ++ [b]) w' := by
  obtain ⟨head, consumed, wiki, running, hnext, -, -, -, rfl⟩ := advance_eq_ok.mp h
  obtain ⟨hheight, hprev, -, -, identities, -, rfl⟩ := verifyNext_eq_ok.mp hnext
  obtain ⟨l, hlast, hl, hhash⟩ := hw.last
  refine ⟨?_, ⟨b, getLast?_concat, rfl, by rw [hw.republicId]⟩, hw.republicId⟩
  refine List.IsChain.append hw.links (isChain_singleton b) ?_
  intro x hx y hy
  obtain rfl : l = x := Option.some.inj (hlast.symm.trans hx)
  obtain rfl : b = y := by simpa using hy
  constructor
  · show b.height.toNat = l.height.toNat + 1
    rw [hheight, hl]
  · rw [hprev, hhash]

def Holder.Sound (C : Crypto) (h : Holder) : Prop :=
  ∃ w, h.walkOwn C h.blocks = .ok w ∧ w.head.republicId = h.republicId

theorem Holder.Sound.links {h : Holder} (hs : h.Sound C) :
    ∃ a l, h.blocks = a :: l ∧ Links C h.republicId (a :: l) := by
  obtain ⟨w, hwalk, hrid⟩ := hs
  have hkeep {rest : List ChainBlock} {held : Held} {w₀ : ChainWalk} {a : ChainBlock}
      (h₀ : w₀.head.height = a.height ∧ w₀.head.hash = C.blockHash w₀.head.republicId a)
      (hrest : rest.foldlM (Chain.advance C held) w₀ = .ok w) : Links C h.republicId (a :: rest) := by
    have hone : StandsOn C w₀.head.republicId [a] w₀ :=
      ⟨isChain_singleton a, ⟨a, rfl, h₀⟩, rfl⟩
    have hall := foldlM_history (P := StandsOn C w₀.head.republicId)
      (fun _ _ _ _ hw ha => hw.advance ha) hone hrest
    rw [← hrid, hall.republicId]
    exact hall.links
  unfold Holder.walkOwn at hwalk
  split at hwalk
  · obtain ⟨b, rest, head, g, heq, hgen, hc, hrest⟩ := walkChain_eq_ok.mp hwalk
    obtain ⟨g', hc', hzero, -, -, -, -, -, -, rfl⟩ := verifyGenesis_eq_ok.mp hgen
    exact ⟨b, rest, heq, hkeep ⟨hzero.symm, rfl⟩ hrest⟩
  · obtain ⟨anchor, rest, w₀, heq, hanchor, hrest⟩ := walkSuffixChain_eq_ok.mp hwalk
    obtain ⟨-, kind, -, -, -, -, -, -, -, -, -, -, rfl⟩ := verifyAnchor_eq_ok.mp hanchor
    exact ⟨anchor, rest, heq, hkeep ⟨rfl, rfl⟩ hrest⟩

theorem blockHash_fits (hsha : ∀ b, (C.sha256 b).length = 32) (rid : String) (b : ChainBlock) :
    StrFits (C.blockHash rid b) := by
  unfold StrFits Crypto.blockHash Crypto.contentHash
  rw [hexDecodeBytes_length (hexDecode_hexEncode _), hsha]
  decide

theorem prev_eq_of_blockHash {rid : String} {b c : ChainBlock} {linked : Set (List UInt8)}
    (hinj : Set.InjOn C.sha256 linked) (hb : blockLinkBytes rid b ∈ linked) (hc : blockLinkBytes rid c ∈ linked)
    (hbfits : StrFits b.prev) (hcfits : StrFits c.prev) (h : C.blockHash rid b = C.blockHash rid c) :
    b.prev = c.prev := by
  have hbytes := hinj hb hc (hexEncode_injective h)
  rw [blockLinkBytes_eq, blockLinkBytes_eq] at hbytes
  obtain ⟨-, hrest⟩ := putU64_delimited trivial trivial (append_cancel_left hbytes)
  exact (putStr_delimited hbfits hcfits hrest).1

def sampleBacks : List ℕ := 0 :: (List.range 15).map fun i => 2 ^ i

theorem mem_sampleBacks {back : ℕ} : back ∈ sampleBacks ↔ back = 0 ∨ ∃ i < 15, back = 2 ^ i := by
  simp [sampleBacks, eq_comm]

variable {back : UInt64}

theorem toNat_stepBack (hpos : back ≠ 0) (hsmall : back.toNat * 2 < 2 ^ 64) :
    (stepBack back).toNat = back.toNat * 2 := by
  unfold stepBack
  rw [if_neg hpos, if_pos hsmall, UInt64.toNat_mul]
  exact mod_eq_of_lt hsmall

variable {rid : String} {a : ChainBlock} {l : List ChainBlock}

theorem find?_back (hl : Links C rid (a :: l)) {head : UInt64} (hback : back ≤ head)
    (hhead : head.toNat = a.height.toNat + l.length) :
    (a.height.toNat + back.toNat ≤ head.toNat → ∃ b ∈ a :: l, b.height.toNat + back.toNat = head.toNat ∧
      b.height = head - back ∧ (a :: l).find? (fun b => b.height == head - back) = some b) ∧
    (head.toNat < a.height.toNat + back.toNat → (a :: l).find? (fun b => b.height == head - back) = none) := by
  have hsub : (head - back).toNat = head.toNat - back.toNat := UInt64.toNat_sub_of_le _ _ hback
  have hle : back.toNat ≤ head.toNat := UInt64.le_iff_toNat_le.mp hback
  constructor
  · intro hin
    obtain ⟨b, hb, hheight⟩ := hl.exists_at (n := head.toNat - back.toNat) (by omega) (by omega)
    have hbh : b.height = head - back := by
      rw [← UInt64.toNat_inj, hsub]
      exact hheight
    refine ⟨b, hb, by omega, hbh, ?_⟩
    cases hfind : (a :: l).find? fun b => b.height == head - back with
    | none => exact absurd hbh (by simpa using find?_eq_none.mp hfind b hb)
    | some c =>
      have hc : c.height = head - back := by simpa using find?_some hfind
      rw [hl.unique (mem_of_find?_eq_some hfind) hb (by rw [hc, hbh])]
  · intro hout
    rw [find?_eq_none]
    intro b hb heq
    have hb' := (hl.height_le hb).1
    have hbh : b.height.toNat = head.toNat - back.toNat := by rw [← hsub, ← beq_iff_eq.mp heq]
    omega

def sampleOf (C : Crypto) (rid : String) (b : ChainBlock) : HeightHash := ⟨b.height, C.blockHash rid b⟩

theorem mem_samplesFrom (hl : Links C rid (a :: l)) {head : UInt64}
    (hhead : head.toNat = a.height.toNat + l.length) {room : ℕ} (hpos : back ≠ 0)
    (hsmall : back.toNat * 2 ^ room < 2 ^ 64) {k : HeightHash} :
    k ∈ samplesFrom C rid (a :: l) head room back ↔ ∃ i < room, ∃ b ∈ a :: l,
      b.height.toNat + back.toNat * 2 ^ i = head.toNat ∧ k = sampleOf C rid b := by
  induction room generalizing back with
  | zero => simp [samplesFrom]
  | succ room ih =>
    have hstep : (stepBack back).toNat = back.toNat * 2 := by
      refine toNat_stepBack hpos (lt_of_le_of_lt ?_ hsmall)
      exact Nat.mul_le_mul_left _ (Nat.le_self_pow (by omega) 2)
    have hstep0 : stepBack back ≠ 0 := by
      intro h0
      have hb0 : back.toNat ≠ 0 := fun h => hpos (UInt64.toNat_inj.mp h)
      rw [h0] at hstep
      simp at hstep
      omega
    have hrest := ih hstep0 (by rw [hstep, mul_assoc, ← Nat.pow_succ']; exact hsmall)
    have hgrow : ∀ i, back.toNat ≤ back.toNat * 2 ^ i := fun i => Nat.le_mul_of_pos_right _ (Nat.two_pow_pos i)
    unfold samplesFrom
    by_cases hin : a.height.toNat + back.toNat ≤ head.toNat
    · have hback : back ≤ head := UInt64.le_iff_toNat_le.mpr (by omega)
      obtain ⟨b, hb, hsum, hbh, hfind⟩ := (find?_back hl hback hhead).1 hin
      rw [if_pos hback, hfind]
      simp only [mem_cons, hrest, hstep]
      constructor
      · rintro (rfl | ⟨i, hi, c, hc, hsum', rfl⟩)
        · exact ⟨0, by omega, b, mem_cons.mp hb, by simpa using hsum, by rw [sampleOf, hbh]⟩
        · exact ⟨i + 1, by omega, c, hc, by rw [Nat.pow_succ', ← mul_assoc]; exact hsum', rfl⟩
      · rintro ⟨i, hi, c, hc, hsum', rfl⟩
        cases i with
        | zero =>
          have hcb : c = b := by
            refine hl.unique (mem_cons.mpr hc) hb ?_
            show c.height.toNat = b.height.toNat
            omega
          exact .inl (by rw [hcb, sampleOf, hbh])
        | succ i =>
          exact .inr ⟨i, by omega, c, hc, by rw [mul_assoc, ← Nat.pow_succ']; exact hsum', rfl⟩
    · have hnone : (if back ≤ head then
          match (a :: l).find? fun b => b.height == head - back with
          | some b => ⟨head - back, C.blockHash rid b⟩ :: samplesFrom C rid (a :: l) head room (stepBack back)
          | none => []
          else []) = [] := by
        by_cases hback : back ≤ head
        · rw [if_pos hback, (find?_back hl hback hhead).2 (by omega)]
        · rw [if_neg hback]
      rw [hnone]
      constructor
      · intro h
        simp at h
      · rintro ⟨i, hi, c, hc, hsum', rfl⟩
        have hc' := (hl.height_le hc).1
        have := hgrow i
        omega

theorem mem_knownHeads {h : Holder} (hblocks : h.blocks = a :: l) (hl : Links C h.republicId (a :: l))
    {k : HeightHash} :
    k ∈ h.knownHeads C ↔ ∃ back ∈ sampleBacks, ∃ b ∈ a :: l,
      b.height.toNat + back = a.height.toNat + l.length ∧ k = sampleOf C h.republicId b := by
  obtain ⟨t, ht, htop⟩ := hl.exists_at (n := a.height.toNat + l.length) (by omega) le_rfl
  have hlast : (a :: l).getLast? = some t := by
    obtain ⟨u, hu⟩ : ∃ u, (a :: l).getLast? = some u := ⟨_, getLast?_eq_some_getLast (cons_ne_nil a l)⟩
    have hindex : (a :: l)[l.length]? = some u := by simpa [getLast?_eq_getElem?] using hu
    rw [hu, hl.unique (mem_of_getElem? hindex) ht ((hl.height_getElem hindex).trans htop.symm)]
  have htop' : t.height.toNat = a.height.toNat + l.length := htop
  have hzero : (0 : UInt64) ≤ t.height := UInt64.le_iff_toNat_le.mpr (Nat.zero_le _)
  obtain ⟨b₀, hb₀, hsum₀, hbh₀, hfind₀⟩ := (find?_back hl hzero htop').1 (by simp [htop'])
  have hknown : h.knownHeads C =
      sampleOf C h.republicId b₀ :: samplesFrom C h.republicId (a :: l) t.height 15 1 := by
    unfold Holder.knownHeads
    rw [hblocks, hlast]
    show samplesFrom C h.republicId (a :: l) t.height 16 0 = _
    rw [samplesFrom, if_pos hzero, hfind₀, sampleOf, hbh₀]
    rfl
  rw [hknown, mem_cons, mem_samplesFrom hl htop' (by decide) (by decide)]
  have hone : (1 : UInt64).toNat = 1 := rfl
  simp only [hone, one_mul, ← htop']
  constructor
  · rintro (rfl | ⟨i, hi, b, hb, hsum, rfl⟩)
    · exact ⟨0, mem_sampleBacks.mpr (.inl rfl), b₀, hb₀, hsum₀, rfl⟩
    · exact ⟨_, mem_sampleBacks.mpr (.inr ⟨i, hi, rfl⟩), b, hb, hsum, rfl⟩
  · rintro ⟨back, hback, b, hb, hsum, rfl⟩
    rcases mem_sampleBacks.mp hback with rfl | ⟨i, hi, rfl⟩
    · rw [hl.unique hb hb₀ (Nat.add_right_cancel (hsum.trans hsum₀.symm))]
      exact .inl rfl
    · exact .inr ⟨i, hi, b, hb, hsum, rfl⟩

namespace Holder

def hashAt (C : Crypto) (h : Holder) (n : ℕ) : Option String :=
  (h.blocks.find? fun b => b.height.toNat == n).map (C.blockHash h.republicId)

theorem hashAt_of_mem {h : Holder} (hblocks : h.blocks = a :: l) (hl : Links C h.republicId (a :: l)) {b : ChainBlock}
    (hb : b ∈ a :: l) : h.hashAt C b.height.toNat = some (C.blockHash h.republicId b) := by
  unfold hashAt
  rw [hblocks]
  cases hfind : (a :: l).find? fun c => c.height.toNat == b.height.toNat with
  | none => simpa using find?_eq_none.mp hfind b hb
  | some c =>
    have hc : c.height.toNat = b.height.toNat := by simpa using find?_some hfind
    rw [hl.unique (mem_of_find?_eq_some hfind) hb hc]
    rfl

theorem mem_of_hashAt {h : Holder} {n : ℕ} {x : String} (hx : h.hashAt C n = some x) :
    ∃ b ∈ h.blocks, b.height.toNat = n ∧ C.blockHash h.republicId b = x := by
  obtain ⟨b, hfind, rfl⟩ := Option.map_eq_some_iff.mp hx
  exact ⟨b, mem_of_find?_eq_some hfind, by simpa using find?_some hfind, rfl⟩

end Holder

/-- Two holders of one republic on one anchor, whose chains agree below `f` and differ there.
The hash of a block covers all it carries, its signatures included. -/
structure Forked (C : Crypto) (p q : Holder) (f : ℕ) : Prop where
  sound : p.Sound C
  served : q.Sound C
  republicId : q.republicId = p.republicId
  anchor : q.blocks.head? = p.blocks.head?
  above : ∀ a, p.blocks.head? = some a → a.height.toNat < f
  same : ∀ n < f, p.hashAt C n = q.hashAt C n
  differ : p.hashAt C f ≠ q.hashAt C f

def NoCollision (C : Crypto) (p q : Holder) : Prop :=
  (∀ b, (C.sha256 b).length = 32) ∧
    Set.InjOn C.sha256 {bytes | ∃ b ∈ p.blocks ++ q.blocks, bytes = blockLinkBytes p.republicId b}

structure Parted (C : Crypto) (p q : Holder) (f : ℕ) (a : ChainBlock) (l k : List ChainBlock) : Prop where
  ours : p.blocks = a :: l
  theirs : q.blocks = a :: k
  links : Links C p.republicId (a :: l)
  links' : Links C p.republicId (a :: k)
  above : a.height.toNat < f

theorem Forked.parted {p q : Holder} {f : ℕ} (hf : Forked C p q f) : ∃ a l k, Parted C p q f a l k := by
  obtain ⟨a, l, hp, hl⟩ := hf.sound.links
  obtain ⟨a', k, hq, hk⟩ := hf.served.links
  have hanchor := hf.anchor
  rw [hp, hq] at hanchor
  obtain rfl : a' = a := Option.some.inj hanchor
  rw [hf.republicId] at hk
  exact ⟨a', l, k, hp, hq, hl, hk, hf.above a' (by rw [hp]; rfl)⟩

section

variable {p q : Holder} {f : ℕ} {k : List ChainBlock}

theorem Forked.fork_le (hf : Forked C p q f) (hw : Parted C p q f a l k) : f ≤ a.height.toNat + l.length + 1 := by
  by_contra hlt
  have hp (n : ℕ) (hn : a.height.toNat + l.length < n) : p.hashAt C n = none := by
    cases hx : p.hashAt C n with
    | none => rfl
    | some x =>
      obtain ⟨b, hb, hheight, -⟩ := Holder.mem_of_hashAt hx
      have hle := (hw.links.height_le (hw.ours ▸ hb)).2
      omega
  have hnext : q.hashAt C (a.height.toNat + l.length + 1) = none := by
    rw [← hf.same _ (by omega)]
    exact hp _ (by omega)
  have hshort : a.height.toNat + k.length < a.height.toNat + l.length + 1 := by
    by_contra hlong
    obtain ⟨b, hb, hheight⟩ := hw.links'.exists_at (n := a.height.toNat + l.length + 1) (by omega) (by omega)
    have hsome := Holder.hashAt_of_mem hw.theirs (hf.republicId ▸ hw.links') hb
    rw [hheight, hnext] at hsome
    simp at hsome
  apply hf.differ
  rw [hp f (by omega)]
  cases hx : q.hashAt C f with
  | none => rfl
  | some x =>
    obtain ⟨b, hb, hheight, -⟩ := Holder.mem_of_hashAt hx
    have hle := (hw.links'.height_le (hw.theirs ▸ hb)).2
    omega

theorem Forked.lt_size (hf : Forked C p q f) : f < 2 ^ 64 := by
  have hsome : (p.hashAt C f).isSome ∨ (q.hashAt C f).isSome := by
    have := hf.differ
    cases hp : p.hashAt C f <;> cases hq : q.hashAt C f <;> simp_all
  rcases hsome with h | h
  all_goals
    obtain ⟨x, hx⟩ := Option.isSome_iff_exists.mp h
    obtain ⟨b, -, hheight, -⟩ := Holder.mem_of_hashAt hx
    rw [← hheight]
    exact b.height.toNat_lt

variable {b : ChainBlock}

theorem prev_fits {rid : String} (hsha : ∀ b, (C.sha256 b).length = 32) (hl : Links C rid (a :: l))
    (hb : b ∈ a :: l) (hlt : a.height.toNat < b.height.toNat) : StrFits b.prev := by
  obtain ⟨c, -, -, hprev⟩ := hl.before hb hlt
  rw [hprev]
  exact blockHash_fits hsha rid c

theorem Forked.holds_sample (hf : Forked C p q f) (hw : Parted C p q f a l k) (hsha : NoCollision C p q)
    (hb : b ∈ a :: l) :
    q.holds C (sampleOf C p.republicId b) = true ↔ b.height.toNat < f := by
  have hmem : q.holds C (sampleOf C p.republicId b) = true ↔
      ∃ c ∈ a :: k, c.height = b.height ∧ C.blockHash p.republicId c = C.blockHash p.republicId b := by
    simp only [Holder.holds, sampleOf, any_eq_true, Bool.and_eq_true, beq_iff_eq, hf.republicId, hw.theirs]
  rw [hmem]
  constructor
  · rintro ⟨c, hc, hheight, hhash⟩
    by_contra hle
    have hcommits : ∀ x ∈ a :: l, ∀ y ∈ a :: k, a.height.toNat < x.height.toNat → a.height.toNat < y.height.toNat →
        C.blockHash p.republicId x = C.blockHash p.republicId y → x.prev = y.prev := by
      intro x hx y hy hxa hya hxy
      refine prev_eq_of_blockHash hsha.2 ⟨x, ?_, rfl⟩ ⟨y, ?_, rfl⟩ (prev_fits hsha.1 hw.links hx hxa)
        (prev_fits hsha.1 hw.links' hy hya) hxy
      · exact mem_append_left _ (hw.ours ▸ hx)
      · exact mem_append_right _ (hw.theirs ▸ hy)
    have habove := hw.above
    obtain ⟨x, hx, y, hy, hxf, hyf, hxy⟩ := hw.links.agree_below hw.links' hcommits hb hc (by simp [hheight])
      hhash.symm (n := f) (by omega) (by omega) (by omega)
    apply hf.differ
    have hp := Holder.hashAt_of_mem hw.ours hw.links hx
    have hq := Holder.hashAt_of_mem hw.theirs (hf.republicId ▸ hw.links') hy
    rw [show x.height.toNat = f from hxf] at hp
    rw [show y.height.toNat = f from hyf, hf.republicId] at hq
    rw [hp, hq, hxy]
  · intro hlt
    have hp := Holder.hashAt_of_mem hw.ours hw.links hb
    rw [hf.same _ hlt] at hp
    obtain ⟨c, hc, hheight, hhash⟩ := Holder.mem_of_hashAt hp
    exact ⟨c, hw.theirs ▸ hc, UInt64.toNat_inj.mp hheight, hf.republicId ▸ hhash⟩

instance lawfulOrderMaxUInt64 : Std.LawfulOrderMax UInt64 :=
  .of_max_le_iff (fun a b c => by
    show (if a ≤ b then b else a) ≤ c ↔ _
    split <;> simp only [UInt64.le_iff_toNat_le] at * <;> omega) (by
    intro a b
    show (if a ≤ b then b else a) = a ∨ (if a ≤ b then b else a) = b
    split <;> simp)

def Hits (a t f back : ℕ) : Prop := a + back ≤ t ∧ t < f + back

instance (a t f back : ℕ) : Decidable (Hits a t f back) := inferInstanceAs (Decidable (_ ∧ _))

variable {s : UInt64}

theorem Forked.serveFromFor_spec (hf : Forked C p q f) (hw : Parted C p q f a l k) (hsha : NoCollision C p q)
    (fromHeight : UInt64) (hs : q.serveFromFor C fromHeight (p.knownHeads C) = s) :
    ((∃ back ∈ sampleBacks, Hits a.height.toNat (a.height.toNat + l.length) f back) →
      a.height.toNat < s.toNat ∧ s.toNat ≤ f) ∧
    (∀ back ∈ sampleBacks, Hits a.height.toNat (a.height.toNat + l.length) f back →
      a.height.toNat + l.length < s.toNat + back) ∧
    ((¬ ∃ back ∈ sampleBacks, Hits a.height.toNat (a.height.toNat + l.length) f back) → s = fromHeight) := by
  have hsize := hf.lt_size
  have hsucc (b : ChainBlock) (hlt : b.height.toNat < f) : (saturatingSucc b.height).toNat = b.height.toNat + 1 := by
    have hfits : b.height.toNat + 1 < 2 ^ 64 := by omega
    rw [saturatingSucc, if_pos hfits, UInt64.toNat_add]
    exact mod_eq_of_lt hfits
  have hmem (n : UInt64) : n ∈ ((p.knownHeads C).filter fun k => q.holds C k).map (fun k => saturatingSucc k.height) ↔
      ∃ back ∈ sampleBacks, ∃ b ∈ a :: l, b.height.toNat + back = a.height.toNat + l.length ∧
        b.height.toNat < f ∧ n.toNat = b.height.toNat + 1 := by
    simp only [mem_map, mem_filter, mem_knownHeads hw.ours hw.links]
    constructor
    · rintro ⟨x, ⟨⟨back, hback, b, hb, hsum, rfl⟩, hheld⟩, rfl⟩
      have hlt := (hf.holds_sample hw hsha hb).mp hheld
      exact ⟨back, hback, b, hb, hsum, hlt, hsucc b hlt⟩
    · rintro ⟨back, hback, b, hb, hsum, hlt, hn⟩
      refine ⟨_, ⟨⟨back, hback, b, hb, hsum, rfl⟩, (hf.holds_sample hw hsha hb).mpr hlt⟩, ?_⟩
      rw [← UInt64.toNat_inj, hn]
      exact hsucc b hlt
  have hhit {back : ℕ} (hback : back ∈ sampleBacks)
      (h : Hits a.height.toNat (a.height.toNat + l.length) f back) :
      ∃ n ∈ ((p.knownHeads C).filter fun k => q.holds C k).map (fun k => saturatingSucc k.height),
        n.toNat + back = a.height.toNat + l.length + 1 := by
    obtain ⟨hin, hbelow⟩ := h
    obtain ⟨b, hb, hheight⟩ := hw.links.exists_at (n := a.height.toNat + l.length - back) (by omega) (by omega)
    have hheight' : b.height.toNat = a.height.toNat + l.length - back := hheight
    have hlt : b.height.toNat < f := by omega
    refine ⟨saturatingSucc b.height, (hmem _).mpr ⟨back, hback, b, hb, by omega, hlt, hsucc b hlt⟩, ?_⟩
    rw [hsucc b hlt]
    omega
  unfold Holder.serveFromFor at hs
  cases hmax : (((p.knownHeads C).filter fun k => q.holds C k).map fun k => saturatingSucc k.height).max? with
  | none =>
    rw [max?_eq_none_iff] at hmax
    have hmiss : ∀ back ∈ sampleBacks, ¬ Hits a.height.toNat (a.height.toNat + l.length) f back := by
      intro back hback h
      obtain ⟨n, hn, -⟩ := hhit hback h
      rw [hmax] at hn
      simp at hn
    refine ⟨?_, ?_, fun _ => ?_⟩
    · rintro ⟨back, hback, h⟩
      exact absurd h (hmiss back hback)
    · intro back hback h
      exact absurd h (hmiss back hback)
    · rw [← hs, hmax]
      rfl
  | some m =>
    obtain ⟨hm, htop⟩ := max?_eq_some_iff.mp hmax
    obtain rfl : m = s := by simpa [hmax] using hs
    obtain ⟨back, hback, b, hb, hsum, hlt, hmb⟩ := (hmem m).mp hm
    have hlow : a.height.toNat ≤ b.height.toNat := (hw.links.height_le hb).1
    refine ⟨fun _ => by omega, ?_, fun hmiss => absurd ⟨back, hback, ?_, ?_⟩ hmiss⟩
    · intro back' hback' h
      obtain ⟨n, hn, hback''⟩ := hhit hback' h
      have := UInt64.le_iff_toNat_le.mp (htop n hn)
      omega
    · omega
    · omega

theorem exists_doubling {d : ℕ} (hd : 0 < d) : ∃ i, d ≤ 2 ^ i ∧ 2 ^ i < 2 * d := by
  refine ⟨Nat.clog 2 d, le_pow_clog (by decide) d, ?_⟩
  rcases Nat.eq_zero_or_pos (Nat.clog 2 d) with hzero | hpos
  · rw [hzero]
    omega
  · have hone : 1 < d := by
      by_contra hle
      rw [clog_of_right_le_one (by omega)] at hpos
      omega
    have := pow_pred_clog_lt_self (b := 2) (by decide) hone
    rw [← succ_pred_eq_of_pos hpos, Nat.pow_succ]
    omega

theorem overlap_le {a t f s : ℕ} (hshort : t < a + 2 ^ 14) (hle : f ≤ t + 1) (hlow : a < s)
    (hreach : ∀ back ∈ sampleBacks, Hits a t f back → t < s + back) : f - s ≤ t + 1 - f := by
  rcases Nat.eq_zero_or_pos (t + 1 - f) with hzero | hpos
  · by_cases hat : a ≤ t
    · have := hreach 0 (mem_sampleBacks.mpr (.inl rfl)) ⟨by omega, by omega⟩
      omega
    · omega
  · obtain ⟨i, hge, hlt⟩ := exists_doubling hpos
    by_cases hin : a + 2 ^ i ≤ t
    · have hi : i < 15 := by
        have : 2 ^ i < 2 ^ 14 := by omega
        have := (Nat.pow_lt_pow_iff_right (a := 2) (by decide)).mp this
        omega
      have := hreach (2 ^ i) (mem_sampleBacks.mpr (.inr ⟨i, hi, rfl⟩)) ⟨hin, by omega⟩
      omega
    · omega

/-- What a request is answered with: a run from above the anchor and from no further up than
the fork, behind a block of the one who asked, that re-serves at most as much of the common
part as the asker's own branch is long. -/
structure ServedFromFork (C : Crypto) (fits : CheckpointState → Bool) (p q : Holder) (f : ℕ)
    (anchor head : ChainBlock) (s : UInt64) : Prop where
  above : anchor.height.toNat < s.toNat
  within : s.toNat ≤ f
  starts : (q.hashAt C f).isSome = true → q.serveChainFrom fits s ≠ []
  links : ∀ x, (q.serveChainFrom fits s).head? = some x →
    ∃ b, x = .committed b ∧ ∃ c ∈ p.blocks, b.prev = C.blockHash p.republicId c
  near : ∀ b, Sent.committed b ∈ q.serveChainFrom fits s → b.height.toNat < f →
    f - b.height.toNat ≤ head.height.toNat + 1 - f

theorem Holder.serveChainFrom_above (fits : CheckpointState → Bool) {h : Holder} (hblocks : h.blocks = a :: l)
    (hs : a.height.toNat < s.toNat) :
    h.serveChainFrom fits s = (h.blocks.filter fun b => b.height ≥ s).map Sent.committed := by
  have hnot : ¬ s < a.height := by
    rw [UInt64.lt_iff_toNat_lt]
    omega
  unfold Holder.serveChainFrom
  simp only [List.isEmpty_iff]
  split
  · rename_i hnil
    rw [hnil, map_nil]
  · cases h.checkpointBlob <;> simp [hblocks, hnot]

theorem head?_served {rid : String} (hl : Links C rid (a :: l)) (hs : a.height.toNat < s.toNat)
    (hb : ((a :: l).filter fun b => b.height ≥ s).head? = some b) :
    b ∈ a :: l ∧ b.height = s := by
  have hmem := mem_filter.mp (mem_of_mem_head? hb)
  have hge : s.toNat ≤ b.height.toNat := UInt64.le_iff_toNat_le.mp (by simpa using hmem.2)
  obtain ⟨e, he, heq⟩ := hl.exists_at (n := s.toNat) (by omega) (hge.trans (hl.height_le hmem.1).2)
  have heq' : e.height = s := UInt64.toNat_inj.mp heq
  have hin : e ∈ (a :: l).filter fun b => b.height ≥ s :=
    mem_filter.mpr ⟨he, by simp [heq']⟩
  obtain ⟨rest, hrest⟩ := head?_eq_some_iff.mp hb
  have hpair := hl.pairwise.filter fun b => decide (b.height ≥ s)
  rw [hrest] at hin hpair
  rcases mem_cons.mp hin with rfl | hin
  · exact ⟨he, heq'⟩
  · have hlt := (pairwise_cons.mp hpair).1 e hin
    exact absurd hge (by omega)

theorem Forked.servedFromFork (hf : Forked C p q f) (hw : Parted C p q f a l k)
    (fits : CheckpointState → Bool) {head : ChainBlock}
    (hhead : head.height.toNat = a.height.toNat + l.length)
    (hshort : head.height.toNat < a.height.toNat + 2 ^ 14) (hlow : a.height.toNat < s.toNat)
    (hhigh : s.toNat ≤ f)
    (hreach : ∀ back ∈ sampleBacks, Hits a.height.toNat head.height.toNat f back → head.height.toNat < s.toNat + back) :
    ServedFromFork C fits p q f a head s := by
  have hrun := Holder.serveChainFrom_above fits hw.theirs hlow
  have hle := hf.fork_le hw
  rw [hw.theirs] at hrun
  refine ⟨hlow, hhigh, ?_, ?_, ?_⟩
  · intro hsome hnil
    obtain ⟨x, hx⟩ := Option.isSome_iff_exists.mp hsome
    obtain ⟨b, hb, hheight, -⟩ := Holder.mem_of_hashAt hx
    rw [hrun, map_eq_nil_iff, filter_eq_nil_iff] at hnil
    have hnot := hnil b (hw.theirs ▸ hb)
    have hge : s ≤ b.height := UInt64.le_iff_toNat_le.mpr (hheight ▸ hhigh)
    simp [hge] at hnot
  · intro x hx
    rw [hrun, head?_map] at hx
    obtain ⟨b, hb, rfl⟩ := Option.map_eq_some_iff.mp hx
    obtain ⟨hmem, rfl⟩ := head?_served hw.links' hlow hb
    obtain ⟨c, hc, hnext, hprev⟩ := hw.links'.before hmem hlow
    have hq := Holder.hashAt_of_mem hw.theirs (hf.republicId ▸ hw.links') hc
    rw [← hf.same _ (by omega), hf.republicId] at hq
    obtain ⟨d, hd, -, hhash⟩ := Holder.mem_of_hashAt hq
    exact ⟨b, rfl, d, hd, by rw [hprev, hhash]⟩
  · intro b hb hbf
    rw [hrun, mem_map] at hb
    obtain ⟨c, hc, hcb⟩ := hb
    obtain rfl := Sent.committed.inj hcb
    have hge : s.toNat ≤ c.height.toNat := UInt64.le_iff_toNat_le.mp (by simpa using (mem_filter.mp hc).2)
    have := overlap_le hshort (by omega) hlow hreach
    omega

/-- A catch-up request is served from the fork exactly when one of its samples lands on the
common part, or the height it asks for is above the anchor and not above the fork. -/
theorem serve_from_fork_iff (fits : CheckpointState → Bool) (hf : Forked C p q f) (hsha : NoCollision C p q)
    {anchor head : ChainBlock} (hanchor : p.blocks.head? = some anchor) (hhead : p.blocks.getLast? = some head)
    (hshort : head.height.toNat < anchor.height.toNat + 2 ^ 14) {chainHead : Option ChainHead}
    {outstanding : Option UInt64} {from_ fromHeight : UInt64} {known : List HeightHash}
    (hasked : p.requestCatchup C chainHead outstanding from_ = some (fromHeight, known)) :
    ServedFromFork C fits p q f anchor head (q.serveFromFor C fromHeight known) ↔
      (∃ back ∈ sampleBacks, Hits anchor.height.toNat head.height.toNat f back) ∨
        (anchor.height.toNat < fromHeight.toNat ∧ fromHeight.toNat ≤ f) := by
  obtain ⟨a, l, k, hw⟩ := hf.parted
  obtain rfl : anchor = a := by
    rw [hw.ours] at hanchor
    exact (Option.some.inj hanchor).symm
  have htop : head.height.toNat = anchor.height.toNat + l.length := by
    rw [hw.ours, List.getLast?_eq_getElem?] at hhead
    exact hw.links.height_getElem hhead
  obtain ⟨rfl, rfl⟩ : fromHeight = from_ ∧ known = p.knownHeads C := by
    unfold Holder.requestCatchup at hasked
    split at hasked
    · simp at hasked
    · obtain ⟨h₁, h₂⟩ := Prod.mk.inj (Option.some.inj hasked)
      exact ⟨h₁.symm, h₂.symm⟩
  obtain ⟨hsome, hreach, hnone⟩ := hf.serveFromFor_spec hw hsha fromHeight rfl
  rw [← htop] at hsome hreach hnone
  by_cases hhit : ∃ back ∈ sampleBacks, Hits anchor.height.toNat head.height.toNat f back
  · obtain ⟨hlow, hhigh⟩ := hsome hhit
    exact iff_of_true (hf.servedFromFork hw fits htop hshort hlow hhigh hreach) (Or.inl hhit)
  · rw [hnone hhit] at hreach ⊢
    constructor
    · intro h
      exact Or.inr ⟨h.above, h.within⟩
    · rintro (h | ⟨hlow, hhigh⟩)
      · exact absurd h hhit
      · exact hf.servedFromFork hw fits htop hshort hlow hhigh hreach

end

namespace Sample

def voted (id : UInt64) (chain : List ChainBlock) : List ChainBlock :=
  chain ++ [next solo [("ann", 1)] chain
    (.applied id .organization (.obj [("op", .str "set_relays"), ("value", .str "a b")]))]

def holder (blocks : List ChainBlock) : Holder := ⟨none, blocks, none, solo.republicId, {}⟩

def ours : Holder := holder (voted 9 (voted 8 moved))
def theirs : Holder := holder (voted 5 opened)

theorem evaluated :
    (ours.walkOwn Crypto.toy ours.blocks).toOption.map (fun w => w.head.republicId) = some solo.republicId ∧
      (theirs.walkOwn Crypto.toy theirs.blocks).toOption.map (fun w => w.head.republicId) = some solo.republicId ∧
      ours.hashAt Crypto.toy 0 = theirs.hashAt Crypto.toy 0 ∧
      ours.hashAt Crypto.toy 1 ≠ theirs.hashAt Crypto.toy 1 ∧
      ((ours.blocks ++ theirs.blocks.tail).map (Crypto.toy.blockHash solo.republicId)).Nodup ∧
      ours.blocks.map (fun b => b.height.toNat) = [0, 1, 2, 3] ∧
      theirs.serveFromFor Crypto.toy 4 (ours.knownHeads Crypto.toy) = 4 := by decide +kernel

theorem sound_of {h : Holder}
    (hrid : (h.walkOwn Crypto.toy h.blocks).toOption.map (fun w => w.head.republicId) = some h.republicId) :
    h.Sound Crypto.toy := by
  obtain ⟨w, hw, hw'⟩ := Option.map_eq_some_iff.mp hrid
  cases hwalk : h.walkOwn Crypto.toy h.blocks with
  | error e => simp [hwalk, Except.toOption] at hw
  | ok w' =>
    obtain rfl : w' = w := by simpa [hwalk, Except.toOption] using hw
    exact ⟨w', hwalk, hw'⟩

theorem forked : Forked Crypto.toy ours theirs 1 where
  sound := sound_of evaluated.1
  served := sound_of evaluated.2.1
  republicId := rfl
  anchor := rfl
  above := by
    intro a ha
    cases ha
    decide
  same := by
    intro n hn
    obtain rfl : n = 0 := by omega
    exact evaluated.2.2.1
  differ := evaluated.2.2.2.1

theorem noCollision : NoCollision Crypto.toy ours theirs := by
  refine ⟨fun b => leBytes_length 32 _, ?_⟩
  have hmem : ∀ b ∈ ours.blocks ++ theirs.blocks, b ∈ ours.blocks ++ theirs.blocks.tail := by
    intro b hb
    rcases mem_append.mp hb with hb | hb
    · exact mem_append_left _ hb
    · have hcons : b ∈ next solo [("ann", 1)] [] (.genesis solo) :: theirs.blocks.tail := hb
      rcases mem_cons.mp hcons with rfl | hb
      · exact mem_append_left _ (.head _)
      · exact mem_append_right _ hb
  rintro _ ⟨b, hb, rfl⟩ _ ⟨c, hc, rfl⟩ h
  have hhash : Crypto.toy.blockHash solo.republicId b = Crypto.toy.blockHash solo.republicId c :=
    congrArg hexEncode h
  rw [inj_on_of_nodup_map evaluated.2.2.2.2.1 (hmem b hb) (hmem c hc) hhash]

def chainHead : ChainHead := ⟨3, "", solo.republicId, 1, []⟩

theorem ends : ∃ anchor head, ours.blocks.head? = some anchor ∧ ours.blocks.getLast? = some head ∧
    anchor.height.toNat = 0 ∧ head.height.toNat = 3 := by
  have hheights := evaluated.2.2.2.2.2.1
  cases hblocks : ours.blocks with
  | nil => simp [hblocks] at hheights
  | cons a l =>
    have hlast : (ours.blocks.map fun b => b.height.toNat).getLast? = some 3 := by rw [hheights]; rfl
    rw [hblocks, map_cons, List.cons.injEq] at hheights
    rw [getLast?_map, Option.map_eq_some_iff, hblocks] at hlast
    obtain ⟨head, hhead, hheight⟩ := hlast
    exact ⟨a, head, rfl, hhead, hheights.1, hheight⟩

end Sample

theorem serve_from_fork_iff_asked : ∃ anchor head known,
    Sample.ours.requestCatchup Crypto.toy (some Sample.chainHead) none 1 = some (1, known) ∧
      ServedFromFork Crypto.toy (fun _ => true) Sample.ours Sample.theirs 1 anchor head
        (Sample.theirs.serveFromFor Crypto.toy 1 known) := by
  obtain ⟨anchor, head, hanchor, hhead, hlow, hhigh⟩ := Sample.ends
  have hasked : Sample.ours.requestCatchup Crypto.toy (some Sample.chainHead) none 1 =
      some (1, Sample.ours.knownHeads Crypto.toy) := rfl
  refine ⟨anchor, head, _, hasked, ?_⟩
  refine (serve_from_fork_iff (fun _ => true) Sample.forked Sample.noCollision hanchor hhead ?_ hasked).mpr
    (Or.inr ?_)
  · rw [hlow, hhigh]
    decide
  · rw [hlow]
    decide

/-- From height 3 the samples are at 3, 2 and 1: the next one, 4 back, is missing, and the anchor
is not among them. -/
theorem anchor_never_sampled : ∃ anchor head known,
    Sample.ours.blocks.head? = some anchor ∧ Sample.ours.blocks.getLast? = some head ∧
      Forked Crypto.toy Sample.ours Sample.theirs 1 ∧ NoCollision Crypto.toy Sample.ours Sample.theirs ∧
      head.height.toNat < anchor.height.toNat + 2 ^ 14 ∧
      Sample.ours.requestCatchup Crypto.toy (some Sample.chainHead) none 4 = some (4, known) ∧
      Sample.theirs.serveFromFor Crypto.toy 4 known = 4 ∧
      ¬ ServedFromFork Crypto.toy (fun _ => true) Sample.ours Sample.theirs 1 anchor head
        (Sample.theirs.serveFromFor Crypto.toy 4 known) := by
  obtain ⟨anchor, head, hanchor, hhead, hlow, hhigh⟩ := Sample.ends
  have hfour := Sample.evaluated.2.2.2.2.2.2
  refine ⟨anchor, head, Sample.ours.knownHeads Crypto.toy, hanchor, hhead, Sample.forked, Sample.noCollision, ?_,
    rfl, hfour, ?_⟩
  · rw [hlow, hhigh]
    decide
  · intro h
    have hwithin := h.within
    rw [hfour] at hwithin
    exact absurd hwithin (by decide)

end Molt.Chain
