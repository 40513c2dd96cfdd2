import Mathlib
import MoltRepublic.Chain.Suffix
import MoltRepublic.Chain.Sync

/-! The recovery anchor: a rejoiner reads frames until the gapless run above the lowest block
it holds verifies, on the last blob it was served. -/

namespace Molt.Chain
open Molt.Core Check List Option

variable {C : Crypto}

def recoverBlockBuffer : ℕ := 256

def recoverBlockWindow : ℕ := 256

/-- `verify_served`: a chain from its genesis, or a suffix on its blob, without the bases. -/
def verifyServed (C : Crypto) (checkpoint : Option CheckpointState) (blocks : List ChainBlock)
    (expectedRid : Option String) : Except String ChainHead :=
  match checkpoint with
  | none => do
    let head ← verifyChain C blocks
    ensure (blocks.head?.any fun b => b.change.isGenesis) "the chain does not root on a genesis constitution"
    match expectedRid with
    | some rid => ensure (head.republicId = rid) "the chain does not match the expected republic"
    | none => pure ()
    return head
  | some blob => verifySuffixChain C blob blocks (expectedRid.getD blob.republicId) none

inductive Frame
  | checkpointServed (blob : CheckpointState)
  | committed (block : ChainBlock)
  | other

structure Recovery where
  blob : Option CheckpointState := none
  verifiedRun : UInt64 × ℕ := (UInt64.ofNat (2 ^ 64 - 1), 0)
  blocks : List ChainBlock := []

def saturatingAdd (a : UInt64) (b : ℕ) : UInt64 :=
  if a.toNat + b < 2 ^ 64 then a + UInt64.ofNat b else UInt64.ofNat (2 ^ 64 - 1)

def byHeight (l : List ChainBlock) : List ChainBlock := l.insertionSort fun a b => a.height ≤ b.height

def keep (blocks : List ChainBlock) (block : ChainBlock) : Option (List ChainBlock) :=
  let lowest := (blocks.head?.map fun b => min b.height block.height).getD block.height
  if block.height > saturatingAdd lowest recoverBlockWindow then none
  else if blocks.any fun b => b.height == block.height then some blocks
  else some ((byHeight (blocks ++ [block])).take recoverBlockBuffer)

def runFrom (height : UInt64) : List ChainBlock → List ChainBlock
  | [] => []
  | b :: bs => if b.height = height then b :: runFrom (height + 1) bs else []

def gaplessRun : List ChainBlock → List ChainBlock
  | [] => []
  | b :: bs => runFrom b.height (b :: bs)

def tryRun (C : Crypto) (rid : String) (r : Recovery) : Recovery ⊕ (Recovery × ChainHead) :=
  match gaplessRun r.blocks with
  | [] => .inl r
  | b :: bs =>
    let key := (b.height, (b :: bs).length)
    if key = r.verifiedRun then .inl r
    else
      match verifyServed C r.blob (b :: bs) (some rid) with
      | .ok head => .inr ({ r with verifiedRun := key, blocks := b :: bs }, head)
      | .error _ => .inl { r with verifiedRun := key }

def turn (C : Crypto) (rid : String) (r : Recovery) : Frame → Recovery ⊕ (Recovery × ChainHead)
  | .checkpointServed blob =>
    tryRun C rid { r with blob := some blob, verifiedRun := (UInt64.ofNat (2 ^ 64 - 1), 0) }
  | .committed block =>
    match keep r.blocks block with
    | none => .inl r
    | some blocks => tryRun C rid { r with blocks := blocks }
  | .other => .inl r

def recover (C : Crypto) (rid : String) : Recovery → List Frame → Option (Recovery × ChainHead)
  | _, [] => none
  | r, f :: fs =>
    match turn C rid r f with
    | .inr done => some done
    | .inl r => recover C rid r fs

def received (frames : List Frame) : List ChainBlock :=
  frames.filterMap fun f => match f with
    | .committed b => some b
    | _ => none

def lastBlob (frames : List Frame) : Option CheckpointState :=
  (frames.filterMap fun f => match f with
    | .checkpointServed b => some b
    | _ => none).getLast?

/-- The blocks at the heights from `n` up, as far as there are some. -/
def climb (blocks : List ChainBlock) : ℕ → ℕ → List ChainBlock
  | 0, _ => []
  | room + 1, n =>
    match blocks.find? fun b => b.height.toNat == n with
    | some b => b :: climb blocks room (n + 1)
    | none => []

def assembled (blocks : List ChainBlock) : List ChainBlock :=
  match (blocks.map fun b => b.height.toNat).min? with
  | none => []
  | some low => climb blocks recoverBlockBuffer low

def Ascending (l : List ChainBlock) : Prop := l.Pairwise fun a b => a.height.toNat < b.height.toNat

def OneEach (l : List ChainBlock) : Prop := ∀ b ∈ l, ∀ c ∈ l, b.height = c.height → b = c

variable {l : List ChainBlock}

theorem OneEach.subset {k : List ChainBlock} (h : OneEach l) (hsub : k ⊆ l) : OneEach k :=
  fun b hb c hc => h b (hsub hb) c (hsub hc)

variable {b : ChainBlock}

theorem Ascending.height_getElem (h : Ascending l) {i : ℕ} (hb : l[i]? = some b) {a : ChainBlock}
    (ha : l.head? = some a) : a.height.toNat + i ≤ b.height.toNat := by
  induction l generalizing i a with
  | nil => simp at hb
  | cons c l ih =>
    cases ha
    cases i with
    | zero =>
      cases hb
      exact le_rfl
    | succ i =>
      have hb' : l[i]? = some b := by simpa using hb
      cases l with
      | nil => simp at hb'
      | cons d l =>
        have hstep := (pairwise_cons.mp h).1 d (.head _)
        have hrest := ih (pairwise_cons.mp h).2 hb' rfl
        omega

theorem byHeight_perm (l : List ChainBlock) : (byHeight l).Perm l := perm_insertionSort _ l

theorem byHeight_ascending (h : (l.map fun b => b.height.toNat).Nodup) :
    Ascending (byHeight l) := by
  have hsorted : (byHeight l).Pairwise fun a b => a.height ≤ b.height := pairwise_insertionSort _ l
  have hnodup : ((byHeight l).map fun b => b.height.toNat).Nodup :=
    ((byHeight_perm l).map fun b => b.height.toNat).nodup_iff.mpr h
  refine (hsorted.and (pairwise_map.mp hnodup)).imp fun {a b} hab => ?_
  have := UInt64.le_iff_toNat_le.mp hab.1
  have := hab.2
  omega

theorem Ascending.heights_nodup (h : Ascending l) : (l.map fun b => b.height.toNat).Nodup :=
  pairwise_map.mpr (h.imp fun hab => hab.ne)

theorem saturatingAdd_lt {a b : UInt64} {n : ℕ} (hn : n < 2 ^ 64) (h : saturatingAdd a n < b) :
    a.toNat + n < b.toNat := by
  have hb := b.toNat_lt
  unfold saturatingAdd at h
  split at h
  · rename_i hfits
    rwa [UInt64.lt_iff_toNat_lt, UInt64.toNat_add, UInt64.toNat_ofNat_of_lt' hn, Nat.mod_eq_of_lt hfits] at h
  · rw [UInt64.lt_iff_toNat_lt, UInt64.toNat_ofNat_of_lt' (by decide)] at h
    omega

variable {blocks : List ChainBlock}

theorem keep_cases (hasc : Ascending blocks) (block : ChainBlock) :
    (keep blocks block = none ∧ ∃ a, blocks.head? = some a ∧ a.height.toNat + recoverBlockWindow < block.height.toNat) ∨
    (keep blocks block = some blocks ∧ ∃ b ∈ blocks, b.height = block.height) ∨
    (∃ all, keep blocks block = some (all.take recoverBlockBuffer) ∧ all.Perm (blocks ++ [block]) ∧ Ascending all) := by
  unfold keep
  dsimp only
  split
  · rename_i hfar
    refine .inl ⟨rfl, ?_⟩
    have hlow := saturatingAdd_lt (by decide) hfar
    cases hhead : blocks.head? with
    | none =>
      rw [hhead] at hlow
      simp at hlow
    | some a =>
      refine ⟨a, rfl, ?_⟩
      rw [hhead] at hlow
      simp only [map_some, getD_some] at hlow
      have hmin : (min a.height block.height).toNat = min a.height.toNat block.height.toNat := by
        rw [show min a.height block.height = if a.height ≤ block.height then a.height else block.height from rfl]
        split <;> simp only [UInt64.le_iff_toNat_le] at * <;> omega
      omega
  · split
    · rename_i hheld
      obtain ⟨b, hb, heq⟩ := any_eq_true.mp hheld
      exact .inr (.inl ⟨rfl, b, hb, by simpa using heq⟩)
    · rename_i hnew
      refine .inr (.inr ⟨_, rfl, byHeight_perm _, byHeight_ascending ?_⟩)
      rw [map_append, map_singleton, nodup_append]
      refine ⟨hasc.heights_nodup, nodup_singleton _, ?_⟩
      intro n hn m hm
      obtain ⟨b, hb, rfl⟩ := mem_map.mp hn
      rw [mem_singleton.mp hm]
      intro heq
      apply hnew
      exact any_eq_true.mpr ⟨b, hb, by simpa using UInt64.toNat_inj.mp heq⟩

structure Kept (seen blocks : List ChainBlock) : Prop where
  ascending : Ascending blocks
  short : blocks.length ≤ recoverBlockBuffer
  subset : blocks ⊆ seen
  near : ∀ b ∈ seen, (∀ c ∈ seen, b.height.toNat < c.height.toNat + recoverBlockBuffer) → b ∈ blocks

variable {seen : List ChainBlock}

theorem Kept.keep (h : Kept seen blocks) {block : ChainBlock} (hone : OneEach (seen ++ [block])) :
    (keep blocks block = none → Kept (seen ++ [block]) blocks) ∧
      ∀ blocks', Chain.keep blocks block = some blocks' → Kept (seen ++ [block]) blocks' := by
  have hold : ∀ b ∈ seen, (∀ c ∈ seen ++ [block], b.height.toNat < c.height.toNat + recoverBlockBuffer) → b ∈ blocks :=
    fun b hb hall => h.near b hb fun c hc => hall c (mem_append_left _ hc)
  have hsub : blocks ⊆ seen ++ [block] := fun b hb => mem_append_left _ (h.subset hb)
  rcases keep_cases h.ascending block with ⟨hkeep, a, ha, hfar⟩ | ⟨hkeep, b, hb, heq⟩ | ⟨all, hkeep, hperm, hasc⟩
  · refine ⟨fun _ => ⟨h.ascending, h.short, hsub, ?_⟩, fun blocks' h' => absurd (hkeep.symm.trans h') (by simp)⟩
    intro b hb hall
    rcases mem_append.mp hb with hb | hb
    · exact hold b hb hall
    · obtain rfl := mem_singleton.mp hb
      have := hall a (hsub (mem_of_mem_head? ha))
      unfold recoverBlockBuffer at this
      unfold recoverBlockWindow at hfar
      omega
  · refine ⟨fun h' => absurd (hkeep.symm.trans h') (some_ne_none _), fun blocks' h' => ?_⟩
    obtain rfl : blocks = blocks' := Option.some.inj (hkeep.symm.trans h')
    refine ⟨h.ascending, h.short, hsub, ?_⟩
    intro c hc hall
    rcases mem_append.mp hc with hc | hc
    · exact hold c hc hall
    · obtain rfl := mem_singleton.mp hc
      rwa [hone c (mem_append_right _ (mem_singleton_self _)) b (hsub hb) heq.symm]
  · refine ⟨fun h' => absurd (hkeep.symm.trans h') (some_ne_none _), fun blocks' h' => ?_⟩
    obtain rfl : all.take recoverBlockBuffer = blocks' := Option.some.inj (hkeep.symm.trans h')
    refine ⟨hasc.sublist (take_sublist _ _), length_take_le _ _, ?_, ?_⟩
    · intro b hb
      rcases mem_append.mp (hperm.subset (mem_of_mem_take hb)) with hb | hb
      · exact mem_append_left _ (h.subset hb)
      · exact mem_append_right _ hb
    · intro b hb hall
      have hin : b ∈ all := by
        apply hperm.symm.subset
        rcases mem_append.mp hb with hb | hb
        · exact mem_append_left _ (hold b hb hall)
        · exact mem_append_right _ hb
      obtain ⟨i, hi⟩ := mem_iff_getElem?.mp hin
      obtain ⟨a, ha⟩ : ∃ a, all.head? = some a := by
        cases all with
        | nil => simp at hi
        | cons a all => exact ⟨a, rfl⟩
      have ha' : a ∈ seen ++ [block] := by
        rcases mem_append.mp (hperm.subset (mem_of_mem_head? ha)) with ha | ha
        · exact mem_append_left _ (h.subset ha)
        · exact mem_append_right _ ha
      have hlow := hasc.height_getElem hi ha
      have hnear := hall a ha'
      have hlt : i < recoverBlockBuffer := by omega
      refine mem_of_getElem? (i := i) ?_
      rw [getElem?_take_of_lt hlt, hi]

variable {h : UInt64}

theorem runFrom_eq_climb (room : ℕ) (hasc : Ascending l) (hlow : ∀ b ∈ l, h.toNat ≤ b.height.toNat)
    (hroom : l.length ≤ room)
    (hfind : ∀ n, h.toNat ≤ n → n < h.toNat + room → (seen.find? fun b => b.height.toNat == n) = l.find? fun b => b.height.toNat == n) :
    runFrom h l = climb seen room h.toNat := by
  induction room generalizing h l with
  | zero =>
    obtain rfl : l = [] := length_eq_zero_iff.mp (by omega)
    rfl
  | succ room ih =>
    have hhere := hfind h.toNat le_rfl (by omega)
    cases l with
    | nil =>
      rw [runFrom, climb, hhere]
      rfl
    | cons b bs =>
      obtain ⟨hfirst, hrest⟩ := pairwise_cons.mp hasc
      by_cases hb : b.height = h
      · have hfound : ((b :: bs).find? fun c => c.height.toNat == h.toNat) = some b := by
          simp [hb]
        rw [hfound] at hhere
        have hlater : ∀ n, h.toNat + 1 ≤ n → n < h.toNat + 1 + room →
            (seen.find? fun c => c.height.toNat == n) = bs.find? fun c => c.height.toNat == n := by
          intro n hn hn'
          rw [hfind n (by omega) (by omega), find?_cons_of_neg]
          simp only [hb, beq_iff_eq]
          omega
        rw [runFrom, if_pos hb, climb, hhere]
        congr 1
        cases bs with
        | nil =>
          cases room with
          | zero => rfl
          | succ room =>
            rw [runFrom, climb, hlater _ le_rfl (by omega)]
            rfl
        | cons c cs =>
          have hbc := hfirst c (.head _)
          have hnext : (h + 1).toNat = h.toNat + 1 := by
            have := c.height.toNat_lt
            exact Nat.mod_eq_of_lt (by rw [← hb]; show b.height.toNat + 1 < 2 ^ 64; omega)
          rw [← hnext] at hlater
          rw [← hnext]
          refine ih hrest ?_ (by simpa using hroom) hlater
          intro d hd
          have := hfirst d hd
          rw [hb] at this
          omega
      · have hlt : h.toNat < b.height.toNat :=
          lt_of_le_of_ne (hlow b (.head _)) fun heq => hb (UInt64.toNat_inj.mp heq.symm)
        have hnone : ((b :: bs).find? fun c => c.height.toNat == h.toNat) = none := by
          rw [find?_eq_none]
          intro c hc
          simp only [beq_iff_eq]
          rcases mem_cons.mp hc with rfl | hc
          · omega
          · have := hfirst c hc
            omega
        rw [runFrom, if_neg hb, climb, hhere, hnone]

theorem OneEach.find? (h : OneEach l) {n : ℕ} :
    (l.find? fun b => b.height.toNat == n) = some b ↔ b ∈ l ∧ b.height.toNat = n := by
  constructor
  · intro hfind
    exact ⟨mem_of_find?_eq_some hfind, by simpa using find?_some hfind⟩
  · rintro ⟨hb, rfl⟩
    cases hfind : l.find? fun c => c.height.toNat == b.height.toNat with
    | none => simpa using find?_eq_none.mp hfind b hb
    | some c =>
      have hc : c.height = b.height := UInt64.toNat_inj.mp (by simpa using find?_some hfind)
      rw [h c (mem_of_find?_eq_some hfind) b hb hc]

theorem Kept.gaplessRun (h : Kept seen blocks) (hone : OneEach seen) :
    gaplessRun blocks = assembled seen := by
  have hlowest : ∀ b ∈ seen, (∀ c ∈ seen, b.height.toNat ≤ c.height.toNat) → b ∈ blocks := fun b hb hall =>
    h.near b hb fun c hc => (hall c hc).trans_lt (Nat.lt_add_of_pos_right (by decide))
  unfold assembled
  cases hmin : (seen.map fun b => b.height.toNat).min? with
  | none =>
    rw [min?_eq_none_iff, map_eq_nil_iff] at hmin
    have hnil : blocks = [] := eq_nil_iff_forall_not_mem.mpr fun b hb => by simpa [hmin] using h.subset hb
    rw [hnil]
    rfl
  | some low =>
    obtain ⟨hmem, hle⟩ := min?_eq_some_iff.mp hmin
    obtain ⟨m, hm, rfl⟩ := mem_map.mp hmem
    have hall : ∀ c ∈ seen, m.height.toNat ≤ c.height.toNat := fun c hc => hle _ (mem_map_of_mem hc)
    have hmb := hlowest m hm hall
    cases blocks with
    | nil => simp at hmb
    | cons b bs =>
      obtain ⟨hfirst, -⟩ := pairwise_cons.mp h.ascending
      have hlow : b.height.toNat = m.height.toNat := by
        have hge := hall b (h.subset (mem_cons_self ..))
        rcases mem_cons.mp hmb with rfl | hmb
        · rfl
        · have := hfirst m hmb
          omega
      rw [← hlow]
      refine runFrom_eq_climb _ h.ascending ?_ h.short ?_
      · intro c hc
        rcases mem_cons.mp hc with rfl | hc
        · exact le_rfl
        · exact (hfirst c hc).le
      · intro n hn hn'
        ext c
        rw [hone.find?, (hone.subset h.subset).find?]
        refine and_congr_left fun hc => ⟨fun hseen => h.near c hseen fun d hd => ?_, fun hb => h.subset hb⟩
        have := hall d hd
        omega

theorem runFrom_idem (h : UInt64) (l : List ChainBlock) : runFrom h (runFrom h l) = runFrom h l := by
  induction l generalizing h with
  | nil => rfl
  | cons b bs ih =>
    rw [runFrom]
    split
    · rename_i hb
      rw [runFrom, if_pos hb, ih]
    · rfl

theorem runFrom_subset (h : UInt64) (l : List ChainBlock) : runFrom h l ⊆ l := by
  induction l generalizing h with
  | nil => exact List.Subset.refl _
  | cons b bs ih =>
    unfold runFrom
    split
    · exact cons_subset_cons b (ih _)
    · exact nil_subset _

theorem runs_eq {a b : List ChainBlock} (hone : OneEach seen) (ha : runFrom h a = a) (hb : runFrom h b = b)
    (hasub : a ⊆ seen) (hbsub : b ⊆ seen) (hlen : a.length = b.length) : a = b := by
  induction a generalizing h b with
  | nil => exact (length_eq_zero_iff.mp hlen.symm).symm
  | cons x a ih =>
    cases b with
    | nil => simp at hlen
    | cons y b =>
      have hx : x.height = h ∧ runFrom (h + 1) a = a := by
        unfold runFrom at ha
        split at ha
        · exact ⟨‹_›, (List.cons.inj ha).2⟩
        · cases ha
      have hy : y.height = h ∧ runFrom (h + 1) b = b := by
        unfold runFrom at hb
        split at hb
        · exact ⟨‹_›, (List.cons.inj hb).2⟩
        · cases hb
      rw [cons_subset] at hasub hbsub
      rw [hone x hasub.1 y hbsub.1 (hx.1.trans hy.1.symm), ih hx.2 hy.2 hasub.2 hbsub.2 (by simpa using hlen)]

theorem gaplessRun_run {bs : List ChainBlock} (h : gaplessRun blocks = b :: bs) :
    runFrom b.height (b :: bs) = b :: bs ∧ b :: bs ⊆ blocks := by
  cases blocks with
  | nil => cases h
  | cons a as =>
    have hcons : gaplessRun (a :: as) = a :: runFrom (a.height + 1) as := by
      show runFrom a.height (a :: as) = _
      rw [runFrom, if_pos rfl]
    obtain ⟨rfl, rfl⟩ := List.cons.inj (hcons.symm.trans h)
    rw [← h]
    exact ⟨runFrom_idem _ _, runFrom_subset _ _⟩

theorem received_append (pre post : List Frame) : received (pre ++ post) = received pre ++ received post :=
  filterMap_append

theorem lastBlob_concat (pre : List Frame) (f : Frame) :
    lastBlob (pre ++ [f]) = match f with
      | .checkpointServed b => some b
      | _ => lastBlob pre := by
  unfold lastBlob
  cases f <;> simp

def Assembles (C : Crypto) (rid : String) (frames : List Frame) : Prop :=
  ∃ head, verifyServed C (lastBlob frames) (assembled (received frames)) (some rid) = .ok head

def Tried (C : Crypto) (rid : String) (seen : List ChainBlock) (r : Recovery) : Prop :=
  r.verifiedRun.2 = 0 ∨ ∃ run, runFrom r.verifiedRun.1 run = run ∧ run ⊆ seen ∧ run.length = r.verifiedRun.2 ∧
    ∀ head, verifyServed C r.blob run (some rid) ≠ .ok head

structure Going (C : Crypto) (rid : String) (pre : List Frame) (r : Recovery) : Prop where
  blob : r.blob = lastBlob pre
  kept : Kept (received pre) r.blocks
  tried : Tried C rid (received pre) r
  failed : ¬ Assembles C rid pre

variable {rid : String} {pre : List Frame} {r : Recovery}

theorem tryRun_spec (hone : OneEach (received pre)) (hblob : r.blob = lastBlob pre)
    (hkept : Kept (received pre) r.blocks) (htried : Tried C rid (received pre) r) :
    (∀ r', tryRun C rid r = .inl r' → Going C rid pre r') ∧
      ∀ done, tryRun C rid r = .inr done → Assembles C rid pre := by
  have hrun := hkept.gaplessRun hone
  unfold tryRun
  cases hcase : gaplessRun r.blocks with
  | nil =>
    refine ⟨fun r' h' => ?_, fun _ h' => by cases h'⟩
    obtain rfl := Sum.inl.inj h'
    refine ⟨hblob, hkept, htried, ?_⟩
    rintro ⟨head, hok⟩
    rw [← hrun, hcase] at hok
    cases hb : lastBlob pre <;> rw [hb] at hok <;> cases hok
  | cons b bs =>
    obtain ⟨hself, hsub⟩ := gaplessRun_run hcase
    have hseen : b :: bs ⊆ received pre := List.Subset.trans hsub hkept.subset
    have hassembles : Assembles C rid pre ↔ ∃ head, verifyServed C r.blob (b :: bs) (some rid) = .ok head := by
      rw [Assembles, ← hrun, hcase, hblob]
    dsimp only
    split
    · rename_i hkey
      refine ⟨fun r' h' => ?_, fun _ h' => by cases h'⟩
      obtain rfl := Sum.inl.inj h'
      refine ⟨hblob, hkept, htried, ?_⟩
      rw [hassembles]
      rintro ⟨head, hok⟩
      rcases htried with hzero | ⟨run, hrunself, hrunsub, hlen, hfail⟩
      · rw [← hkey] at hzero
        cases hzero
      · rw [← hkey] at hrunself hlen
        rw [runs_eq hone hrunself hself hrunsub hseen hlen] at hfail
        exact hfail head hok
    · split
      · rename_i head hok
        exact ⟨fun _ h' => (by cases h'), fun _ _ => hassembles.mpr ⟨head, hok⟩⟩
      · rename_i e herr
        refine ⟨fun r' h' => ?_, fun _ h' => by cases h'⟩
        obtain rfl := Sum.inl.inj h'
        have hfail : ∀ head, verifyServed C r.blob (b :: bs) (some rid) ≠ .ok head := by
          intro head hok
          rw [herr] at hok
          cases hok
        refine ⟨hblob, hkept, .inr ⟨b :: bs, hself, hseen, rfl, hfail⟩, ?_⟩
        rw [hassembles]
        rintro ⟨head, hok⟩
        exact hfail head hok

theorem Tried.mono {more : List ChainBlock} (h : Tried C rid seen r) (hsub : seen ⊆ more) : Tried C rid more r :=
  h.imp_right fun ⟨run, hself, hrun, hrest⟩ => ⟨run, hself, List.Subset.trans hrun hsub, hrest⟩

theorem Going.turn (h : Going C rid pre r) {f : Frame} (hone : OneEach (received (pre ++ [f]))) :
    (∀ r', turn C rid r f = .inl r' → Going C rid (pre ++ [f]) r') ∧
      ∀ done, turn C rid r f = .inr done → Assembles C rid (pre ++ [f]) := by
  have hseen := received_append pre [f]
  have hlast := lastBlob_concat pre f
  cases f with
  | other =>
    have hsame : received (pre ++ [.other]) = received pre := hseen.trans (append_nil _)
    refine ⟨fun r' h' => ?_, fun _ h' => by cases h'⟩
    obtain rfl := Sum.inl.inj h'
    refine ⟨h.blob.trans hlast.symm, hsame ▸ h.kept, hsame ▸ h.tried, ?_⟩
    rw [Assembles, hsame, hlast]
    exact h.failed
  | checkpointServed blob =>
    have hsame : received (pre ++ [.checkpointServed blob]) = received pre := hseen.trans (append_nil _)
    exact tryRun_spec hone hlast.symm (hsame ▸ h.kept) (.inl rfl)
  | committed block =>
    have hmore : received (pre ++ [.committed block]) = received pre ++ [block] := hseen
    have hkeep := h.kept.keep (hmore ▸ hone)
    have hsub : received pre ⊆ received pre ++ [block] := subset_append_left ..
    unfold Chain.turn
    dsimp only
    cases hcase : keep r.blocks block with
    | none =>
      refine ⟨fun r' h' => ?_, fun _ h' => by cases h'⟩
      obtain rfl := Sum.inl.inj h'
      have hkept' := hkeep.1 hcase
      refine ⟨h.blob.trans hlast.symm, hmore ▸ hkept', hmore ▸ h.tried.mono hsub, ?_⟩
      have hrun := hkept'.gaplessRun (hmore ▸ hone)
      have hold := h.kept.gaplessRun ((hmore ▸ hone).subset hsub)
      rw [Assembles, hmore, hlast, ← hrun, hold]
      exact h.failed
    | some blocks =>
      refine tryRun_spec hone (h.blob.trans hlast.symm) ?_ ?_
      · rw [hmore]
        exact hkeep.2 blocks hcase
      · rw [hmore]
        exact h.tried.mono hsub

theorem Going.recover (h : Going C rid pre r) (frames : List Frame)
    (hone : OneEach (received (pre ++ frames))) :
    (recover C rid r frames).isSome = true ↔ ∃ k, k ≤ frames.length ∧ Assembles C rid (pre ++ frames.take k) := by
  induction frames generalizing pre r with
  | nil =>
    refine iff_of_false (by simp [Chain.recover]) ?_
    rintro ⟨k, -, hk⟩
    rw [take_nil, append_nil] at hk
    exact h.failed hk
  | cons f fs ih =>
    have hsplit : pre ++ f :: fs = (pre ++ [f]) ++ fs := by simp
    have hone' : OneEach (received (pre ++ [f])) := by
      refine hone.subset ?_
      rw [hsplit, received_append (pre ++ [f])]
      exact subset_append_left ..
    obtain ⟨hgo, hdone⟩ := h.turn hone'
    unfold Chain.recover
    cases hcase : Chain.turn C rid r f with
    | inr done =>
      refine iff_of_true rfl ⟨1, by simp, ?_⟩
      simpa using hdone done hcase
    | inl r' =>
      have hnext := hgo r' hcase
      rw [ih hnext (hsplit ▸ hone)]
      constructor
      · rintro ⟨k, hk, hok⟩
        exact ⟨k + 1, by simpa using hk, by simpa using hok⟩
      · rintro ⟨k, hk, hok⟩
        cases k with
        | zero => exact absurd (by simpa using hok) h.failed
        | succ k => exact ⟨k, by simpa using hk, by simpa using hok⟩

variable {whole : List ChainBlock} {w : ChainWalk}

theorem getElem_height (h : walkChain C whole = .ok w) {i : ℕ} (hb : whole[i]? = some b) : b.height.toNat = i := by
  obtain ⟨hlt, hget⟩ := List.getElem?_eq_some_iff.mp hb
  have hsplit : whole = whole.take i ++ b :: whole.drop (i + 1) := by
    rw [← hget, ← drop_eq_getElem_cons hlt, take_append_drop]
  rw [hsplit] at h
  rw [walkChain_height h, length_take_of_le hlt.le]

theorem getElem_of_mem (h : walkChain C whole = .ok w) (hb : b ∈ whole) : whole[b.height.toNat]? = some b := by
  obtain ⟨i, hi⟩ := mem_iff_getElem?.mp hb
  rw [getElem_height h hi, hi]

theorem walkChain_oneEach (h : walkChain C whole = .ok w) :
    OneEach whole := by
  intro b hb c hc heq
  have hb' := getElem_of_mem h hb
  rw [heq, getElem_of_mem h hc] at hb'
  exact (Option.some.inj hb').symm

theorem climb_prefix (h : walkChain C whole = .ok w) (hseen : seen ⊆ whole) (room n : ℕ) :
    climb seen room n <+: whole.drop n := by
  induction room generalizing n with
  | zero => exact nil_prefix
  | succ room ih =>
    unfold climb
    split
    · rename_i b hfind
      have hb := getElem_of_mem h (hseen (mem_of_find?_eq_some hfind))
      rw [show b.height.toNat = n by simpa using find?_some hfind] at hb
      obtain ⟨hlt, hget⟩ := List.getElem?_eq_some_iff.mp hb
      rw [drop_eq_getElem_cons hlt, hget, cons_prefix_cons]
      exact ⟨rfl, ih (n + 1)⟩
    · exact nil_prefix

/-- The lowest block that came is the genesis while no blob came, or the cut of the last blob. -/
def Anchored (C : Crypto) (frames : List Frame) : Prop :=
  ∃ a, (assembled (received frames)).head? = some a ∧
    match lastBlob frames with
    | none => a.height = 0
    | some blob => ∃ kind, CutKind.of a.change = some (blob.upto, C.checkpointStateHash blob, kind)

def Stands (C : Crypto) (whole : List ChainBlock) (frames : List Frame) : Prop :=
  ∃ a run, assembled (received frames) = a :: run ∧
    match lastBlob frames with
    | none => a.height = 0
    | some blob => (∀ b ∈ run, CutKind.of b.change = none) ∧ ∃ upto hash kind state folded,
        CutKind.of a.change = some (upto, hash, kind) ∧
          checkpointState C (whole.take a.height.toNat) upto = .ok state ∧
          foldCut C state kind {} = .ok folded ∧ blob = folded.state

theorem Assembles.anchored {frames : List Frame} (h : Assembles C rid frames) : Anchored C frames := by
  obtain ⟨head, hok⟩ := h
  unfold Anchored
  unfold verifyServed at hok
  split at hok
  · obtain ⟨head', hchain, -⟩ := bind_eq_ok.mp hok
    obtain ⟨w, hwalk, -⟩ := verifyChain_eq_ok.mp hchain
    obtain ⟨b, rest, g', g, heq, hgen, -⟩ := walkChain_eq_ok.mp hwalk
    obtain ⟨-, -, hzero, -⟩ := verifyGenesis_eq_ok.mp hgen
    rw [heq]
    exact ⟨b, rfl, hzero⟩
  · obtain ⟨w, hwalk, -⟩ := map_eq_ok.mp hok
    obtain ⟨anchor, rest, w₀, heq, hanchor, -⟩ := walkSuffixChain_eq_ok.mp hwalk
    obtain ⟨hash, kind, hcut, rfl, -⟩ := verifyAnchor_eq_ok.mp hanchor
    rw [heq]
    exact ⟨anchor, rfl, kind, hcut⟩

section

variable {rid : String} {whole : List ChainBlock} {w : ChainWalk} {frames : List Frame}

theorem assembled_prefix (h : walkChain C whole = .ok w) (hseen : received frames ⊆ whole) {a : ChainBlock}
    (ha : (assembled (received frames)).head? = some a) :
    assembled (received frames) <+: whole.drop a.height.toNat := by
  unfold assembled at ha ⊢
  split at ha
  · cases ha
  · rename_i low _
    have hlow : a.height.toNat = low := by
      rw [show recoverBlockBuffer = 255 + 1 from rfl, climb] at ha
      split at ha
      · rename_i b hfind
        cases ha
        simpa using find?_some hfind
      · cases ha
    rw [hlow]
    exact climb_prefix h hseen _ low

theorem assembles_of_genesis (h : walkChain C whole = .ok w) (hrid : w.head.republicId = rid)
    (hseen : received frames ⊆ whole) (hblob : lastBlob frames = none) {a : ChainBlock}
    (ha : (assembled (received frames)).head? = some a) (hzero : a.height = 0) : Assembles C rid frames := by
  obtain ⟨rest, hsplit⟩ := assembled_prefix h hseen ha
  rw [hzero, show (0 : UInt64).toNat = 0 from rfl, drop_zero] at hsplit
  have hne : assembled (received frames) ≠ [] := by
    intro hnil
    rw [hnil] at ha
    cases ha
  rw [← hsplit] at h
  obtain ⟨w', hw', -⟩ := (walkChain_append_eq_ok hne).mp h
  obtain ⟨g, hwalked⟩ := walkChain_walked h
  obtain ⟨g', hwalked'⟩ := walkChain_walked hw'
  obtain ⟨b, tail, hopens, hgenesis⟩ := hwalked'.opens
  refine ⟨w'.head, ?_⟩
  rw [hblob]
  refine bind_eq_ok.mpr ⟨w'.head, verifyChain_eq_ok.mpr ⟨w', hw', rfl⟩, ?_⟩
  refine bind_eq_ok.mpr ⟨⟨⟩, ensure_eq_ok.mpr ?_, ?_⟩
  · rw [hopens]
    simp [hgenesis, ChainChange.isGenesis]
  · refine bind_eq_ok.mpr ⟨⟨⟩, ensure_eq_ok.mpr ?_, rfl⟩
    rw [hwalked'.republicId, ← hwalked'.unique hwalked, ← hwalked.republicId, hrid]

theorem walk_without_bases {held : Held} {blocks : List ChainBlock} (hplain : ∀ b ∈ blocks, CutKind.of b.change = none)
    {v v' : ChainWalk} (h : blocks.foldlM (advance C held) v = .ok v') : blocks.foldlM (advance C {}) v = .ok v' := by
  induction blocks generalizing v with
  | nil => exact h
  | cons b bs ih =>
    obtain ⟨u, hu, hrest⟩ := foldlM_cons_eq_ok.mp h
    refine foldlM_cons_eq_ok.mpr ⟨u, ?_, ih (fun c hc => hplain c (.tail _ hc)) hrest⟩
    have hcut := hplain b (.head _)
    obtain ⟨head, consumed, wiki, running, hn, hs, hc, hf, rfl⟩ := advance_eq_ok.mp hu
    refine advance_eq_ok.mpr ⟨head, consumed, wiki, running, hn, hs, ?_, hf, rfl⟩
    rw [checkCut_of_not_cut hcut] at hc ⊢
    exact hc

theorem assembles_of_cut (h : walkChain C whole = .ok w) (hrid : w.head.republicId = rid)
    (hfree : ∀ b ∈ whole, appliesBase b = false) (hseen : received frames ⊆ whole) {cut : ChainBlock}
    {run : List ChainBlock} (hrun : assembled (received frames) = cut :: run) {upto : UInt64} {hash : String}
    {kind : CutKind} (hcut : CutKind.of cut.change = some (upto, hash, kind))
    (hplain : ∀ b ∈ run, CutKind.of b.change = none) {state : CheckpointState} {folded : FoldedCut}
    (hstate : checkpointState C (whole.take cut.height.toNat) upto = .ok state)
    (hfolded : foldCut C state kind {} = .ok folded) (hblob : lastBlob frames = some folded.state) :
    Assembles C rid frames := by
  obtain ⟨rest, hsplit⟩ := assembled_prefix h hseen (a := cut) (by rw [hrun]; rfl)
  rw [hrun] at hsplit
  have hwhole : whole = (whole.take cut.height.toNat ++ cut :: run) ++ rest := by
    rw [append_assoc, hsplit, take_append_drop]
  have hne : whole.take cut.height.toNat ++ cut :: run ≠ [] := by simp
  rw [hwhole] at h
  obtain ⟨w', hw', -⟩ := (walkChain_append_eq_ok hne).mp h
  obtain ⟨state', folded', v, hstate', hfolded', hv, -⟩ := walkSuffixChain_twin hw' (fun b hb => hfree b (by
    rw [hwhole]
    exact mem_append_left _ hb)) hcut
  obtain rfl : state' = state := Except.ok.inj (hstate'.symm.trans hstate)
  obtain rfl : folded' = folded := Except.ok.inj (hfolded'.symm.trans hfolded)
  have hrid' : w'.head.republicId = rid := by
    obtain ⟨g, hwalked⟩ := walkChain_walked h
    obtain ⟨g', hwalked'⟩ := walkChain_walked hw'
    rw [hwalked'.republicId, ← hwalked'.unique hwalked, ← hwalked.republicId, hrid]
  obtain ⟨anchor, tail, v₀, heq, hanchor, htail⟩ := walkSuffixChain_eq_ok.mp hv
  obtain ⟨rfl, rfl⟩ := List.cons.inj heq
  refine ⟨v.head, ?_⟩
  rw [hblob, hrun]
  refine map_eq_ok.mpr ⟨v, walkSuffixChain_eq_ok.mpr ⟨cut, run, v₀, rfl, ?_, walk_without_bases hplain htail⟩, rfl⟩
  rw [← hrid']
  exact hanchor

end

theorem runFrom_consecutive (hasc : Ascending l) :
    (runFrom h l).IsChain fun a b => b.height.toNat = a.height.toNat + 1 := by
  induction l generalizing h with
  | nil => exact isChain_nil
  | cons a l ih =>
    obtain ⟨hfirst, hrest⟩ := pairwise_cons.mp hasc
    rw [runFrom]
    split
    · rename_i ha
      cases l with
      | nil => exact isChain_singleton a
      | cons b l =>
        have hnext := ih (h := h + 1) hrest
        rw [runFrom] at hnext ⊢
        split
        · rename_i hb
          rw [if_pos hb] at hnext
          refine isChain_cons_cons.mpr ⟨?_, hnext⟩
          have hlt := hfirst b (.head _)
          have hmax := b.height.toNat_lt
          rw [hb, ← ha, UInt64.toNat_add]
          exact Nat.mod_eq_of_lt (by show a.height.toNat + 1 < 2 ^ 64; omega)
        · exact isChain_singleton a
    · exact isChain_nil

theorem Ascending.keep {blocks' : List ChainBlock} (h : Ascending blocks) {block : ChainBlock}
    (hkeep : keep blocks block = some blocks') : Ascending blocks' := by
  rcases keep_cases h block with ⟨hnone, -⟩ | ⟨hsame, -⟩ | ⟨all, hall, -, hasc⟩
  · rw [hnone] at hkeep
    cases hkeep
  · cases hsame.symm.trans hkeep
    exact h
  · cases hall.symm.trans hkeep
    exact hasc.sublist (take_sublist _ _)

def Verified (C : Crypto) (rid : String) (r : Recovery) (head : ChainHead) : Prop :=
  (r.blocks.IsChain fun a b => b.height.toNat = a.height.toNat + 1) ∧
    verifyServed C r.blob r.blocks (some rid) = .ok head

theorem tryRun_verified (hasc : Ascending r.blocks) :
    (∀ r', tryRun C rid r = .inl r' → Ascending r'.blocks) ∧
      ∀ r' head, tryRun C rid r = .inr (r', head) → Verified C rid r' head := by
  unfold tryRun
  cases hcase : gaplessRun r.blocks with
  | nil => exact ⟨fun r' h' => Sum.inl.inj h' ▸ hasc, fun _ _ h' => by cases h'⟩
  | cons b bs =>
    dsimp only
    split
    · exact ⟨fun r' h' => Sum.inl.inj h' ▸ hasc, fun _ _ h' => by cases h'⟩
    · split
      · rename_i head hok
        refine ⟨fun _ h' => (by cases h'), fun r' head' h' => ?_⟩
        cases Sum.inr.inj h'
        refine ⟨?_, hok⟩
        have hrun : gaplessRun r.blocks = runFrom b.height r.blocks := by
          cases hblocks : r.blocks with
          | nil =>
            rw [hblocks] at hcase
            cases hcase
          | cons a as =>
            rw [hblocks] at hcase
            have hfirst : gaplessRun (a :: as) = a :: runFrom (a.height + 1) as := by
              show runFrom a.height (a :: as) = _
              rw [runFrom, if_pos rfl]
            obtain ⟨rfl, -⟩ := List.cons.inj (hfirst.symm.trans hcase)
            rfl
        show List.IsChain _ (b :: bs)
        rw [← hcase, hrun]
        exact runFrom_consecutive hasc
      · exact ⟨fun r' h' => by rw [← Sum.inl.inj h']; exact hasc, fun _ _ h' => by cases h'⟩

theorem recover_verified {frames : List Frame} {r' : Recovery} {head : ChainHead} (hasc : Ascending r.blocks)
    (h : recover C rid r frames = some (r', head)) : Verified C rid r' head := by
  induction frames generalizing r with
  | nil => cases h
  | cons f fs ih =>
    have hturn : (∀ r₁, turn C rid r f = .inl r₁ → Ascending r₁.blocks) ∧
        ∀ r₁ head, turn C rid r f = .inr (r₁, head) → Verified C rid r₁ head := by
      cases f with
      | other => exact ⟨fun r₁ h₁ => Sum.inl.inj h₁ ▸ hasc, fun _ _ h₁ => by cases h₁⟩
      | checkpointServed blob => exact tryRun_verified hasc
      | committed block =>
        unfold turn
        dsimp only
        cases hcase : keep r.blocks block with
        | none => exact ⟨fun r₁ h₁ => Sum.inl.inj h₁ ▸ hasc, fun _ _ h₁ => by cases h₁⟩
        | some blocks => exact tryRun_verified (hasc.keep hcase)
    unfold recover at h
    split at h
    · rename_i done hdone
      cases h
      exact hturn.2 r' head hdone
    · rename_i r₁ hgo
      exact ih (hturn.1 r₁ hgo) h

/-- Over genuine blocks the loop ends exactly when at some frame the lowest block that came and
what is gapless above it verify on the last blob that came: that block is the genesis or the blob's
cut, and where it is and nothing above is cut they do. Whatever the frames, what the loop ends with
is consecutive and verifies. -/
theorem recover_iff {whole : List ChainBlock} {w : ChainWalk} (h : walkChain C whole = .ok w) (rid : String)
    {frames : List Frame} (hgenuine : received frames ⊆ whole) :
    ((recover C rid {} frames).isSome = true ↔ ∃ pre, pre <+: frames ∧ Assembles C rid pre) ∧
      (∀ pre, Assembles C rid pre → Anchored C pre) ∧
      (w.head.republicId = rid → (∀ b ∈ whole, appliesBase b = false) →
        ∀ pre, pre <+: frames → Stands C whole pre → Assembles C rid pre) ∧
      ∀ any r head, recover C rid {} any = some (r, head) → Verified C rid r head := by
  refine ⟨?_, fun pre => Assembles.anchored, fun hrid hfree pre hpre hstands => ?_,
    fun any r head => recover_verified List.Pairwise.nil⟩
  · have hstart : Going C rid [] {} := by
      refine ⟨rfl, ⟨List.Pairwise.nil, Nat.zero_le _, List.Subset.refl _, nofun⟩, Or.inl rfl, ?_⟩
      rintro ⟨head, hok⟩
      cases hok
    rw [hstart.recover frames ((walkChain_oneEach h).subset hgenuine)]
    constructor
    · rintro ⟨k, -, hk⟩
      exact ⟨frames.take k, List.take_prefix _ _, hk⟩
    · rintro ⟨pre, hpre, hok⟩
      refine ⟨pre.length, hpre.length_le, ?_⟩
      rw [List.nil_append, ← List.prefix_iff_eq_take.mp hpre]
      exact hok
  · have hseen : received pre ⊆ whole := List.Subset.trans (hpre.filterMap _).subset hgenuine
    obtain ⟨a, run, hrun, hstands⟩ := hstands
    cases hblob : lastBlob pre with
    | none =>
      rw [hblob] at hstands
      exact assembles_of_genesis h hrid hseen hblob (by rw [hrun]; rfl) hstands
    | some blob =>
      rw [hblob] at hstands
      obtain ⟨hplain, upto, hash, kind, state, folded, hcut, hstate, hfolded, rfl⟩ := hstands
      exact assembles_of_cut h hrid hfree hseen hrun hcut hplain hstate hfolded hblob

theorem recover_iff_genesis :
    (recover Crypto.toy Sample.solo.republicId {} (Sample.opened.map .committed)).isSome = true := by
  obtain ⟨w, hw⟩ := Sample.chain_accepted
  have hgenuine : received (Sample.opened.map .committed) ⊆ Sample.moved ++ [Sample.cut] := fun b hb =>
    List.mem_append_left _ (List.mem_append_left _ hb)
  obtain ⟨hends, -, hstands, -⟩ := recover_iff hw Sample.solo.republicId hgenuine
  obtain ⟨g, hwalked⟩ := walkChain_walked hw
  obtain ⟨b, rest, heq, hc⟩ := hwalked.opens
  obtain ⟨rfl, -⟩ := List.cons.inj heq
  obtain rfl : Sample.solo = g := ChainChange.genesis.inj hc
  refine hends.mpr ⟨_, List.prefix_rfl, hstands hwalked.republicId (by decide) _ List.prefix_rfl ?_⟩
  exact ⟨_, [], rfl, rfl⟩

/-- The anchor is the head of the chain and ends the loop alone; a genuine block below it that
came first hides it for good, since the run starts at the lowest block ever held. -/
theorem older_block_hides_the_anchor : ∃ (whole : List ChainBlock) (w : ChainWalk) (older cut : ChainBlock)
    (blob : CheckpointState), walkChain Crypto.toy whole = .ok w ∧ older ∈ whole ∧ whole.getLast? = some cut ∧
      (recover Crypto.toy w.head.republicId {} [.checkpointServed blob, .committed cut]).isSome = true ∧
      recover Crypto.toy w.head.republicId {}
        [.committed older, .checkpointServed blob, .committed cut] = none := by
  obtain ⟨w, hw⟩ := Sample.chain_accepted
  obtain ⟨g, hwalked⟩ := walkChain_walked hw
  obtain ⟨b, rest, heq, hc⟩ := hwalked.opens
  obtain ⟨rfl, -⟩ := List.cons.inj heq
  obtain rfl : Sample.solo = g := ChainChange.genesis.inj hc
  refine ⟨_, w, _, Sample.cut, Sample.blob, hw, List.mem_append_left _ (List.mem_of_getElem? (i := 1) rfl),
    List.getLast?_concat .., ?_⟩
  rw [hwalked.republicId]
  decide +kernel

end Molt.Chain
