import Mathlib
import MoltRepublic.Lib.SortedMap

/-! The scan core (`molt-treasury`): the outputs and the dust of a purse, read block by block
from its birthday on. A block whose parent is not the block held takes the newest block back,
out of a hundred remembered ones; past these the scan starts over. -/

namespace Molt.Treasury

abbrev Key := Vector UInt8 32

abbrev BlockHash := Vector UInt8 32

def confirmations : Nat := 20

def recentBlocks : Nat := 100

def maxOutputs : Nat := 50000

def dustLimit : Nat := 100000000

def saturatingAdd (a b : Nat) : Nat := min (a + b) (2 ^ 64 - 1)

structure Dust where
  count : Nat
  total : Nat
  deriving DecidableEq

def Dust.zero : Dust := ⟨0, 0⟩

def Dust.add (d o : Dust) : Dust := ⟨saturatingAdd d.count o.count, saturatingAdd d.total o.total⟩

structure Recent where
  hash : BlockHash
  time : Nat
  dust : Dust
  deriving DecidableEq

inductive Lock where
  | none
  | block (height : Nat)
  | time (seconds : Nat)
  deriving DecidableEq

def Lock.openAt (chainHeight chainTime : Nat) : Lock → Bool
  | none => true
  | block h => h ≤ chainHeight
  | time t => t ≤ chainTime

structure Received where
  key : Key
  amount : Nat
  height : Nat
  time : Nat
  tx : Vector UInt8 32
  indexInTx : Nat
  lock : Lock
  deriving DecidableEq

/-- What `apply` is given: a block, its parent's hash, and the outputs the scanner found in it. -/
structure Block where
  height : Nat
  hash : BlockHash
  previous : BlockHash
  time : Nat
  found : List Received
  deriving DecidableEq

inductive Step where
  | applied (new : List Received)
  | reorg
  | outOfOrder
  | full
  deriving DecidableEq

structure ScanState where
  address : String
  birthday : Nat
  next : Nat
  recent : SortedMap Nat Recent
  seen : Finset Key
  outputs : List Received
  dust : Dust

def keys (outputs : List Received) : Finset Key := (outputs.map Received.key).toFinset

def unseen (seen fresh : Finset Key) : List Received → List Received
  | [] => []
  | r :: rest =>
    if r.key ∉ seen ∧ r.key ∉ fresh then r :: unseen seen (insert r.key fresh) rest
    else unseen seen fresh rest

def isDust (r : Received) : Bool := r.amount < dustLimit

def countDust (found : List Received) : Dust :=
  (found.filter isDust).foldl (fun d r => d.add ⟨1, r.amount⟩) Dust.zero

namespace ScanState

def new (address : String) (birthday : Nat) : ScanState :=
  ⟨address, birthday, birthday, SortedMap.empty, ∅, [], Dust.zero⟩

def rewind (s : ScanState) : ScanState :=
  match s.recent.popLast with
  | none => new s.address s.birthday
  | some ((top, block), recent) =>
    if recent.entries = [] then new s.address s.birthday
    else
      { s with
        dust := ⟨s.dust.count - block.dust.count, s.dust.total - block.dust.total⟩
        recent := recent
        outputs := s.outputs.filter fun r => r.height < top
        seen := s.seen \ keys (s.outputs.filter fun r => !(r.height < top))
        next := top }

def displaced (s : ScanState) (b : Block) : Bool :=
  if b.height = 0 then false
  else (s.recent.get? (b.height - 1)).any fun held => held.hash ≠ b.previous

def record (s : ScanState) (b : Block) (new : List Received) (dust : Dust) : ScanState :=
  { s with
    seen := s.seen ∪ keys new
    dust := s.dust.add dust
    recent := (s.recent.insert b.height ⟨b.hash, b.time, dust⟩).keepLast recentBlocks
    outputs := s.outputs ++ new
    next := b.height + 1 }

/-- `apply`; `none` is the panic of `height + 1` at the last height. -/
def apply (s : ScanState) (b : Block) : Option (ScanState × Step) :=
  if b.height ≠ s.next then some (s, .outOfOrder)
  else if s.displaced b then some (s.rewind, .reorg)
  else
    let kept := unseen s.seen ∅ b.found
    let new := kept.filter fun r => !isDust r
    if maxOutputs < s.outputs.length + new.length then some (s, .full)
    else if b.height + 1 = 2 ^ 64 then none
    else some (s.record b new (countDust kept), .applied new)

/-- `(balance, pending)` with `chainHeight` blocks in the chain. -/
def balance (s : ScanState) (chainHeight : Nat) : Nat × Nat :=
  let chainTime := (s.recent.entries.getLast?.map fun e => e.2.time).getD 0
  s.outputs.foldl (fun (ok, wait) r =>
    if confirmations ≤ chainHeight - r.height ∧ r.lock.openAt chainHeight chainTime then
      (saturatingAdd ok r.amount, wait)
    else (ok, saturatingAdd wait r.amount)) (0, 0)

end ScanState

/-- The blocks that stand after a call that left the state `s`. -/
def standing (L : List Block) (b : Block) (s : ScanState) : Step → List Block
  | .applied _ => L ++ [b]
  | .reorg => if s.next = s.birthday then [] else L.dropLast
  | .outOfOrder => L
  | .full => L

def scanStep (cur : ScanState × List Block) (b : Block) : Option (ScanState × List Block) :=
  (cur.1.apply b).map fun (s, step) => (s, standing cur.2 b s step)

def scan (address : String) (birthday : Nat) (calls : List Block) : Option (ScanState × List Block) :=
  calls.foldlM scanStep (ScanState.new address birthday, [])

def replay (s : ScanState) : List Block → Option ScanState
  | [] => some s
  | b :: rest =>
    match s.apply b with
    | some (s', .applied _) => replay s' rest
    | _ => none

def exactDust (found : List Received) : Dust :=
  ⟨(found.filter isDust).length, ((found.filter isDust).map Received.amount).sum⟩

/-- What the blocks that stand hold: the outputs in order, and each block with its dust, summed
without a bound. -/
structure Content where
  outputs : List Received
  entries : List (Nat × Recent)

def Content.push (c : Content) (b : Block) : Content :=
  let kept := unseen (keys c.outputs) ∅ b.found
  ⟨c.outputs ++ kept.filter fun r => !isDust r,
    c.entries ++ [(b.height, ⟨b.hash, b.time, exactDust kept⟩)]⟩

def content (L : List Block) : Content := L.foldl Content.push ⟨[], []⟩

def dustOf (entries : List (Nat × Recent)) : Dust :=
  ⟨(entries.map fun e => e.2.dust.count).sum, (entries.map fun e => e.2.dust.total).sum⟩

def Dust.Fits (d : Dust) : Prop := d.count < 2 ^ 64 ∧ d.total < 2 ^ 64

theorem unseen_spec (seen fresh : Finset Key) (found : List Received) :
    (∀ r ∈ unseen seen fresh found, r ∈ found ∧ r.key ∉ seen ∧ r.key ∉ fresh) ∧
      ((unseen seen fresh found).map Received.key).Nodup := by
  induction found generalizing fresh with
  | nil => simp [unseen]
  | cons r rest ih =>
    simp only [unseen]
    split_ifs with h
    · obtain ⟨hrest, hnodup⟩ := ih (insert r.key fresh)
      refine ⟨?_, ?_⟩
      · intro q hq
        rcases List.mem_cons.mp hq with rfl | hq
        · exact ⟨.head _, h⟩
        · obtain ⟨hmem, hseen, hfresh⟩ := hrest q hq
          exact ⟨.tail _ hmem, hseen, fun hc => hfresh (Finset.mem_insert_of_mem hc)⟩
      · rw [List.map_cons, List.nodup_cons]
        refine ⟨?_, hnodup⟩
        intro hmem
        obtain ⟨q, hq, hkey⟩ := List.mem_map.mp hmem
        exact (hrest q hq).2.2 (hkey ▸ Finset.mem_insert_self _ _)
    · obtain ⟨hrest, hnodup⟩ := ih fresh
      exact ⟨fun q hq => ⟨.tail _ (hrest q hq).1, (hrest q hq).2⟩, hnodup⟩

theorem Dust.add_eq {d o : Dust} (h : Dust.Fits ⟨d.count + o.count, d.total + o.total⟩) :
    d.add o = ⟨d.count + o.count, d.total + o.total⟩ := by
  rw [Dust.add, saturatingAdd, saturatingAdd, min_eq_left (Nat.le_sub_one_of_lt h.1),
    min_eq_left (Nat.le_sub_one_of_lt h.2)]

theorem foldl_add_dust (l : List Received) (d : Dust)
    (h : Dust.Fits ⟨d.count + l.length, d.total + (l.map Received.amount).sum⟩) :
    l.foldl (fun d r => d.add ⟨1, r.amount⟩) d =
      ⟨d.count + l.length, d.total + (l.map Received.amount).sum⟩ := by
  induction l generalizing d with
  | nil => simp
  | cons r l ih =>
    obtain ⟨hcount, htotal⟩ := h
    simp only [List.length_cons, List.map_cons, List.sum_cons] at hcount htotal
    have hadd : d.add ⟨1, r.amount⟩ = ⟨d.count + 1, d.total + r.amount⟩ :=
      Dust.add_eq ⟨by simp only; omega, by simp only; omega⟩
    rw [List.foldl_cons, hadd, ih ⟨d.count + 1, d.total + r.amount⟩ ⟨by simp only; omega, by simp only; omega⟩]
    simp only [List.length_cons, List.map_cons, List.sum_cons, Dust.mk.injEq]
    omega

theorem countDust_eq {found : List Received} (h : (exactDust found).Fits) : countDust found = exactDust found := by
  have hfits : Dust.Fits ⟨Dust.zero.count + (found.filter isDust).length,
      Dust.zero.total + ((found.filter isDust).map Received.amount).sum⟩ := by
    simpa [Dust.zero, exactDust] using h
  rw [countDust, foldl_add_dust _ _ hfits]
  simp [exactDust, Dust.zero]

theorem content_concat (L : List Block) (b : Block) : content (L ++ [b]) = (content L).push b := by
  simp [content]

theorem dustOf_append (l m : List (Nat × Recent)) :
    dustOf (l ++ m) = ⟨(dustOf l).count + (dustOf m).count, (dustOf l).total + (dustOf m).total⟩ := by
  simp [dustOf]

theorem Dust.Fits.left {l m : List (Nat × Recent)} (h : (dustOf (l ++ m)).Fits) :
    (dustOf l).Fits ∧ (dustOf m).Fits := by
  rw [dustOf_append] at h
  obtain ⟨hcount, htotal⟩ := h
  simp only at hcount htotal
  exact ⟨⟨by omega, by omega⟩, ⟨by omega, by omega⟩⟩

theorem content_heights (L : List Block) : (content L).entries.map Prod.fst = L.map Block.height := by
  induction L using List.reverseRecOn with
  | nil => rfl
  | append_singleton L b ih => simp [content_concat, Content.push, ih]

theorem content_keys_nodup (L : List Block) : ((content L).outputs.map Received.key).Nodup := by
  induction L using List.reverseRecOn with
  | nil => exact List.nodup_nil
  | append_singleton L b ih =>
    obtain ⟨hmem, hnodup⟩ := unseen_spec (keys (content L).outputs) ∅ b.found
    rw [content_concat]
    simp only [Content.push, List.map_append]
    refine List.Nodup.append ih (hnodup.sublist (List.filter_sublist.map _)) ?_
    intro k hk hk'
    obtain ⟨r, hr, rfl⟩ := List.mem_map.mp hk'
    exact (hmem r (List.mem_of_mem_filter hr)).2.1 (List.mem_toFinset.mpr hk)

def Block.Honest (b : Block) : Prop := ∀ r ∈ b.found, r.height = b.height

variable {L : List Block}

theorem content_outputs_height (h : ∀ b ∈ L, b.Honest) :
    ∀ r ∈ (content L).outputs, ∃ b ∈ L, r.height = b.height := by
  induction L using List.reverseRecOn with
  | nil => simp [content]
  | append_singleton L b ih =>
    intro r hr
    rw [content_concat] at hr
    rcases List.mem_append.mp hr with hr | hr
    · obtain ⟨c, hc, heq⟩ := ih (fun c hc => h c (List.mem_append_left _ hc)) r hr
      exact ⟨c, List.mem_append_left _ hc, heq⟩
    · have hmem : b ∈ L ++ [b] := List.mem_append_right _ (List.mem_singleton.mpr rfl)
      exact ⟨b, hmem, h b hmem r ((unseen_spec _ _ _).1 r (List.mem_of_mem_filter hr)).1⟩

structure Follows (s : ScanState) (L : List Block) : Prop where
  next : s.next = s.birthday + L.length
  bound : s.next < 2 ^ 64
  heights : L.map Block.height = List.range' s.birthday L.length
  linked : L.IsChain fun p b => b.previous = p.hash
  honest : ∀ b ∈ L, b.Honest
  outputs : s.outputs = (content L).outputs
  seen : s.seen = keys s.outputs
  dust : s.dust = dustOf (content L).entries
  recent : s.recent.entries <:+ (content L).entries
  held : L ≠ [] → s.recent.entries ≠ []
  room : s.outputs.length ≤ maxOutputs

theorem follows_new (address : String) {birthday : Nat} (h : birthday < 2 ^ 64) :
    Follows (ScanState.new address birthday) [] where
  next := rfl
  bound := h
  heights := rfl
  linked := List.isChain_nil
  honest := by simp
  outputs := rfl
  seen := rfl
  dust := rfl
  recent := List.nil_suffix
  held := absurd rfl
  room := Nat.zero_le _

variable {s : ScanState}

theorem Follows.height_lt (h : Follows s L) : ∀ b ∈ L, b.height < s.next := by
  intro b hb
  have hmem : b.height ∈ L.map Block.height := List.mem_map_of_mem hb
  rw [h.heights, List.mem_range'_1] at hmem
  rw [h.next]
  exact hmem.2

theorem Follows.entry_lt (h : Follows s L) :
    ∀ e ∈ s.recent.entries, e.1 < s.next := by
  intro e he
  have hmem : e.1 ∈ (content L).entries.map Prod.fst := List.mem_map_of_mem (h.recent.subset he)
  rw [content_heights] at hmem
  obtain ⟨b, hb, heq⟩ := List.mem_map.mp hmem
  exact heq ▸ h.height_lt b hb

variable {p : Block}

theorem Follows.recent_concat (h : Follows s (L ++ [p])) :
    ∃ older, s.recent.entries = older ++ [(p.height,
        ⟨p.hash, p.time, exactDust (unseen (keys (content L).outputs) ∅ p.found)⟩)] ∧
      older <:+ (content L).entries := by
  have hsuffix := h.recent
  rw [content_concat] at hsuffix
  rcases List.suffix_concat_iff.mp hsuffix with hnil | ⟨older, heq, holder⟩
  · exact absurd hnil (h.held (by simp))
  · exact ⟨older, heq, holder⟩

theorem heights_concat {birthday : Nat}
    (h : (L ++ [p]).map Block.height = List.range' birthday (L ++ [p]).length) :
    L.map Block.height = List.range' birthday L.length ∧ p.height = birthday + L.length := by
  rw [List.map_append, List.length_append, List.length_singleton, List.range'_concat, one_mul] at h
  obtain ⟨hL, hp⟩ := List.append_inj' h rfl
  exact ⟨hL, by simpa using hp⟩

theorem Follows.displaced_concat {b : Block} (h : Follows s (L ++ [p])) (hb : b.height = s.next) :
    s.displaced b = decide (p.hash ≠ b.previous) := by
  obtain ⟨older, heq, -⟩ := h.recent_concat
  have hp : b.height = p.height + 1 := by
    rw [hb, h.next, (heights_concat h.heights).2, List.length_append, List.length_singleton, Nat.add_assoc]
  have hget : s.recent.get? p.height =
      some ⟨p.hash, p.time, exactDust (unseen (keys (content L).outputs) ∅ p.found)⟩ := by
    rw [SortedMap.get?_eq_some, heq]
    exact List.mem_append_right _ (List.mem_singleton.mpr rfl)
  simp [ScanState.displaced, hp, hget]

theorem Follows.displaced_nil {b : Block} (h : Follows s []) : s.displaced b = false := by
  have hentries : s.recent.entries = [] := List.suffix_nil.mp h.recent
  simp [ScanState.displaced, SortedMap.get?, hentries]

theorem keys_append (a b : List Received) : keys (a ++ b) = keys a ∪ keys b := by
  rw [keys, List.map_append, List.toFinset_append]
  rfl

theorem ScanState.recent_record {b : Block} (h : ∀ e ∈ s.recent.entries, e.1 < b.height) (new : List Received)
    (dust : Dust) :
    (s.record b new dust).recent.entries <:+ s.recent.entries ++ [(b.height, ⟨b.hash, b.time, dust⟩)] ∧
      (s.record b new dust).recent.entries ≠ [] := by
  simp only [record, SortedMap.keepLast, SortedMap.insert, insertEntry_of_lt h]
  refine ⟨List.drop_suffix _ _, ?_⟩
  rw [Ne, List.drop_eq_nil_iff, List.length_append, List.length_singleton, recentBlocks]
  omega

theorem Follows.record {b : Block} (h : Follows s L) (hb : b.height = s.next)
    (hdisplaced : s.displaced b = false) (hhonest : b.Honest) (hlast : b.height + 1 < 2 ^ 64)
    (hroom : (content (L ++ [b])).outputs.length ≤ maxOutputs)
    (hdust : (dustOf (content (L ++ [b])).entries).Fits) :
    Follows (s.record b ((unseen s.seen ∅ b.found).filter fun r => !isDust r) (countDust (unseen s.seen ∅ b.found)))
      (L ++ [b]) := by
  have hseen : s.seen = keys (content L).outputs := h.outputs ▸ h.seen
  obtain ⟨hfitsL, hfitsb⟩ := Dust.Fits.left (content_concat L b ▸ hdust)
  have hcount : countDust (unseen s.seen ∅ b.found) = exactDust (unseen (keys (content L).outputs) ∅ b.found) := by
    rw [hseen]
    exact countDust_eq (by simpa [dustOf] using hfitsb)
  have houtputs : s.outputs ++ ((unseen s.seen ∅ b.found).filter fun r => !isDust r) =
      (content (L ++ [b])).outputs := by
    rw [content_concat, h.outputs, hseen]
    rfl
  have hentries : ∀ e ∈ s.recent.entries, e.1 < b.height := hb ▸ h.entry_lt
  obtain ⟨hsuffix, hheld⟩ := ScanState.recent_record hentries
    ((unseen s.seen ∅ b.found).filter fun r => !isDust r) (countDust (unseen s.seen ∅ b.found))
  refine ⟨?_, hlast, ?_, ?_, ?_, houtputs, ?_, ?_, ?_, fun _ => hheld, ?_⟩
  · show b.height + 1 = s.birthday + (L ++ [b]).length
    rw [hb, h.next, List.length_append, List.length_singleton, Nat.add_assoc]
  · show (L ++ [b]).map Block.height = List.range' s.birthday (L ++ [b]).length
    rw [List.map_append, h.heights, List.length_append, List.length_singleton, List.range'_concat, one_mul,
      ← h.next, ← hb]
    rfl
  · rcases List.eq_nil_or_concat' L with rfl | ⟨L', p, rfl⟩
    · exact List.isChain_singleton _
    · rw [h.displaced_concat hb] at hdisplaced
      have hlink : p.hash = b.previous := by simpa using hdisplaced
      refine List.isChain_append.mpr ⟨h.linked, List.isChain_singleton _, ?_⟩
      simp [hlink]
  · exact List.forall_mem_append.mpr ⟨h.honest, fun c hc => List.mem_singleton.mp hc ▸ hhonest⟩
  · show s.seen ∪ _ = keys (s.outputs ++ _)
    rw [keys_append, h.seen]
  · show s.dust.add (countDust (unseen s.seen ∅ b.found)) = _
    have hdust' := hdust
    rw [content_concat] at hdust' ⊢
    simp only [Content.push, dustOf_append] at hdust' ⊢
    rw [hcount, h.dust, Dust.add_eq]
    · simp [dustOf]
    · simpa [dustOf] using hdust'
  · refine hsuffix.trans ?_
    rw [hcount, content_concat]
    exact List.suffix_concat_iff.mpr (.inr ⟨_, rfl, h.recent⟩)
  · show (s.outputs ++ _).length ≤ maxOutputs
    rw [houtputs]
    exact hroom

theorem content_new_height (h : p.Honest) :
    ∀ r ∈ (unseen (keys (content L).outputs) ∅ p.found).filter fun r => !isDust r, r.height = p.height :=
  fun r hr => h r ((unseen_spec _ _ _).1 r (List.mem_of_mem_filter hr)).1

theorem Follows.retained (h : Follows s (L ++ [p])) :
    (s.outputs.filter fun r => r.height < p.height) = (content L).outputs ∧
      s.seen \ keys (s.outputs.filter fun r => !(r.height < p.height)) = keys (content L).outputs := by
  have hp : p.Honest := h.honest p (List.mem_append_right _ (List.mem_singleton.mpr rfl))
  have hold : ∀ r ∈ (content L).outputs, r.height < p.height := by
    intro r hr
    obtain ⟨b, hb, heq⟩ := content_outputs_height (fun b hb => h.honest b (List.mem_append_left _ hb)) r hr
    have hin : b.height ∈ L.map Block.height := List.mem_map_of_mem hb
    rw [(heights_concat h.heights).1, List.mem_range'_1] at hin
    rw [heq, (heights_concat h.heights).2]
    exact hin.2
  have hnew := content_new_height (L := L) hp
  have hsplit : s.outputs = (content L).outputs ++
      ((unseen (keys (content L).outputs) ∅ p.found).filter fun r => !isDust r) := by
    rw [h.outputs, content_concat]
    rfl
  have hkeep : (s.outputs.filter fun r => decide (r.height < p.height)) = (content L).outputs := by
    rw [hsplit, List.filter_append, List.filter_eq_self.mpr (by simpa using hold),
      List.filter_eq_nil_iff.mpr (by intro r hr; simp [hnew r hr]), List.append_nil]
  have hdrop : (s.outputs.filter fun r => !decide (r.height < p.height)) =
      (unseen (keys (content L).outputs) ∅ p.found).filter fun r => !isDust r := by
    rw [hsplit, List.filter_append, List.filter_eq_nil_iff.mpr (by simpa using hold), List.nil_append,
      List.filter_eq_self.mpr (by intro r hr; simp [hnew r hr])]
  refine ⟨hkeep, ?_⟩
  rw [hdrop, h.seen, hsplit, keys_append, Finset.union_sdiff_cancel_right]
  rw [Finset.disjoint_left]
  intro k hk hk'
  obtain ⟨r, hr, rfl⟩ := List.mem_map.mp (List.mem_toFinset.mp hk')
  exact ((unseen_spec _ _ _).1 r (List.mem_of_mem_filter hr)).2.1 hk

theorem Follows.rewind (h : Follows s (L ++ [p])) :
    (s.rewind = ScanState.new s.address s.birthday) ∨
      (Follows s.rewind L ∧ s.rewind.next ≠ s.rewind.birthday ∧ s.rewind.birthday = s.birthday) := by
  obtain ⟨older, heq, holder⟩ := h.recent_concat
  have hpop : s.recent.popLast = some ((p.height,
      ⟨p.hash, p.time, exactDust (unseen (keys (content L).outputs) ∅ p.found)⟩),
      ⟨older, by have := s.recent.ascending; rw [heq] at this; exact this.sublist (List.sublist_append_left _ _)⟩) := by
    simp [SortedMap.popLast, heq]
  simp only [ScanState.rewind, hpop]
  by_cases hnil : older = []
  · exact .inl (if_pos hnil)
  · rw [if_neg hnil]
    refine .inr ⟨?_, ?_, rfl⟩
    · obtain ⟨hkeep, hseen⟩ := h.retained
      have hdust := h.dust
      rw [content_concat] at hdust
      simp only [Content.push, dustOf_append] at hdust
      refine ⟨(heights_concat h.heights).2, ?_, (heights_concat h.heights).1, h.linked.left_of_append,
        fun b hb => h.honest b (List.mem_append_left _ hb), hkeep, ?_, ?_, holder, fun _ => hnil, ?_⟩
      · exact (h.height_lt p (by simp)).trans h.bound
      · show s.seen \ _ = keys (s.outputs.filter _)
        rw [hseen, hkeep]
      · show Dust.mk (s.dust.count - _) (s.dust.total - _) = _
        rw [hdust]
        simp [dustOf]
      · exact (List.length_filter_le _ _).trans h.room
    · show p.height ≠ s.birthday
      rw [(heights_concat h.heights).2]
      have hL : L ≠ [] := by
        rintro rfl
        exact hnil (List.suffix_nil.mp holder)
      have := List.length_pos_iff.mpr hL
      omega

theorem ScanState.apply_cases {s' : ScanState} {b : Block} {step : Step} (h : s.apply b = some (s', step)) :
    (s' = s ∧ (step = .outOfOrder ∨ step = .full)) ∨
      (b.height = s.next ∧ s.displaced b = true ∧ s' = s.rewind ∧ step = .reorg) ∨
      (b.height = s.next ∧ s.displaced b = false ∧ b.height + 1 ≠ 2 ^ 64 ∧
        s.outputs.length + ((unseen s.seen ∅ b.found).filter fun r => !isDust r).length ≤ maxOutputs ∧
        s' = s.record b ((unseen s.seen ∅ b.found).filter fun r => !isDust r) (countDust (unseen s.seen ∅ b.found)) ∧
        step = .applied ((unseen s.seen ∅ b.found).filter fun r => !isDust r)) := by
  simp only [apply] at h
  split_ifs at h with hheight hdisplaced hfull hlast
  · cases h
    exact .inl ⟨rfl, .inl rfl⟩
  · cases h
    exact .inr (.inl ⟨not_not.mp hheight, hdisplaced, rfl, rfl⟩)
  · cases h
    exact .inl ⟨rfl, .inr rfl⟩
  · cases h
    exact .inr (.inr ⟨not_not.mp hheight, by simpa using hdisplaced, hlast, not_lt.mp hfull, rfl, rfl⟩)

theorem ScanState.rewind_frame (s : ScanState) : s.rewind.address = s.address ∧ s.rewind.birthday = s.birthday := by
  rw [rewind]
  split
  · exact ⟨rfl, rfl⟩
  · split_ifs
    all_goals exact ⟨rfl, rfl⟩

theorem ScanState.apply_frame {s' : ScanState} {b : Block} {step : Step} (h : s.apply b = some (s', step)) :
    s'.address = s.address ∧ s'.birthday = s.birthday := by
  rcases apply_cases h with ⟨rfl, -⟩ | ⟨-, -, rfl, -⟩ | ⟨-, -, -, -, rfl, -⟩
  · exact ⟨rfl, rfl⟩
  · exact s.rewind_frame
  · exact ⟨rfl, rfl⟩

theorem Follows.step {s' : ScanState} {b : Block} {step : Step} (h : Follows s L) (hb : b.Honest)
    (happly : s.apply b = some (s', step)) (hdust : (dustOf (content (standing L b s' step)).entries).Fits) :
    Follows s' (standing L b s' step) := by
  rcases ScanState.apply_cases happly with ⟨rfl, rfl | rfl⟩ | ⟨hheight, hdisplaced, rfl, rfl⟩ |
    ⟨hheight, hdisplaced, hlast, hroom, rfl, rfl⟩
  · exact h
  · exact h
  · rcases List.eq_nil_or_concat' L with rfl | ⟨L', p, rfl⟩
    · exact absurd (h.displaced_nil ▸ hdisplaced) (by simp)
    · have hbirthday : s.birthday < 2 ^ 64 := (Nat.le_add_right _ _).trans_lt (h.next ▸ h.bound)
      rcases h.rewind with hnew | ⟨hfollows, hnext, -⟩
      · have hrestart : standing (L' ++ [p]) b s.rewind .reorg = [] := by
          rw [hnew]
          exact if_pos rfl
        rw [hrestart, hnew]
        exact follows_new _ hbirthday
      · have hdrop : standing (L' ++ [p]) b s.rewind .reorg = L' := by
          rw [standing, if_neg hnext, List.dropLast_concat]
        rw [hdrop]
        exact hfollows
  · have hlt : b.height + 1 < 2 ^ 64 := by
      have := h.bound
      omega
    refine h.record hheight hdisplaced hb hlt ?_ hdust
    rw [content_concat, ← List.length_append] at *
    have hseen : s.seen = keys (content L).outputs := h.outputs ▸ h.seen
    rwa [h.outputs, hseen] at hroom

theorem replay_concat (s : ScanState) (L : List Block) (b : Block) :
    replay s (L ++ [b]) = (replay s L).bind fun t => replay t [b] := by
  induction L generalizing s with
  | nil => rfl
  | cons c L ih =>
    simp only [List.cons_append, replay]
    split
    · rename_i s' new happly
      exact ih s'
    · rfl

theorem exists_replay (address : String) {birthday : Nat} (hbound : birthday + L.length < 2 ^ 64)
    (hheights : L.map Block.height = List.range' birthday L.length)
    (hlinked : L.IsChain fun p b => b.previous = p.hash) (hhonest : ∀ b ∈ L, b.Honest)
    (hroom : (content L).outputs.length ≤ maxOutputs) (hdust : (dustOf (content L).entries).Fits) :
    ∃ t, replay (ScanState.new address birthday) L = some t ∧ Follows t L ∧ t.birthday = birthday := by
  induction L using List.reverseRecOn with
  | nil => exact ⟨_, rfl, follows_new address hbound, rfl⟩
  | append_singleton L b ih =>
    rw [List.length_append, List.length_singleton] at hbound
    have hroomL : (content L).outputs.length ≤ maxOutputs := by
      rw [content_concat] at hroom
      simp only [Content.push, List.length_append] at hroom
      omega
    obtain ⟨t, hreplay, hfollows, rfl⟩ := ih (by omega) (heights_concat hheights).1 hlinked.left_of_append
      (fun c hc => hhonest c (List.mem_append_left _ hc)) hroomL (Dust.Fits.left (content_concat L b ▸ hdust)).1
    have hheight : b.height = t.next := (heights_concat hheights).2.trans hfollows.next.symm
    have hlast : b.height + 1 < 2 ^ 64 := by
      rw [(heights_concat hheights).2]
      omega
    have hdisplaced : t.displaced b = false := by
      rcases List.eq_nil_or_concat' L with rfl | ⟨L', p, rfl⟩
      · exact hfollows.displaced_nil
      · have hlink := (List.isChain_append.mp hlinked).2.2 p (by simp) b (by simp)
        simp [hfollows.displaced_concat hheight, hlink]
    have hbrings : (content (L ++ [b])).outputs =
        t.outputs ++ ((unseen t.seen ∅ b.found).filter fun r => !isDust r) := by
      rw [content_concat, hfollows.outputs, hfollows.seen, hfollows.outputs]
      rfl
    have happly : t.apply b = some (t.record b ((unseen t.seen ∅ b.found).filter fun r => !isDust r)
        (countDust (unseen t.seen ∅ b.found)), .applied ((unseen t.seen ∅ b.found).filter fun r => !isDust r)) := by
      rw [ScanState.apply, if_neg (not_not.mpr hheight), if_neg (by simp [hdisplaced])]
      rw [if_neg (not_lt.mpr (by rw [← List.length_append, ← hbrings]; exact hroom)), if_neg hlast.ne]
    refine ⟨_, ?_, hfollows.record hheight hdisplaced (hhonest b (by simp)) hlast hroom hdust, rfl⟩
    rw [replay_concat, hreplay]
    simp only [Option.bind_some, replay, happly]

theorem scanStep_eq_some {cur : ScanState × List Block} {b : Block} {s' : ScanState} {L' : List Block} :
    scanStep cur b = some (s', L') ↔ ∃ step, cur.1.apply b = some (s', step) ∧ L' = standing cur.2 b s' step := by
  simp only [scanStep, Option.map_eq_some_iff, Prod.exists, Prod.mk.injEq]
  constructor
  · rintro ⟨s, step, h, rfl, rfl⟩
    exact ⟨step, h, rfl⟩
  · rintro ⟨step, h, rfl⟩
    exact ⟨s', step, h, rfl, rfl⟩

/-- The dust of the blocks that stand, at every point of the run, counts below `2 ^ 64`. -/
def DustFits (address : String) (birthday : Nat) (calls : List Block) : Prop :=
  ∀ done s L, done <+: calls → scan address birthday done = some (s, L) → (dustOf (content L).entries).Fits

theorem scan_follows (address : String) {birthday : Nat} (hbirthday : birthday < 2 ^ 64) {calls : List Block}
    (hhonest : ∀ b ∈ calls, b.Honest) (hdust : DustFits address birthday calls)
    (h : scan address birthday calls = some (s, L)) :
    Follows s L ∧ s.address = address ∧ s.birthday = birthday := by
  induction calls using List.reverseRecOn generalizing s L with
  | nil =>
    cases h
    exact ⟨follows_new address hbirthday, rfl, rfl⟩
  | append_singleton calls b ih =>
    have hlast := hdust _ _ _ List.prefix_rfl h
    rw [scan, List.foldlM_append] at h
    obtain ⟨⟨t, M⟩, hcalls, hb⟩ := Option.bind_eq_some_iff.mp h
    obtain ⟨hfollows, haddress, hbirth⟩ := ih (fun c hc => hhonest c (List.mem_append_left _ hc))
      (fun done u N hdone => hdust done u N (hdone.trans (List.prefix_append _ _))) hcalls
    obtain ⟨⟨t', M'⟩, hstep, hend⟩ := Option.bind_eq_some_iff.mp hb
    cases hend
    obtain ⟨step, happly, rfl⟩ := scanStep_eq_some.mp hstep
    obtain ⟨haddress', hbirth'⟩ := ScanState.apply_frame happly
    exact ⟨hfollows.step (hhonest b (by simp)) happly hlast, haddress'.trans haddress, hbirth'.trans hbirth⟩

theorem standing_length_le (L : List Block) (b : Block) (s : ScanState) (step : Step) :
    (standing L b s step).length ≤ L.length + 1 := by
  cases step with
  | applied new => simp [standing]
  | reorg =>
    rw [standing]
    split_ifs
    · simp
    · rw [List.length_dropLast]
      omega
  | outOfOrder | full => simp [standing]

theorem ScanState.apply_isSome (h : s.next + 1 < 2 ^ 64) (b : Block) : (s.apply b).isSome := by
  simp only [apply]
  split_ifs with hheight hdisplaced hfull hlast
  · rfl
  · rfl
  · rfl
  · exact absurd (not_not.mp hheight ▸ hlast) h.ne
  · rfl

theorem scan_isSome (address : String) {birthday : Nat} {calls : List Block}
    (hbound : birthday + calls.length < 2 ^ 64) (hhonest : ∀ b ∈ calls, b.Honest)
    (hdust : DustFits address birthday calls) :
    ∃ s L, scan address birthday calls = some (s, L) ∧ L.length ≤ calls.length := by
  induction calls using List.reverseRecOn with
  | nil => exact ⟨_, _, rfl, le_rfl⟩
  | append_singleton calls b ih =>
    rw [List.length_append, List.length_singleton] at hbound
    have hhonest' : ∀ c ∈ calls, c.Honest := fun c hc => hhonest c (List.mem_append_left _ hc)
    have hdust' : DustFits address birthday calls :=
      fun done u N hdone => hdust done u N (hdone.trans (List.prefix_append _ _))
    obtain ⟨s, L, hscan, hlen⟩ := ih (by omega) hhonest' hdust'
    obtain ⟨hfollows, -, rfl⟩ := scan_follows address (by omega) hhonest' hdust' hscan
    have hnext : s.next + 1 < 2 ^ 64 := by
      rw [hfollows.next]
      omega
    obtain ⟨⟨s', step⟩, happly⟩ := Option.isSome_iff_exists.mp (ScanState.apply_isSome hnext b)
    refine ⟨s', standing L b s' step, ?_, (standing_length_le L b s' step).trans ?_⟩
    · rw [scan, List.foldlM_append, ← scan, hscan]
      simp [scanStep, happly]
    · rw [List.length_append, List.length_singleton]
      omega

theorem Follows.getLast?_recent (h : Follows s L) :
    s.recent.entries.getLast? = (content L).entries.getLast? := by
  rcases List.eq_nil_or_concat' L with rfl | ⟨L', p, rfl⟩
  · rw [List.suffix_nil.mp h.recent]
    rfl
  · obtain ⟨older, heq, -⟩ := h.recent_concat
    rw [heq, content_concat]
    simp [Content.push]

/-- After any calls, what the purse holds is what a new state holds that applied the blocks that
stand, and these are one chain from the birthday on. -/
theorem scan_eq_fresh_scan (address : String) (birthday : Nat) (hbirthday : birthday < 2 ^ 64) (calls : List Block)
    (hhonest : ∀ b ∈ calls, b.Honest) (hdust : DustFits address birthday calls) (s : ScanState) (L : List Block)
    (h : scan address birthday calls = some (s, L)) :
    (s.next = birthday + L.length ∧ L.map Block.height = List.range' birthday L.length ∧
      L.IsChain fun p b => b.previous = p.hash) ∧
    (∃ t, replay (ScanState.new address birthday) L = some t ∧ s.outputs = t.outputs ∧ s.seen = t.seen ∧
      s.dust = t.dust ∧ s.next = t.next ∧ ∀ chainHeight, s.balance chainHeight = t.balance chainHeight) ∧
    s.seen = keys s.outputs ∧ (s.outputs.map Received.key).Nodup := by
  obtain ⟨hfollows, rfl, rfl⟩ := scan_follows address hbirthday hhonest hdust h
  have hfits := hdust _ _ _ List.prefix_rfl h
  obtain ⟨t, hreplay, hfresh, hbirth⟩ := exists_replay s.address (hfollows.next ▸ hfollows.bound) hfollows.heights
    hfollows.linked hfollows.honest (hfollows.outputs ▸ hfollows.room) hfits
  have houtputs : s.outputs = t.outputs := hfollows.outputs.trans hfresh.outputs.symm
  refine ⟨⟨hfollows.next, hfollows.heights, hfollows.linked⟩, ⟨t, hreplay, houtputs, ?_, ?_, ?_, ?_⟩,
    hfollows.seen, ?_⟩
  · rw [hfollows.seen, hfresh.seen, houtputs]
  · rw [hfollows.dust, hfresh.dust]
  · rw [hfollows.next, hfresh.next, hbirth]
  · intro chainHeight
    rw [ScanState.balance, ScanState.balance, houtputs, hfollows.getLast?_recent, hfresh.getLast?_recent]
  · rw [hfollows.outputs]
    exact content_keys_nodup L

def sampleHash (n : UInt8) : BlockHash := Vector.replicate 32 n

def sampleBlock (height : Nat) (hash previous key : UInt8) (amount : Nat) : Block :=
  ⟨height, sampleHash hash, sampleHash previous, 1000 + height,
    [⟨sampleHash key, amount, height, 1000 + height, sampleHash hash, 0, .none⟩]⟩

/-- The block at 8 is displaced, and its output comes back in the block that takes its place. -/
def sampleCalls : List Block :=
  [sampleBlock 7 1 0 11 200000000, sampleBlock 8 2 1 12 300000000, sampleBlock 9 4 3 13 5,
    sampleBlock 8 3 1 12 300000000, sampleBlock 9 4 3 13 5]

theorem scan_eq_fresh_scan_displaced :
    ∃ s L, scan "purse" 7 sampleCalls = some (s, L) ∧
      L = [sampleBlock 7 1 0 11 200000000, sampleBlock 8 3 1 12 300000000, sampleBlock 9 4 3 13 5] ∧
      (∃ t, replay (ScanState.new "purse" 7) L = some t ∧ s.outputs = t.outputs) ∧
      (s.outputs.map Received.key).Nodup := by
  have hhonest : ∀ b ∈ sampleCalls, b.Honest := by
    simp only [Block.Honest]
    decide +kernel
  have hfits : ∀ done ∈ sampleCalls.inits, ∀ cur ∈ scan "purse" 7 done,
      (dustOf (content cur.2).entries).count < 2 ^ 64 ∧ (dustOf (content cur.2).entries).total < 2 ^ 64 := by
    decide +kernel
  have hdust : DustFits "purse" 7 sampleCalls :=
    fun done s L hdone hscan => hfits done ((List.mem_inits _ _).mpr hdone) (s, L) hscan
  obtain ⟨⟨s, L⟩, hscan⟩ := Option.isSome_iff_exists.mp
    (show (scan "purse" 7 sampleCalls).isSome by decide +kernel)
  obtain ⟨-, ⟨t, hreplay, houtputs, -⟩, -, hnodup⟩ :=
    scan_eq_fresh_scan "purse" 7 (by decide) sampleCalls hhonest hdust s L hscan
  have hL : (scan "purse" 7 sampleCalls).map Prod.snd =
      some [sampleBlock 7 1 0 11 200000000, sampleBlock 8 3 1 12 300000000, sampleBlock 9 4 3 13 5] := by
    decide +kernel
  rw [hscan] at hL
  exact ⟨s, L, hscan, Option.some.inj hL, ⟨t, hreplay, houtputs⟩, hnodup⟩

end Molt.Treasury
