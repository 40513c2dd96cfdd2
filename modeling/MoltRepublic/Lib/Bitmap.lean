import Mathlib

/-! A set of offsets as a row of 64-bit words, lowest bit first: reading, marking and sliding
the row, word by word, are what they are on offsets. A word that is not there reads as zero. -/

namespace Molt.Bitmap
open List

abbrev Words := List (BitVec 64)

def word (words : Words) (w : Nat) : BitVec 64 := (words[w]?).getD 0

def bitAt (words : Words) (offset : Nat) : Bool := (word words (offset / 64)).getLsbD (offset % 64)

/-- The row made at least `count` words long. -/
def grow (count : Nat) (words : Words) : Words :=
  if words.length < count then words ++ List.replicate (count - words.length) 0 else words

def mark (words : Words) (offset : Nat) : Words :=
  words.modify (offset / 64) fun word => word ||| 1#64 <<< (offset % 64)

/-- Word `w` of the row slid up by `step` offsets, put together from the two words it comes from. -/
def slidWord (words : Words) (step w : Nat) : BitVec 64 :=
  let lower := if step / 64 ≤ w then word words (w - step / 64) else 0
  let carry := if 0 < step % 64 ∧ step / 64 < w then word words (w - step / 64 - 1) >>> (64 - step % 64) else 0
  if 0 < step % 64 then lower <<< (step % 64) ||| carry else lower

/-- The first `count` words slid up in their place, the highest first. -/
def slide (count : Nat) (words : Words) (step : Nat) : Words :=
  (List.range count).reverse.foldl (fun words w => words.set w (slidWord words step w)) words

variable (count : Nat)

theorem word_grow (words : Words) (w : Nat) : word (grow count words) w = word words w := by
  unfold grow
  split_ifs with hshort
  · unfold word
    by_cases hw : w < words.length
    · rw [getElem?_append_left hw]
    · rw [getElem?_append_right (Nat.not_lt.mp hw), getElem?_eq_none (Nat.not_lt.mp hw),
        getElem?_replicate]
      split_ifs <;> rfl
  · rfl

theorem bitAt_grow (words : Words) (offset : Nat) :
    bitAt (grow count words) offset = bitAt words offset := by
  unfold bitAt
  rw [word_grow]

theorem length_grow (words : Words) : count ≤ (grow count words).length := by
  unfold grow
  split_ifs with hshort
  · rw [length_append, length_replicate]
    omega
  · omega

variable {words : Words}

theorem bitAt_mark {offset : Nat} (hin : offset / 64 < words.length) (o : Nat) :
    bitAt (mark words offset) o = (decide (o = offset) || bitAt words o) := by
  have hobit : o % 64 < 64 := Nat.mod_lt _ (by decide)
  have hword : word (mark words offset) (o / 64) = if offset / 64 = o / 64
      then word words (o / 64) ||| 1#64 <<< (offset % 64) else word words (o / 64) := by
    unfold mark word
    rw [getElem?_modify]
    by_cases hw : offset / 64 = o / 64
    · have hsome : words[o / 64]? = some words[o / 64] := getElem?_eq_getElem (hw ▸ hin)
      simp [hw, hsome]
    · simp [hw]
  unfold bitAt
  rw [hword]
  by_cases hw : offset / 64 = o / 64
  · rw [if_pos hw, BitVec.getLsbD_or, ← BitVec.twoPow_eq, BitVec.getLsbD_twoPow, Bool.or_comm]
    congr 1
    by_cases ho : o = offset
    · subst ho
      simp [hobit]
    · have hne : offset % 64 ≠ o % 64 := by omega
      simp [ho, hne]
  · have hne : o ≠ offset := by
      rintro rfl
      exact hw rfl
    rw [if_neg hw]
    simp [hne]

theorem bitAt_map_zero (words : Words) (o : Nat) : bitAt (words.map fun _ => 0) o = false := by
  unfold bitAt word
  rw [getElem?_map]
  cases words[o / 64]? <;> simp

theorem getLsbD_slidWord (words : Words) (step w r : Nat) (hr : r < 64) :
    (slidWord words step w).getLsbD r =
      (decide (step ≤ 64 * w + r) && bitAt words (64 * w + r - step)) := by
  have hb : step % 64 < 64 := Nat.mod_lt _ (by decide)
  have hsplit : step = 64 * (step / 64) + step % 64 := (Nat.div_add_mod _ _).symm
  generalize hq : step / 64 = q at hsplit
  generalize hb' : step % 64 = b at hsplit hb
  unfold slidWord
  rw [hq, hb']
  by_cases hzero : 0 < b
  · rw [if_pos hzero, BitVec.getLsbD_or, BitVec.getLsbD_shiftLeft]
    by_cases hrb : r < b
    · -- the bit comes over from the word below
      by_cases hqw : q < w
      · have hword : (64 * w + r - step) / 64 = w - q - 1 := by omega
        have hbit : (64 * w + r - step) % 64 = 64 - b + r := by omega
        have hcarry : 0 < b ∧ q < w := ⟨hzero, hqw⟩
        unfold bitAt
        rw [hword, hbit, decide_eq_true (show step ≤ 64 * w + r by omega)]
        simp [hrb, hr, hcarry]
      · have hnot : ¬ step ≤ 64 * w + r := by omega
        have hcarry : ¬ (0 < b ∧ q < w) := fun h => hqw h.2
        rw [if_neg hcarry]
        simp [hrb, hnot]
    · have hcarry : (if 0 < b ∧ q < w then word words (w - q - 1) >>> (64 - b) else 0).getLsbD r = false := by
        split_ifs
        · rw [BitVec.getLsbD_ushiftRight]
          exact BitVec.getLsbD_of_ge _ _ (by omega)
        · simp
      rw [hcarry, Bool.or_false]
      by_cases hqw : q ≤ w
      · have hword : (64 * w + r - step) / 64 = w - q := by omega
        have hbit : (64 * w + r - step) % 64 = r - b := by omega
        rw [if_pos hqw]
        unfold bitAt
        rw [hword, hbit, decide_eq_true (show step ≤ 64 * w + r by omega)]
        simp [hrb, hr]
      · have hnot : ¬ step ≤ 64 * w + r := by omega
        rw [if_neg hqw]
        simp [hnot]
  · rw [if_neg hzero]
    by_cases hqw : q ≤ w
    · have hword : (64 * w + r - step) / 64 = w - q := by omega
      have hbit : (64 * w + r - step) % 64 = r := by omega
      rw [if_pos hqw]
      unfold bitAt
      rw [hword, hbit, decide_eq_true (show step ≤ 64 * w + r by omega), Bool.true_and]
    · have hnot : ¬ step ≤ 64 * w + r := by omega
      rw [if_neg hqw]
      simp [hnot]

theorem word_set {w : Nat} (hw : w < words.length) (value : BitVec 64) (v : Nat) :
    word (words.set w value) v = if v = w then value else word words v := by
  unfold word
  by_cases hv : v = w
  · rw [if_pos hv, hv, getElem?_set_self hw]
    rfl
  · rw [if_neg hv, getElem?_set_ne (Ne.symm hv)]

-- a word is put together from words at or below it, which a downward pass has not reached yet
theorem word_slide {count : Nat} (hlong : count ≤ words.length) (step v : Nat) :
    word (slide count words step) v = if v < count then slidWord words step v else word words v := by
  induction count generalizing words with
  | zero => rfl
  | succ count ih =>
    have hcount : count < words.length := hlong
    have hset : count ≤ (words.set count (slidWord words step count)).length := by
      rw [length_set]
      exact Nat.le_of_lt hcount
    have hrest := ih hset
    have hslide : slide (count + 1) words step =
        slide count (words.set count (slidWord words step count)) step := by
      unfold slide
      rw [range_succ, reverse_append, reverse_singleton, singleton_append, foldl_cons]
    rw [hslide, hrest, word_set hcount]
    by_cases hv : v < count
    · have hbelow : ∀ u, u ≤ v → word (words.set count (slidWord words step count)) u = word words u := by
        intro u hu
        rw [word_set hcount, if_neg (by omega)]
      rw [if_pos hv, if_pos (by omega)]
      generalize words.set count (slidWord words step count) = changed at hbelow
      unfold slidWord
      rw [hbelow _ (Nat.sub_le _ _), hbelow _ (Nat.le_trans (Nat.sub_le _ _) (Nat.sub_le _ _))]
    · rw [if_neg hv]
      by_cases heq : v = count
      · rw [if_pos heq, if_pos (by omega), heq]
      · rw [if_neg heq, if_neg (by omega)]

theorem bitAt_slide {count : Nat} (hlong : count ≤ words.length) (step : Nat) {o : Nat} (ho : o / 64 < count) :
    bitAt (slide count words step) o = (decide (step ≤ o) && bitAt words (o - step)) := by
  have hr : o % 64 < 64 := Nat.mod_lt _ (by decide)
  rw [bitAt, word_slide hlong, if_pos ho, getLsbD_slidWord words step _ _ hr, Nat.div_add_mod]

theorem mask_bit (value : BitVec 64) {offset : Nat} (h : offset < 64) :
    (value &&& 1#64 <<< offset != 0#64) = value.getLsbD offset := by
  have hne : BitVec.twoPow 64 offset ≠ 0#64 := by
    intro hzero
    have hbit := congrArg (fun v => v.getLsbD offset) hzero
    simp [h] at hbit
  rw [← BitVec.twoPow_eq, BitVec.and_twoPow]
  cases hbit : value.getLsbD offset <;> simp [hne]

end Molt.Bitmap
