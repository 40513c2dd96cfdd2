import Mathlib
import MoltRepublic.Lib.Bitmap

/-! The accept window (`molt-core`): the highest accepted seq of a sender and, in a row of
bits, which of the 1024 seqs right below it were accepted. What lies below the row has aged
out and reads as accepted. -/

namespace Molt.Net
open List

def acceptWindowBits : Nat := 1024

def acceptWindowWords : Nat := 16

structure AcceptedWindow where
  high : Nat
  bits : Bitmap.Words
  deriving DecidableEq

namespace AcceptedWindow

open Bitmap

def default : AcceptedWindow := ⟨0, []⟩

def isAccepted (win : AcceptedWindow) (seq : Nat) : Bool :=
  if win.high = 0 ∨ win.high < seq then false
  else if seq = win.high then true
  else
    let offset := win.high - 1 - seq
    if acceptWindowBits ≤ offset then true
    else (win.bits[offset / 64]?).any fun word => word &&& 1#64 <<< (offset % 64) != 0#64

def set (win : AcceptedWindow) (offset : Nat) : AcceptedWindow :=
  { win with bits := mark (grow acceptWindowWords win.bits) offset }

def shiftUp (win : AcceptedWindow) (step : Nat) : AcceptedWindow :=
  let bits := grow acceptWindowWords win.bits
  if acceptWindowBits ≤ step then { win with bits := bits.map fun _ => 0 }
  else { win with bits := slide acceptWindowWords bits step }

/-- `accept`: whether the seq is fresh, and the window with it marked. -/
def accept (win : AcceptedWindow) (seq : Nat) : Bool × AcceptedWindow :=
  if seq = 0 || win.isAccepted seq then (false, win)
  else if win.high < seq then
    let step := seq - win.high
    let slid := win.shiftUp step
    let marked := if 0 < slid.high ∧ step ≤ acceptWindowBits then slid.set (step - 1) else slid
    (true, { marked with high := seq })
  else (true, win.set (win.high - 1 - seq))

/-- What the window knows of the seqs it took: the highest of them, and every seq but those
too far below it. -/
structure Tracks (win : AcceptedWindow) (taken : List Nat) : Prop where
  positive : ∀ seq ∈ taken, 0 < seq
  below : ∀ seq ∈ taken, seq ≤ win.high
  high : win.high = 0 ∨ win.high ∈ taken
  bit : ∀ offset < acceptWindowBits, offset < win.high →
    (bitAt win.bits offset = true ↔ win.high - 1 - offset ∈ taken)

theorem tracks_default : Tracks default [] where
  positive := by simp
  below := by simp
  high := .inl rfl
  bit := fun offset _ h => absurd h (Nat.not_lt_zero offset)

variable {seq : Nat}

theorem isAccepted_eq (win : AcceptedWindow) (hlt : seq < win.high)
    (hin : win.high - 1 - seq < acceptWindowBits) :
    win.isAccepted seq = bitAt win.bits (win.high - 1 - seq) := by
  unfold isAccepted bitAt word
  rw [if_neg (by omega), if_neg (Nat.ne_of_lt hlt)]
  rw [if_neg (Nat.not_le_of_lt hin)]
  cases win.bits[(win.high - 1 - seq) / 64]? with
  | none => simp
  | some value => exact mask_bit value (Nat.mod_lt _ (by decide))

variable {win : AcceptedWindow} {taken : List Nat}

theorem Tracks.isAccepted_iff (h : Tracks win taken) (hseq : 0 < seq) :
    win.isAccepted seq = true ↔ seq ∈ taken ∨ seq + acceptWindowBits < win.high := by
  rcases Nat.lt_trichotomy seq win.high with hlt | heq | hgt
  · by_cases hin : win.high - 1 - seq < acceptWindowBits
    · have hback : win.high - 1 - (win.high - 1 - seq) = seq := by omega
      rw [isAccepted_eq win hlt hin, h.bit _ hin (by omega), hback]
      constructor
      · exact .inl
      · rintro (hmem | hold)
        · exact hmem
        · omega
    · have haged : win.isAccepted seq = true := by
        unfold isAccepted
        rw [if_neg (by omega), if_neg (Nat.ne_of_lt hlt)]
        exact if_pos (Nat.not_lt.mp hin)
      have hold : seq + acceptWindowBits < win.high := by omega
      exact ⟨fun _ => .inr hold, fun _ => haged⟩
  · have hmem : win.high ∈ taken := by
      rcases h.high with hzero | hmem
      · omega
      · exact hmem
    have hne : win.high ≠ 0 := by omega
    subst heq
    simp [isAccepted, hne, hmem]
  · have hnot : seq ∉ taken := fun hmem => absurd (h.below seq hmem) (Nat.not_le_of_lt hgt)
    have hyoung : ¬ seq + acceptWindowBits < win.high := by omega
    simp [isAccepted, hgt, hnot, hyoung]

theorem bitAt_set (win : AcceptedWindow) {offset : Nat} (hin : offset < acceptWindowBits) (o : Nat) :
    bitAt (win.set offset).bits o = (decide (o = offset) || bitAt win.bits o) := by
  have hwords : acceptWindowBits = 64 * acceptWindowWords := rfl
  have hlong := length_grow acceptWindowWords win.bits
  unfold set
  rw [bitAt_mark (by omega), bitAt_grow]

theorem bitAt_shiftUp (win : AcceptedWindow) (step : Nat) {o : Nat} (ho : o < acceptWindowBits) :
    bitAt (win.shiftUp step).bits o = (decide (step ≤ o) && bitAt win.bits (o - step)) := by
  have hwords : acceptWindowBits = 64 * acceptWindowWords := rfl
  unfold shiftUp
  split_ifs with hfar
  · have hnot : ¬ step ≤ o := by omega
    rw [decide_eq_false hnot, Bool.false_and]
    exact bitAt_map_zero _ _
  · rw [bitAt_slide (length_grow _ _) step (by omega), bitAt_grow]

theorem shiftUp_high (win : AcceptedWindow) (step : Nat) : (win.shiftUp step).high = win.high := by
  unfold shiftUp
  split_ifs <;> rfl

theorem accept_fresh_iff (h : Tracks win taken) (hseq : 0 < seq) :
    (win.accept seq).1 = true ↔ seq ∉ taken ∧ ¬ seq + acceptWindowBits < win.high := by
  have hne : seq ≠ 0 := Nat.pos_iff_ne_zero.mp hseq
  rw [← not_or, ← h.isAccepted_iff hseq]
  unfold accept
  cases hold : win.isAccepted seq with
  | true => simp
  | false =>
    rw [if_neg (by simp [hne])]
    split_ifs <;> simp

theorem accept_stale (hstale : (win.accept seq).1 = false) :
    (win.accept seq).2 = win := by
  unfold accept at hstale ⊢
  split_ifs at hstale ⊢
  rfl

theorem Tracks.raise (h : Tracks win taken) (hhigh : win.high < seq) :
    Tracks (win.accept seq).2 (taken ++ [seq]) := by
  have hfresh : ¬ ((decide (seq = 0) || win.isAccepted seq) = true) := by
    have hne : seq ≠ 0 := by omega
    simp [isAccepted, hhigh, hne]
  have hwindow : (win.accept seq).2 =
      { (if 0 < win.high ∧ seq - win.high ≤ acceptWindowBits
          then (win.shiftUp (seq - win.high)).set (seq - win.high - 1)
          else win.shiftUp (seq - win.high)) with high := seq } := by
    unfold accept
    rw [if_neg hfresh, if_pos hhigh]
    dsimp only
    rw [shiftUp_high]
  rw [hwindow]
  refine ⟨fun x hx => ?_, ?_, .inr (by simp), fun o ho hlt => ?_⟩
  · rcases mem_append.mp hx with hx | hx
    · exact h.positive x hx
    · rw [mem_singleton.mp hx]
      omega
  · exact forall_mem_append.mpr ⟨fun x hx => Nat.le_of_lt (Nat.lt_of_le_of_lt (h.below x hx) hhigh),
      fun x hx => Nat.le_of_eq (mem_singleton.mp hx)⟩
  · have hlt' : o < seq := hlt
    have hother : seq - 1 - o ≠ seq := by omega
    have hmem : seq - 1 - o ∈ taken ++ [seq] ↔ seq - 1 - o ∈ taken := by simp [hother]
    rw [hmem]
    -- the old highest seq is right below the marks that moved up, and above it there is none
    rcases Nat.lt_trichotomy o (seq - win.high - 1) with hgap | htop | hmoved
    · have habove : seq - 1 - o ∉ taken := fun hin => by
        have hle := h.below _ hin
        omega
      have hnot : ¬ seq - win.high ≤ o := by omega
      have hslid : bitAt (win.shiftUp (seq - win.high)).bits o = false := by
        rw [bitAt_shiftUp win _ ho, decide_eq_false hnot, Bool.false_and]
      have hne : o ≠ seq - win.high - 1 := Nat.ne_of_lt hgap
      split_ifs with hmark
      · rw [bitAt_set _ (by omega), hslid]
        simp [hne, habove]
      · simp [hslid, habove]
    · have hback : seq - 1 - o = win.high := by omega
      rw [hback]
      by_cases hzero : 0 < win.high
      · have hhas : win.high ∈ taken := h.high.resolve_left (Nat.pos_iff_ne_zero.mp hzero)
        rw [if_pos ⟨hzero, by omega⟩, bitAt_set _ (by omega)]
        simp [htop, hhas]
      · have hnone : win.high ∉ taken := fun hin => hzero (h.positive _ hin)
        have hnot : ¬ seq - win.high ≤ o := by omega
        rw [if_neg fun hmark => hzero hmark.1, bitAt_shiftUp win _ ho, decide_eq_false hnot]
        simp [hnone]
    · have hback : win.high - 1 - (o - (seq - win.high)) = seq - 1 - o := by omega
      have hold := h.bit (o - (seq - win.high)) (by omega) (by omega)
      rw [hback] at hold
      have hslid : bitAt (win.shiftUp (seq - win.high)).bits o = bitAt win.bits (o - (seq - win.high)) := by
        rw [bitAt_shiftUp win _ ho, decide_eq_true (show seq - win.high ≤ o by omega), Bool.true_and]
      have hne : o ≠ seq - win.high - 1 := Nat.ne_of_gt hmoved
      split_ifs with hmark
      · rw [bitAt_set _ (by omega), hslid, ← hold]
        simp [hne]
      · rw [hslid, hold]

theorem Tracks.fill (h : Tracks win taken) (hseq : 0 < seq) (hfresh : (win.accept seq).1 = true)
    (hlow : ¬ win.high < seq) :
    Tracks (win.accept seq).2 (taken ++ [seq]) := by
  obtain ⟨hnew, hyoung⟩ := (accept_fresh_iff h hseq).mp hfresh
  have hne : win.high ≠ seq := by
    rintro heq
    rcases h.high with hzero | hmem
    · omega
    · exact hnew (heq ▸ hmem)
  have hwindow : (win.accept seq).2 = win.set (win.high - 1 - seq) := by
    have haccepted : win.isAccepted seq = false := by
      rw [← Bool.not_eq_true, h.isAccepted_iff hseq]
      exact not_or.mpr ⟨hnew, hyoung⟩
    have hzero : seq ≠ 0 := Nat.pos_iff_ne_zero.mp hseq
    unfold accept
    rw [if_neg (by simp [haccepted, hzero]), if_neg hlow]
  rw [hwindow]
  refine ⟨?_, ?_, ?_, fun o ho hlt => ?_⟩
  · exact forall_mem_append.mpr ⟨h.positive, forall_mem_singleton.mpr hseq⟩
  · exact forall_mem_append.mpr ⟨h.below, forall_mem_singleton.mpr (Nat.not_lt.mp hlow)⟩
  · exact h.high.imp_right (mem_append_left _)
  · have hlt' : o < win.high := hlt
    show bitAt (win.set (win.high - 1 - seq)).bits o = true ↔ win.high - 1 - o ∈ taken ++ [seq]
    rw [bitAt_set _ (by omega), Bool.or_eq_true, h.bit o ho hlt', mem_append, mem_singleton,
      decide_eq_true_eq, or_comm]
    have hsame : o = win.high - 1 - seq ↔ win.high - 1 - o = seq := by omega
    rw [hsame]

theorem Tracks.accept (h : Tracks win taken) (hseq : 0 < seq) (hfresh : (win.accept seq).1 = true) :
    Tracks (win.accept seq).2 (taken ++ [seq]) := by
  by_cases hhigh : win.high < seq
  · exact h.raise hhigh
  · exact h.fill hseq hfresh hhigh

end AcceptedWindow

end Molt.Net
