import Mathlib
import MoltRepublic.Lib.Checked
import MoltRepublic.Net.Window

/-! The accept window in the machine words the code computes in: no difference falls below zero,
no word is shifted past its width and no index leaves the row, whatever seqs arrive. -/

namespace Molt.Net.AcceptedWindow
open Bitmap Checked List Option

section

def isAcceptedWords (win : AcceptedWindow) (seq : ℕ) : Option Bool :=
  if win.high = 0 ∨ win.high < seq then some false
  else if seq = win.high then some true
  else do
    let offset ← minus (← minus win.high 1) seq
    if acceptWindowBits ≤ offset then return true
    else
      match win.bits[offset / 64]? with
      | none => return false
      | some word => return word &&& (← shiftLeft 1#64 (offset % 64)) != 0#64

def setWords (win : AcceptedWindow) (offset : ℕ) : Option AcceptedWindow :=
  let bits := grow acceptWindowWords win.bits
  match bits[offset / 64]? with
  | none => some { win with bits := bits }
  | some word => do
    return { win with bits := bits.set (offset / 64) (word ||| (← shiftLeft 1#64 (offset % 64))) }

def shiftWord (words bits : ℕ) (row : Bitmap.Words) (w : ℕ) : Option Bitmap.Words := do
  let lower ← (if words ≤ w then do row[← minus w words]? else some 0)
  let carry ← (if 0 < bits ∧ words < w then do
      shiftRight (← row[← minus (← minus w words) 1]?) (← minus 64 bits)
    else some 0)
  let value ← (if 0 < bits then (shiftLeft lower bits).map (· ||| carry) else some lower)
  if w < row.length then return row.set w value else none

def shiftUpWords (win : AcceptedWindow) (step : ℕ) : Option AcceptedWindow :=
  let bits := grow acceptWindowWords win.bits
  if acceptWindowBits ≤ step then some { win with bits := bits.map fun _ => 0 }
  else do
    return { win with bits := ← (List.range acceptWindowWords).reverse.foldlM (shiftWord (step / 64) (step % 64)) bits }

def acceptWords (win : AcceptedWindow) (seq : ℕ) : Option (Bool × AcceptedWindow) := do
  if seq = 0 then return (false, win)
  else if ← win.isAcceptedWords seq then return (false, win)
  else if win.high < seq then
    let step ← minus seq win.high
    let slid ← win.shiftUpWords step
    let marked ← (if 0 < slid.high ∧ step ≤ acceptWindowBits then do slid.setWords (← minus step 1) else some slid)
    return (true, { marked with high := seq })
  else return (true, ← win.setWords (← minus (← minus win.high 1) seq))

variable (win : AcceptedWindow)

theorem isAcceptedWords_eq (seq : ℕ) : win.isAcceptedWords seq = some (win.isAccepted seq) := by
  unfold isAcceptedWords isAccepted
  split_ifs with hempty htop
  · rfl
  · rfl
  · have hbelow : seq ≤ win.high - 1 := by omega
    have hbit : (win.high - 1 - seq) % 64 < 64 := Nat.mod_lt _ (by decide)
    rw [minus_eq (show 1 ≤ win.high by omega), bind_eq_bind, bind_some, minus_eq hbelow]
    dsimp only [bind_eq_bind, bind_some]
    split_ifs with hold
    · rfl
    · cases win.bits[(win.high - 1 - seq) / 64]? with
      | none => rfl
      | some word =>
        rw [shiftLeft_eq hbit]
        rfl

theorem setWords_eq (offset : ℕ) : win.setWords offset = some (win.set offset) := by
  have hbit : offset % 64 < 64 := Nat.mod_lt _ (by decide)
  unfold setWords set mark
  dsimp only
  rw [modify_eq_set_getElem?]
  cases (grow acceptWindowWords win.bits)[offset / 64]? with
  | none => rfl
  | some word =>
    rw [shiftLeft_eq hbit]
    rfl

theorem getElem?_eq_word {row : Bitmap.Words} {w : ℕ} (h : w < row.length) : row[w]? = some (word row w) := by
  unfold word
  rw [getElem?_eq_getElem h]
  rfl

theorem shiftWord_eq {row : Bitmap.Words} {step w : ℕ} (hw : w < row.length) :
    shiftWord (step / 64) (step % 64) row w = some (row.set w (slidWord row step w)) := by
  have hbits : step % 64 < 64 := Nat.mod_lt _ (by decide)
  have hlower : (if step / 64 ≤ w then do row[← minus w (step / 64)]? else some 0) =
      some (if step / 64 ≤ w then word row (w - step / 64) else 0) := by
    split_ifs with hle
    · rw [minus_eq hle]
      exact getElem?_eq_word (by omega)
    · rfl
  have hcarry : (if 0 < step % 64 ∧ step / 64 < w then do
        shiftRight (← row[← minus (← minus w (step / 64)) 1]?) (← minus 64 (step % 64)) else some 0) =
      some (if 0 < step % 64 ∧ step / 64 < w then word row (w - step / 64 - 1) >>> (64 - step % 64) else 0) := by
    split_ifs with hbelow
    · obtain ⟨hpos, hlt⟩ := hbelow
      dsimp only [bind_eq_bind]
      rw [minus_eq (Nat.le_of_lt hlt), bind_some, minus_eq (show 1 ≤ w - step / 64 by omega), bind_some,
        getElem?_eq_word (show w - step / 64 - 1 < row.length by omega), bind_some,
        minus_eq (Nat.le_of_lt hbits), bind_some]
      exact shiftRight_eq (by omega)
    · rfl
  unfold shiftWord slidWord
  rw [hlower, hcarry]
  dsimp only [bind_eq_bind, bind_some]
  by_cases hpos : 0 < step % 64
  · rw [if_pos hpos, if_pos hpos, shiftLeft_eq hbits, map_some, bind_some, if_pos hw]
    rfl
  · rw [if_neg hpos, if_neg hpos, bind_some, if_pos hw]
    rfl

theorem shiftUpWords_eq (step : ℕ) : win.shiftUpWords step = some (win.shiftUp step) := by
  have hpass : ∀ (order : List ℕ) (row : Bitmap.Words), (∀ w ∈ order, w < row.length) →
      order.foldlM (shiftWord (step / 64) (step % 64)) row =
        some (order.foldl (fun row w => row.set w (slidWord row step w)) row) := by
    intro order
    induction order with
    | nil => exact fun row _ => rfl
    | cons w order ih =>
      intro row hin
      rw [foldlM_cons, shiftWord_eq (hin w (.head _)), foldl_cons]
      refine ih _ fun v hv => ?_
      rw [length_set]
      exact hin v (.tail _ hv)
  have hlong := length_grow acceptWindowWords win.bits
  unfold shiftUpWords shiftUp slide
  dsimp only
  split_ifs with hfar
  · rfl
  · rw [hpass _ _ fun w hw => Nat.lt_of_lt_of_le (mem_range.mp (mem_reverse.mp hw)) hlong]
    rfl

theorem acceptWords_eq (seq : ℕ) : win.acceptWords seq = some (win.accept seq) := by
  unfold acceptWords accept
  rw [isAcceptedWords_eq]
  by_cases hzero : seq = 0
  · simp [hzero]
  rw [if_neg hzero]
  cases hold : win.isAccepted seq with
  | true => simp
  | false =>
    rw [if_neg (show ¬ ((decide (seq = 0) || false) = true) by simp [hzero])]
    dsimp only [bind_eq_bind, bind_some]
    rw [if_neg Bool.false_ne_true]
    by_cases hhigh : win.high < seq
    · rw [if_pos hhigh, if_pos hhigh, minus_eq (Nat.le_of_lt hhigh), bind_some, shiftUpWords_eq,
        bind_some]
      by_cases hmark : 0 < (win.shiftUp (seq - win.high)).high ∧ seq - win.high ≤ acceptWindowBits
      · rw [if_pos hmark, if_pos hmark, minus_eq (show 1 ≤ seq - win.high by omega), bind_some, setWords_eq,
          bind_some]
        rfl
      · rw [if_neg hmark, if_neg hmark]
        rfl
    · -- a seq that was not taken is not the highest one
      have hne : win.high ≠ seq := by
        rintro rfl
        simp [isAccepted, hzero] at hold
      have hlt : seq < win.high := by omega
      rw [if_neg hhigh, if_neg hhigh, minus_eq (show 1 ≤ win.high by omega), bind_some,
        minus_eq (show seq ≤ win.high - 1 by omega), bind_some, setWords_eq]
      rfl

end

section

structure Served where
  win : AcceptedWindow
  accepted : List ℕ
  deriving DecidableEq

def serve (served : Served) (seq : ℕ) : Option Served := do
  let (fresh, win) ← served.win.acceptWords seq
  return ⟨win, if fresh then served.accepted ++ [seq] else served.accepted⟩

def serveAll (seqs : List ℕ) : Option Served := seqs.foldlM serve ⟨default, []⟩

def highest (seqs : List ℕ) : ℕ := seqs.foldr max 0

theorem le_highest {seqs : List ℕ} {seq : ℕ} (h : seq ∈ seqs) : seq ≤ highest seqs := by
  induction seqs with
  | nil => cases h
  | cons first seqs ih =>
    rcases mem_cons.mp h with rfl | h
    · exact Nat.le_max_left ..
    · exact Nat.le_trans (ih h) (Nat.le_max_right ..)

theorem highest_le {seqs : List ℕ} {bound : ℕ} (h : ∀ seq ∈ seqs, seq ≤ bound) : highest seqs ≤ bound := by
  induction seqs with
  | nil => exact Nat.zero_le _
  | cons first seqs ih =>
    exact Nat.max_le.mpr ⟨h _ (.head _), ih fun seq hseq => h seq (.tail _ hseq)⟩

/-- A seq the window has yet to take: it is not below the row of marks, which ends 1024 seqs
under the one right below the highest. -/
def Fresh (taken : List ℕ) (seq : ℕ) : Prop :=
  0 < seq ∧ seq ∉ taken ∧
    (taken = [] ∨ highest taken < seq ∨ highest taken - 1 - seq < acceptWindowBits)

def Aged (taken : List ℕ) (seq : ℕ) : Prop := acceptWindowBits ≤ highest taken - 1 - seq

instance (taken : List ℕ) (seq : ℕ) : Decidable (Fresh taken seq) := by
  unfold Fresh
  infer_instance

instance (taken : List ℕ) (seq : ℕ) : Decidable (Aged taken seq) := by
  unfold Aged
  infer_instance

variable {win : AcceptedWindow} {taken : List ℕ}

theorem Tracks.highest_eq (h : Tracks win taken) : highest taken = win.high := by
  refine Nat.le_antisymm (highest_le h.below) ?_
  rcases h.high with hzero | hmem
  · rw [hzero]
    exact Nat.zero_le _
  · exact le_highest hmem

theorem Tracks.aged_iff (h : Tracks win taken) (seq : ℕ) : Aged taken seq ↔ seq + acceptWindowBits < win.high := by
  unfold Aged acceptWindowBits
  rw [h.highest_eq]
  omega

theorem Tracks.accepted_iff (h : Tracks win taken) (seq : ℕ) :
    win.isAccepted seq = true ↔ seq ∈ taken ∨ Aged taken seq := by
  rw [h.aged_iff]
  by_cases hseq : 0 < seq
  · exact h.isAccepted_iff hseq
  · have hzero : seq = 0 := Nat.eq_zero_of_not_pos hseq
    have hnot : 0 ∉ taken := fun hmem => absurd (h.positive 0 hmem) (Nat.lt_irrefl 0)
    subst hzero
    by_cases hempty : win.high = 0
    · simp [isAccepted, hempty, hnot]
    · have hlt : 0 < win.high := Nat.pos_of_ne_zero hempty
      by_cases hin : win.high - 1 - 0 < acceptWindowBits
      · have hback : win.high - 1 - (win.high - 1 - 0) = 0 := by omega
        have hyoung : ¬ 0 + acceptWindowBits < win.high := by omega
        rw [isAccepted_eq win hlt hin, h.bit _ hin (by omega), hback]
        exact iff_of_false hnot fun hold => hold.elim hnot hyoung
      · have haged : win.isAccepted 0 = true := by
          unfold isAccepted
          rw [if_neg (by omega), if_neg (Nat.ne_of_lt hlt)]
          exact if_pos (Nat.not_lt.mp hin)
        have hold : 0 + acceptWindowBits < win.high := by omega
        exact ⟨fun _ => .inr hold, fun _ => haged⟩

theorem Tracks.fresh_iff (h : Tracks win taken) (seq : ℕ) : (win.accept seq).1 = true ↔ Fresh taken seq := by
  unfold Fresh
  rw [h.highest_eq]
  by_cases hseq : 0 < seq
  · rw [accept_fresh_iff h hseq]
    have hnone : taken = [] → win.high = 0 := by
      rintro rfl
      exact h.high.resolve_right (not_mem_nil)
    have hyoung : ¬ seq + acceptWindowBits < win.high ↔
        taken = [] ∨ win.high < seq ∨ win.high - 1 - seq < acceptWindowBits := by
      unfold acceptWindowBits
      constructor
      · intro hnot
        omega
      · rintro (hempty | hrest)
        · have hzero := hnone hempty
          omega
        · omega
    rw [hyoung]
    simp [hseq]
  · have hzero : seq = 0 := Nat.eq_zero_of_not_pos hseq
    subst hzero
    simp [AcceptedWindow.accept]

theorem serve_spec {served : Served} (h : Tracks served.win served.accepted) (seq : ℕ) :
    ∃ after, serve served seq = some after ∧ Tracks after.win after.accepted := by
  have hserve : serve served seq = some ⟨(served.win.accept seq).2,
      if (served.win.accept seq).1 then served.accepted ++ [seq] else served.accepted⟩ := by
    unfold serve
    rw [acceptWords_eq]
    rfl
  refine ⟨_, hserve, ?_⟩
  dsimp only
  split_ifs with hfresh
  · exact h.accept ((h.fresh_iff seq).mp hfresh).1 hfresh
  · rw [accept_stale (Bool.eq_false_iff.mpr hfresh)]
    exact h

theorem serveAll_spec (seqs : List ℕ) :
    ∃ served, serveAll seqs = some served ∧ Tracks served.win served.accepted := by
  induction seqs using List.reverseRecOn with
  | nil => exact ⟨⟨default, []⟩, rfl, tracks_default⟩
  | append_singleton seqs seq ih =>
    obtain ⟨served, hserved, htracks⟩ := ih
    obtain ⟨after, hafter, hnext⟩ := serve_spec htracks seq
    refine ⟨after, ?_, hnext⟩
    unfold serveAll at hserved ⊢
    rw [foldlM_append, hserved]
    simpa using hafter

theorem window_is_accepted_set (seqs : List ℕ) :
    ∃ served, serveAll seqs = some served ∧
      (∀ seq, ∃ win, served.win.acceptWords seq = some (decide (Fresh served.accepted seq), win)) ∧
      ∀ seq, served.win.isAcceptedWords seq =
        some (decide (seq ∈ served.accepted ∨ Aged served.accepted seq)) := by
  obtain ⟨served, hserved, htracks⟩ := serveAll_spec seqs
  refine ⟨served, hserved, fun seq => ⟨(served.win.accept seq).2, ?_⟩, fun seq => ?_⟩
  · have hfresh : (served.win.accept seq).1 = decide (Fresh served.accepted seq) :=
      Bool.eq_iff_iff.mpr ((htracks.fresh_iff seq).trans decide_eq_true_iff.symm)
    rw [acceptWords_eq, ← hfresh]
  · rw [isAcceptedWords_eq]
    exact congrArg some (Bool.eq_iff_iff.mpr ((htracks.accepted_iff seq).trans decide_eq_true_iff.symm))

-- the second arrival of 3 is a repeat, and 3 has aged out once 1029 is taken
example : (serveAll [5, 3, 3, 1029]).map Served.accepted = some [5, 3, 1029] := by decide +kernel

end

end Molt.Net.AcceptedWindow
