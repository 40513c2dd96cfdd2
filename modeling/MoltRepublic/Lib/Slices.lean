import Mathlib

/-! Slices and sums that may leave their range, and where a pattern stands in a text. -/

namespace Molt.Slices
open List Option

inductive Fault (ε : Type)
  | err (e : ε)
  | panicked
deriving DecidableEq

variable {α ε : Type}

def sliceFrom (l : List α) (i : ℕ) : Except (Fault ε) (List α) :=
  if i ≤ l.length then .ok (l.drop i) else .error .panicked

def sliceTo (l : List α) (i : ℕ) : Except (Fault ε) (List α) :=
  if i ≤ l.length then .ok (l.take i) else .error .panicked

/-- A sum in a `usize`. -/
def word (n : ℕ) : Except (Fault ε) ℕ := if n < 2 ^ 64 then .ok n else .error .panicked

theorem sliceFrom_eq {l : List α} {i : ℕ} (h : i ≤ l.length) : (sliceFrom l i : Except (Fault ε) _) = .ok (l.drop i) :=
  if_pos h

theorem sliceTo_eq {l : List α} {i : ℕ} (h : i ≤ l.length) : (sliceTo l i : Except (Fault ε) _) = .ok (l.take i) :=
  if_pos h

theorem word_eq {n : ℕ} (h : n < 2 ^ 64) : (word n : Except (Fault ε) ℕ) = .ok n := if_pos h

theorem ok_bind {β : Type} (a : α) (f : α → Except ε β) : (Except.ok a >>= f) = f a := rfl

section
variable [DecidableEq α]

/-- `windows(pat.len()).position(|w| w == pat)`. -/
def position (pat : List α) : List α → Option ℕ
  | [] => none
  | b :: bs => if pat.isPrefixOf (b :: bs) then some 0 else (position pat bs).map (· + 1)

variable {pat l m : List α} {i : ℕ}

theorem position_bound (h : position pat l = some i) : i + pat.length ≤ l.length := by
  induction l generalizing i with
  | nil => cases h
  | cons b l ih =>
    rw [position] at h
    split at h
    · rename_i hpre
      cases h
      simpa using ( isPrefixOf_iff_prefix.mp hpre).length_le
    · obtain ⟨j, hj, rfl⟩ := map_eq_some_iff.mp h
      have := ih hj
      rw [length_cons]
      omega

theorem position_append (h : position pat l = some i) (m : List α) : position pat (l ++ m) = some i := by
  induction l generalizing i with
  | nil => cases h
  | cons b l ih =>
    have hbound := position_bound h
    have hwhole : pat.isPrefixOf (b :: (l ++ m)) = pat.isPrefixOf (b :: l) := by
      rw [Bool.eq_iff_iff, isPrefixOf_iff_prefix, isPrefixOf_iff_prefix]
      refine ⟨fun hpre => ?_, fun hpre => hpre.trans (prefix_append (b :: l) m)⟩
      exact prefix_of_prefix_length_le hpre (prefix_append (b :: l) m) (by omega)
    rw [position] at h
    rw [cons_append, position, hwhole]
    split at h
    · rename_i hpre
      rw [if_pos hpre, h]
    · rename_i hpre
      obtain ⟨j, hj, rfl⟩ := map_eq_some_iff.mp h
      rw [if_neg hpre, ih hj]
      rfl

theorem position_of_append (h : position pat (l ++ m) = some i) (hle : i + pat.length ≤ l.length) (hne : pat ≠ []) :
    position pat l = some i := by
  induction l generalizing i with
  | nil =>
    have hpos := length_pos_iff.mpr hne
    rw [length_nil] at hle
    omega
  | cons b l ih =>
    rw [cons_append, position] at h
    rw [position]
    split at h
    · rename_i hpre
      cases h
      rw [if_pos ( isPrefixOf_iff_prefix.mpr (prefix_of_prefix_length_le
        ( isPrefixOf_iff_prefix.mp hpre) (prefix_append (b :: l) m) (by omega)))]
    · rename_i hpre
      obtain ⟨j, hj, rfl⟩ := map_eq_some_iff.mp h
      have hshort : ¬ pat.isPrefixOf (b :: l) = true := fun hshort => hpre ( isPrefixOf_iff_prefix.mpr
        (( isPrefixOf_iff_prefix.mp hshort).trans (prefix_append (b :: l) m)))
      rw [if_neg hshort, ih hj (by rw [length_cons] at hle; omega)]
      rfl

end

end Molt.Slices
