import Mathlib

/-! Shortest distances along a step relation, level by level: what a breadth-first search rests on. -/

namespace Molt.Breadth
open List Option

variable {α : Type*} {step : α → α → Prop} {start : α}

inductive Walks (step : α → α → Prop) (start : α) : ℕ → α → Prop
  | zero : Walks step start 0 start
  | succ {k : ℕ} {m n : α} (h : Walks step start k m) (hstep : step m n) : Walks step start (k + 1) n

def Dist (step : α → α → Prop) (start : α) (k : ℕ) (n : α) : Prop :=
  Walks step start k n ∧ ∀ j < k, ¬ Walks step start j n

variable {k : ℕ} {m n : α}

theorem dist_zero : Dist step start 0 n ↔ n = start := by
  constructor
  · rintro ⟨h, -⟩
    cases h
    rfl
  · rintro rfl
    exact ⟨.zero, fun j hj => absurd hj (Nat.not_lt_zero j)⟩

theorem Walks.exists_dist (h : Walks step start k n) : ∃ j ≤ k, Dist step start j n := by
  induction k using Nat.strong_induction_on with
  | _ k ih =>
    by_cases hless : ∃ j < k, Walks step start j n
    · obtain ⟨j, hj, hwalk⟩ := hless
      obtain ⟨i, hi, hdist⟩ := ih j hj hwalk
      exact ⟨i, hi.trans hj.le, hdist⟩
    · exact ⟨k, le_rfl, h, fun j hj hwalk => hless ⟨j, hj, hwalk⟩⟩

theorem Dist.unique {j : ℕ} (h : Dist step start j n) (h' : Dist step start k n) : j = k := by
  rcases Nat.lt_trichotomy j k with hlt | heq | hlt
  · exact absurd h.1 (h'.2 j hlt)
  · exact heq
  · exact absurd h'.1 (h.2 k hlt)

theorem Dist.pred (h : Dist step start (k + 1) n) : ∃ m, Dist step start k m ∧ step m n := by
  obtain ⟨hwalk, hless⟩ := h
  cases hwalk with
  | succ hm hstep =>
    rename_i m
    refine ⟨m, ⟨hm, fun j hj hwalk => ?_⟩, hstep⟩
    exact hless (j + 1) (Nat.succ_lt_succ hj) (.succ hwalk hstep)

theorem Dist.succ (h : Dist step start k m) (hstep : step m n) (hnew : ∀ j ≤ k, ¬ Walks step start j n) :
    Dist step start (k + 1) n :=
  ⟨.succ h.1 hstep, fun j hj => hnew j (Nat.lt_succ_iff.mp hj)⟩

theorem none_beyond (h : ∀ n, ¬ Dist step start k n) {j : ℕ} (hj : k ≤ j) (n : α) : ¬ Dist step start j n := by
  induction j, hj using Nat.le_induction generalizing n with
  | base => exact h n
  | succ j _ ih =>
    intro hdist
    obtain ⟨m, hm, -⟩ := hdist.pred
    exact ih m hm

/-- What lies between the start and `n` on a walk. -/
def Leads (step : α → α → Prop) (start : α) (via : List α) (n : α) : Prop := List.IsChain step (start :: (via ++ [n]))

theorem Leads.nil (h : step start n) : Leads step start [] n := isChain_pair.mpr h

theorem Leads.snoc {via : List α} (h : Leads step start via m) (hstep : step m n) :
    Leads step start (via ++ [m]) n := by
  have hsplit : start :: (via ++ [m] ++ [n]) = (start :: (via ++ [m])) ++ [n] := rfl
  unfold Leads
  refine List.IsChain.append h (isChain_singleton n) ?_
  intro x hx y hy
  have hlast : (start :: (via ++ [m])).getLast? = some m := by
    rw [← cons_append, getLast?_append]
    rfl
  rw [hlast] at hx
  obtain rfl := mem_some_iff.mp hx
  obtain rfl := mem_some_iff.mp hy
  exact hstep

end Molt.Breadth
