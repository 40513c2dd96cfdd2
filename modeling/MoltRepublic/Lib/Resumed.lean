import Mathlib

/-! A scan over input that grows: a turn waits for more input, ends the scan, or skips items it is
done with. Where a turn that does not wait says the same on more input, a scan that waited is
taken up where it stopped. -/

namespace Molt.Resumed
open List

inductive Turn (σ ω : Type)
  | wait
  | done (out : ω)
  | skip (n : ℕ) (s : σ)

variable {α σ ω : Type} {next : σ → List α → Turn σ ω}

structure Steady (next : σ → List α → Turn σ ω) : Prop where
  done : ∀ {s l o}, next s l = .done o → ∀ m, next s (l ++ m) = .done o
  skip : ∀ {s l n t}, next s l = .skip n t → ∀ m, next s (l ++ m) = .skip n t
  inside : ∀ {s l n t}, next s l = .skip n t → 0 < n ∧ n ≤ l.length

/-- The scan from `s` stops `n` items on, in state `t`: it waits there, or ends with `o`. -/
inductive Scan (next : σ → List α → Turn σ ω) : σ → List α → ℕ → σ → Option ω → Prop
  | wait {s l} : next s l = .wait → Scan next s l 0 s none
  | done {s l o} : next s l = .done o → Scan next s l 0 s (some o)
  | skip {s l n t k u o} : next s l = .skip n t → Scan next t (l.drop n) k u o → Scan next s l (n + k) u o

namespace Scan

theorem total (h : Steady next) (s : σ) (l : List α) : ∃ n t o, Scan next s l n t o := by
  induction hlen : l.length using Nat.strong_induction_on generalizing s l with
  | _ len ih =>
    cases hturn : next s l with
    | wait => exact ⟨0, s, none, .wait hturn⟩
    | done o => exact ⟨0, s, some o, .done hturn⟩
    | skip n t =>
      obtain ⟨hpos, hle⟩ := h.inside hturn
      obtain ⟨k, u, o, hrest⟩ := ih (l.drop n).length (by rw [length_drop]; omega) t (l.drop n) rfl
      exact ⟨n + k, u, o, .skip hturn hrest⟩

variable {s t : σ} {l : List α} {n : ℕ} {o : Option ω}

theorem unique {n' : ℕ} {t' : σ} {o' : Option ω} (h : Scan next s l n t o) (h' : Scan next s l n' t' o') :
    n = n' ∧ t = t' ∧ o = o' := by
  induction h generalizing n' with
  | wait hturn =>
    cases h' with
    | wait => exact ⟨rfl, rfl, rfl⟩
    | done hturn' | skip hturn' => cases hturn.symm.trans hturn'
  | done hturn =>
    cases h' with
    | wait hturn' => cases hturn.symm.trans hturn'
    | done hturn' =>
      cases hturn.symm.trans hturn'
      exact ⟨rfl, rfl, rfl⟩
    | skip hturn' => cases hturn.symm.trans hturn'
  | skip hturn _ ih =>
    cases h' with
    | wait hturn' | done hturn' => cases hturn.symm.trans hturn'
    | skip hturn' hrest' =>
      cases hturn.symm.trans hturn'
      obtain ⟨hk, ht, ho⟩ := ih hrest'
      exact ⟨congrArg _ hk, ht, ho⟩

theorem le_length (hsteady : Steady next) (h : Scan next s l n t o) : n ≤ l.length := by
  induction h with
  | wait | done => exact Nat.zero_le _
  | skip hturn _ ih =>
    have hle := (hsteady.inside hturn).2
    rw [length_drop] at ih
    omega

theorem append (hsteady : Steady next) {o : ω} (h : Scan next s l n t (some o)) (m : List α) :
    Scan next s (l ++ m) n t (some o) := by
  generalize ho : some o = out at h
  induction h with
  | wait => cases ho
  | done hturn => exact .done (hsteady.done hturn m)
  | skip hturn _ ih =>
    refine .skip (hsteady.skip hturn m) ?_
    rw [drop_append_of_le_length (hsteady.inside hturn).2]
    exact ih ho

theorem resume (hsteady : Steady next) (h : Scan next s l n t none) {m : List α} {k : ℕ} {u : σ}
    (hmore : Scan next t ((l ++ m).drop n) k u o) :
    Scan next s (l ++ m) (n + k) u o := by
  generalize ho : none = out at h
  induction h with
  | wait => simpa using hmore
  | done => cases ho
  | @skip s l n t j v out hturn _ ih =>
    have hle := (hsteady.inside hturn).2
    rw [Nat.add_assoc]
    refine .skip (hsteady.skip hturn m) ?_
    rw [drop_append_of_le_length hle]
    refine ih ?_ ho
    rwa [← drop_drop, drop_append_of_le_length hle] at hmore

end Scan

end Molt.Resumed
