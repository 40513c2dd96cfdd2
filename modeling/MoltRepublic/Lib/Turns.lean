import Mathlib

/-! Lists in ascending order that are enumerated turn by turn: where an entry stands, where the
list is cut, and which entry comes next. -/

namespace Molt.Turns
open List Nat

section
variable {α : Type*}

/-- The entries of the turns before the `n`-th. -/
def upTo (turn : ℕ → List α) (n : ℕ) : List α := (List.range n).flatMap turn

variable {turn : ℕ → List α}

@[simp]
theorem upTo_zero : upTo turn 0 = [] := rfl

theorem upTo_succ (n : ℕ) : upTo turn (n + 1) = upTo turn n ++ turn n := by
  unfold upTo
  rw [range_succ, flatMap_append]
  simp

theorem mem_upTo {n : ℕ} {x : α} : x ∈ upTo turn n ↔ ∃ k < n, x ∈ turn k := by
  simp [upTo]

theorem getElem?_upTo {n i : ℕ} {x : α} :
    (upTo turn n)[i]? = some x ↔ ∃ k < n, ∃ j, (turn k)[j]? = some x ∧ i = (upTo turn k).length + j := by
  induction n with
  | zero => simp
  | succ n ih =>
    rw [upTo_succ, getElem?_append]
    split
    · rename_i hlt
      rw [ih]
      constructor
      · rintro ⟨k, hk, j, hj, hi⟩
        exact ⟨k, hk.trans n.lt_succ_self, j, hj, hi⟩
      · rintro ⟨k, hk, j, hj, hi⟩
        refine ⟨k, (Nat.lt_succ_iff_lt_or_eq.mp hk).resolve_right ?_, j, hj, hi⟩
        rintro rfl
        omega
    · rename_i hlt
      constructor
      · intro h
        exact ⟨n, n.lt_succ_self, _, h, by omega⟩
      · rintro ⟨k, hk, j, hj, hi⟩
        rcases Nat.lt_succ_iff_lt_or_eq.mp hk with hk | rfl
        · have hsome := (ih.mpr ⟨k, hk, j, hj, hi⟩)
          exact absurd (List.getElem?_eq_some_iff.mp hsome).1 hlt
        · rw [hi, Nat.add_sub_cancel_left]
          exact hj

theorem pairwise_upTo {R : α → α → Prop} (hin : ∀ k, (turn k).Pairwise R)
    (hacross : ∀ k l, k < l → ∀ a ∈ turn k, ∀ b ∈ turn l, R a b) (n : ℕ) : (upTo turn n).Pairwise R := by
  induction n with
  | zero => exact List.Pairwise.nil
  | succ n ih =>
    rw [upTo_succ, pairwise_append]
    refine ⟨ih, hin n, ?_⟩
    intro a ha b hb
    obtain ⟨k, hk, hak⟩ := mem_upTo.mp ha
    exact hacross k n hk a hak b hb

theorem getElem?_singleton_eq_some {a x : α} {i : ℕ} : [a][i]? = some x ↔ i = 0 ∧ a = x := by
  cases i <;> simp

end

section

theorem getElem?_filter_range {n i x : ℕ} {p : ℕ → Bool} :
    ((List.range n).filter p)[i]? = some x ↔ x < n ∧ p x ∧ i = ((List.range x).filter p).length := by
  induction n with
  | zero => simp
  | succ n ih =>
    rw [range_succ, filter_append, getElem?_append]
    have hle : ∀ m < n, p m → ((List.range m).filter p).length < ((List.range n).filter p).length := by
      intro m hm hp
      simp only [← countP_eq_length_filter]
      have hcount : Nat.count (fun k => p k = true) m < Nat.count (fun k => p k = true) n := count_strict_mono hp hm
      simpa [Nat.count] using hcount
    split
    · rename_i hlt
      rw [ih]
      constructor
      · rintro ⟨hx, hp, hi⟩
        exact ⟨hx.trans n.lt_succ_self, hp, hi⟩
      · rintro ⟨hx, hp, hi⟩
        refine ⟨(Nat.lt_succ_iff_lt_or_eq.mp hx).resolve_right ?_, hp, hi⟩
        rintro rfl
        omega
    · rename_i hlt
      cases hn : p n with
      | false =>
        have hnone : (List.filter p [n])[i - ((List.range n).filter p).length]? = none := by simp [hn]
        rw [hnone]
        refine iff_of_false (by simp) ?_
        rintro ⟨hx, hp, hi⟩
        rcases Nat.lt_succ_iff_lt_or_eq.mp hx with hx | rfl
        · exact hlt (hi ▸ hle x hx hp)
        · exact absurd hp (by simp [hn])
      | true =>
        rw [filter_cons_of_pos hn, filter_nil]
        constructor
        · intro h
          obtain ⟨hzero, rfl⟩ : i - ((List.range n).filter p).length = 0 ∧ n = x := by
            cases hk : i - ((List.range n).filter p).length with
            | zero => rw [hk] at h; exact ⟨rfl, by simpa using h⟩
            | succ k => rw [hk] at h; simp at h
          exact ⟨n.lt_succ_self, hn, by omega⟩
        · rintro ⟨hx, hp, hi⟩
          rcases Nat.lt_succ_iff_lt_or_eq.mp hx with hx | rfl
          · exact absurd (hle x hx hp) (hi ▸ hlt)
          · rw [hi, Nat.sub_self]
            rfl

variable {α : Type*} [LinearOrder α]

variable {l : List α}

theorem getElem?_takeWhile (hl : l.Pairwise (· < ·)) (b : α) {i : ℕ} {x : α} :
    (l.takeWhile (· ≤ b))[i]? = some x ↔ l[i]? = some x ∧ x ≤ b := by
  induction l generalizing i with
  | nil => simp
  | cons a l ih =>
    obtain ⟨hhead, hrest⟩ := pairwise_cons.mp hl
    by_cases hab : a ≤ b
    · rw [takeWhile_cons_of_pos (by simpa using hab)]
      cases i with
      | zero =>
        simp only [getElem?_cons_zero, Option.some.injEq]
        constructor
        · rintro rfl
          exact ⟨rfl, hab⟩
        · exact And.left
      | succ i =>
        exact ih hrest
    · rw [takeWhile_cons_of_neg (by simpa using hab)]
      refine iff_of_false (by simp) ?_
      rintro ⟨hx, hxb⟩
      rcases mem_cons.mp (mem_of_getElem? hx) with rfl | hmem
      · exact hab hxb
      · exact hab ((hhead x hmem).le.trans hxb)

theorem mem_takeWhile (hl : l.Pairwise (· < ·)) (b : α) {x : α} :
    x ∈ l.takeWhile (· ≤ b) ↔ x ∈ l ∧ x ≤ b := by
  simp only [mem_iff_getElem?]
  constructor
  · rintro ⟨i, hi⟩
    obtain ⟨hx, hb⟩ := (getElem?_takeWhile hl b).mp hi
    exact ⟨⟨i, hx⟩, hb⟩
  · rintro ⟨⟨i, hx⟩, hb⟩
    exact ⟨i, (getElem?_takeWhile hl b).mpr ⟨hx, hb⟩⟩

theorem index_lt (hl : l.Pairwise (· < ·)) {i j : ℕ} {x y : α} (hi : l[i]? = some x) (hj : l[j]? = some y) :
    x < y ↔ i < j := by
  have hmono : ∀ {a b : ℕ} {u v : α}, l[a]? = some u → l[b]? = some v → a < b → u < v := by
    intro a b u v ha hb hab
    obtain ⟨ha', rfl⟩ := List.getElem?_eq_some_iff.mp ha
    obtain ⟨hb', rfl⟩ := List.getElem?_eq_some_iff.mp hb
    exact pairwise_iff_getElem.mp hl a b ha' hb' hab
  constructor
  · intro hxy
    rcases lt_trichotomy i j with h | rfl | h
    · exact h
    · exact absurd (Option.some.inj (hi.symm.trans hj)) hxy.ne
    · exact absurd (hmono hj hi h) hxy.not_gt
  · exact hmono hi hj

theorem exists_split (hl : l.Pairwise (· < ·)) (y : α) :
    ∃ j, ∀ (i : ℕ) (x : α), l[i]? = some x → (x < y ↔ i < j) := by
  induction l with
  | nil => exact ⟨0, fun i x h => by simp at h⟩
  | cons a l ih =>
    obtain ⟨hhead, hrest⟩ := pairwise_cons.mp hl
    by_cases hay : a < y
    · obtain ⟨j, hj⟩ := ih hrest
      refine ⟨j + 1, fun i x h => ?_⟩
      cases i with
      | zero =>
        obtain rfl : a = x := by simpa using h
        exact iff_of_true hay (succ_pos j)
      | succ i => exact (hj i x h).trans succ_lt_succ_iff.symm
    · refine ⟨0, fun i x h => iff_of_false ?_ (Nat.not_lt_zero i)⟩
      rcases mem_cons.mp (mem_of_getElem? h) with rfl | hmem
      · exact hay
      · exact fun hxy => hay ((hhead x hmem).trans hxy)

theorem drop_eq_filter {j : ℕ} {y : α} (h : ∀ (i : ℕ) (x : α), l[i]? = some x → (x < y ↔ i < j)) :
    l.drop j = l.filter (y ≤ ·) := by
  induction l generalizing j with
  | nil => simp
  | cons a l ih =>
    cases j with
    | zero =>
      rw [drop_zero, eq_comm, filter_eq_self]
      intro x hx
      obtain ⟨i, hi⟩ := mem_iff_getElem?.mp hx
      exact decide_eq_true (not_lt.mp fun hlt => Nat.not_lt_zero i ((h i x hi).mp hlt))
    | succ j =>
      have hay : a < y := (h 0 a rfl).mpr (succ_pos j)
      rw [drop_succ_cons, filter_cons_of_neg (by simpa using hay)]
      exact ih fun i x hx => (h (i + 1) x hx).trans succ_lt_succ_iff

end

section

theorem count_periodic {p : ℕ → Prop} [DecidablePred p] {period : ℕ} (hp : ∀ n, p (period + n) ↔ p n) (n : ℕ) :
    Nat.count p n = n / period * Nat.count p period + Nat.count p (n % period) := by
  have hwhole : ∀ q m, Nat.count p (q * period + m) = q * Nat.count p period + Nat.count p m := by
    intro q m
    induction q with
    | zero => simp
    | succ q ih =>
      have hsum : (q + 1) * period + m = period + (q * period + m) := by ring
      have hshift : Nat.count (fun k => p (period + k)) (q * period + m) = Nat.count p (q * period + m) := by
        simp [hp]
      rw [hsum, count_add, hshift, ih]
      ring
  have hsplit := hwhole (n / period) (n % period)
  rwa [div_add_mod' n period] at hsplit

end

end Molt.Turns
