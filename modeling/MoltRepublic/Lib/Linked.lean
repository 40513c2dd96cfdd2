import Mathlib

/-! Runs of links: every link stands one height above the one before it and names it. -/

namespace Molt.Linked
open List

variable {α κ : Type*} {height : α → ℕ} {prev hash : α → κ}

def Run (height : α → ℕ) (prev hash : α → κ) (l : List α) : Prop :=
  l.IsChain fun a b => height b = height a + 1 ∧ prev b = hash a

namespace Run

variable {a : α} {l : List α}

variable {b : α}

theorem height_getElem (h : Run height prev hash (a :: l)) {i : ℕ} (hb : (a :: l)[i]? = some b) :
    height b = height a + i := by
  induction l generalizing a i with
  | nil =>
    cases i with
    | zero => rw [← Option.some.inj hb]; rfl
    | succ i => simp at hb
  | cons c l ih =>
    cases i with
    | zero => rw [← Option.some.inj hb]; rfl
    | succ i =>
      have hstep := isChain_cons_cons.mp h
      have hrest := ih hstep.2 (by simpa using hb)
      omega

theorem height_le (h : Run height prev hash (a :: l)) (hb : b ∈ a :: l) :
    height a ≤ height b ∧ height b ≤ height a + l.length := by
  obtain ⟨i, hi⟩ := mem_iff_getElem?.mp hb
  have hlt : i < l.length + 1 := by
    obtain ⟨hlen, -⟩ := List.getElem?_eq_some_iff.mp hi
    simpa using hlen
  have := h.height_getElem hi
  omega

theorem unique (h : Run height prev hash (a :: l)) {c : α} (hb : b ∈ a :: l) (hc : c ∈ a :: l)
    (heq : height b = height c) : b = c := by
  obtain ⟨i, hi⟩ := mem_iff_getElem?.mp hb
  obtain ⟨j, hj⟩ := mem_iff_getElem?.mp hc
  have hbi := h.height_getElem hi
  have hcj := h.height_getElem hj
  obtain rfl : i = j := by omega
  exact Option.some.inj (hi.symm.trans hj)

theorem exists_at (h : Run height prev hash (a :: l)) {n : ℕ} (hlow : height a ≤ n)
    (hhigh : n ≤ height a + l.length) : ∃ b ∈ a :: l, height b = n := by
  obtain ⟨b, hb⟩ : ∃ b, (a :: l)[n - height a]? = some b := by
    have hlt : n - height a < (a :: l).length := by simp only [length_cons]; omega
    exact ⟨_, getElem?_eq_getElem hlt⟩
  refine ⟨b, mem_of_getElem? hb, ?_⟩
  have := h.height_getElem hb
  omega

theorem before (h : Run height prev hash (a :: l)) (hb : b ∈ a :: l) (hlt : height a < height b) :
    ∃ p ∈ a :: l, height p + 1 = height b ∧ prev b = hash p := by
  induction l generalizing a with
  | nil =>
    obtain rfl := mem_singleton.mp hb
    exact absurd hlt (lt_irrefl _)
  | cons c l ih =>
    have hstep := isChain_cons_cons.mp h
    rcases mem_cons.mp hb with rfl | hb
    · exact absurd hlt (lt_irrefl _)
    · by_cases hc : height c < height b
      · obtain ⟨p, hp, hnext⟩ := ih hstep.2 hb hc
        exact ⟨p, .tail _ hp, hnext⟩
      · have hle := (height_le hstep.2 hb).1
        obtain rfl : b = c := unique hstep.2 hb (.head _) (by omega)
        exact ⟨a, .head _, hstep.1.1.symm, hstep.1.2⟩

theorem pairwise (h : Run height prev hash l) : l.Pairwise fun b c => height b < height c := by
  have hchain : l.IsChain fun b c => height b < height c :=
    List.IsChain.imp (fun b c hbc => by rw [hbc.1]; exact Nat.lt_succ_self _) h
  exact isChain_iff_pairwise.mp hchain

theorem agree_below {a' : α} {l' : List α} (h : Run height prev hash (a :: l))
    (h' : Run height prev hash (a' :: l'))
    (hcommits : ∀ b ∈ a :: l, ∀ c ∈ a' :: l', height a < height b → height a' < height c → hash b = hash c → prev b = prev c)
    {c : α} (hb : b ∈ a :: l) (hc : c ∈ a' :: l') (heq : height b = height c) (hhash : hash b = hash c)
    {n : ℕ} (hn : n ≤ height b) (hlow : height a ≤ n) (hlow' : height a' ≤ n) :
    ∃ p ∈ a :: l, ∃ q ∈ a' :: l', height p = n ∧ height q = n ∧ hash p = hash q := by
  induction hd : height b - n generalizing b c with
  | zero => exact ⟨b, hb, c, hc, by omega, by omega, hhash⟩
  | succ d ih =>
    obtain ⟨p, hp, hpb, hpprev⟩ := h.before hb (by omega)
    obtain ⟨q, hq, hqc, hqprev⟩ := h'.before hc (by omega)
    have hlink := hcommits b hb c hc (by omega) (by omega) hhash
    rw [hpprev, hqprev] at hlink
    exact ih hp hq (by omega) hlink (by omega) (by omega)

end Run

end Molt.Linked
