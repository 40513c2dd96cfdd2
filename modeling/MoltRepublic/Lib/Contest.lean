import Mathlib

/-! Pairwise contests: one contender is held, and a newcomer that beats it takes its place. The
outcome is free of the order of arrival exactly when one contender beats each of the others. -/

namespace Molt.Contest
open List

variable {α : Type*} (beats : α → α → Bool)

def duel (held new : α) : α := if beats new held then new else held

/-- Who is held after the newcomers `seen`, one after the other. -/
def survivor (start : α) (seen : List α) : α := seen.foldl (duel beats) start

def Champion (S : List α) (w : α) : Prop := w ∈ S ∧ ∀ c ∈ S, c ≠ w → beats w c = true

theorem survivor_concat (start : α) (seen : List α) (c : α) :
    survivor beats start (seen ++ [c]) = duel beats (survivor beats start seen) c := by
  simp [survivor]

theorem survivor_mem (start : α) (seen : List α) : survivor beats start seen ∈ start :: seen := by
  induction seen generalizing start with
  | nil => exact mem_singleton.mpr rfl
  | cons c seen ih =>
    have hrest := ih (duel beats start c)
    rcases mem_cons.mp hrest with hheld | hmem
    · have heq : survivor beats start (c :: seen) = duel beats start c := hheld
      rw [heq, duel]
      split_ifs
      all_goals simp
    · exact .tail _ (.tail _ hmem)

section
variable {beats} (hasymm : ∀ x y, beats x y = true → beats y x = false)
include hasymm

theorem duel_champion {S : List α} {w c : α} (hw : Champion beats S w) (hc : c ∈ S) : duel beats w c = w := by
  by_cases heq : c = w
  · rw [heq, duel, ite_self]
  · rw [duel, hasymm _ _ (hw.2 c hc heq)]
    rfl

theorem survivor_of_champion {S : List α} {w : α} (hw : Champion beats S w) {start : α} {seen : List α}
    (hall : ∀ c ∈ start :: seen, c ∈ S) (hseen : w ∈ start :: seen) : survivor beats start seen = w := by
  induction seen using List.reverseRecOn with
  | nil => exact (mem_singleton.mp hseen).symm
  | append_singleton seen c ih =>
    rw [survivor_concat]
    have hc : c ∈ S := hall c (by simp)
    have hall' : ∀ d ∈ start :: seen, d ∈ S := fun d hd => hall d (by
      exact mem_append_left _ hd)
    by_cases hbefore : w ∈ start :: seen
    · rw [ih hall' hbefore]
      exact duel_champion hasymm hw hc
    · have hwc : w = c := by
        rw [← cons_append] at hseen
        rcases mem_append.mp hseen with h | h
        · exact absurd h hbefore
        · exact mem_singleton.mp h
      subst hwc
      have hheld := survivor_mem beats start seen
      have hne : survivor beats start seen ≠ w := fun h => hbefore (h ▸ hheld)
      rw [duel, hw.2 _ (hall' _ hheld) hne]
      rfl

end

theorem survivor_ne {x y : α} (h : beats x y = false) (hne : y ≠ x) {rest : List α} (hrest : x ∉ rest) :
    survivor beats y (x :: rest) ≠ x := by
  have hkeep : survivor beats y (x :: rest) = survivor beats y rest := by
    simp [survivor, duel, h]
  rw [hkeep]
  intro heq
  have hmem := survivor_mem beats y rest
  rw [heq] at hmem
  rcases mem_cons.mp hmem with hx | hx
  · exact hne hx.symm
  · exact hrest hx

/-- The contenders of `S` other than the first one held, in any order and with repetitions. -/
structure Covers (S : List α) (own : α) (seen : List α) : Prop where
  sound : ∀ c ∈ seen, c ∈ S
  complete : ∀ c ∈ S, c ≠ own → c ∈ seen

theorem exists_champion {S : List α} (hS : S ≠ [])
    (h : ∀ a ∈ S, ∀ b ∈ S, a ≠ b → ∀ l m, a ∉ l → b ∉ m → Covers S a l → Covers S b m →
      survivor beats a l = survivor beats b m) : ∃ w, Champion beats S w := by
  classical
  let others (a : α) : List α := S.filter (· ≠ a)
  have hothers : ∀ a, a ∉ others a ∧ Covers S a (others a) := fun a =>
    ⟨by simp [others], fun c hc => mem_of_mem_filter hc, fun c hc hne => by simp [others, hc, hne]⟩
  obtain ⟨a, ha⟩ := exists_mem_of_ne_nil S hS
  have hmem : survivor beats a (others a) ∈ S := by
    rcases mem_cons.mp (survivor_mem beats a (others a)) with heq | hmem
    · rw [heq]
      exact ha
    · exact mem_of_mem_filter hmem
  refine ⟨survivor beats a (others a), hmem, ?_⟩
  · generalize hx : survivor beats a (others a) = x
    intro y hy hyx
    by_contra hbeats
    -- the run of `y` that sees `x` first and never again
    have hxS : x ∈ S := hx ▸ hmem
    have hne : survivor beats y (x :: (others y).filter (· ≠ x)) ≠ x :=
      survivor_ne beats (Bool.eq_false_iff.mpr hbeats) hyx (by simp)
    have hown : y ∉ x :: (others y).filter (· ≠ x) := by
      simp [others, hyx]
    have hcovers : Covers S y (x :: (others y).filter (· ≠ x)) := by
      refine ⟨?_, ?_⟩
      · exact forall_mem_cons.mpr ⟨hxS, fun c hc => mem_of_mem_filter (mem_of_mem_filter hc)⟩
      · intro c hc hcy
        by_cases hcx : c = x
        · exact hcx ▸ .head _
        · exact mem_cons_of_mem _ (by simp [others, hc, hcy, hcx])
    by_cases hay : a = y
    · -- `a` is `y` itself: any other contender ends with `x` too
      have hother : x ≠ y := fun hxy => hyx hxy.symm
      have hx' : survivor beats x (others x) = x :=
        (h x hxS a ha (hay ▸ hother) _ _ (hothers x).1 (hothers a).1 (hothers x).2 (hothers a).2).trans hx
      exact hne ((h x hxS y hy hother _ _ (hothers x).1 hown (hothers x).2 hcovers).symm.trans hx')
    · exact hne ((h a ha y hy hay _ _ (hothers a).1 hown (hothers a).2 hcovers).symm.trans hx)

end Molt.Contest
