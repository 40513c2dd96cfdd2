import Mathlib

/-! Line diffs as hunks: what it means that hunks lead from one sequence to another. -/

namespace Molt.LineDiff
open List

inductive Tag where
  | equal
  | delete
  | insert
  deriving DecidableEq

structure DiffHunk (α : Type*) where
  oldStart : Nat
  newStart : Nat
  lines : List (Tag × α)

variable {α : Type*}

def oldSide (l : List (Tag × α)) : List α :=
  l.filterMap fun e => if e.1 = .insert then none else some e.2

def newSide (l : List (Tag × α)) : List α :=
  l.filterMap fun e => if e.1 = .delete then none else some e.2

/-- From position `at_` on, the old sequence is `old`, the new one is `new`, and the hunks are the
difference: equal stretches between them, the two sides of a hunk inside it. -/
inductive Leads : Nat → List α → List α → List (DiffHunk α) → Prop where
  | done (at_ : Nat) (rest : List α) : Leads at_ rest rest []
  | hunk {at_ : Nat} {gap old new : List α} {h : DiffHunk α} {hs : List (DiffHunk α)}
      (start : h.oldStart = at_ + gap.length) (lines : h.lines ≠ [])
      (rest : Leads (at_ + gap.length + (oldSide h.lines).length) old new hs) :
      Leads at_ (gap ++ (oldSide h.lines ++ old)) (gap ++ (newSide h.lines ++ new)) (h :: hs)

def Faithful (diff : List α → List α → List (DiffHunk α)) : Prop := ∀ old new, Leads 0 old new (diff old new)

variable {at_ : Nat} {hs : List (DiffHunk α)}

theorem Leads.mem {old new : List α} (h : Leads at_ old new hs) :
    ∀ k ∈ hs, ∀ e ∈ k.lines, e.2 ∈ old ∨ e.2 ∈ new := by
  induction h with
  | done => exact fun k hk => absurd hk (not_mem_nil)
  | @hunk at_ gap old new h hs _ _ _ ih =>
    intro k hk e he
    rcases mem_cons.mp hk with rfl | hk
    · by_cases htag : e.1 = .insert
      · refine .inr (mem_append_right _ (mem_append_left _ ?_))
        exact mem_filterMap.mpr ⟨e, he, by rw [htag]; rfl⟩
      · refine .inl (mem_append_right _ (mem_append_left _ ?_))
        exact mem_filterMap.mpr ⟨e, he, if_neg htag⟩
    · exact (ih k hk e he).imp (fun h => mem_append_right _ (mem_append_right _ h))
        fun h => mem_append_right _ (mem_append_right _ h)

theorem Leads.lines {old new : List α} (h : Leads at_ old new hs) :
    ∀ k ∈ hs, k.lines ≠ [] := by
  induction h with
  | done => exact fun k hk => absurd hk (not_mem_nil)
  | hunk _ lines _ ih =>
    exact forall_mem_cons.mpr ⟨lines, ih⟩

theorem Leads.fits {old new : List α} (h : Leads at_ old new hs) :
    ∀ k ∈ hs, k.oldStart + (oldSide k.lines).length ≤ at_ + old.length := by
  induction h with
  | done => exact fun k hk => absurd hk (not_mem_nil)
  | hunk start _ _ ih =>
    intro k hk
    simp only [length_append]
    rcases mem_cons.mp hk with rfl | hk
    · omega
    · have := ih k hk
      omega

def whole (old new : List α) : List (DiffHunk α) :=
  if old.isEmpty && new.isEmpty then []
  else [⟨0, 0, old.map (fun x => (.delete, x)) ++ new.map fun x => (.insert, x)⟩]

theorem oldSide_whole (old new : List α) :
    oldSide (old.map (fun x => (Tag.delete, x)) ++ new.map fun x => (Tag.insert, x)) = old := by
  unfold oldSide
  rw [filterMap_append, filterMap_map, filterMap_map]
  have hold : old.filterMap ((fun e : Tag × α => if e.1 = .insert then none else some e.2) ∘
      fun x => (Tag.delete, x)) = old := filterMap_some
  have hnew : new.filterMap ((fun e : Tag × α => if e.1 = .insert then none else some e.2) ∘
      fun x => (Tag.insert, x)) = [] := filterMap_eq_nil_iff.mpr fun _ _ => rfl
  rw [hold, hnew, append_nil]

theorem newSide_whole (old new : List α) :
    newSide (old.map (fun x => (Tag.delete, x)) ++ new.map fun x => (Tag.insert, x)) = new := by
  unfold newSide
  rw [filterMap_append, filterMap_map, filterMap_map]
  have hold : old.filterMap ((fun e : Tag × α => if e.1 = .delete then none else some e.2) ∘
      fun x => (Tag.delete, x)) = [] := filterMap_eq_nil_iff.mpr fun _ _ => rfl
  have hnew : new.filterMap ((fun e : Tag × α => if e.1 = .delete then none else some e.2) ∘
      fun x => (Tag.insert, x)) = new := filterMap_some
  rw [hold, hnew, nil_append]

theorem whole_faithful : Faithful (whole (α := α)) := by
  intro old new
  unfold whole
  split
  · rename_i hempty
    obtain ⟨hold, hnew⟩ := Bool.and_eq_true_iff.mp hempty
    rw [List.isEmpty_iff.mp hold, List.isEmpty_iff.mp hnew]
    exact Leads.done 0 []
  · rename_i hempty
    have hlines : old.map (fun x => (Tag.delete, x)) ++ new.map (fun x => (Tag.insert, x)) ≠ [] := by
      intro hnil
      obtain ⟨hold, hnew⟩ := append_eq_nil_iff.mp hnil
      exact hempty (by rw [map_eq_nil_iff.mp hold, map_eq_nil_iff.mp hnew]; rfl)
    have hhunk := @Leads.hunk α 0 [] [] []
      ⟨0, 0, old.map (fun x => (Tag.delete, x)) ++ new.map fun x => (Tag.insert, x)⟩ [] rfl hlines
      (Leads.done _ [])
    rwa [nil_append, append_nil, oldSide_whole, nil_append, append_nil, newSide_whole] at hhunk

end Molt.LineDiff
