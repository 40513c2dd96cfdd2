import Mathlib
import MoltRepublic.Kanban.Wake

/-! Times and keys are read back as they were spelled. -/

namespace Molt.Kanban
open Text List Option

theorem fmtDatetime_chars {begins : ℕ} {d : NaiveDate} (h : dateAt (begins / 1440) = some d) :
    ∃ h₁ h₂ m₁ m₂, (fmtDatetime begins).toList = (fmtDate d).toList ++ ['T', h₁, h₂, ':', m₁, m₂] ∧
      digitsValue [h₁, h₂] 0 = some (begins / 60 % 24) ∧ digitsValue [m₁, m₂] 0 = some (begins % 60) := by
  obtain ⟨h₁, h₂, hh, hhour⟩ := padded_two (show begins / 60 % 24 < 100 by omega)
  obtain ⟨m₁, m₂, hm, hminute⟩ := padded_two (show begins % 60 < 100 by omega)
  refine ⟨h₁, h₂, m₁, m₂, ?_, hhour, hminute⟩
  unfold fmtDatetime
  rw [h]
  simp only [String.toList_append, hh, hm, append_assoc]
  rfl

theorem parseDatetime_fmtDatetime {begins : ℕ} (h : begins < midnight yearsEnd) :
    (parseDatetime (fmtDatetime begins)).map NaiveDateTime.instant = some begins := by
  have hday : begins / 1440 < yearsEnd := by
    unfold midnight at h
    omega
  obtain ⟨d, hd⟩ := dateAt_isSome hday
  obtain ⟨h₁, h₂, m₁, m₂, hchars, hhour, hminute⟩ := fmtDatetime_chars hd
  have hten : (fmtDate d).toList.length = 10 := by
    obtain ⟨_, _, _, _, _, _, _, _, heq, -⟩ := fmtDate_chars d
    rw [heq]
    rfl
  have hnumber := number_of_dateAt hd
  have hfits : begins / 60 % 24 < 24 ∧ begins % 60 < 60 := by omega
  unfold parseDatetime
  rw [hchars, drop_left' hten, take_left' hten, String.ofList_toList]
  show (Option.map NaiveDateTime.instant do
    let date ← parseDate (fmtDate d)
    let hour ← digitsValue [h₁, h₂] 0
    let minute ← digitsValue [m₁, m₂] 0
    if h : hour < 24 ∧ minute < 60 then return ⟨date, ⟨hour, h.1⟩, ⟨minute, h.2⟩⟩ else none) = some begins
  rw [parseDate_fmtDate, hhour, hminute]
  simp only [bind_eq_bind, bind_some, dif_pos hfits, map_some, Option.some.injEq, pure]
  show (d.number * 24 + begins / 60 % 24) * 60 + begins % 60 = begins
  omega

theorem rsplitAt_last {c : Char} {b : List Char} (hb : c ∉ b) (a : List Char) :
    Wiki.rsplitAt [c] (a ++ c :: b) = some (a, b) := by
  have hnone : ∀ cs : List Char, c ∉ cs → Wiki.rsplitAt [c] cs = none := by
    intro cs hcs
    induction cs with
    | nil => rfl
    | cons d cs ih =>
      rw [mem_cons, not_or] at hcs
      rw [Wiki.rsplitAt, ih hcs.2]
      simp [stripPrefixChars, hcs.1]
  induction a with
  | nil =>
    rw [nil_append, Wiki.rsplitAt, hnone b hb]
    simp [stripPrefixChars]
  | cons d a ih => rw [cons_append, Wiki.rsplitAt, ih]

theorem not_mem_fmtDatetime (begins : ℕ) : '@' ∉ (fmtDatetime begins).toList := by
  unfold fmtDatetime
  split
  · rename_i d _
    simp only [fmtDate, String.toList_append, mem_append, not_or]
    have hp := @not_mem_padded '@' (by decide)
    exact ⟨⟨⟨⟨⟨⟨⟨⟨hp 4 _, by decide⟩, hp 2 _⟩, by decide⟩, hp 2 _⟩, by decide⟩, hp 2 _⟩, by decide⟩, hp 2 _⟩
  · decide

theorem keyBegins_key (d : StartDue) (h : d.begins < midnight yearsEnd) : keyBegins d.key = some d.begins := by
  have hat : "@".toList = ['@'] := rfl
  unfold keyBegins StartDue.key
  rw [String.toList_append, String.toList_append, hat, append_assoc, singleton_append,
    rsplitAt_last (not_mem_fmtDatetime d.begins), bind_some]
  rw [String.ofList_toList]
  exact parseDatetime_fmtDatetime h

end Molt.Kanban
