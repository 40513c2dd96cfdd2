import Mathlib
import MoltRepublic.Chat.Wire

/-! What a message reads like behind the verbs about it: each part of the reading is read off
the verbs of one member. -/

namespace Molt.Chat
open Molt.Core List SortedMap

def PendingRef.member : PendingRef → String
  | .react member _ _ => member
  | .delete member => member
  | .fileRemove member => member
  | .read member => member

def act (m : ChatMessage) : PendingRef → ChatMessage
  | .react member emoji op => reactOn emoji member op m
  | .delete member => if m.sender = member then deleteOn member m else m
  | .fileRemove member => if m.sender = member then removeFileOn m else m
  | .read member => readOn member m

def pick (member : String) (p : Option String) : PendingRef → Option String
  | .react who emoji (some .add) => if who = member then some emoji else p
  | .react who emoji (some .remove) => if who = member ∧ p = some emoji then none else p
  | _ => p

def picked (member : String) (refs : List PendingRef) : Option String := refs.foldl (pick member) none

def Explicit (r : PendingRef) : Prop := ∀ member emoji, r ≠ .react member emoji none

section

theorem mem_reactions {reactions : SortedMap String (List String)} {e who : String} :
    who ∈ (reactions.get? e).getD [] ↔ ∃ l, (e, l) ∈ reactions.entries ∧ who ∈ l := by
  constructor
  · intro h
    cases hl : reactions.get? e with
    | none => simp [hl] at h
    | some l => exact ⟨l, get?_eq_some.mp hl, by simpa [hl] using h⟩
  · rintro ⟨l, hl, hwho⟩
    rw [get?_eq_some.mpr hl]
    exact hwho

theorem mem_withoutMember (reactions : SortedMap String (List String)) (member e who : String) :
    who ∈ ((withoutMember reactions member).get? e).getD [] ↔
      who ∈ (reactions.get? e).getD [] ∧ who ≠ member := by
  rw [mem_reactions, mem_reactions]
  unfold withoutMember
  simp only [mem_filter, mem_map, Prod.exists, Prod.mk.injEq]
  constructor
  · rintro ⟨l, ⟨⟨e', l', hl', rfl, rfl⟩, -⟩, hwho⟩
    obtain ⟨hin, hne⟩ := mem_filter.mp hwho
    exact ⟨⟨l', hl', hin⟩, by simpa using hne⟩
  · rintro ⟨⟨l, hl, hin⟩, hne⟩
    have hstill : who ∈ l.filter fun w => w != member := mem_filter.mpr ⟨hin, by simpa using hne⟩
    refine ⟨_, ⟨⟨e, l, hl, rfl, rfl⟩, ?_⟩, hstill⟩
    cases hf : l.filter fun w => w != member with
    | nil => rw [hf] at hstill; exact absurd hstill not_mem_nil
    | cons w rest => rfl

theorem mem_addReaction (reactions : SortedMap String (List String)) (emoji member e who : String) :
    who ∈ ((reactions.insert emoji ((reactions.get? emoji).getD [] ++ [member])).get? e).getD [] ↔
      who ∈ (reactions.get? e).getD [] ∨ who = member ∧ e = emoji := by
  rw [get?_insert]
  by_cases he : e = emoji
  · subst he
    simp
  · simp [he]

def ReactionsAre (m : ChatMessage) (p : String → Option String) : Prop :=
  ∀ e who, who ∈ (m.reactions.get? e).getD [] ↔ p who = some e

theorem ReactionsAre.reactOn {m : ChatMessage} {p : String → Option String} (h : ReactionsAre m p)
    (hlive : m.deletedBy = none) (emoji member : String) (op : ReactOp) :
    ReactionsAre (reactOn emoji member (some op) m)
      fun who => pick who (p who) (.react member emoji (some op)) := by
  have hhas : ((m.reactions.get? emoji).getD []).contains member = true ↔ p member = some emoji := by
    rw [contains_iff_mem]
    exact h emoji member
  intro e who
  unfold Chat.reactOn
  rw [if_neg (by simp [hlive])]
  cases op with
  | add =>
    dsimp only [pick]
    by_cases hp : p member = some emoji
    · rw [if_pos (hhas.mpr hp).symm, h e who]
      by_cases hwho : member = who
      · subst hwho
        rw [if_pos rfl, hp]
      · rw [if_neg hwho]
    · have hno : ¬ true = ((m.reactions.get? emoji).getD []).contains member := fun hc => hp (hhas.mp hc.symm)
      rw [if_neg hno, if_pos rfl]
      dsimp only
      rw [mem_addReaction, mem_withoutMember, h e who]
      by_cases hwho : member = who
      · subst hwho
        simp [eq_comm]
      · rw [if_neg hwho]
        simp [Ne.symm hwho]
  | remove =>
    dsimp only [pick]
    by_cases hp : p member = some emoji
    · have hyes : ¬ false = ((m.reactions.get? emoji).getD []).contains member := by
        rw [hhas.mpr hp]
        exact Bool.false_ne_true
      rw [if_neg hyes, if_neg Bool.false_ne_true]
      rw [mem_withoutMember, h e who]
      by_cases hwho : member = who
      · subst hwho
        simp [hp]
      · simp [hwho, Ne.symm hwho]
    · have hno : ((m.reactions.get? emoji).getD []).contains member = false := by
        rw [← Bool.not_eq_true]
        exact fun hc => hp (hhas.mp hc)
      rw [if_pos hno.symm, h e who]
      by_cases hwho : member = who
      · subst hwho
        rw [if_neg fun hc => hp hc.2]
      · rw [if_neg fun hc => hwho hc.1]

end

structure Bare (m : ChatMessage) : Prop where
  deletedBy : m.deletedBy = none
  readBy : m.readBy = ∅
  reactions : m.reactions = SortedMap.empty

def unavailable (f : FileMeta) : FileMeta := { f with available := false }

structure Reads (m₀ : ChatMessage) (refs : List PendingRef) (m : ChatMessage) : Prop where
  id : m.id = m₀.id
  sender : m.sender = m₀.sender
  gone : .delete m₀.sender ∈ refs → m.body = "" ∧ m.file = none ∧ m.deletedBy = some m₀.sender ∧
    m.readBy = ∅ ∧ m.reactions = SortedMap.empty
  live : .delete m₀.sender ∉ refs → m.body = m₀.body ∧ m.deletedBy = none ∧
    m.file = (if .fileRemove m₀.sender ∈ refs then m₀.file.map unavailable else m₀.file) ∧
    (∀ who, who ∈ m.readBy ↔ .read who ∈ refs ∧ who ≠ m₀.sender) ∧
    ReactionsAre m fun who => picked who refs

theorem reads_nil {m₀ : ChatMessage} (h : Bare m₀) : Reads m₀ [] m₀ where
  id := rfl
  sender := rfl
  gone := by simp
  live := by
    refine fun _ => ⟨rfl, h.deletedBy, rfl, ?_, ?_⟩
    · intro who
      simp [h.readBy]
    · intro e who
      simp [h.reactions, get?_empty, picked]

theorem picked_concat (who : String) (refs : List PendingRef) (r : PendingRef) :
    picked who (refs ++ [r]) = pick who (picked who refs) r := by
  unfold picked
  rw [foldl_append]
  rfl

theorem ReactionsAre.concat {m : ChatMessage} {refs : List PendingRef} {r : PendingRef}
    (h : ReactionsAre m fun who => pick who (picked who refs) r) :
    ReactionsAre m fun who => picked who (refs ++ [r]) := by
  intro e who
  refine (h e who).trans ?_
  dsimp only
  rw [picked_concat]

namespace Reads

variable {m₀ m : ChatMessage} {refs : List PendingRef}

theorem deleted_iff (h : Reads m₀ refs m) : m.deletedBy.isSome = true ↔ .delete m₀.sender ∈ refs := by
  constructor
  · intro hsome
    by_contra hno
    rw [(h.live hno).2.1] at hsome
    cases hsome
  · intro hin
    rw [(h.gone hin).2.2.1]
    rfl

theorem still (h : Reads m₀ refs m) {r : PendingRef} (hdelete : r ≠ .delete m₀.sender)
    (hfile : .delete m₀.sender ∉ refs → r = .fileRemove m₀.sender → m₀.file = none)
    (hread : .delete m₀.sender ∉ refs → ∀ who, r = .read who → who = m₀.sender ∨ who ∈ m.readBy)
    (hpick : .delete m₀.sender ∉ refs → ∀ who, pick who (picked who refs) r = picked who refs) :
    Reads m₀ (refs ++ [r]) m := by
  have hiff : .delete m₀.sender ∈ refs ++ [r] ↔ .delete m₀.sender ∈ refs := by
    rw [mem_append, mem_singleton]
    exact or_iff_left fun hr => hdelete hr.symm
  refine ⟨h.id, h.sender, fun hin => h.gone (hiff.mp hin), ?_⟩
  intro hno
  have hno : .delete m₀.sender ∉ refs := fun hin => hno (hiff.mpr hin)
  obtain ⟨hbody, hdeleted, hfile', hreads, hreactions⟩ := h.live hno
  refine ⟨hbody, hdeleted, ?_, ?_, ?_⟩
  · rw [hfile']
    by_cases hr : r = .fileRemove m₀.sender
    · rw [hfile hno hr]
      simp
    · have hsame : .fileRemove m₀.sender ∈ refs ++ [r] ↔ .fileRemove m₀.sender ∈ refs := by
        rw [mem_append, mem_singleton]
        exact or_iff_left fun hc => hr hc.symm
      simp [hsame]
  · intro who
    rw [hreads who, mem_append, mem_singleton]
    constructor
    · exact fun ⟨hin, hne⟩ => ⟨.inl hin, hne⟩
    · rintro ⟨hin | hr, hne⟩
      · exact ⟨hin, hne⟩
      · rcases hread hno who hr.symm with hown | hin
        · exact absurd hown hne
        · exact (hreads who).mp hin
  · apply ReactionsAre.concat
    intro e who
    dsimp only
    rw [hpick hno who]
    exact hreactions e who

theorem react (h : Reads m₀ refs m) (member emoji : String) (op : ReactOp) :
    Reads m₀ (refs ++ [.react member emoji (some op)]) (reactOn emoji member (some op) m) := by
  have hiff : .delete m₀.sender ∈ refs ++ [.react member emoji (some op)] ↔ .delete m₀.sender ∈ refs := by
    simp
  have hquiet : (reactOn emoji member (some op) m) =
      { m with reactions := (reactOn emoji member (some op) m).reactions } := by
    unfold reactOn
    split_ifs
    · rfl
    · dsimp only
      split_ifs <;> rfl
  refine ⟨?_, ?_, ?_, ?_⟩
  · rw [hquiet]
    exact h.id
  · rw [hquiet]
    exact h.sender
  · intro hin
    have hin := hiff.mp hin
    have hsame : reactOn emoji member (some op) m = m := by
      unfold reactOn
      rw [if_pos (h.deleted_iff.mpr hin)]
    rw [hsame]
    exact h.gone hin
  · intro hno
    have hno : .delete m₀.sender ∉ refs := fun hin => hno (hiff.mpr hin)
    obtain ⟨hbody, hdeleted, hfile, hreads, hreactions⟩ := h.live hno
    have hnext := hreactions.reactOn hdeleted emoji member op
    rw [hquiet] at hnext ⊢
    exact ⟨hbody, hdeleted, by simpa using hfile, by simpa using hreads, hnext.concat⟩

theorem delete (h : Reads m₀ refs m) (member : String) :
    Reads m₀ (refs ++ [.delete member]) (act m (.delete member)) := by
  change Reads m₀ _ (if m.sender = member then deleteOn member m else m)
  by_cases hown : m.sender = member
  · rw [if_pos hown]
    have hsender : member = m₀.sender := hown.symm.trans h.sender
    subst hsender
    exact ⟨h.id, h.sender, fun _ => ⟨rfl, rfl, rfl, rfl, rfl⟩, fun hno => absurd (by simp) hno⟩
  · rw [if_neg hown]
    have hne : member ≠ m₀.sender := fun heq => hown (h.sender.trans heq.symm)
    exact h.still (by simp [hne]) (by simp) (by simp) (fun _ who => rfl)

theorem fileRemove (h : Reads m₀ refs m) (member : String) :
    Reads m₀ (refs ++ [.fileRemove member]) (act m (.fileRemove member)) := by
  change Reads m₀ _ (if m.sender = member then removeFileOn m else m)
  by_cases hown : m.sender = member
  · rw [if_pos hown]
    have hsender : member = m₀.sender := hown.symm.trans h.sender
    subst hsender
    refine ⟨h.id, h.sender, ?_, ?_⟩
    · intro hin
      obtain ⟨hbody, hfile, hdeleted, hreads, hreactions⟩ := h.gone (by simpa using hin)
      refine ⟨hbody, ?_, hdeleted, hreads, hreactions⟩
      unfold removeFileOn
      rw [hfile]
      rfl
    · intro hno
      obtain ⟨hbody, hdeleted, hfile, hreads, hreactions⟩ := h.live (by simpa using hno)
      refine ⟨hbody, hdeleted, ?_, by simpa [removeFileOn] using hreads, ?_⟩
      · rw [if_pos (by simp)]
        unfold removeFileOn
        rw [hfile]
        split_ifs
        · rw [Option.map_map]
          rfl
        · rfl
      · exact ReactionsAre.concat hreactions
  · rw [if_neg hown]
    have hne : member ≠ m₀.sender := fun heq => hown (h.sender.trans heq.symm)
    exact h.still (by simp) (by simp [hne]) (by simp) (fun _ who => rfl)

theorem read (h : Reads m₀ refs m) (member : String) :
    Reads m₀ (refs ++ [.read member]) (readOn member m) := by
  have hiff : .delete m₀.sender ∈ refs ++ [.read member] ↔ .delete m₀.sender ∈ refs := by
    simp
  by_cases hskip : (m.deletedBy.isSome || m.sender == member) = true
  · have hsame : readOn member m = m := if_pos hskip
    rw [hsame]
    refine h.still (by simp) (by simp) ?_ (fun _ who => rfl)
    intro hno who hwho
    have hlive : m.deletedBy.isSome = false := by
      rw [(h.live hno).2.1]
      rfl
    rw [hlive, Bool.false_or, beq_iff_eq] at hskip
    cases hwho
    exact .inl (hskip.symm.trans h.sender)
  · have hnext : readOn member m = { m with readBy := insert member m.readBy } := if_neg hskip
    rw [hnext]
    simp only [Bool.or_eq_true, beq_iff_eq, not_or] at hskip
    refine ⟨h.id, h.sender, fun hin => absurd (h.deleted_iff.mpr (hiff.mp hin)) hskip.1, ?_⟩
    intro hno
    obtain ⟨hbody, hdeleted, hfile, hreads, hreactions⟩ := h.live fun hin => hno (hiff.mpr hin)
    refine ⟨hbody, hdeleted, by simpa using hfile, ?_, ?_⟩
    · intro who
      rw [Finset.mem_insert, hreads who, mem_append, mem_singleton]
      constructor
      · rintro (rfl | ⟨hin, hne⟩)
        · exact ⟨.inr rfl, fun hown => hskip.2 (h.sender.trans hown.symm)⟩
        · exact ⟨.inl hin, hne⟩
      · rintro ⟨hin | hr, hne⟩
        · exact .inr ⟨hin, hne⟩
        · cases hr
          exact .inl rfl
    · exact ReactionsAre.concat hreactions

theorem act (h : Reads m₀ refs m) {r : PendingRef} (hr : Explicit r) :
    Reads m₀ (refs ++ [r]) (act m r) := by
  cases r with
  | react member emoji op =>
    cases op with
    | none => exact absurd rfl (hr member emoji)
    | some op => exact h.react member emoji op
  | delete member => exact h.delete member
  | fileRemove member => exact h.fileRemove member
  | read member => exact h.read member

theorem foldl (h : Reads m₀ refs m) {more : List PendingRef} (hmore : ∀ r ∈ more, Explicit r) :
    Reads m₀ (refs ++ more) (more.foldl Chat.act m) := by
  induction more generalizing refs m with
  | nil =>
    rw [append_nil]
    exact h
  | cons r more ih =>
    have hnext := ih (h.act (hmore r (.head _))) fun x hx => hmore x (.tail _ hx)
    rwa [append_assoc] at hnext

end Reads

end Molt.Chat
