import Mathlib
import MoltRepublic.Kanban.Starts

/-! What a scan sees: the starts that are due, and none that are not, and when the next one fires. -/

namespace Molt.Kanban
open Check List SortedMap Option

def Starts (board : BoardState) (seat : String) (id : TaskId) (begins : ℕ) : Prop :=
  ∃ t, board.tasks.get? id = some t ∧ t.state = .todo ∧ seat ∈ t.assignees ∧ t.Begins begins

def DueAt (now : ℕ) (lead : UInt16) (begins : ℕ) : Prop :=
  begins * 60 ≤ now + lead.toNat * 60 ∧ now < begins * 60 + missedHorizonSecs

structure Grows (out out' : StartScan) : Prop where
  due : ∀ d ∈ out.due, d ∈ out'.due
  next : ∀ n, out.nextFire = some n → ∃ m, out'.nextFire = some m ∧ m ≤ n

theorem Grows.refl (out : StartScan) : Grows out out := ⟨fun _ h => h, fun n h => ⟨n, h, le_rfl⟩⟩

theorem Grows.trans {a b c : StartScan} (h : Grows a b) (h' : Grows b c) : Grows a c := by
  refine ⟨fun d hd => h'.due d (h.due d hd), fun n hn => ?_⟩
  obtain ⟨m, hm, hle⟩ := h.next n hn
  obtain ⟨k, hk, hle'⟩ := h'.next m hm
  exact ⟨k, hk, hle'.trans hle⟩

theorem foldlM_grows {β : Type} {f : StartScan → β → Option StartScan} (New : β → StartDue → Prop)
    (Shows : β → StartScan → Prop) (hmono : ∀ e out out', Grows out out' → Shows e out → Shows e out') {l : List β}
    (hstep : ∀ e ∈ l, ∀ out out', f out e = some out' →
      Grows out out' ∧ (∀ d ∈ out'.due, d ∈ out.due ∨ New e d) ∧ Shows e out')
    {out out' : StartScan} (h : l.foldlM f out = some out') :
    Grows out out' ∧ (∀ d ∈ out'.due, d ∈ out.due ∨ ∃ e ∈ l, New e d) ∧ ∀ e ∈ l, Shows e out' := by
  induction l generalizing out with
  | nil =>
    cases h
    exact ⟨.refl _, fun d hd => .inl hd, nofun⟩
  | cons e l ih =>
    obtain ⟨mid, hmid, h⟩ := bind_eq_some_iff.mp h
    obtain ⟨hgrows, hnew, hshows⟩ := hstep e (.head _) out mid hmid
    obtain ⟨hgrows', hnew', hshows'⟩ := ih (fun e' he' => hstep e' (.tail _ he')) h
    refine ⟨hgrows.trans hgrows', fun d hd => ?_, ?_⟩
    · rcases hnew' d hd with hd | ⟨e', he', hd⟩
      · exact (hnew d hd).imp_right fun hd => ⟨e, .head _, hd⟩
      · exact .inr ⟨e', .tail _ he', hd⟩
    · exact forall_mem_cons.mpr ⟨hmono _ _ _ hgrows' hshows, hshows'⟩

structure Sees (now : ℕ) (lead : UInt16) (id : TaskId) (begins : ℕ) (out : StartScan) : Prop where
  due : DueAt now lead begins → ∃ d ∈ out.due, d.task = id ∧ d.begins = begins
  next : now + lead.toNat * 60 < begins * 60 → ∃ m, out.nextFire = some m ∧ m ≤ begins * 60 - lead.toNat * 60

theorem Sees.mono {now : ℕ} {lead : UInt16} {id : TaskId} {begins : ℕ} {out out' : StartScan} (hgrows : Grows out out')
    (h : Sees now lead id begins out) : Sees now lead id begins out' := by
  constructor
  · intro hdue
    obtain ⟨d, hd, heq⟩ := h.due hdue
    exact ⟨d, hgrows.due d hd, heq⟩
  · intro hlater
    obtain ⟨n, hn, hle⟩ := h.next hlater
    obtain ⟨m, hm, hle'⟩ := hgrows.next n hn
    exact ⟨m, hm, hle'.trans hle⟩

section
variable {seat : String} {now : ℕ} {lead : UInt16}

theorem scanOccurrence_spec (id : TaskId) (t : Task) (blocked : Bool) (out : StartScan) (o : Occurrence) :
    Grows out (scanOccurrence now lead id t blocked out o) ∧
      (∀ d ∈ (scanOccurrence now lead id t blocked out o).due, d ∈ out.due ∨
        (d.task = id ∧ d.begins = o.window.begins ∧ DueAt now lead d.begins)) ∧
      Sees now lead id o.window.begins (scanOccurrence now lead id t blocked out o) := by
  unfold scanOccurrence
  dsimp only
  split
  case isTrue hlater =>
    refine ⟨⟨fun _ h => h, fun n hn => ?_⟩, fun d hd => .inl hd, fun hdue => ?_, fun _ => ?_⟩
    · rw [hn]
      exact ⟨_, rfl, Nat.min_le_left ..⟩
    · exact absurd hlater (Nat.not_lt.mpr hdue.1)
    · cases out.nextFire with
      | none => exact ⟨_, rfl, le_rfl⟩
      | some n => exact ⟨_, rfl, Nat.min_le_right ..⟩
  case isFalse hcome =>
    split
    case isTrue hrecent =>
      have hdue : DueAt now lead o.window.begins := ⟨Nat.le_of_not_lt hcome, hrecent⟩
      refine ⟨⟨fun d hd => mem_append_left _ hd, fun n hn => ⟨n, hn, le_rfl⟩⟩, fun d hd => ?_, fun _ => ?_,
        fun hlater => absurd hlater hcome⟩
      · refine (mem_append.mp hd).imp_right fun hd => ?_
        rw [mem_singleton.mp hd]
        exact ⟨rfl, rfl, hdue⟩
      · exact ⟨_, mem_append_right _ (.head _), rfl, rfl⟩
    case isFalse hlate =>
      exact ⟨.refl _, fun d hd => .inl hd, fun hdue => absurd hdue.2 hlate, fun hlater => absurd hlater hcome⟩

def InView (now : ℕ) (lead : UInt16) (begins : ℕ) : Prop :=
  DueAt now lead begins ∨
    (now + lead.toNat * 60 < begins * 60 ∧ begins * 60 ≤ now + lead.toNat * 60 + lookaheadDays * 86400)

theorem scanTask_spec {derived : Derived} {from_ to_ : NaiveDate} {out out' : StartScan} {id : TaskId} {t : Task}
    (ht : t.Timely) (hview : to_.number ≤ from_.number + 600)
    (hin : ∀ begins, t.Begins begins → InView now lead begins →
      midnight from_.number ≤ begins ∧ begins < midnight (to_.number + 1))
    (h : scanTask seat now lead derived from_ to_ out id t = some out') :
    Grows out out' ∧
      (∀ d ∈ out'.due, d ∈ out.due ∨
        (d.task = id ∧ t.state = .todo ∧ seat ∈ t.assignees ∧ t.Begins d.begins ∧ DueAt now lead d.begins)) ∧
      (t.state = .todo → seat ∈ t.assignees → ∀ begins, t.Begins begins → InView now lead begins →
        Sees now lead id begins out') := by
  unfold scanTask at h
  split at h
  case h_1 hnone =>
    cases h
    refine ⟨.refl _, fun d hd => .inl hd, fun _ _ begins hbegins _ => ?_⟩
    obtain ⟨w, hw, -⟩ := hbegins
    rw [hnone] at hw
    cases hw
  case h_2 w hw =>
    split at h
    case isTrue hother =>
      cases h
      refine ⟨.refl _, fun d hd => .inl hd, fun htodo hseat _ _ _ => ?_⟩
      exact absurd hother (not_or.mpr ⟨not_not_intro htodo, not_not_intro hseat⟩)
    case isFalse hmine =>
      rw [not_or, not_not, not_not] at hmine
      obtain ⟨occurrences, hexpand, h⟩ := bind_eq_some_iff.mp h
      obtain ⟨hreal, hall⟩ := expand_begins ht hw hview hexpand
      have hfold : occurrences.foldlM (fun out o => some (scanOccurrence now lead id t
          ((derived.tasks.get? id).any fun d => d.shown == .blocked || d.shown == .stuck) out o)) out = some out' := by
        rw [← h]
        exact foldlM_pure
      obtain ⟨hgrows, hnew, hsees⟩ := foldlM_grows
        (fun o d => d.task = id ∧ d.begins = o.window.begins ∧ DueAt now lead d.begins)
        (fun o => Sees now lead id o.window.begins)
        (fun _ _ _ => Sees.mono) (fun o _ out out' hstep => by
          rw [← Option.some.inj hstep]
          exact scanOccurrence_spec id t _ out o) hfold
      refine ⟨hgrows, fun d hd => ?_, fun _ _ begins hbegins hnear => ?_⟩
      · refine (hnew d hd).imp_right fun hd => ?_
        obtain ⟨o, ho, htask, hbegins, hdue⟩ := hd
        exact ⟨htask, hmine.1, hmine.2, hbegins ▸ hreal o ho, hdue⟩
      · obtain ⟨hfrom, hto⟩ := hin begins hbegins hnear
        obtain ⟨o, ho, rfl⟩ := hall begins hbegins hfrom hto
        exact hsees o ho

def OnCalendar (now : ℕ) (lead : UInt16) : Prop := now + lead.toNat * 60 < yearsEnd * 86400

theorem view_spec (hepoch : missedHorizonSecs ≤ now) (hclock : OnCalendar now lead) {from_ to_ : NaiveDate}
    (hfrom : from_ = (dateAt ((now - missedHorizonSecs) / 86400)).getD lastDate)
    (hto : to_ = (dateAt ((now + lead.toNat * 60) / 86400 + lookaheadDays)).getD lastDate) :
    to_.number ≤ from_.number + 600 ∧ ∀ begins, begins < midnight yearsEnd → InView now lead begins →
      midnight from_.number ≤ begins ∧ begins < midnight (to_.number + 1) := by
  have hlead := lead.toNat_lt
  have hlast : lastDate.number + 1 = yearsEnd := by decide +kernel
  unfold OnCalendar at hclock
  unfold missedHorizonSecs lookaheadDays at *
  obtain ⟨d, hd⟩ := dateAt_isSome (show (now - 24 * 3600) / 86400 < yearsEnd by omega)
  rw [hd, getD_some] at hfrom
  have hnumber := number_of_dateAt hd
  have hupper : to_.number ≤ (now + lead.toNat * 60) / 86400 + 15 ∧
      ((now + lead.toNat * 60) / 86400 + 15 ≤ to_.number ∨ to_.number + 1 = yearsEnd) := by
    cases hday : dateAt ((now + lead.toNat * 60) / 86400 + 15) with
    | some e =>
      rw [hday, getD_some] at hto
      rw [hto, number_of_dateAt hday]
      exact ⟨le_rfl, .inl le_rfl⟩
    | none =>
      rw [hday, getD_none] at hto
      rw [hto]
      refine ⟨?_, .inr hlast⟩
      by_contra hlt
      obtain ⟨e, he⟩ := dateAt_isSome (show (now + lead.toNat * 60) / 86400 + 15 < yearsEnd by omega)
      rw [he] at hday
      cases hday
  rw [hfrom, hnumber]
  refine ⟨by omega, fun begins hbegins hnear => ?_⟩
  unfold InView DueAt missedHorizonSecs lookaheadDays at hnear
  unfold midnight at *
  omega

theorem startScan_spec {board : BoardState} (hboard : Timely board.tasks) {derived : Derived}
    (hepoch : missedHorizonSecs ≤ now) (hclock : OnCalendar now lead) {out : StartScan}
    (h : startScan seat now lead board derived = some out) :
    (∀ d ∈ out.due, Starts board seat d.task d.begins ∧ DueAt now lead d.begins) ∧
      ∀ id begins, Starts board seat id begins → InView now lead begins → Sees now lead id begins out := by
  obtain ⟨hview, hin⟩ := view_spec hepoch hclock rfl rfl
  have hentry : ∀ e ∈ board.tasks.entries, board.tasks.get? e.1 = some e.2 := fun e he =>
    get?_eq_some.mpr he
  obtain ⟨-, hnew, hsees⟩ := foldlM_grows
    (fun (e : TaskId × Task) d => d.task = e.1 ∧ e.2.state = .todo ∧ seat ∈ e.2.assignees ∧ e.2.Begins d.begins ∧
      DueAt now lead d.begins)
    (fun e out => e.2.state = .todo → seat ∈ e.2.assignees → ∀ begins, e.2.Begins begins →
      InView now lead begins → Sees now lead e.1 begins out)
    (by
      intro e out out' hgrows hshows htodo hseat begins hbegins hnear
      exact (hshows htodo hseat begins hbegins hnear).mono hgrows)
    (fun e he out out' hstep => scanTask_spec (hboard e.1 e.2 (hentry e he)) hview
      (fun begins hbegins => hin begins hbegins.lt) hstep) h
  refine ⟨fun d hd => ?_, fun id begins hstarts hnear => ?_⟩
  · rcases hnew d hd with hd | ⟨e, he, htask, htodo, hseat, hbegins, hdue⟩
    · cases hd
    · exact ⟨⟨e.2, htask ▸ hentry e he, htodo, hseat, hbegins⟩, hdue⟩
  · obtain ⟨t, ht, htodo, hseat, hbegins⟩ := hstarts
    exact hsees (id, t) (get?_eq_some.mp ht) htodo hseat begins hbegins hnear

end

end Molt.Kanban
