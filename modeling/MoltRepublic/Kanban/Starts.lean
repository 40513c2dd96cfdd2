import Mathlib
import MoltRepublic.Kanban.Spelled

/-! When the tasks of a board begin: an expansion around a clock shows every start that is in it,
whatever its caps, and a folded board has no window that ends before it begins. -/

namespace Molt.Kanban
open Check Turns List SortedMap

def Task.Begins (t : Task) (begins : ℕ) : Prop :=
  ∃ w, t.when = some w ∧
    match t.recurs with
    | none => begins = w.begins
    | some r => ∃ d, isOccurrence w r d = true ∧ d ∉ t.skip ∧
        begins = ((t.moved.get? d).map When.begins).getD (w.begins + midnight (d.number - w.startDate.number))

structure Task.Timely (t : Task) : Prop where
  when : ∀ w, t.when = some w → w.begins < w.ends
  recurs : ∀ r, t.recurs = some r → r.Fits
  moved : ∀ d w, t.moved.get? d = some w → w.begins < w.ends

def Timely (tasks : Tasks) : Prop := ∀ id t, tasks.get? id = some t → t.Timely

theorem When.begins_lt (w : When) : w.begins < midnight yearsEnd := by
  have hday := number_lt_yearsEnd w.startDate
  have hbound := w.begins_bounds.2
  unfold midnight at *
  omega

variable {t : Task}

theorem Task.Begins.lt {begins : ℕ} (h : t.Begins begins) : begins < midnight yearsEnd := by
  obtain ⟨w, -, h⟩ := h
  split at h
  · rw [h]
    exact w.begins_lt
  · obtain ⟨d, hocc, -, rfl⟩ := h
    cases t.moved.get? d with
    | some m => exact m.begins_lt
    | none =>
      have hle := start_le_occurrence hocc
      have hday := number_lt_yearsEnd d
      have hbound := w.begins_bounds.2
      show w.begins + midnight (d.number - w.startDate.number) < _
      unfold midnight at *
      omega

section
variable {w : When} {r : Repeat} {skip : List NaiveDate} {moved : SortedMap NaiveDate When} {from_ to_ : NaiveDate}

theorem length_ascending {l : List ℕ} (h : l.Pairwise (· < ·)) {a b : ℕ} (hl : ∀ n ∈ l, a ≤ n ∧ n < b) :
    l.length ≤ b - a := by
  have hnodup : l.Nodup := h.imp fun hlt => hlt.ne
  have hsub : l.toFinset ⊆ Finset.Ico a b := fun n hn => Finset.mem_Ico.mpr (hl n (mem_toFinset.mp hn))
  have hcard := Finset.card_le_card hsub
  rwa [toFinset_card_of_nodup hnodup, Nat.card_Ico] at hcard

theorem scanned_short (hr : r.Fits) (hview : to_.number ≤ from_.number + 600) :
    ((walk w.startDate r to_.number).filter (scanFrom w from_ ≤ ·)).length ≤ expandMax := by
  have hin := length_ascending ((walk_ascending hr w.startDate to_.number).filter (scanFrom w from_ ≤ ·))
    (a := scanFrom w from_) (b := to_.number + 1) fun n hn => by
      obtain ⟨hwalk, hfrom⟩ := mem_filter.mp hn
      exact ⟨of_decide_eq_true hfrom, Nat.lt_succ_of_le (le_of_mem_walk hr hwalk)⟩
  have hreach : from_.number ≤ scanFrom w from_ + 366 := by
    unfold scanFrom expandReachDays
    omega
  unfold expandMax
  omega

theorem mem_collected_begins (hr : r.Fits) {o : Occurrence} (ho : Appears w r skip moved from_ to_ o)
    (hfrom : midnight from_.number ≤ o.window.begins) (hto : o.window.begins < midnight (to_.number + 1)) :
    o ∈ collected w r skip moved from_ to_ := by
  obtain ⟨hocc, hplace⟩ := appears_iff.mp ho
  obtain ⟨-, -, -, hwindow⟩ := ho
  unfold collected placeDay
  simp only [mem_append, mem_filterMap, mem_filter, decide_eq_true_eq, Bool.or_eq_true]
  by_cases hin : scanFrom w from_ ≤ o.date.number ∧ o.date.number ≤ to_.number
  · left
    refine ⟨o.date.number, ⟨(mem_walk hr hin.2).mpr hocc, hin.1⟩, ?_⟩
    rw [dateAt_number]
    exact hplace
  · right
    refine ⟨o.date, ⟨⟨?_, ?_⟩, hocc⟩, hplace⟩
    · cases hmoved : moved.get? o.date with
      | some m => exact mem_map.mpr ⟨_, get?_eq_some.mp hmoved, rfl⟩
      | none =>
        rw [hmoved] at hwindow
        rw [hwindow.1, Window.later_begins, w.window_begins] at hfrom hto
        have hle := start_le_occurrence hocc
        obtain ⟨hlo, hhi⟩ := w.begins_bounds
        refine absurd ⟨?_, ?_⟩ hin
        · unfold scanFrom
          unfold midnight at *
          omega
        · unfold midnight at *
          omega
    · rw [← NaiveDate.number_lt]
      omega

end

theorem expand_begins (ht : t.Timely) {w : When} (hw : t.when = some w) {from_ to_ : NaiveDate}
    (hview : to_.number ≤ from_.number + 600) {occurrences : List Occurrence}
    (h : expand w t.skip t.moved from_ to_ t.recurs = some occurrences) :
    (∀ o ∈ occurrences, t.Begins o.window.begins) ∧
      ∀ begins, t.Begins begins → midnight from_.number ≤ begins → begins < midnight (to_.number + 1) →
        ∃ o ∈ occurrences, o.window.begins = begins := by
  have hwindow := ht.when w hw
  unfold Task.Begins
  rw [hw]
  cases hrecurs : t.recurs with
  | none =>
    rw [hrecurs] at h
    cases h
    constructor
    · intro o ho
      split at ho
      · rw [mem_singleton.mp ho]
        exact ⟨w, rfl, w.window_begins⟩
      · cases ho
    · rintro begins ⟨_, hsame, rfl⟩ hfrom hto
      cases hsame
      have hover : w.window.overlaps from_ to_ = true := by
        unfold Window.overlaps
        rw [w.window_begins, w.window_ends, Bool.and_eq_true, decide_eq_true_eq, decide_eq_true_eq]
        exact ⟨hto, hfrom.trans_lt hwindow⟩
      rw [if_pos hover]
      exact ⟨_, .head _, w.window_begins⟩
  | some r =>
    have hr := ht.recurs r hrecurs
    rw [hrecurs] at h
    obtain ⟨hover, hcalm⟩ := @expand_scanned w r t.skip t.moved from_ to_ hr (scanned_short hr hview)
    have hno : ¬ OverflowsIn w r from_ to_ := fun hyes => by
      rw [hover hyes] at h
      cases h
    rw [hcalm hno] at h
    cases h
    have hmem : ∀ o, o ∈ (collected w r t.skip t.moved from_ to_).insertionSort (fun a b => sortKey a ≤ sortKey b) ↔
        o ∈ collected w r t.skip t.moved from_ to_ := fun o => (perm_insertionSort _ _).mem_iff
    constructor
    · intro o ho
      obtain ⟨hocc, hskip, -, hplaced⟩ := collected_appears hr ((hmem o).mp ho)
      refine ⟨w, rfl, o.date, hocc, hskip, ?_⟩
      cases hmoved : t.moved.get? o.date with
      | some m =>
        rw [hmoved] at hplaced
        rw [hplaced.1, m.window_begins]
        rfl
      | none =>
        rw [hmoved] at hplaced
        rw [hplaced.1, Window.later_begins, w.window_begins]
        rfl
    · rintro begins ⟨_, hsame, d, hocc, hskip, hbegins⟩ hfrom hto
      cases hsame
      have hshown : ∃ o, o.date = d ∧ o.window.begins = begins ∧ Appears w r t.skip t.moved from_ to_ o := by
        cases hmoved : t.moved.get? d with
        | some m =>
          rw [hmoved] at hbegins
          obtain rfl : begins = m.begins := hbegins
          refine ⟨⟨d, m.window, true⟩, rfl, m.window_begins, hocc, hskip, ?_, ?_⟩
          · unfold Window.overlaps
            rw [m.window_begins, m.window_ends, Bool.and_eq_true, decide_eq_true_eq, decide_eq_true_eq]
            exact ⟨hto, hfrom.trans_lt (ht.moved d m hmoved)⟩
          · rw [hmoved]
            exact ⟨rfl, rfl⟩
        | none =>
          rw [hmoved] at hbegins
          have hlater : (w.window.later (d.number - w.startDate.number)).begins = begins := by
            rw [Window.later_begins, w.window_begins]
            exact hbegins.symm
          refine ⟨⟨d, w.window.later (d.number - w.startDate.number), false⟩, rfl, hlater, hocc, hskip, ?_, ?_⟩
          · unfold Window.overlaps
            rw [hlater, Window.later_ends, w.window_ends, Bool.and_eq_true, decide_eq_true_eq, decide_eq_true_eq]
            rw [Window.later_begins, w.window_begins] at hlater
            exact ⟨hto, by omega⟩
          · rw [hmoved]
            exact ⟨rfl, rfl⟩
      obtain ⟨o, -, hbegin, hin⟩ := hshown
      exact ⟨o, (hmem o).mpr (mem_collected_begins hr hin (hbegin ▸ hfrom) (hbegin ▸ hto)), hbegin⟩

def Field.Timely : Field → Prop
  | .when (some w) => w.begins < w.ends
  | .recurs (some r) => r.Fits
  | .moved m => ∀ d w, m.get? d = some w → w.begins < w.ends
  | _ => True

theorem parseMoved_timely {fields : List (String × Json.Value)} {out moved : SortedMap NaiveDate When}
    (hout : ∀ d w, out.get? d = some w → w.begins < w.ends) (h : parseMoved fields out = .ok moved) :
    ∀ d w, moved.get? d = some w → w.begins < w.ends := by
  induction fields generalizing out with
  | nil =>
    cases h
    exact hout
  | cons f fields ih =>
    obtain ⟨d, -, h⟩ := bind_eq_ok.mp h
    obtain ⟨m, hm, h⟩ := bind_eq_ok.mp h
    refine ih (fun k w hk => ?_) h
    rw [get?_insert] at hk
    split_ifs at hk
    · rw [← Option.some.inj hk]
      exact When.parse_begins hm
    · exact hout k w hk

theorem Field.Parsed.timely {f : Field} (h : f.Parsed) : f.Timely := by
  obtain ⟨key, v, h⟩ := h
  unfold parseField at h
  have hmap : ∀ {α : Type} {x : Except String α} {c : α → Field}, x.map c = .ok f → (∀ a, (c a).Timely) → f.Timely := by
    intro α x c hx hc
    obtain ⟨a, -, rfl⟩ := map_eq_ok.mp hx
    exact hc a
  split at h
  case h_2 =>
    simp only [bind_eq_ok] at h
    obtain ⟨t, -, _, -, h⟩ := h
    obtain rfl := pure_eq_ok.mp h
    trivial
  case h_3 =>
    simp only [bind_eq_ok] at h
    obtain ⟨a, -, _, -, _, -, h⟩ := h
    obtain rfl := pure_eq_ok.mp h
    trivial
  case h_5 =>
    simp only [bind_eq_ok] at h
    obtain ⟨b, -, _, -, h⟩ := h
    obtain rfl := pure_eq_ok.mp h
    trivial
  case h_8 =>
    obtain ⟨o, ho, rfl⟩ := map_eq_ok.mp h
    unfold cleared at ho
    split at ho
    · cases ho
      trivial
    · obtain ⟨w, hw, rfl⟩ := map_eq_ok.mp ho
      exact When.parse_begins hw
  case h_9 =>
    obtain ⟨o, ho, rfl⟩ := map_eq_ok.mp h
    unfold cleared at ho
    split at ho
    · cases ho
      trivial
    · obtain ⟨r, hr, rfl⟩ := map_eq_ok.mp ho
      exact Repeat.parse_fits hr
  case h_11 =>
    obtain ⟨m, hmoved, rfl⟩ := map_eq_ok.mp h
    unfold cleared at hmoved
    split at hmoved
    · cases hmoved
      exact fun _ _ h => by cases h
    · obtain ⟨obj, -, hmoved⟩ := bind_eq_ok.mp hmoved
      exact parseMoved_timely (fun d w hw => by simp [get?_empty] at hw) hmoved
  case h_15 => simp at h
  all_goals exact hmap h fun _ => trivial

theorem setField_timely {f : Field} (hf : f.Timely) (ht : t.Timely) : (setField t f).Timely := by
  obtain ⟨hwhen, hrecurs, hmoved⟩ := ht
  cases f with
  | when v =>
    refine ⟨fun w hw => ?_, hrecurs, hmoved⟩
    obtain rfl : v = some w := hw
    exact hf
  | recurs v =>
    refine ⟨hwhen, fun r hr => ?_, hmoved⟩
    obtain rfl : v = some r := hr
    exact hf
  | moved v => exact ⟨hwhen, hrecurs, hf⟩
  | _ => exact ⟨hwhen, hrecurs, hmoved⟩

theorem setFields_timely {fields : List Field} (hfields : ∀ f ∈ fields, f.Parsed) (ht : t.Timely) :
    (fields.foldl setField t).Timely := by
  induction fields generalizing t with
  | nil => exact ht
  | cons f fields ih =>
    exact ih (fun g hg => hfields g (.tail _ hg))
      (setField_timely (hfields f (.head _)).timely ht)

theorem Timely.insert {tasks : Tasks} (h : Timely tasks) {id : TaskId} (ht : t.Timely) :
    Timely (tasks.insert id t) := by
  intro x u hu
  rw [get?_insert] at hu
  split_ifs at hu
  · exact Option.some.inj hu ▸ ht
  · exact h x u hu

theorem applyAct_timely {rev : UInt64} {d d' : Draft} (h : Timely d.tasks) {act : Act} (hact : act.Parsed)
    (hd : applyAct rev d act = .ok d') : Timely d'.tasks := by
  cases act with
  | add id creator fields =>
    cases id with
    | none => simp [applyAct] at hd
    | some id =>
      simp only [applyAct] at hd
      split_ifs at hd
      cases hd
      exact h.insert (setFields_timely hact.1 ⟨(fun _ h => by cases h), (fun _ h => by cases h),
        fun _ _ h => by cases h⟩)
  | set id fields =>
    simp only [applyAct] at hd
    split at hd
    · simp at hd
    · rename_i t ht
      cases hd
      obtain ⟨hwhen, hrecurs, hmoved⟩ := setFields_timely hact (h id t ht)
      exact h.insert ⟨hwhen, hrecurs, hmoved⟩
  | state id target note evidence =>
    obtain ⟨_, -, hd⟩ := bind_eq_ok.mp hd
    split at hd
    · simp [throw, throwThe, MonadExceptOf.throw] at hd
    · rename_i t ht
      obtain rfl := pure_eq_ok.mp hd
      obtain ⟨hwhen, hrecurs, hmoved⟩ := h id t ht
      exact h.insert ⟨hwhen, hrecurs, hmoved⟩

theorem kanbanFoldOne_timely {board : BoardState} (h : Timely board.tasks) (payload : Json.Value)
    (seats : Finset String) : Timely (kanbanFoldOne board payload seats).1.tasks := by
  unfold kanbanFoldOne
  split
  · exact h
  · dsimp only
    split
    · rename_i tasks hresult
      obtain ⟨acts, hparse, happly⟩ := bind_eq_ok.mp hresult
      rw [mapError_eq_ok] at hparse
      obtain ⟨d, hrun, happly⟩ := bind_eq_ok.mp happly
      obtain ⟨_, -, happly⟩ := bind_eq_ok.mp happly
      obtain rfl := pure_eq_ok.mp happly
      exact foldlM_invariant (P := fun d : Draft => Timely d.tasks)
        (fun s a s' ha hs hstep => applyAct_timely hs (parseChangeset_parsed hparse a ha) hstep) h hrun
    · exact h

theorem kanbanFold_timely (applied : List Json.Value) (seats : Finset String) :
    Timely (kanbanFold applied seats).tasks := by
  have hfrom : ∀ board : BoardState, Timely board.tasks →
      Timely (applied.foldl (fun board p => (kanbanFoldOne board p seats).1) board).tasks := by
    induction applied with
    | nil => exact fun _ h => h
    | cons p applied ih => exact fun board h => ih _ (kanbanFoldOne_timely h p seats)
  exact hfrom {} fun id t ht => by simp [get?_empty] at ht

end Molt.Kanban
