import Mathlib
import MoltRepublic.Kanban.WellFormed
import MoltRepublic.Lib.Propagate

/-! Deadlines and order, derived on read (`kanban_dates`): what the work downstream needs a task
by, what waits on a failure, the priority order and each seat's next tasks. -/

namespace Molt.Kanban
open Search Propagate List SortedMap

instance : WellFoundedLT NaiveDate := ⟨InvImage.wf NaiveDate.rank wellFounded_lt⟩

def NaiveDateTime.instant (t : NaiveDateTime) : Nat := (t.date.number * 24 + t.hour) * 60 + t.minute

def midnight (days : Nat) : Nat := days * 24 * 60

def When.begins : When → Nat
  | .allDay start _ => midnight start.number
  | .timed start _ => start.instant

def When.ends : When → Nat
  | .allDay _ last => midnight (last.number + 1)
  | .timed _ last => last.instant

inductive Shown
  | stuck
  | blocked
  | scheduled
  | later
  | open
  | wip
  | success
  | fail
  | cancelled
  deriving DecidableEq

structure TaskDerived where
  shown : Shown
  neededBy : Option NaiveDate
  overdue : Bool
  dateConflict : Bool
  stuck : Bool
  startedOnReopened : Bool
  prerequisiteFor : List TaskId
  deriving DecidableEq

structure Derived where
  tasks : SortedMap TaskId TaskDerived
  priority : List TaskId
  next : SortedMap String (List TaskId)

def isOpen (t : Task) : Bool :=
  match t.state with
  | .todo | .wip => true
  | _ => false

def dependentsOf (tasks : Tasks) : SortedMap TaskId (List TaskId) :=
  let links := tasks.entries.flatMap fun e => (e.2.blockedBy.filter (hasTask tasks)).map fun b => (b, e.1)
  links.foldl (fun dependents e => dependents.push e.1 e.2) SortedMap.empty

def dependents (tasks : Tasks) (id : TaskId) : List TaskId := ((dependentsOf tasks).get? id).getD []

def waiting (tasks : Tasks) : Work TaskId :=
  let waiting := tasks.mapWithKey fun id _ => (dependents tasks id).length
  ⟨waiting, (waiting.filter fun _ n => n = 0).map fun _ => ()⟩

def dependentsFirst (tasks : Tasks) : List TaskId :=
  run (prerequisites tasks) tasks.entries.length (waiting tasks)

def needOf (tasks : Tasks) (neededBy : SortedMap TaskId NaiveDate) (id : TaskId) : Option NaiveDate :=
  match tasks.get? id with
  | none => none
  | some t =>
    if isOpen t then
      let downstream := ((dependents tasks id).filter fun d => (tasks.get? d).any isOpen).filterMap neededBy.get?
      (t.due.toList ++ downstream).min?
    else none

def waitsOnFail (tasks : Tasks) (stuck : SortedMap TaskId Unit) (id : TaskId) : Option Unit :=
  match tasks.get? id with
  | none => none
  | some t =>
    if t.state = .todo ∧ t.blockedBy.any fun b =>
        (tasks.get? b).any (fun p => p.state = .fail) || (stuck.get? b).isSome then some ()
    else none

def unmet (tasks : Tasks) (t : Task) : Bool := t.blockedBy.any fun b => (tasks.get? b).any fun p => !p.state.isMet

def shownOf (t : Task) (isStuck blocked : Bool) (today : NaiveDate) : Shown :=
  match t.state with
  | .todo =>
    if isStuck then .stuck
    else if blocked then .blocked
    else if t.when.isSome then .scheduled
    else if t.after.any (today < ·) then .later
    else .open
  | .wip => .wip
  | .success => .success
  | .fail => .fail
  | .cancelled => .cancelled

def timedConflict (tasks : Tasks) (t : Task) (deps : List TaskId) : Bool :=
  t.when.any fun w => ((deps.filterMap tasks.get?).filter isOpen).any fun d => d.when.any (·.begins < w.ends)

def deriveTask (tasks : Tasks) (neededBy : SortedMap TaskId NaiveDate) (stuck : SortedMap TaskId Unit)
    (today : NaiveDate) (id : TaskId) (t : Task) : TaskDerived :=
  let nb := neededBy.get? id
  let isStuck := (stuck.get? id).isSome
  let blocked := unmet tasks t
  let deps := dependents tasks id
  { shown := shownOf t isStuck blocked today
    neededBy := nb
    overdue := isOpen t && nb.any (· < today)
    dateConflict := isOpen t &&
      (nb.any (fun n => t.due.any (n < ·) || t.after.any (n < ·)) || timedConflict tasks t deps)
    stuck := isStuck
    startedOnReopened := t.state = .wip && blocked
    prerequisiteFor := deps }

def isWip (tasks : Tasks) (id : TaskId) : Bool := (tasks.get? id).any fun t => t.state = .wip

def priorityKey (tasks : Tasks) (neededBy : SortedMap TaskId NaiveDate) (id : TaskId) :
    Bool ×ₗ Bool ×ₗ WithBot NaiveDate ×ₗ TaskId :=
  let nb := neededBy.get? id
  toLex (!isWip tasks id, toLex (nb.isNone, toLex (nb, id)))

def priorityOf (tasks : Tasks) (neededBy : SortedMap TaskId NaiveDate) : List TaskId :=
  ((tasks.entries.filter fun e => isOpen e.2 && !e.2.isSeries).map Prod.fst).insertionSort fun a b =>
    priorityKey tasks neededBy a ≤ priorityKey tasks neededBy b

def takes (tasks : Tasks) (today : NaiveDate) (passWip : Bool) (t : Task) : Bool :=
  if passWip then t.state = .wip else t.state = .todo && !unmet tasks t && !t.after.any (today < ·)

def nextOf (tasks : Tasks) (today : NaiveDate) (priority : List TaskId) : SortedMap String (List TaskId) :=
  let seats := priority.flatMap fun id => (tasks.get? id).toList.flatMap Task.assignees
  let listed := [true, false].flatMap fun passWip => priority.flatMap fun id =>
    ((tasks.get? id).toList.filter (takes tasks today passWip)).flatMap fun t => t.assignees.map fun a => (a, id)
  listed.foldl (fun next e => next.push e.1 e.2) (seats.foldl SortedMap.orDefault SortedMap.empty)

/-- Deadlines, flags, priority and `next` for `today`. -/
def derive (board : BoardState) (today : NaiveDate) : Derived :=
  let order := dependentsFirst board.tasks
  let neededBy := pass (needOf board.tasks) order
  let stuck := pass (waitsOnFail board.tasks) order.reverse
  let priority := priorityOf board.tasks neededBy
  { tasks := board.tasks.mapWithKey (deriveTask board.tasks neededBy stuck today)
    priority := priority
    next := nextOf board.tasks today priority }

section

variable {tasks : Tasks}

theorem mem_links_iff {b d : TaskId} :
    (b, d) ∈ (tasks.entries.flatMap fun e => (e.2.blockedBy.filter (hasTask tasks)).map fun b => (b, e.1)) ↔
      hasTask tasks b = true ∧ Blocks tasks b d := by
  rw [mem_flatMap]
  constructor
  · rintro ⟨⟨id, t⟩, he, hmem⟩
    obtain ⟨c, hc, heq⟩ := mem_map.mp hmem
    cases heq
    obtain ⟨hin, hhas⟩ := mem_filter.mp hc
    exact ⟨hhas, t, get?_eq_some.mpr he, hin⟩
  · rintro ⟨hhas, t, ht, hin⟩
    exact ⟨(d, t), get?_eq_some.mp ht, mem_map.mpr ⟨b, mem_filter.mpr ⟨hin, hhas⟩, rfl⟩⟩

theorem dependents_eq (tasks : Tasks) (id : TaskId) : dependents tasks id =
    ((tasks.entries.flatMap fun e => (e.2.blockedBy.filter (hasTask tasks)).map fun b => (b, e.1)).filter
      fun e => e.1 = id).map Prod.snd := by
  rw [dependents, dependentsOf, getD_foldl_push, get?_empty]
  rfl

theorem mem_dependents {b d : TaskId} : d ∈ dependents tasks b ↔ hasTask tasks b = true ∧ Blocks tasks b d := by
  rw [dependents_eq, mem_map]
  constructor
  · rintro ⟨⟨c, e⟩, hmem, rfl⟩
    obtain ⟨hin, heq⟩ := mem_filter.mp hmem
    obtain rfl : c = b := by simpa using heq
    exact mem_links_iff.mp hin
  · intro h
    exact ⟨(b, d), mem_filter.mpr ⟨mem_links_iff.mpr h, by simp⟩, rfl⟩

theorem mem_prerequisites {b id : TaskId} : b ∈ prerequisites tasks id ↔ Blocks tasks b id := by
  cases ht : tasks.get? id with
  | none | some t => simp [prerequisites, Blocks, ht]

theorem length_dependents {id : TaskId} (hid : hasTask tasks id = true) :
    (dependents tasks id).length = into (prerequisites tasks) (tasks.entries.map Prod.fst).toFinset id := by
  have hcount : ∀ e ∈ tasks.entries, List.countP (fun p : TaskId × TaskId => decide (p.1 = id))
      ((e.2.blockedBy.filter (hasTask tasks)).map fun b => (b, e.1)) = (prerequisites tasks e.1).count id := by
    intro e he
    have ht : tasks.get? e.1 = some e.2 := get?_eq_some.mpr he
    rw [countP_map, countP_filter, prerequisites, ht, List.count]
    refine countP_congr fun b _ => ?_
    by_cases hb : b = id
    · simp [hb, hid]
    · simp [hb]
  rw [dependents_eq, length_map, ← countP_eq_length_filter, countP_flatMap, into,
    sum_toFinset _ tasks.keys_nodup, map_map]
  exact congrArg List.sum (map_congr_left hcount)

theorem dependentsFirst_spec (hacyclic : ∀ id, ¬ Relation.TransGen (Blocks tasks) id id) :
    (dependentsFirst tasks).Nodup ∧ (∀ id, id ∈ dependentsFirst tasks ↔ hasTask tasks id = true) ∧
      (dependentsFirst tasks).Pairwise fun x y => ¬ Blocks tasks x y := by
  have hmem : ∀ id, id ∈ (tasks.entries.map Prod.fst).toFinset ↔ hasTask tasks id = true := by
    intro id
    refine ⟨fun h => ?_, mem_nodes⟩
    obtain ⟨⟨id, t⟩, he, rfl⟩ := mem_map.mp (mem_toFinset.mp h)
    exact Option.isSome_iff_exists.mpr ⟨t, get?_eq_some.mpr he⟩
  have hnocycle : ∀ a, ¬ Relation.TransGen (fun b n => b ∈ (tasks.entries.map Prod.fst).toFinset ∧
      b ∈ prerequisites tasks n) a a := by
    intro a h
    exact hacyclic a (Relation.TransGen.mono (fun b n hlink => mem_prerequisites.mp hlink.2) a a h)
  have hcard : ((tasks.entries.map Prod.fst).toFinset \ ∅).card ≤ tasks.entries.length := by
    rw [Finset.sdiff_empty, ← length_map Prod.fst]
    exact toFinset_card_le _
  have hwaiting : ∀ b, (tasks.mapWithKey fun id _ => (dependents tasks id).length).get? b =
      if b ∈ (tasks.entries.map Prod.fst).toFinset then
        some (into (prerequisites tasks) ((tasks.entries.map Prod.fst).toFinset \ ∅) b) else none := by
    intro b
    rw [get?_mapWithKey, Finset.sdiff_empty]
    cases ht : tasks.get? b with
    | none => rw [if_neg (by simp [hmem, hasTask, ht])]; rfl
    | some t =>
      have hhas : hasTask tasks b = true := by simp [hasTask, ht]
      rw [if_pos ((hmem b).mpr hhas), ← length_dependents hhas]
      rfl
  have hsound : (waiting tasks).Sound (tasks.entries.map Prod.fst).toFinset ∅
      (into (prerequisites tasks) ((tasks.entries.map Prod.fst).toFinset \ ∅)) := by
    refine ⟨hwaiting, fun b => ?_⟩
    unfold waiting
    rw [get?_map, get?_filter, hwaiting b, Finset.sdiff_empty]
    split_ifs with hb
    all_goals simp [hb]
  obtain ⟨hnodup, hall, hpair⟩ := run_spec hnocycle hcard hsound (by simp)
  refine ⟨hnodup, fun id => (hall id).trans ?_, hpair.imp fun h hblocks => h (mem_prerequisites.mpr hblocks)⟩
  rw [Finset.sdiff_empty, hmem]

end

section

variable {tasks : Tasks}

def Open (tasks : Tasks) (id : TaskId) : Prop := ∃ t, tasks.get? id = some t ∧ isOpen t = true

def Serves (tasks : Tasks) (id d : TaskId) : Prop := Blocks tasks id d ∧ Open tasks d

def duesOf (tasks : Tasks) (id : TaskId) : Set NaiveDate :=
  {n | ∃ d t, Relation.ReflTransGen (Serves tasks) id d ∧ tasks.get? d = some t ∧ t.due = some n}

theorem duesOf_eq {id : TaskId} {t : Task} (ht : tasks.get? id = some t) :
    duesOf tasks id = {n | n ∈ {k | t.due = some k} ∨ ∃ d, Serves tasks id d ∧ n ∈ duesOf tasks d} := by
  ext n
  constructor
  · rintro ⟨e, u, hreach, hu, hdue⟩
    rcases Relation.ReflTransGen.cases_head hreach with rfl | ⟨d, hd, hrest⟩
    · exact Or.inl (Option.some.inj (ht.symm.trans hu) ▸ hdue)
    · exact .inr ⟨d, hd, e, u, hrest, hu, hdue⟩
  · rintro (hdue | ⟨d, hd, e, u, hrest, hu, hdue⟩)
    · exact ⟨id, t, .refl, ht, hdue⟩
    · exact ⟨e, u, .head hd hrest, hu, hdue⟩

theorem needOf_local (m m' : SortedMap TaskId NaiveDate) (id : TaskId)
    (h : ∀ d, Blocks tasks id d → m.get? d = m'.get? d) : needOf tasks m id = needOf tasks m' id := by
  unfold needOf
  cases tasks.get? id with
  | none => rfl
  | some t =>
    have hsame : ((dependents tasks id).filter fun d => (tasks.get? d).any isOpen).filterMap m.get? =
        ((dependents tasks id).filter fun d => (tasks.get? d).any isOpen).filterMap m'.get? := by
      refine filterMap_congr fun d hd => h d ?_
      exact (mem_dependents.mp (mem_filter.mp hd).1).2
    rw [hsame]

theorem needOf_eq_some {m : SortedMap TaskId NaiveDate} {id : TaskId} {n : NaiveDate} :
    needOf tasks m id = some n ↔ ∃ t, tasks.get? id = some t ∧ isOpen t = true ∧
      IsLeast {n | t.due = some n ∨ ∃ d, Serves tasks id d ∧ m.get? d = some n} n := by
  unfold needOf
  cases ht : tasks.get? id with
  | none => simp
  | some t =>
    dsimp only
    have hhas : hasTask tasks id = true := by simp [hasTask, ht]
    by_cases hopen : isOpen t = true
    · have hset : ∀ k, k ∈ t.due.toList ++
          ((dependents tasks id).filter fun d => (tasks.get? d).any isOpen).filterMap m.get? ↔
            t.due = some k ∨ ∃ d, Serves tasks id d ∧ m.get? d = some k := by
        intro k
        rw [mem_append, Option.mem_toList, mem_filterMap]
        refine or_congr .rfl (exists_congr fun d => and_congr_left fun _ => ?_)
        rw [mem_filter, mem_dependents, Option.any_eq_true]
        exact ⟨fun h => ⟨h.1.2, h.2⟩, fun h => ⟨⟨hhas, h.1⟩, h.2⟩⟩
      rw [if_pos hopen, min?_eq_some_iff]
      constructor
      · rintro ⟨hmem, hle⟩
        exact ⟨t, rfl, hopen, (hset n).mp hmem, fun k hk => hle k ((hset k).mpr hk)⟩
      · rintro ⟨u, hu, -, hmem, hle⟩
        cases hu
        exact ⟨(hset n).mpr hmem, fun k hk => hle ((hset k).mp hk)⟩
    · rw [if_neg hopen]
      refine ⟨(fun h => by cases h), ?_⟩
      rintro ⟨u, hu, hopen', -⟩
      exact absurd (Option.some.inj hu ▸ hopen') hopen

variable (hacyclic : ∀ id, ¬ Relation.TransGen (Blocks tasks) id id)
include hacyclic

theorem neededBy_fixed (id : TaskId) :
    (pass (needOf tasks) (dependentsFirst tasks)).get? id =
      needOf tasks (pass (needOf tasks) (dependentsFirst tasks)) id := by
  obtain ⟨hnodup, hall, hpair⟩ := dependentsFirst_spec hacyclic
  have hfixed := pass_fixed needOf_local (fun id h => hacyclic id (.single h)) hnodup hpair id
  rw [hfixed]
  by_cases hid : hasTask tasks id = true
  · rw [if_pos ((hall id).mpr hid)]
  · rw [if_neg (mt (hall id).mp hid)]
    have hnone : tasks.get? id = none := by simpa [hasTask] using hid
    simp [needOf, hnone]

theorem neededBy_iff (id : TaskId) (n : NaiveDate) :
    (pass (needOf tasks) (dependentsFirst tasks)).get? id = some n ↔ Open tasks id ∧ IsLeast (duesOf tasks id) n := by
  obtain ⟨-, hall, hpair⟩ := dependentsFirst_spec hacyclic
  by_cases hid : hasTask tasks id = true
  · have hmem := (hall id).mpr hid
    revert n
    refine along_order (P := fun id => ∀ n, (pass (needOf tasks) (dependentsFirst tasks)).get? id = some n ↔
      Open tasks id ∧ IsLeast (duesOf tasks id) n) hpair (fun id h => hacyclic id (.single h)) ?_ id hmem
    intro id _ ih n
    have hdown : ∀ d k, Serves tasks id d →
        ((pass (needOf tasks) (dependentsFirst tasks)).get? d = some k ↔ IsLeast (duesOf tasks d) k) := by
      intro d k hd
      obtain ⟨t, ht, -⟩ := hd.2
      have hd' : d ∈ dependentsFirst tasks := (hall d).mpr (by simp [hasTask, ht])
      rw [ih d hd' hd.1 k]
      exact and_iff_right hd.2
    have hset : ∀ t : Task, {n | t.due = some n ∨ ∃ d, Serves tasks id d ∧
          (pass (needOf tasks) (dependentsFirst tasks)).get? d = some n} =
        {n | n ∈ {k | t.due = some k} ∨ ∃ d, Serves tasks id d ∧ IsLeast (duesOf tasks d) n} := by
      intro t
      ext k
      exact or_congr .rfl (exists_congr fun d => and_congr_right fun hd => hdown d k hd)
    rw [neededBy_fixed hacyclic, needOf_eq_some]
    constructor
    · rintro ⟨t, ht, hopen, hleast⟩
      refine ⟨⟨t, ht, hopen⟩, ?_⟩
      rwa [hset, isLeast_leasts, ← duesOf_eq ht] at hleast
    · rintro ⟨⟨t, ht, hopen⟩, hleast⟩
      refine ⟨t, ht, hopen, ?_⟩
      rw [hset, isLeast_leasts, ← duesOf_eq ht]
      exact hleast
  · have hnone : tasks.get? id = none := by simpa [hasTask] using hid
    rw [neededBy_fixed hacyclic, needOf_eq_some]
    simp [hnone, Open]

end

section

variable {tasks : Tasks}

def Stands (tasks : Tasks) (state : TaskState) (id : TaskId) : Prop := ∃ t, tasks.get? id = some t ∧ t.state = state

def Stuck (tasks : Tasks) (id : TaskId) : Prop :=
  Stands tasks .todo id ∧ ∃ last p,
    Relation.ReflTransGen (fun x b => Blocks tasks b x ∧ Stands tasks .todo b) id last ∧
      Blocks tasks p last ∧ Stands tasks .fail p

variable {id : TaskId}

theorem stuck_iff : Stuck tasks id ↔ Stands tasks .todo id ∧
    ∃ b, Blocks tasks b id ∧ (Stands tasks .fail b ∨ Stuck tasks b) := by
  constructor
  · rintro ⟨htodo, last, p, hreach, hp, hfail⟩
    refine ⟨htodo, ?_⟩
    rcases Relation.ReflTransGen.cases_head hreach with rfl | ⟨b, ⟨hb, hb'⟩, hrest⟩
    · exact ⟨p, hp, .inl hfail⟩
    · exact ⟨b, hb, .inr ⟨hb', last, p, hrest, hp, hfail⟩⟩
  · rintro ⟨htodo, b, hb, hfail | ⟨hb', last, p, hrest, hp, hfail⟩⟩
    · exact ⟨htodo, id, b, .refl, hb, hfail⟩
    · exact ⟨htodo, last, p, .head ⟨hb, hb'⟩ hrest, hp, hfail⟩

theorem waitsOnFail_local (m m' : SortedMap TaskId Unit) (id : TaskId)
    (h : ∀ b, Blocks tasks b id → m.get? b = m'.get? b) : waitsOnFail tasks m id = waitsOnFail tasks m' id := by
  unfold waitsOnFail
  cases ht : tasks.get? id with
  | none => rfl
  | some t =>
    dsimp only
    have hsame : (t.blockedBy.any fun b => (tasks.get? b).any (fun p => p.state = .fail) || (m.get? b).isSome) =
        t.blockedBy.any fun b => (tasks.get? b).any (fun p => p.state = .fail) || (m'.get? b).isSome := by
      rw [Bool.eq_iff_iff, any_eq_true, any_eq_true]
      refine exists_congr fun b => and_congr_right fun hb => ?_
      rw [h b ⟨t, ht, hb⟩]
    rw [hsame]

theorem any_state {state : TaskState} :
    ((tasks.get? id).any fun t => t.state = state) = true ↔ Stands tasks state id := by
  simp [Option.any_eq_true, Stands]

theorem waitsOnFail_eq_some {m : SortedMap TaskId Unit} :
    waitsOnFail tasks m id = some () ↔ Stands tasks .todo id ∧
      ∃ b, Blocks tasks b id ∧ (Stands tasks .fail b ∨ m.get? b = some ()) := by
  unfold waitsOnFail
  cases ht : tasks.get? id with
  | none => simp [Stands, ht]
  | some t =>
    have hwaits : (t.blockedBy.any fun b => (tasks.get? b).any (fun p => p.state = .fail) || (m.get? b).isSome) =
        true ↔ ∃ b, Blocks tasks b id ∧ (Stands tasks .fail b ∨ m.get? b = some ()) := by
      rw [any_eq_true]
      refine exists_congr fun b => and_congr ?_ ?_
      · simp [Blocks, ht]
      · rw [Bool.or_eq_true, any_state, Option.isSome_iff_exists]
        exact or_congr .rfl ⟨fun h => h.elim fun _ h => h, fun h => ⟨_, h⟩⟩
    have htodo : t.state = .todo ↔ Stands tasks .todo id := by simp [Stands, ht]
    dsimp only
    rw [← htodo, ← hwaits]
    split_ifs with h
    · exact iff_of_true rfl h
    · exact iff_of_false (fun hnone => by cases hnone) h

theorem stuck_pass (hacyclic : ∀ id, ¬ Relation.TransGen (Blocks tasks) id id) (id : TaskId) :
    (pass (waitsOnFail tasks) (dependentsFirst tasks).reverse).get? id = some () ↔ Stuck tasks id := by
  obtain ⟨hnodup, hall, hpair⟩ := dependentsFirst_spec hacyclic
  have hrev : (dependentsFirst tasks).reverse.Pairwise fun x y => ¬ Blocks tasks y x := pairwise_reverse.mpr hpair
  have hself : ∀ x, ¬ Blocks tasks x x := fun x h => hacyclic x (.single h)
  have hfixed := @pass_fixed _ _ _ (waitsOnFail tasks) (fun x b => Blocks tasks b x) waitsOnFail_local hself _
    (nodup_reverse.mpr hnodup) hrev
  have hoff : ∀ x, x ∉ (dependentsFirst tasks).reverse →
      (pass (waitsOnFail tasks) (dependentsFirst tasks).reverse).get? x ≠ some () ∧ ¬ Stuck tasks x := by
    intro x hx
    have hnone : tasks.get? x = none := by
      rw [mem_reverse, hall] at hx
      simpa [hasTask] using hx
    refine ⟨?_, fun hstuck => ?_⟩
    · rw [hfixed x, if_neg hx]
      exact (Option.some_ne_none ()).symm
    · obtain ⟨⟨t, ht, _⟩, _⟩ := hstuck
      rw [hnone] at ht
      cases ht
  by_cases hid : id ∈ (dependentsFirst tasks).reverse
  · refine along_order (r := fun x b => Blocks tasks b x) (P := fun id =>
      (pass (waitsOnFail tasks) (dependentsFirst tasks).reverse).get? id = some () ↔ Stuck tasks id) hrev hself ?_ id hid
    intro x hx ih
    rw [hfixed x, if_pos hx, waitsOnFail_eq_some, stuck_iff]
    refine and_congr_right fun _ => exists_congr fun b => and_congr_right fun hb => or_congr .rfl ?_
    by_cases hmem : b ∈ (dependentsFirst tasks).reverse
    · exact ih b hmem hb
    · exact iff_of_false (hoff b hmem).1 (hoff b hmem).2
  · exact iff_of_false (hoff id hid).1 (hoff id hid).2

end

section

variable {tasks : Tasks}

theorem priorityOf_spec (neededBy : SortedMap TaskId NaiveDate) :
    (priorityOf tasks neededBy).Nodup ∧
      (∀ id, id ∈ priorityOf tasks neededBy ↔ ∃ t, tasks.get? id = some t ∧ isOpen t = true ∧ t.isSeries = false) ∧
      (priorityOf tasks neededBy).Pairwise fun a b => priorityKey tasks neededBy a ≤ priorityKey tasks neededBy b := by
  have hperm : (priorityOf tasks neededBy).Perm
      ((tasks.entries.filter fun e => isOpen e.2 && !e.2.isSeries).map Prod.fst) := perm_insertionSort ..
  refine ⟨hperm.nodup_iff.mpr ?_, fun id => ?_, pairwise_insertionSort _ _⟩
  · exact tasks.keys_nodup.sublist (filter_sublist.map _)
  · rw [hperm.mem_iff, mem_map]
    constructor
    · rintro ⟨⟨id, t⟩, he, rfl⟩
      obtain ⟨hmem, hopen⟩ := mem_filter.mp he
      simp only [Bool.and_eq_true, Bool.not_eq_true'] at hopen
      exact ⟨t, get?_eq_some.mpr hmem, hopen⟩
    · rintro ⟨t, ht, hopen, hseries⟩
      refine ⟨(id, t), mem_filter.mpr ⟨get?_eq_some.mp ht, ?_⟩, rfl⟩
      simp [hopen, hseries]

theorem wip_of_key_le {neededBy : SortedMap TaskId NaiveDate} {a b : TaskId}
    (h : priorityKey tasks neededBy a ≤ priorityKey tasks neededBy b) (hb : isWip tasks b = true) :
    isWip tasks a = true := by
  have hle : (!isWip tasks a) ≤ (!isWip tasks b) := Prod.Lex.monotone_fst _ _ h
  rw [hb] at hle
  revert hle
  cases isWip tasks a
  · decide
  · exact fun _ => rfl

theorem taken_eq {today : NaiveDate} {passWip : Bool} {a : String} {ids : List TaskId}
    (honce : ∀ id t, tasks.get? id = some t → t.assignees.Nodup) :
    ((ids.flatMap fun id => ((tasks.get? id).toList.filter (takes tasks today passWip)).flatMap fun t =>
        t.assignees.map fun b => (b, id)).filter fun e => e.1 = a).map Prod.snd =
      ids.filter fun id => (tasks.get? id).any fun t => takes tasks today passWip t && decide (a ∈ t.assignees) := by
  induction ids with
  | nil => rfl
  | cons id ids ih =>
    rw [flatMap_cons, filter_append, map_append, ih, filter_cons]
    have hone : ((((tasks.get? id).toList.filter (takes tasks today passWip)).flatMap fun t =>
        t.assignees.map fun b => (b, id)).filter fun e => e.1 = a).map Prod.snd =
        if (tasks.get? id).any fun t => takes tasks today passWip t && decide (a ∈ t.assignees) then [id] else [] := by
      cases ht : tasks.get? id with
      | none => rfl
      | some t =>
        rw [Option.toList_some, Option.any_some]
        cases htake : takes tasks today passWip t with
        | false => simp [htake]
        | true =>
          have hfilter : t.assignees.filter (fun b => decide (b = a)) = if a ∈ t.assignees then [a] else [] := by
            rw [filter_eq, (honce id t ht).count]
            split_ifs
            all_goals rfl
          simp only [filter_cons, htake, filter_nil, if_true, flatMap_cons, flatMap_nil,
            append_nil, filter_map, Function.comp_def, hfilter, Bool.true_and, decide_eq_true_eq]
          split_ifs with ha
          all_goals rfl
    rw [hone]
    split_ifs
    all_goals rfl

theorem nextOf_spec (today : NaiveDate) (priority : List TaskId) (a : String)
    (honce : ∀ id t, tasks.get? id = some t → t.assignees.Nodup) :
    ((nextOf tasks today priority).get? a).getD [] =
      (priority.filter fun id => (tasks.get? id).any fun t => takes tasks today true t && decide (a ∈ t.assignees)) ++
        priority.filter fun id => (tasks.get? id).any fun t => takes tasks today false t && decide (a ∈ t.assignees) := by
  unfold nextOf
  dsimp only
  rw [getD_foldl_push, getD_foldl_orDefault, get?_empty, Option.getD_none,
    nil_append, flatMap_cons, flatMap_cons, flatMap_nil, append_nil, filter_append,
    map_append, taken_eq honce, taken_eq honce]

end

section

def InProgress (tasks : Tasks) (a : String) (id : TaskId) : Prop :=
  ∃ t, tasks.get? id = some t ∧ t.state = .wip ∧ a ∈ t.assignees

def Startable (tasks : Tasks) (today : NaiveDate) (a : String) (id : TaskId) : Prop :=
  ∃ t, tasks.get? id = some t ∧ t.state = .todo ∧ a ∈ t.assignees ∧
    (∀ b ∈ t.blockedBy, ∃ p, tasks.get? b = some p ∧ p.state.isMet = true) ∧ ∀ d ∈ t.after, d ≤ today

variable {seats : Finset String} {tasks : Tasks}

theorem takes_wip {today : NaiveDate} {a : String} {id : TaskId} :
    ((tasks.get? id).any fun t => takes tasks today true t && decide (a ∈ t.assignees)) = true ↔
      InProgress tasks a id := by
  simp [Option.any_eq_true, takes, InProgress]

theorem takes_todo {today : NaiveDate} {a : String} {id : TaskId} (h : WellFormed seats tasks) :
    ((tasks.get? id).any fun t => takes tasks today false t && decide (a ∈ t.assignees)) = true ↔
      Startable tasks today a id := by
  rw [Option.any_eq_true]
  refine exists_congr fun t => and_congr_right fun ht => ?_
  have hmet : unmet tasks t = false ↔ ∀ b ∈ t.blockedBy, ∃ p, tasks.get? b = some p ∧ p.state.isMet = true := by
    rw [unmet, any_eq_false]
    refine forall₂_congr fun b hb => ?_
    obtain ⟨p, hp, -⟩ := (h.fine id t ht).links b hb
    simp [hp]
  have hreached : t.after.any (today < ·) = false ↔ ∀ d ∈ t.after, d ≤ today := by
    rw [Option.any_eq_false]
    simp
  simp only [takes, Bool.false_eq_true, if_false, Bool.and_eq_true, Bool.not_eq_true', decide_eq_true_eq]
  tauto

/-- What the view derives: the soonest due date of the open work downstream of an open task,
what waits on a failure, the open work in order, and what each seat takes from it. -/
theorem derive_exact (applied : List Json.Value) (seats : Finset String) (today : NaiveDate) :
    let tasks := (kanbanFold applied seats).tasks
    let view := derive (kanbanFold applied seats) today
    (∀ id t, tasks.get? id = some t → ∃ d, view.tasks.get? id = some d ∧
      (isOpen t = true → (∀ n, d.neededBy = some n ↔ IsLeast (duesOf tasks id) n) ∧
        (d.neededBy = none ↔ duesOf tasks id = ∅)) ∧
      (d.stuck = true ↔ Stuck tasks id)) ∧
    (∀ b id e d, Blocks tasks b id → Open tasks b → Open tasks id → view.tasks.get? b = some e →
      view.tasks.get? id = some d → ∀ n ∈ d.neededBy, ∃ m ∈ e.neededBy, m ≤ n) ∧
    (view.priority.Nodup ∧
      (∀ id, id ∈ view.priority ↔ ∃ t, tasks.get? id = some t ∧ isOpen t = true ∧ t.isSeries = false) ∧
      view.priority.Pairwise fun a b => isWip tasks b = true → isWip tasks a = true) ∧
    ∀ a, ∃ progress startable, (view.next.get? a).getD [] = progress ++ startable ∧
      progress.Sublist view.priority ∧ startable.Sublist view.priority ∧
      (∀ id, id ∈ progress ↔ InProgress tasks a id) ∧
      ∀ id, id ∈ startable ↔ Startable tasks today a id ∧ ∃ t, tasks.get? id = some t ∧ t.isSeries = false := by
  dsimp only
  have hfine : WellFormed seats (kanbanFold applied seats).tasks := (kanbanFold_standing seats applied).wellFormed
  generalize kanbanFold applied seats = board at hfine
  have hneed := neededBy_iff hfine.acyclic
  have hstuck := stuck_pass hfine.acyclic
  have hview : ∀ id t, board.tasks.get? id = some t → (derive board today).tasks.get? id = some
      (deriveTask board.tasks (pass (needOf board.tasks) (dependentsFirst board.tasks))
        (pass (waitsOnFail board.tasks) (dependentsFirst board.tasks).reverse) today id t) := by
    intro id t ht
    unfold derive
    dsimp only
    rw [SortedMap.get?_mapWithKey, ht]
    rfl
  obtain ⟨hnodup, hmem, hkeys⟩ := @priorityOf_spec board.tasks (pass (needOf board.tasks) (dependentsFirst board.tasks))
  refine ⟨fun id t ht => ⟨_, hview id t ht, fun hopen => ?_, ?_⟩, ?_, ⟨hnodup, hmem, ?_⟩, fun a => ?_⟩
  · have hleast : ∀ n, (pass (needOf board.tasks) (dependentsFirst board.tasks)).get? id = some n ↔
        IsLeast (duesOf board.tasks id) n := fun n => (hneed id n).trans (and_iff_right ⟨t, ht, hopen⟩)
    refine ⟨hleast, ?_⟩
    rw [Option.eq_none_iff_forall_ne_some, Set.eq_empty_iff_forall_notMem]
    constructor
    · intro hnone n hn
      obtain ⟨k, hk, hmin⟩ := (wellFounded_lt (α := NaiveDate)).has_min _ ⟨n, hn⟩
      exact hnone k ((hleast k).mpr ⟨hk, fun m hm => not_lt.mp (hmin m hm)⟩)
    · intro hempty n hn
      exact hempty n ((hleast n).mp hn).1
  · rw [← hstuck id]
    exact Option.isSome_iff_exists.trans ⟨fun ⟨_, h⟩ => h, fun h => ⟨_, h⟩⟩
  · rintro b id e d hblocks ⟨u, hu, hopen'⟩ ⟨t, ht, hopen⟩ he hd n hn
    rw [hview b u hu] at he
    rw [hview id t ht] at hd
    obtain rfl := Option.some.inj he
    obtain rfl := Option.some.inj hd
    obtain ⟨-, ⟨x, v, hreach, hv, hdue⟩, -⟩ := (hneed id n).mp hn
    have hfar : n ∈ duesOf board.tasks b := ⟨x, v, .head ⟨hblocks, t, ht, hopen⟩ hreach, hv, hdue⟩
    obtain ⟨k, hk, hmin⟩ := (wellFounded_lt (α := NaiveDate)).has_min _ ⟨n, hfar⟩
    refine ⟨k, (hneed b k).mpr ⟨⟨u, hu, hopen'⟩, hk, fun m hm => not_lt.mp (hmin m hm)⟩, not_lt.mp (hmin n hfar)⟩
  · exact hkeys.imp fun hle => wip_of_key_le hle
  · have honce : ∀ id t, board.tasks.get? id = some t → t.assignees.Nodup :=
      fun id t ht => (hfine.fine id t ht).assigned.2
    refine ⟨_, _, nextOf_spec today _ a honce, List.filter_sublist, List.filter_sublist, fun id => ?_, fun id => ?_⟩
    · rw [List.mem_filter, takes_wip, hmem]
      refine and_iff_right_of_imp ?_
      rintro ⟨t, ht, hwip, -⟩
      refine ⟨t, ht, by simp [isOpen, hwip], ?_⟩
      by_contra hseries
      have hstate := (hfine.fine id t ht).series (by simpa using hseries)
      simp [hwip] at hstate
    · rw [List.mem_filter, takes_todo hfine, hmem]
      constructor
      · rintro ⟨⟨t, ht, -, hseries⟩, hstart⟩
        exact ⟨hstart, t, ht, hseries⟩
      · rintro ⟨hstart, t, ht, hseries⟩
        refine ⟨⟨t, ht, ?_, hseries⟩, hstart⟩
        obtain ⟨u, hu, htodo, -⟩ := hstart
        obtain rfl := Option.some.inj (ht.symm.trans hu)
        simp [isOpen, htodo]

end

section

open Json

def seriesBoard : BoardState :=
  kanbanFold [.obj [("op", .str "kanban_ops"), ("summary", .str "s"), ("base_rev", .num (.posInt 0)),
    ("ops", .arr [.obj [("act", .str "add"), ("id", .str "000000000000000000000000000000aa"), ("title", .str "T"),
      ("creator", .str "a"), ("assignees", .arr [.str "a"]),
      ("when", .obj [("start", .str "2026-01-01"), ("end", .str "2026-01-01")]),
      ("repeat", .obj [("freq", .str "daily")])]])]] {"a"}

theorem series_not_next : ∃ today, Startable seriesBoard.tasks today "a" "000000000000000000000000000000aa" ∧
    "000000000000000000000000000000aa" ∉ ((derive seriesBoard today).next.get? "a").getD [] := by
  refine ⟨⟨2026, 1, 1, by decide⟩, (takes_todo (kanbanFold_standing {"a"} _).wellFormed).mp ?_, ?_⟩
  · decide +kernel
  · decide +kernel

end

end Molt.Kanban
