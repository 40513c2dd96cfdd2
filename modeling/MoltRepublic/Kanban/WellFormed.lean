import Mathlib
import MoltRepublic.Kanban.Fold

/-! Every board the fold returns is well formed, although a changeset is checked only at the
tasks it touched. -/

namespace Molt.Kanban
open Json Check Search List SortedMap Option

def Blocks (tasks : Tasks) (b id : TaskId) : Prop := ∃ t, tasks.get? id = some t ∧ b ∈ t.blockedBy

structure Fine (tasks : Tasks) (seats : Finset String) (t : Task) : Prop where
  creator : t.creator ∈ seats
  assigned : t.assignees ≠ [] ∧ t.assignees.Nodup
  seated : ∀ a ∈ t.assignees, a ∈ seats
  dates : ∀ a ∈ t.after, ∀ d ∈ t.due, a ≤ d
  timed : t.recurs.isSome → t.when.isSome
  series : t.isSeries → t.state = .todo ∨ t.state = .cancelled
  skipped : ∀ k, k ∈ t.skip ∨ (t.moved.get? k).isSome →
    ∃ w r, t.when = some w ∧ t.recurs = some r ∧ isOccurrence w r k = true
  once : t.blockedBy.Nodup
  links : ∀ b ∈ t.blockedBy, ∃ p, tasks.get? b = some p ∧ p.isSeries = false ∧ t.isSeries = false

structure WellFormed (seats : Finset String) (tasks : Tasks) : Prop where
  fine : ∀ id t, tasks.get? id = some t → Fine tasks seats t
  acyclic : ∀ id, ¬ Relation.TransGen (Blocks tasks) id id

def Field.Shaped : Field → Prop
  | .assignees a => a ≠ [] ∧ a.Nodup
  | .blockedBy b => b.Nodup
  | _ => True

def Act.Shaped : Act → Prop
  | .add _ _ fields => (∀ f ∈ fields, f.Shaped) ∧ fields.any isAssignees = true
  | .set _ fields => ∀ f ∈ fields, f.Shaped
  | .state .. => True

def Field.Parsed (f : Field) : Prop := ∃ key v, parseField key v = .ok f

def Act.Parsed : Act → Prop
  | .add _ _ fields => (∀ f ∈ fields, f.Parsed) ∧ fields.any isAssignees = true
  | .set _ fields => ∀ f ∈ fields, f.Parsed
  | .state .. => True

section

theorem Field.Parsed.shaped {f : Field} (h : f.Parsed) : f.Shaped := by
  obtain ⟨key, v, h⟩ := h
  have hmap : ∀ {α : Type} {x : Except String α} {c : α → Field}, x.map c = .ok f → (∀ a, (c a).Shaped) →
      f.Shaped := by
    intro α x c hx hc
    obtain ⟨a, -, rfl⟩ := map_eq_ok.mp hx
    exact hc a
  unfold parseField at h
  split at h
  case h_2 =>
    simp only [bind_eq_ok] at h
    obtain ⟨t, -, _, -, h⟩ := h
    obtain rfl := pure_eq_ok.mp h
    trivial
  case h_3 =>
    simp only [bind_eq_ok] at h
    obtain ⟨a, -, _, hne, _, hnodup, h⟩ := h
    obtain rfl := pure_eq_ok.mp h
    exact ⟨(ensure_eq_ok.mp hne).1, ensure_eq_ok.mp hnodup⟩
  case h_5 =>
    simp only [bind_eq_ok] at h
    obtain ⟨b, -, _, hnodup, h⟩ := h
    obtain rfl := pure_eq_ok.mp h
    have hnodup : b.Nodup := ensure_eq_ok.mp hnodup
    exact hnodup
  case h_15 => simp at h
  all_goals exact hmap h fun _ => trivial

variable {door : Door} {refs : List String} {obj : List (String × Value)} {act : Act}

theorem parseAdd_parsed (h : parseAdd door refs obj = .ok act) : act.Parsed := by
  obtain ⟨fields, hfields, h⟩ := bind_eq_ok.mp h
  obtain ⟨_, -, h⟩ := bind_eq_ok.mp h
  obtain ⟨_, hassigned, h⟩ := bind_eq_ok.mp h
  obtain ⟨_, -, h⟩ := bind_eq_ok.mp h
  obtain ⟨_, -, h⟩ := bind_eq_ok.mp h
  obtain ⟨id, -, h⟩ := bind_eq_ok.mp h
  obtain ⟨ref, -, h⟩ := bind_eq_ok.mp h
  obtain ⟨creator, -, h⟩ := bind_eq_ok.mp h
  obtain ⟨_, -, h⟩ := bind_eq_ok.mp h
  obtain ⟨_, -, h⟩ := bind_eq_ok.mp h
  obtain ⟨_, -, h⟩ := bind_eq_ok.mp h
  obtain rfl := pure_eq_ok.mp h
  refine ⟨fun f hf => ?_, ensure_eq_ok.mp hassigned⟩
  obtain ⟨e, -, he⟩ := mapM_eq_ok_mem hfields f hf
  obtain ⟨_, -, hparse⟩ := bind_eq_ok.mp he
  exact ⟨_, _, hparse⟩

theorem parseSet_parsed (h : parseSet door refs obj = .ok act) : act.Parsed := by
  obtain ⟨_, -, h⟩ := bind_eq_ok.mp h
  obtain ⟨id, -, h⟩ := bind_eq_ok.mp h
  obtain ⟨named, -, h⟩ := bind_eq_ok.mp h
  obtain ⟨fields, hfields, h⟩ := bind_eq_ok.mp h
  obtain ⟨_, -, h⟩ := bind_eq_ok.mp h
  obtain ⟨_, -, h⟩ := bind_eq_ok.mp h
  obtain rfl := pure_eq_ok.mp h
  intro f hf
  obtain ⟨e, -, he⟩ := mapM_eq_ok_mem hfields f hf
  obtain ⟨_, -, he⟩ := bind_eq_ok.mp he
  obtain ⟨_, -, he⟩ := bind_eq_ok.mp he
  obtain ⟨_, -, he⟩ := bind_eq_ok.mp he
  obtain ⟨g, hparse, he⟩ := bind_eq_ok.mp he
  obtain ⟨_, -, he⟩ := bind_eq_ok.mp he
  obtain rfl := pure_eq_ok.mp he
  exact ⟨_, _, hparse⟩

theorem parseState_parsed (h : parseState door refs obj = .ok act) : act.Parsed := by
  obtain ⟨_, -, h⟩ := bind_eq_ok.mp h
  obtain ⟨id, -, h⟩ := bind_eq_ok.mp h
  obtain ⟨target, -, h⟩ := bind_eq_ok.mp h
  obtain ⟨note, -, h⟩ := bind_eq_ok.mp h
  obtain ⟨evidence, -, h⟩ := bind_eq_ok.mp h
  obtain rfl := pure_eq_ok.mp h
  trivial

theorem parseChangeset_parsed {v : Value} {acts : List Act} (h : parseChangeset v door = .ok acts) :
    ∀ a ∈ acts, a.Parsed := by
  obtain ⟨obj, -, h⟩ := bind_eq_ok.mp h
  obtain ⟨_, -, h⟩ := bind_eq_ok.mp h
  obtain ⟨_, -, h⟩ := bind_eq_ok.mp h
  obtain ⟨_, -, h⟩ := bind_eq_ok.mp h
  obtain ⟨_, -, h⟩ := bind_eq_ok.mp h
  obtain ⟨ops, -, h⟩ := bind_eq_ok.mp h
  obtain ⟨refs, -, h⟩ := bind_eq_ok.mp h
  intro act hact
  obtain ⟨e, -, he⟩ := mapM_eq_ok_mem h act hact
  rw [mapError_eq_ok] at he
  obtain ⟨fields, -, he⟩ := bind_eq_ok.mp he
  split at he
  · exact parseAdd_parsed he
  · exact parseSet_parsed he
  · exact parseState_parsed he
  all_goals simp [throw, throwThe, MonadExceptOf.throw] at he

theorem Act.Parsed.shaped (h : act.Parsed) : act.Shaped := by
  cases act with
  | add => exact ⟨fun f hf => (h.1 f hf).shaped, h.2⟩
  | set => exact fun f hf => (h f hf).shaped
  | state => trivial

end

def Task.Shaped (t : Task) : Prop := (t.assignees ≠ [] ∧ t.assignees.Nodup) ∧ t.blockedBy.Nodup

structure Drafted (old : Tasks) (d : Draft) : Prop where
  shaped : ∀ id t, d.tasks.get? id = some t → t.Shaped
  kept : ∀ id, d.touched.get? id = none → d.tasks.get? id = old.get? id
  grows : ∀ id, (old.get? id).isSome → (d.tasks.get? id).isSome
  present : ∀ id, (d.touched.get? id).isSome → (d.tasks.get? id).isSome

section

variable {old : Tasks} {d : Draft} {rev : UInt64}

variable {t : Task}

theorem setFields_blockedBy {fields : List Field} (hfields : ∀ f ∈ fields, f.Shaped) (ht : t.blockedBy.Nodup) :
    (fields.foldl setField t).blockedBy.Nodup := by
  induction fields generalizing t with
  | nil => exact ht
  | cons f fields ih =>
    refine ih (fun g hg => hfields g (.tail _ hg)) ?_
    have hf := hfields f (.head _)
    cases f with
    | blockedBy b => exact hf
    | _ => exact ht

theorem setFields_assignees {fields : List Field} (hfields : ∀ f ∈ fields, f.Shaped)
    (ht : (t.assignees ≠ [] ∧ t.assignees.Nodup) ∨ fields.any isAssignees = true) :
    (fields.foldl setField t).assignees ≠ [] ∧ (fields.foldl setField t).assignees.Nodup := by
  induction fields generalizing t with
  | nil => exact ht.resolve_right (by simp)
  | cons f fields ih =>
    refine ih (fun g hg => hfields g (.tail _ hg)) ?_
    have hf := hfields f (.head _)
    rw [any_cons, Bool.or_eq_true] at ht
    cases f with
    | assignees a => exact .inl hf
    | _ => exact ht.imp_right fun h => h.resolve_left (by simp [isAssignees])

theorem Drafted.write (h : Drafted old d) {id : TaskId} (ht : t.Shaped) :
    Drafted old ⟨d.tasks.insert id t, d.touched.insert id ()⟩ := by
  refine ⟨fun x u hu => ?_, fun x hx => ?_, fun x hx => ?_, fun x hx => ?_⟩
  · rw [get?_insert] at hu
    split_ifs at hu
    · exact Option.some.inj hu ▸ ht
    · exact h.shaped x u hu
  · rw [get?_insert] at hx ⊢
    split_ifs at hx ⊢
    exact h.kept x hx
  · rw [get?_insert]
    split_ifs
    · rfl
    · exact h.grows x hx
  · rw [get?_insert] at hx ⊢
    split_ifs at hx ⊢
    · rfl
    · exact h.present x hx

theorem Drafted.applyAct (h : Drafted old d) {act : Act} (hact : act.Shaped) {d' : Draft}
    (hd : applyAct rev d act = .ok d') : Drafted old d' := by
  cases act with
  | add id creator fields =>
    cases id with
    | none => simp [Kanban.applyAct] at hd
    | some id =>
      simp only [Kanban.applyAct] at hd
      split_ifs at hd
      cases hd
      exact h.write ⟨setFields_assignees hact.1 (.inr hact.2), setFields_blockedBy hact.1 nodup_nil⟩
  | set id fields =>
    simp only [Kanban.applyAct] at hd
    split at hd
    · simp at hd
    · rename_i t ht
      cases hd
      have hshaped := h.shaped id t ht
      exact h.write ⟨setFields_assignees hact (.inl hshaped.1), setFields_blockedBy hact hshaped.2⟩
  | state id target note evidence =>
    obtain ⟨_, -, hd⟩ := bind_eq_ok.mp hd
    split at hd
    · simp [throw, throwThe, MonadExceptOf.throw] at hd
    · rename_i t ht
      obtain rfl := pure_eq_ok.mp hd
      exact h.write (h.shaped id t ht)

end

section

variable {tasks : Tasks} {seats : Finset String} {id : TaskId} {t : Task}

variable {u : Unit}

theorem checkSeats_eq_ok {sid : String} (h : checkSeats sid t seats = .ok u) :
    t.creator ∈ seats ∧ ∀ a ∈ t.assignees, a ∈ seats := by
  obtain ⟨_, hcreator, h⟩ := bind_eq_ok.mp h
  refine ⟨ensure_eq_ok.mp hcreator, ?_⟩
  split at h
  · simp [throw, throwThe, MonadExceptOf.throw] at h
  · rename_i hfind
    intro a ha
    have hnone := find?_eq_none.mp hfind a ha
    simpa using hnone

theorem checkSkipped_eq_ok {sid : String} (h : checkSkipped sid t = .ok u) (k : NaiveDate)
    (hk : k ∈ t.skip ∨ (t.moved.get? k).isSome) :
    ∃ w r, t.when = some w ∧ t.recurs = some r ∧ isOccurrence w r k = true := by
  unfold checkSkipped at h
  split at h
  · rename_i w r hw hr
    split at h
    · simp at h
    · rename_i hfind
      refine ⟨w, r, hw, hr, ?_⟩
      have hmem : k ∈ t.skip ++ t.moved.entries.map Prod.fst := by
        rcases hk with hk | hk
        · exact mem_append_left _ hk
        · obtain ⟨v, hv⟩ := isSome_iff_exists.mp hk
          exact mem_append_right _ (mem_map.mpr ⟨(k, v), get?_eq_some.mp hv, rfl⟩)
      simpa using find?_eq_none.mp hfind k hmem
  · obtain ⟨hskip, hmoved⟩ := ensure_eq_ok.mp h
    rcases hk with hk | hk
    · rw [hskip] at hk
      exact absurd hk not_mem_nil
    · obtain ⟨v, hv⟩ := isSome_iff_exists.mp hk
      have hmem := get?_eq_some.mp hv
      rw [hmoved] at hmem
      exact absurd hmem not_mem_nil

theorem checkLink_eq_ok {b : TaskId} (h : checkLink tasks id t b = .ok u) :
    ∃ p, tasks.get? b = some p ∧ p.isSeries = false ∧ t.isSeries = false := by
  obtain ⟨_, -, h⟩ := bind_eq_ok.mp h
  split at h
  · simp [throw, throwThe, MonadExceptOf.throw] at h
  · rename_i p hp
    have hfree := ensure_eq_ok.mp h
    rw [Bool.not_eq_true', Bool.or_eq_false_iff] at hfree
    exact ⟨p, hp, hfree⟩

theorem checkTask_fine (hshaped : t.Shaped) (h : checkTask tasks id t seats = .ok u) :
    Fine tasks seats t := by
  obtain ⟨_, hseats, h⟩ := bind_eq_ok.mp h
  obtain ⟨_, hdates, h⟩ := bind_eq_ok.mp h
  obtain ⟨_, htimed, h⟩ := bind_eq_ok.mp h
  obtain ⟨_, hseries, h⟩ := bind_eq_ok.mp h
  obtain ⟨_, hskipped, hlinks⟩ := bind_eq_ok.mp h
  obtain ⟨hcreator, hassignees⟩ := checkSeats_eq_ok hseats
  have hstate := ensure_eq_ok.mp hseries
  refine ⟨hcreator, hshaped.1, hassignees, ensure_eq_ok.mp hdates, ensure_eq_ok.mp htimed, fun hs => ?_,
    checkSkipped_eq_ok hskipped, hshaped.2, fun b hb => checkLink_eq_ok (forM_eq_ok hlinks b hb)⟩
  simpa using hstate hs

theorem checkTouched_eq_ok (h : checkTouched tasks seats id = .ok u) (ht : tasks.get? id = some t) :
    checkTask tasks id t seats = .ok () ∧
      (t.isSeries = true → ∀ x d, tasks.get? x = some d → id ∉ d.blockedBy) := by
  unfold checkTouched at h
  rw [ht] at h
  obtain ⟨_, hcheck, h⟩ := bind_eq_ok.mp h
  rw [mapError_eq_ok] at hcheck
  refine ⟨hcheck, fun hseries x d hd hmem => ?_⟩
  rw [if_pos hseries] at h
  split at h
  · simp [throw, throwThe, MonadExceptOf.throw] at h
  · rename_i hfind
    have hnone := find?_eq_none.mp hfind (x, d) (get?_eq_some.mp hd)
    simp [hmem] at hnone

theorem mem_nodes {n : TaskId} (hn : hasTask tasks n = true) : n ∈ (tasks.entries.map Prod.fst).toFinset := by
  obtain ⟨t, ht⟩ := isSome_iff_exists.mp hn
  exact mem_toFinset.mpr (mem_map.mpr ⟨(n, t), get?_eq_some.mp ht, rfl⟩)

theorem links_lt_fuel (tasks : Tasks) :
    ∑ n ∈ (tasks.entries.map Prod.fst).toFinset, ((prerequisites tasks n).length + 1) <
      fuelOf (prerequisites tasks) (tasks.entries.map Prod.fst) := by
  rw [sum_toFinset _ tasks.keys_nodup]
  exact Nat.lt_succ_self _

theorem board_search (tasks : Tasks) (roots : List TaskId) :
    (∃ id, visitAll (prerequisites tasks) (hasTask tasks)
        (fuelOf (prerequisites tasks) (tasks.entries.map Prod.fst)) roots SortedMap.empty = some (.inl id)) ∨
      ∃ color, visitAll (prerequisites tasks) (hasTask tasks)
          (fuelOf (prerequisites tasks) (tasks.entries.map Prod.fst)) roots SortedMap.empty = some (.inr color) ∧
        ∀ r ∈ roots, hasTask tasks r = true → Acc (Follows (prerequisites tasks) (hasTask tasks)) r :=
  visitAll_spec (fun _ => mem_nodes) (links_lt_fuel tasks) roots SortedMap.empty searching_empty

theorem findCycle_eq_none {roots : List TaskId} (h : findCycle tasks roots = none) :
    ∀ r ∈ roots, (tasks.get? r).isSome → Acc (Follows (prerequisites tasks) (hasTask tasks)) r := by
  unfold findCycle at h
  rcases board_search tasks roots with ⟨a, heq⟩ | ⟨color, -, hacc⟩
  · simp [heq] at h
  · exact hacc

theorem findCycle_eq_some {roots : List TaskId} {id : TaskId} (h : findCycle tasks roots = some id) :
    Relation.TransGen (Follows (prerequisites tasks) (hasTask tasks)) id id ∧
      ∃ root ∈ roots, hasTask tasks root = true ∧
        Relation.ReflTransGen (Follows (prerequisites tasks) (hasTask tasks)) id root := by
  unfold findCycle at h
  dsimp only at h
  rcases board_search tasks roots with ⟨a, heq⟩ | ⟨color, heq, -⟩
  · rw [heq] at h
    obtain rfl : a = id := Option.some.inj h
    exact visitAll_found (fun _ => mem_nodes) (links_lt_fuel tasks) searching_empty heq
  · simp [heq] at h

def BlockedBy (tasks : Tasks) (id b : TaskId) : Prop := hasTask tasks b = true ∧ Blocks tasks b id

theorem follows_iff_blockedBy {id b : TaskId} :
    Follows (prerequisites tasks) (hasTask tasks) b id ↔ BlockedBy tasks id b := by
  refine and_congr_right fun _ => ?_
  cases ht : tasks.get? id with
  | none | some t => simp [prerequisites, Blocks, ht]

theorem follows_eq_swap :
    Follows (prerequisites tasks) (hasTask tasks) = Function.swap (BlockedBy tasks) := by
  funext b id
  exact propext follows_iff_blockedBy

theorem BlockedBy.cycle_hasTask {id : TaskId} (h : Relation.TransGen (BlockedBy tasks) id id) :
    hasTask tasks id = true := by
  obtain ⟨b, -, hb⟩ := Relation.TransGen.tail'_iff.mp h
  exact hb.1

theorem not_cycle_of_acc {root id : TaskId} (hacc : Acc (Follows (prerequisites tasks) (hasTask tasks)) root)
    (hreach : Relation.ReflTransGen (BlockedBy tasks) root id) : ¬ Relation.TransGen (BlockedBy tasks) id id := by
  rw [follows_eq_swap] at hacc
  have hend : Acc (Function.swap (BlockedBy tasks)) id := by
    induction hreach with
    | refl => exact hacc
    | tail _ hstep ih => exact ih.inv hstep
  exact fun hcycle => not_transGen_self hend (Relation.transGen_swap.mpr hcycle)

/-- The search of the board ends, and finds a cycle exactly where a root leads to one. -/
theorem findCycle_exact (tasks : Tasks) (roots : List TaskId) :
    (visitAll (prerequisites tasks) (hasTask tasks) (fuelOf (prerequisites tasks) (tasks.entries.map Prod.fst))
        roots SortedMap.empty).isSome ∧
      (∀ id, findCycle tasks roots = some id → Relation.TransGen (BlockedBy tasks) id id ∧
        ∃ root ∈ roots, Relation.ReflTransGen (BlockedBy tasks) root id) ∧
      ((findCycle tasks roots).isSome ↔ ∃ root ∈ roots, ∃ id,
        Relation.ReflTransGen (BlockedBy tasks) root id ∧ Relation.TransGen (BlockedBy tasks) id id) := by
  have hsound : ∀ id, findCycle tasks roots = some id → Relation.TransGen (BlockedBy tasks) id id ∧
      ∃ root ∈ roots, Relation.ReflTransGen (BlockedBy tasks) root id := by
    intro id hid
    obtain ⟨hcycle, root, hroot, -, hreach⟩ := findCycle_eq_some hid
    rw [follows_eq_swap] at hcycle hreach
    exact ⟨Relation.transGen_swap.mp hcycle, root, hroot, Relation.reflTransGen_swap.mp hreach⟩
  refine ⟨?_, hsound, fun h => ?_, ?_⟩
  · rcases board_search tasks roots with ⟨a, heq⟩ | ⟨color, heq, -⟩
    · rw [heq]
      rfl
    · rw [heq]
      rfl
  · obtain ⟨id, hid⟩ := Option.isSome_iff_exists.mp h
    obtain ⟨hcycle, root, hroot, hreach⟩ := hsound id hid
    exact ⟨root, hroot, id, hreach, hcycle⟩
  · rintro ⟨root, hroot, id, hreach, hcycle⟩
    by_contra hnone
    have hfound : findCycle tasks roots = none := Option.not_isSome_iff_eq_none.mp hnone
    -- a root with a way to the cycle is itself a task of the board
    have hhas : hasTask tasks root = true := by
      rcases Relation.ReflTransGen.cases_head hreach with rfl | ⟨b, ⟨-, t, ht, -⟩, -⟩
      · exact BlockedBy.cycle_hasTask hcycle
      · rw [hasTask, ht]
        rfl
    exact not_cycle_of_acc (findCycle_eq_none hfound root hroot hhas) hreach hcycle

end

structure Standing (seats : Finset String) (tasks : Tasks) : Prop where
  fine : ∀ id t, tasks.get? id = some t → Fine tasks seats t
  ends : ∀ id, Acc (Follows (prerequisites tasks) (hasTask tasks)) id

section

variable {seats : Finset String} {tasks old : Tasks}

theorem Standing.wellFormed (h : Standing seats tasks) : WellFormed seats tasks := by
  have hfollows : ∀ b x, Blocks tasks b x → Follows (prerequisites tasks) (hasTask tasks) b x := by
    rintro b x ⟨t, ht, hb⟩
    obtain ⟨p, hp, -⟩ := (h.fine x t ht).links b hb
    refine ⟨isSome_iff_exists.mpr ⟨p, hp⟩, ?_⟩
    rw [prerequisites, ht]
    exact hb
  refine ⟨h.fine, fun id hcycle => not_transGen_self (h.ends id) ?_⟩
  exact Relation.TransGen.mono hfollows id id hcycle

theorem Standing.untouched (h : Standing seats old) {d : Draft} (hd : Drafted old d)
    (hchecked : ∀ id, (d.touched.get? id).isSome → checkTouched d.tasks seats id = .ok ())
    {id : TaskId} {t : Task} (hfree : d.touched.get? id = none) (ht : d.tasks.get? id = some t) :
    Fine d.tasks seats t := by
  have hold : old.get? id = some t := (hd.kept id hfree).symm.trans ht
  have hfine := h.fine id t hold
  refine ⟨hfine.creator, hfine.assigned, hfine.seated, hfine.dates, hfine.timed, hfine.series, hfine.skipped,
    hfine.once, fun b hb => ?_⟩
  obtain ⟨p, hp, hseries, hself⟩ := hfine.links b hb
  cases htouched : d.touched.get? b with
  | none => exact ⟨p, (hd.kept b htouched).trans hp, hseries, hself⟩
  | some u =>
    obtain ⟨q, hq⟩ := isSome_iff_exists.mp (hd.present b (by simp [htouched]))
    refine ⟨q, hq, ?_, hself⟩
    by_contra hnot
    have hlinked := (checkTouched_eq_ok (hchecked b (by simp [htouched])) hq).2 (by simpa using hnot)
    exact hlinked id t ht hb

theorem Standing.ends_next (h : Standing seats old) {d : Draft} (hd : Drafted old d)
    (hsearched : ∀ id, (d.touched.get? id).isSome →
      Acc (Follows (prerequisites d.tasks) (hasTask d.tasks)) id) (id : TaskId) :
    Acc (Follows (prerequisites d.tasks) (hasTask d.tasks)) id := by
  induction h.ends id with
  | intro id _ ih =>
    cases htouched : d.touched.get? id with
    | some u => exact hsearched id (by simp [htouched])
    | none =>
      refine Acc.intro id fun b hb => ih b ?_
      have hsame : prerequisites d.tasks id = prerequisites old id := by
        rw [prerequisites, hd.kept id htouched]
        rfl
      have hmem : b ∈ prerequisites old id := hsame ▸ hb.2
      refine ⟨?_, hmem⟩
      unfold prerequisites at hmem
      cases ht : old.get? id with
      | none => simp [ht] at hmem
      | some t =>
        rw [ht] at hmem
        obtain ⟨p, hp, -⟩ := (h.fine id t ht).links b hmem
        exact isSome_iff_exists.mpr ⟨p, hp⟩

theorem Standing.applyChangeset (h : Standing seats old) {rev₀ rev : UInt64} {acts : List Act}
    (hacts : ∀ a ∈ acts, a.Shaped) (happly : applyChangeset ⟨rev₀, old⟩ acts rev seats = .ok tasks) :
    Standing seats tasks := by
  unfold Kanban.applyChangeset at happly
  simp only [bind_eq_ok] at happly
  obtain ⟨d, hrun, _, hresult, happly⟩ := happly
  obtain rfl := pure_eq_ok.mp happly
  have hstart : Drafted old ⟨old, SortedMap.empty⟩ :=
    ⟨fun id t ht => ⟨(h.fine id t ht).assigned, (h.fine id t ht).once⟩, fun _ _ => rfl, fun _ hid => hid, nofun⟩
  have hd : Drafted old d := foldlM_invariant (P := Drafted old)
    (fun s a s' ha hs hstep => hs.applyAct (hacts a ha) hstep) hstart hrun
  obtain ⟨_, hchecks, hresult⟩ := bind_eq_ok.mp hresult
  have hmem : ∀ id, (d.touched.get? id).isSome → id ∈ d.touched.entries.map Prod.fst := by
    intro id hid
    obtain ⟨u, hu⟩ := isSome_iff_exists.mp hid
    exact mem_map.mpr ⟨(id, u), get?_eq_some.mp hu, rfl⟩
  have hchecked : ∀ id, (d.touched.get? id).isSome → checkTouched d.tasks seats id = .ok () :=
    fun id hid => forM_eq_ok hchecks id (hmem id hid)
  have hnone : findCycle d.tasks (d.touched.entries.map Prod.fst) = none := by
    split at hresult
    · simp [throw, throwThe, MonadExceptOf.throw] at hresult
    · assumption
  have hsearched : ∀ id, (d.touched.get? id).isSome →
      Acc (Follows (prerequisites d.tasks) (hasTask d.tasks)) id :=
    fun id hid => findCycle_eq_none hnone id (hmem id hid) (hd.present id hid)
  refine ⟨fun id t ht => ?_, h.ends_next hd hsearched⟩
  cases htouched : d.touched.get? id with
  | none => exact h.untouched hd hchecked htouched ht
  | some u =>
    have hcheck := checkTouched_eq_ok (hchecked id (by simp [htouched])) ht
    exact checkTask_fine (hd.shaped id t ht) hcheck.1

def isChangeset (payload : Value) : Bool := payload.getStr "op" == some "kanban_ops"

theorem kanbanFoldOne_standing {board : BoardState} (h : Standing seats board.tasks) (payload : Value) :
    Standing seats (kanbanFoldOne board payload seats).1.tasks := by
  unfold kanbanFoldOne
  by_cases hop : payload.getStr "op" ≠ some "kanban_ops"
  · rw [if_pos hop]
    exact h
  · rw [if_neg hop]
    generalize (if board.rev.toNat + 1 < 2 ^ 64 then board.rev + 1 else board.rev) = rev
    dsimp only
    split
    · rename_i tasks hresult
      obtain ⟨acts, hparse, happly⟩ := bind_eq_ok.mp hresult
      rw [mapError_eq_ok] at hparse
      exact h.applyChangeset (fun a ha => (parseChangeset_parsed hparse a ha).shaped) happly
    · exact h

theorem kanbanFoldOne_rev (board : BoardState) (payload : Value) :
    (kanbanFoldOne board payload seats).1.rev.toNat =
      if isChangeset payload then min (board.rev.toNat + 1) (2 ^ 64 - 1) else board.rev.toNat := by
  have hbound := board.rev.toNat_lt
  have hrev : (if board.rev.toNat + 1 < 2 ^ 64 then board.rev + 1 else board.rev).toNat =
      min (board.rev.toNat + 1) (2 ^ 64 - 1) := by
    split_ifs with hlt
    · rw [UInt64.toNat_add]
      simp only [UInt64.reduceToNat]
      omega
    · omega
  unfold kanbanFoldOne isChangeset
  by_cases hop : payload.getStr "op" = some "kanban_ops"
  · simp only [hop, ne_eq, not_true_eq_false, if_false, beq_self_eq_true, if_true]
    split
    all_goals exact hrev
  · simp [hop]

theorem kanbanFold_standing (seats : Finset String) (applied : List Value) :
    Standing seats (kanbanFold applied seats).tasks := by
  have hempty : Standing seats (SortedMap.empty : Tasks) := by
    refine ⟨fun id t ht => ?_, fun id => Acc.intro id fun b hb => ?_⟩
    · simp [get?_empty] at ht
    · exact absurd hb.2 (by simp [prerequisites, get?_empty])
  have hstanding : ∀ (l : List Value) (board : BoardState), Standing seats board.tasks →
      Standing seats (l.foldl (fun board p => (kanbanFoldOne board p seats).1) board).tasks := by
    intro l
    induction l with
    | nil => exact fun _ h => h
    | cons p l ih => exact fun board h => ih _ (kanbanFoldOne_standing h p)
  exact hstanding applied {} hempty

/-- Every board the fold returns is well formed, and counts the changesets it has folded,
the void ones too. -/
theorem kanbanFold_wellFormed (seats : Finset String) (applied : List Value) :
    WellFormed seats (kanbanFold applied seats).tasks ∧
      (kanbanFold applied seats).rev.toNat = min (applied.countP isChangeset) (2 ^ 64 - 1) := by
  have hrev : ∀ (l : List Value) (board : BoardState),
      (l.foldl (fun board p => (kanbanFoldOne board p seats).1) board).rev.toNat =
        min (board.rev.toNat + l.countP isChangeset) (2 ^ 64 - 1) := by
    intro l
    induction l with
    | nil =>
      intro board
      have hbound := board.rev.toNat_lt
      simp only [List.foldl_nil, List.countP_nil]
      omega
    | cons p l ih =>
      intro board
      rw [List.foldl_cons, ih, kanbanFoldOne_rev, List.countP_cons]
      generalize 2 ^ 64 - 1 = top
      split_ifs
      · omega
      · omega
  refine ⟨(kanbanFold_standing seats applied).wellFormed, ?_⟩
  exact (hrev applied {}).trans (by simp)

end

end Molt.Kanban
