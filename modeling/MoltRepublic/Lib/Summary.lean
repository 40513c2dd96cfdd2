import Mathlib

/-! Last-write-wins summaries of a log, and registers that take an edit only when a
guard admits it. A summary keeps the latest entry of every slot; whether a reader of
the log can tell the difference depends on what its guard does with that entry. -/

namespace Molt.Summary
open List Option

variable {α β κ σ : Type*} [DecidableEq κ] (slot : α → Option κ)

def keep (l : List α) (x : α) : List α :=
  match slot x with
  | some k => l.filter (fun y => slot y ≠ some k) ++ [x]
  | none => l ++ [x]

def summary (l : List α) : List α := l.foldl (keep slot) []

theorem summary_concat (l : List α) (x : α) :
    summary slot (l ++ [x]) = keep slot (summary slot l) x := by
  simp [summary, foldl_append]

variable {slot}

theorem filterMap_filter_of_none {p : α → Bool} {read : α → Option β}
    (h : ∀ x, p x = false → read x = none) (l : List α) :
    (l.filter p).filterMap read = l.filterMap read := by
  induction l with
  | nil => rfl
  | cons x l ih =>
    cases hp : p x with
    | true => rw [filter_cons_of_pos hp, filterMap_cons, filterMap_cons, ih]
    | false => rw [filter_cons_of_neg (by simp [hp]), filterMap_cons_none (h x hp), ih]

theorem filterMap_summary {k : κ} {read : α → Option β}
    (hread : ∀ x, (read x).isSome ↔ slot x = some k) (l : List α) :
    (summary slot l).filterMap read = (l.filterMap read).getLast?.toList := by
  have hnone : ∀ x, slot x ≠ some k → read x = none := fun x hx =>
    not_isSome_iff_eq_none.mp fun h => hx ((hread x).mp h)
  induction l using List.reverseRecOn with
  | nil => rfl
  | append_singleton l x ih =>
    rw [summary_concat, filterMap_append, keep]
    by_cases hx : slot x = some k
    · -- the entry takes the slot over: nothing of it is left before the entry
      obtain ⟨b, hb⟩ := isSome_iff_exists.mp ((hread x).mpr hx)
      have hdropped : ((summary slot l).filter fun y => slot y ≠ some k).filterMap read = [] := by
        rw [filterMap_eq_nil_iff]
        intro y hy
        exact hnone y (by simpa using (mem_filter.mp hy).2)
      simp only [hx, filterMap_append, hdropped, filterMap_cons, hb, filterMap_nil,
        nil_append, getLast?_concat, toList_some]
    · have hother : ∀ j, slot x = some j → ((summary slot l).filter
          fun y => slot y ≠ some j).filterMap read = (summary slot l).filterMap read := by
        intro j hj
        apply filterMap_filter_of_none
        intro y hy
        have hyj : slot y = some j := by simpa using hy
        exact hnone y (by rw [hyj, ← hj]; exact hx)
      cases hj : slot x with
      | none => simp [filterMap_append, hnone x hx, ih]
      | some j => simp only [filterMap_append, hother j hj, filterMap_cons, hnone x hx,
          filterMap_nil, append_nil, ih]

end Molt.Summary

namespace Molt.Guarded

variable {σ ε : Type*} (adopts : σ → ε → Prop) [∀ s e, Decidable (adopts s e)] (value : ε → σ)

def edit (s : σ) (e : ε) : σ := if adopts s e then value e else s

def run (s : σ) (es : List ε) : σ := es.foldl (edit adopts value) s

@[simp] theorem run_nil (s : σ) : run adopts value s [] = s := rfl

@[simp] theorem run_cons (s : σ) (e : ε) (es : List ε) :
    run adopts value s (e :: es) = run adopts value (edit adopts value s e) es := rfl

theorem run_append (s : σ) (es fs : List ε) :
    run adopts value s (es ++ fs) = run adopts value (run adopts value s es) fs :=
  List.foldl_append ..

variable {adopts value}

theorem foldl_eq_run {S α : Type*} {f : S → α → S} {get : S → σ} {read : α → Option ε}
    (h : ∀ s x, get (f s x) = (read x).elim (get s) (edit adopts value (get s))) (s : S)
    (l : List α) : get (l.foldl f s) = run adopts value (get s) (l.filterMap read) := by
  induction l generalizing s with
  | nil => rfl
  | cons x l ih =>
    rw [List.foldl_cons, ih, h]
    cases hx : read x <;> simp [hx]

section
variable (hself : ∀ s e, adopts s e → adopts (value e) e)
include hself

theorem edit_eq_iff (a b : σ) (e : ε) :
    edit adopts value a e = edit adopts value b e ↔ a = b ∨ (adopts a e ∧ adopts b e) := by
  unfold edit
  by_cases ha : adopts a e <;> by_cases hb : adopts b e
  · simp [ha, hb]
  · simp only [ha, hb, if_true, if_false, and_false, or_false]
    constructor
    · rintro rfl
      exact absurd (hself a e ha) hb
    · rintro rfl
      exact absurd ha hb
  · simp only [ha, hb, if_true, if_false, false_and, or_false]
    constructor
    · rintro rfl
      exact absurd (hself b e hb) ha
    · rintro rfl
      exact absurd hb ha
  · simp [ha, hb]

theorem run_eq_iff (a b : σ) (es : List ε) : run adopts value a es = run adopts value b es ↔
    a = b ∨ ∃ u e v, es = u ++ e :: v ∧ adopts (run adopts value a u) e ∧
      adopts (run adopts value b u) e := by
  induction es generalizing a b with
  | nil => simp
  | cons e es ih =>
    rw [run_cons, run_cons, ih, edit_eq_iff hself, or_assoc]
    apply or_congr_right
    constructor
    · rintro (⟨ha, hb⟩ | ⟨u, f, v, rfl, ha, hb⟩)
      · exact ⟨[], e, es, rfl, ha, hb⟩
      · exact ⟨e :: u, f, v, rfl, ha, hb⟩
    · rintro ⟨u, f, v, hsplit, ha, hb⟩
      cases u with
      | nil =>
        obtain ⟨rfl, rfl⟩ := List.cons.inj hsplit
        exact .inl ⟨ha, hb⟩
      | cons g u =>
        obtain ⟨rfl, rfl⟩ := List.cons.inj hsplit
        exact .inr ⟨u, f, v, rfl, ha, hb⟩

end

variable (adopts value)

/-- A register that reads a log through its summary: of the edits `p` before the cut only
the last is left. Nothing is lost when the edits before that one leave the register as it
started, or when from that one on some edit is adopted on both sides. -/
def SurvivesCut (s : σ) (p t : List ε) : Prop :=
  ∀ q e, p = q ++ [e] → run adopts value s q = s ∨
    ∃ u f v, e :: t = u ++ f :: v ∧ adopts (run adopts value s (q ++ u)) f ∧
      adopts (run adopts value s u) f

variable {adopts value}

theorem run_summary_iff (hself : ∀ s e, adopts s e → adopts (value e) e) (s : σ) (p t : List ε) :
    run adopts value s (p ++ t) = run adopts value s (p.getLast?.toList ++ t) ↔
      SurvivesCut adopts value s p t := by
  rcases p.eq_nil_or_concat with rfl | ⟨q, e, rfl⟩
  · simp [SurvivesCut]
  · have hcut : ∀ q' e', q ++ [e] = q' ++ [e'] ↔ q = q' ∧ e = e' := by
      simp
    simp only [SurvivesCut, List.concat_eq_append, hcut, List.getLast?_concat, Option.toList_some,
      List.append_assoc, List.cons_append, List.nil_append]
    rw [run_append, run_eq_iff hself]
    simp only [run_append]
    constructor
    · rintro h _ _ ⟨rfl, rfl⟩
      exact h
    · intro h
      exact h q e ⟨rfl, rfl⟩

section

variable {valid : ε → Prop} [DecidablePred valid]

def lastValid (valid : ε → Prop) [DecidablePred valid] (value : ε → σ) (es : List ε) : Option σ :=
  ((es.filter fun e => valid e).getLast?).map value

theorem lastValid_concat (es : List ε) (e : ε) : lastValid valid value (es ++ [e]) =
    if valid e then some (value e) else lastValid valid value es := by
  by_cases he : valid e <;> simp [lastValid, he]

theorem run_valid_eq (s : σ) (es : List ε) :
    run (fun _ e => valid e) value s es = (lastValid valid value es).getD s := by
  induction es using List.reverseRecOn with
  | nil => rfl
  | append_singleton es e ih =>
    rw [run_append, ih, run_cons, run_nil, edit, lastValid_concat]
    by_cases he : valid e <;> simp [he]

/-- A register whose guard reads the edit alone survives a cut when the last edit before
it or some edit behind it is valid, or when the last valid value before it is the value
the register starts with. -/
def ValidSurvivesCut (valid : ε → Prop) [DecidablePred valid] (value : ε → σ) (s : σ)
    (p t : List ε) : Prop :=
  (∀ e ∈ p.getLast?, valid e) ∨ (∃ f ∈ t, valid f) ∨ ∀ x ∈ lastValid valid value p, x = s

theorem run_valid_summary_iff (s : σ) (p t : List ε) :
    run (fun _ e => valid e) value s (p ++ t) =
        run (fun _ e => valid e) value s (p.getLast?.toList ++ t) ↔
      ValidSurvivesCut valid value s p t := by
  rw [run_append, run_append, run_eq_iff fun _ _ h => h, ValidSurvivesCut]
  have hlater : (∃ u e v, t = u ++ e :: v ∧ valid e ∧ valid e) ↔ ∃ f ∈ t, valid f := by
    constructor
    · rintro ⟨u, e, v, rfl, he, _⟩
      exact ⟨e, by simp, he⟩
    · rintro ⟨f, hf, hv⟩
      obtain ⟨u, v, rfl⟩ := List.append_of_mem hf
      exact ⟨u, f, v, rfl, hv, hv⟩
  rw [hlater, run_valid_eq, run_valid_eq, ← or_assoc, or_right_comm]
  refine or_congr_left ?_
  rcases p.eq_nil_or_concat with rfl | ⟨q, e, rfl⟩
  · simp [lastValid]
  · have hsingle : lastValid valid value [e] = if valid e then some (value e) else none :=
      lastValid_concat [] e
    rw [List.concat_eq_append, List.getLast?_concat, Option.toList_some, lastValid_concat, hsingle]
    by_cases he : valid e
    · simp [he]
    · cases lastValid valid value q <;> simp [he]

end

theorem run_always_summary (s : σ) (p t : List ε) :
    run (fun _ _ => True) value s (p ++ t) =
      run (fun _ _ => True) value s (p.getLast?.toList ++ t) :=
  (run_valid_summary_iff s p t).mpr (.inl fun _ _ => trivial)

theorem getLast?_summary (p t : List ε) : (p.getLast?.toList ++ t).getLast? = (p ++ t).getLast? := by
  rw [List.getLast?_append, List.getLast?_append]
  cases p.getLast? <;> rfl

inductive Side where
  | left
  | right
  | both

def toLeft (es : List (Side × ε)) : List ε :=
  es.filterMap fun
    | (.right, _) => none
    | (_, e) => some e

def toRight (es : List (Side × ε)) : List ε :=
  es.filterMap fun
    | (.left, _) => none
    | (_, e) => some e

@[simp] theorem toLeft_append (es fs : List (Side × ε)) :
    toLeft (es ++ fs) = toLeft es ++ toLeft fs := List.filterMap_append

@[simp] theorem toRight_append (es fs : List (Side × ε)) :
    toRight (es ++ fs) = toRight es ++ toRight fs := List.filterMap_append

variable (adopts value)

def Joins (a b : σ) : Side × ε → Prop
  | (.both, e) => adopts a e ∧ adopts b e
  | (.left, e) => adopts a e ∧ value e = b
  | (.right, e) => adopts b e ∧ value e = a

def StaysJoined (c : σ) : List (Side × ε) → Prop
  | [] => True
  | (.both, e) :: es => StaysJoined (edit adopts value c e) es
  | (_, e) :: es => (adopts c e → value e = c) ∧ StaysJoined c es

/-- The two registers end equal: they start so, or some edit joins them, and from there
on no one-sided edit parts them. -/
def EndsJoined (a b : σ) (es : List (Side × ε)) : Prop :=
  (a = b ∧ StaysJoined adopts value a es) ∨
    ∃ u f v, es = u ++ f :: v ∧
      Joins adopts value (run adopts value a (toLeft u)) (run adopts value b (toRight u)) f ∧
      StaysJoined adopts value (run adopts value a (toLeft (u ++ [f]))) v

variable {adopts value}

theorem edit_eq_right_iff (a b : σ) (e : ε) : edit adopts value a e = b ↔
    (a = b ∧ (adopts a e → value e = a)) ∨ (adopts a e ∧ value e = b) := by
  unfold edit
  split_ifs with h
  · constructor
    · exact fun hv => .inr ⟨h, hv⟩
    · rintro (⟨rfl, hv⟩ | ⟨_, hv⟩)
      · exact hv h
      · exact hv
  · simp [h]

theorem edit_eq_self {a : σ} {e : ε} (h : adopts a e → value e = a) :
    edit adopts value a e = a := by
  unfold edit
  split_ifs with ha
  · exact h ha
  · rfl

theorem run_toLeft_cons (a : σ) (f : Side × ε) (es : List (Side × ε)) :
    run adopts value a (toLeft (f :: es)) =
      run adopts value (run adopts value a (toLeft [f])) (toLeft es) := by
  rw [← List.singleton_append, toLeft_append, run_append]

theorem run_toRight_cons (a : σ) (f : Side × ε) (es : List (Side × ε)) :
    run adopts value a (toRight (f :: es)) =
      run adopts value (run adopts value a (toRight [f])) (toRight es) := by
  rw [← List.singleton_append, toRight_append, run_append]

section
variable (hself : ∀ s e, adopts s e → adopts (value e) e)
include hself

theorem joined_after_iff (a b : σ) (f : Side × ε) (es : List (Side × ε)) :
    (run adopts value a (toLeft [f]) = run adopts value b (toRight [f]) ∧
        StaysJoined adopts value (run adopts value a (toLeft [f])) es) ↔
      (a = b ∧ StaysJoined adopts value a (f :: es)) ∨
        (Joins adopts value a b f ∧ StaysJoined adopts value (run adopts value a (toLeft [f])) es) := by
  obtain ⟨side, e⟩ := f
  cases side with
  | both =>
    simp only [toLeft, toRight, List.filterMap_cons, List.filterMap_nil, run_cons, run_nil,
      edit_eq_iff hself, StaysJoined, Joins]
    rw [or_and_right]
  | left =>
    simp only [toLeft, toRight, List.filterMap_cons, List.filterMap_nil, run_cons, run_nil,
      edit_eq_right_iff, StaysJoined, Joins, or_and_right]
    refine or_congr_left ?_
    constructor
    · rintro ⟨⟨rfl, hkeep⟩, hstay⟩
      exact ⟨rfl, hkeep, edit_eq_self hkeep ▸ hstay⟩
    · rintro ⟨rfl, hkeep, hstay⟩
      exact ⟨⟨rfl, hkeep⟩, (edit_eq_self hkeep).symm ▸ hstay⟩
  | right =>
    simp only [toLeft, toRight, List.filterMap_cons, List.filterMap_nil, run_cons, run_nil,
      StaysJoined, Joins]
    rw [eq_comm, edit_eq_right_iff, or_and_right]
    refine or_congr_left ?_
    constructor
    · rintro ⟨⟨rfl, hkeep⟩, hstay⟩
      exact ⟨rfl, hkeep, hstay⟩
    · rintro ⟨rfl, hkeep, hstay⟩
      exact ⟨⟨rfl, hkeep⟩, hstay⟩

theorem run_toLeft_eq_run_toRight_iff (a b : σ) (es : List (Side × ε)) :
    run adopts value a (toLeft es) = run adopts value b (toRight es) ↔
      EndsJoined adopts value a b es := by
  induction es generalizing a b with
  | nil => simp [EndsJoined, toLeft, toRight, StaysJoined]
  | cons f es ih =>
    rw [run_toLeft_cons, run_toRight_cons, ih, EndsJoined, joined_after_iff hself, EndsJoined,
      or_assoc]
    refine or_congr_right ?_
    constructor
    · rintro (⟨hjoin, hstay⟩ | ⟨u, g, v, rfl, hjoin, hstay⟩)
      · exact ⟨[], f, es, rfl, hjoin, hstay⟩
      · rw [← run_toLeft_cons, ← run_toRight_cons] at hjoin
        rw [← run_toLeft_cons] at hstay
        exact ⟨f :: u, g, v, rfl, hjoin, hstay⟩
    · rintro ⟨u, g, v, hsplit, hjoin, hstay⟩
      cases u with
      | nil =>
        obtain ⟨rfl, rfl⟩ := List.cons.inj hsplit
        exact .inl ⟨hjoin, hstay⟩
      | cons h u =>
        obtain ⟨rfl, rfl⟩ := List.cons.inj hsplit
        rw [run_toLeft_cons, run_toRight_cons] at hjoin
        rw [List.cons_append, run_toLeft_cons] at hstay
        exact .inr ⟨u, g, v, rfl, hjoin, hstay⟩

end

end Molt.Guarded
