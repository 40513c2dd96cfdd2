import Mathlib
import MoltRepublic.Kanban.Dates
import MoltRepublic.Kanban.NextHit

/-! The expansion of a series (`expand`): its occurrences that overlap a view of whole days. -/

namespace Molt.Kanban
open Check Turns SortedMap Nat
open Option hiding max_le
open List hiding Lex

def expandMax : ℕ := 1000

def expandReachDays : ℕ := 366

/-- The window of an occurrence. It may leave the four-digit years, so it is in days or minutes. -/
inductive Window
  | allDay (start last : ℕ)
  | timed (start last : ℕ)
  deriving DecidableEq

namespace Window

def begins : Window → ℕ
  | .allDay start _ => midnight start
  | .timed start _ => start

def ends : Window → ℕ
  | .allDay _ last => midnight (last + 1)
  | .timed _ last => last

/-- `None` past the last date of `chrono`. -/
def shifted (w : Window) (days : ℕ) : Option Window :=
  match w with
  | .allDay start last =>
    if start + days ≤ dateMax ∧ last + days ≤ dateMax then some (.allDay (start + days) (last + days)) else none
  | .timed start last =>
    if start + midnight days < midnight (dateMax + 1) ∧ last + midnight days < midnight (dateMax + 1) then
      some (.timed (start + midnight days) (last + midnight days))
    else none

def overlaps (w : Window) (from_ to_ : NaiveDate) : Bool :=
  decide (w.begins < midnight (to_.number + 1)) && decide (midnight from_.number < w.ends)

end Window

def When.window : When → Window
  | .allDay start last => .allDay start.number last.number
  | .timed start last => .timed start.instant last.instant

structure Occurrence where
  date : NaiveDate
  window : Window
  moved : Bool
  deriving DecidableEq

section
variable (w : When) (r : Repeat) (skip : List NaiveDate) (moved : SortedMap NaiveDate When) (from_ to_ : NaiveDate)

def place (d : NaiveDate) : Option Occurrence :=
  if d ∈ skip then none
  else do
    let (window, isMoved) ← match moved.get? d with
      | some m => some (m.window, true)
      | none => (w.window.shifted (d.number - w.startDate.number)).map fun window => (window, false)
    if window.overlaps from_ to_ then some ⟨d, window, isMoved⟩ else none

def scanFrom : ℕ :=
  max w.startDate.number (from_.number - min ((w.ends - w.begins) / midnight 1 + 1) expandReachDays)

/-- The loop of `expand`; a turn asks for the next original date when it is done with one. -/
def scan : ℕ → Option ℕ → Option ℕ → List Occurrence → Option (List Occurrence)
  | 0, _, _, out => some out
  | _ + 1, none, _, out => some out
  | turns + 1, some next, pos, out =>
    if to_.number < next ∨ expandMax ≤ out.length then some out
    else
      match dateAt next with
      | none => some out
      | some d =>
        match pos.elim (position w.startDate r d) fun p => some (p + 1) with
        | none => some out
        | some p =>
          if withinEnd r d p then do
            let next ← nextHit w.startDate r (next + 1)
            scan turns next (some p) (out ++ (place w skip moved from_ to_ d).toList)
          else some out

def sortKey (o : Occurrence) : Lex (ℕ × NaiveDate) := toLex (o.window.begins, o.date)

def expand (rep : Option Repeat) : Option (List Occurrence) :=
  match rep with
  | none => some (if w.window.overlaps from_ to_ then [⟨w.startDate, w.window, false⟩] else [])
  | some r => do
    let lo := scanFrom w from_
    let next ← nextHit w.startDate r lo
    let out ← scan w r skip moved from_ to_ (expandMax + skip.length + moved.entries.length) next none []
    let outside := (moved.entries.map Prod.fst).filter fun k => decide (k.number < lo) || decide (to_ < k)
    let out := out ++ (outside.filter (isOccurrence w r)).filterMap (place w skip moved from_ to_)
    return out.insertionSort fun a b => sortKey a ≤ sortKey b

end

def Window.later (w : Window) (days : ℕ) : Window :=
  match w with
  | .allDay start last => .allDay (start + days) (last + days)
  | .timed start last => .timed (start + midnight days) (last + midnight days)

theorem Window.later_begins (w : Window) (days : ℕ) : (w.later days).begins = w.begins + midnight days := by
  cases w with
  | allDay start last =>
    simp only [later, begins, midnight]
    ring
  | timed start last => rfl

theorem Window.later_ends (w : Window) (days : ℕ) : (w.later days).ends = w.ends + midnight days := by
  cases w with
  | allDay start last =>
    simp only [later, ends, midnight]
    ring
  | timed start last => rfl

theorem When.window_begins (w : When) : w.window.begins = w.begins := by cases w <;> rfl

theorem When.window_ends (w : When) : w.window.ends = w.ends := by cases w <;> rfl

theorem NaiveDateTime.instant_bounds (t : NaiveDateTime) :
    midnight t.date.number ≤ t.instant ∧ t.instant < midnight (t.date.number + 1) := by
  unfold instant midnight
  omega

theorem When.begins_bounds (w : When) :
    midnight w.startDate.number ≤ w.begins ∧ w.begins < midnight (w.startDate.number + 1) := by
  cases w with
  | allDay start last =>
    simp only [startDate, begins, midnight]
    omega
  | timed start last => exact start.instant_bounds

theorem shifted_eq (w : When) {days : ℕ} (hdays : days < yearsEnd) :
    w.window.shifted days = some (w.window.later days) := by
  have hend := yearsEnd_eq
  have hmax := dateMax_eq
  cases w with
  | allDay start last =>
    have hs := number_lt_yearsEnd start
    have hl := number_lt_yearsEnd last
    exact if_pos ⟨by omega, by omega⟩
  | timed start last =>
    have hs := number_lt_yearsEnd start.date
    have hl := number_lt_yearsEnd last.date
    have hs' := start.instant_bounds.2
    have hl' := last.instant_bounds.2
    refine if_pos ⟨?_, ?_⟩
    · unfold midnight at *
      omega
    · unfold midnight at *
      omega

theorem NaiveDateTime.instant_lt {s t : NaiveDateTime} (h : s.rank < t.rank) : s.instant < t.instant := by
  have hs := s.minute.isLt
  unfold rank at h
  rcases lt_trichotomy s.date t.date with hlt | heq | hlt
  · have hnumber := NaiveDate.number_lt.mpr hlt
    unfold instant
    omega
  · unfold instant
    rw [heq] at h ⊢
    omega
  · have hrank : t.date.rank < s.date.rank := hlt
    omega

theorem When.parse_begins {v : Json.Value} {w : When} (h : When.parse v = .ok w) : w.begins < w.ends := by
  obtain ⟨obj, -, h⟩ := bind_eq_ok.mp h
  obtain ⟨_, -, h⟩ := bind_eq_ok.mp h
  obtain ⟨s, -, h⟩ := bind_eq_ok.mp h
  obtain ⟨e, -, h⟩ := bind_eq_ok.mp h
  split at h
  · split at h
    · rename_i hle
      cases h
      have hnumber := NaiveDate.number_le.mpr hle
      unfold begins ends midnight
      dsimp only
      omega
    · cases h
  · split at h
    · split at h
      · rename_i hlt
        cases h
        exact NaiveDateTime.instant_lt hlt
      · cases h
    · cases h

section
variable {w : When} {r : Repeat} {skip : List NaiveDate} {moved : SortedMap NaiveDate When} {from_ to_ : NaiveDate}

/-- What the view should show: an occurrence that is not skipped, in the window it was moved to or
else in its own, which overlaps the view. -/
def Appears (w : When) (r : Repeat) (skip : List NaiveDate) (moved : SortedMap NaiveDate When)
    (from_ to_ : NaiveDate) (o : Occurrence) : Prop :=
  isOccurrence w r o.date = true ∧ o.date ∉ skip ∧ o.window.overlaps from_ to_ = true ∧
    match moved.get? o.date with
    | some m => o.window = m.window ∧ o.moved = true
    | none => o.window = w.window.later (o.date.number - w.startDate.number) ∧ o.moved = false

theorem place_eq_some {d : NaiveDate} {o : Occurrence} :
    place w skip moved from_ to_ d = some o ↔ o.date = d ∧ o.date ∉ skip ∧ o.window.overlaps from_ to_ = true ∧
      match moved.get? o.date with
      | some m => o.window = m.window ∧ o.moved = true
      | none => o.window = w.window.later (o.date.number - w.startDate.number) ∧ o.moved = false := by
  have hdays : d.number - w.startDate.number < yearsEnd := (sub_le _ _).trans_lt (number_lt_yearsEnd d)
  unfold place
  rw [shifted_eq w hdays]
  obtain ⟨date, window, isMoved⟩ := o
  by_cases hskip : d ∈ skip
  · rw [if_pos hskip]
    refine iff_of_false (by simp) ?_
    rintro ⟨rfl, hnot, -⟩
    exact hnot hskip
  · rw [if_neg hskip]
    cases hmoved : moved.get? d with
    | some m =>
      dsimp only [bind_eq_bind, bind_some]
      rw [ite_none_right_eq_some]
      constructor
      · rintro ⟨hover, h⟩
        cases h
        exact ⟨rfl, hskip, hover, by rw [hmoved]; exact ⟨rfl, rfl⟩⟩
      · rintro ⟨rfl, -, hover, h⟩
        rw [hmoved] at h
        obtain ⟨rfl, rfl⟩ := h
        exact ⟨hover, rfl⟩
    | none =>
      dsimp only [bind_eq_bind, bind_some, map_some]
      rw [ite_none_right_eq_some]
      constructor
      · rintro ⟨hover, h⟩
        cases h
        exact ⟨rfl, hskip, hover, by rw [hmoved]; exact ⟨rfl, rfl⟩⟩
      · rintro ⟨rfl, -, hover, h⟩
        rw [hmoved] at h
        obtain ⟨rfl, rfl⟩ := h
        exact ⟨hover, rfl⟩

theorem appears_iff {o : Occurrence} :
    Appears w r skip moved from_ to_ o ↔
      isOccurrence w r o.date = true ∧ place w skip moved from_ to_ o.date = some o := by
  rw [place_eq_some]
  exact and_congr_right fun _ => (and_iff_right rfl).symm

end

section
variable {w : When} {r : Repeat} {skip : List NaiveDate} {moved : SortedMap NaiveDate When} {from_ to_ : NaiveDate}

/-- The original dates before `y` are the first `j`. -/
def Split (start : NaiveDate) (r : Repeat) (limit j y : ℕ) : Prop :=
  ∀ i n, (original start r (limit + 1))[i]? = some n → (n < y ↔ i < j)

variable {start : NaiveDate}

theorem Split.next_stands (hr : r.Fits) {limit j y n : ℕ} (hsplit : Split start r limit j y)
    (hnext : IsNext start r y (some n)) (hle : n ≤ limit) : (original start r (limit + 1))[j]? = some n := by
  obtain ⟨⟨⟨hpattern, hy⟩, hleast⟩, -⟩ := (hnext n).mp rfl
  have hascending := original_ascending hr start (limit + 1)
  obtain ⟨i, hi⟩ := mem_iff_getElem?.mp ((mem_original hr (lt_succ_of_le hle)).mpr hpattern)
  have hji : j ≤ i := not_lt.mp fun hlt => hy.not_gt ((hsplit i n hi).mpr hlt)
  rcases hji.eq_or_lt with rfl | hlt
  · exact hi
  · have hlen := (List.getElem?_eq_some_iff.mp hi).1
    obtain ⟨e, hj⟩ : ∃ e, (original start r (limit + 1))[j]? = some e :=
      ⟨_, getElem?_eq_getElem (hlt.trans hlen)⟩
    have hen := (index_lt hascending hj hi).mpr hlt
    have hye : y ≤ e := not_lt.mp fun h => lt_irrefl j ((hsplit j e hj).mp h)
    have hmem := (mem_original hr (by omega)).mp (mem_of_getElem? hj)
    exact absurd (hleast ⟨hmem, hye⟩) hen.not_ge

theorem Split.next_eq (hr : r.Fits) {limit j y n : ℕ} {next : Option ℕ} (hsplit : Split start r limit j y)
    (hnext : IsNext start r y next) (hstands : (original start r (limit + 1))[j]? = some n) (hle : n ≤ limit)
    (hlimit : limit < yearsEnd) :
    next = some n := by
  have hascending := original_ascending hr start (limit + 1)
  have hy : y ≤ n := not_lt.mp fun h => lt_irrefl j ((hsplit j n hstands).mp h)
  have hpattern := (mem_original hr (lt_succ_of_le hle)).mp (mem_of_getElem? hstands)
  refine (hnext n).mpr ⟨⟨⟨hpattern, hy⟩, ?_⟩, ?_⟩
  · rintro m ⟨hm, hym⟩
    by_contra hlt
    have hmn := not_le.mp hlt
    obtain ⟨i, hi⟩ := mem_iff_getElem?.mp ((mem_original hr (by omega : m < limit + 1)).mpr hm)
    have hij := (index_lt hascending hi hstands).mp hmn
    exact hym.not_gt ((hsplit i m hi).mpr hij)
  · have hlast := yearsEnd_le_lastDay r.freq
    omega

theorem Split.after (hr : r.Fits) {limit j n : ℕ} (hstands : (original start r (limit + 1))[j]? = some n) :
    Split start r limit (j + 1) (n + 1) := by
  have hascending := original_ascending hr start (limit + 1)
  intro i m hi
  rw [Nat.lt_succ_iff, Nat.lt_succ_iff, ← not_lt, ← not_lt, index_lt hascending hstands hi]

def placeDay (w : When) (skip : List NaiveDate) (moved : SortedMap NaiveDate When) (from_ to_ : NaiveDate)
    (n : ℕ) : Option Occurrence := (dateAt n).bind (place w skip moved from_ to_)

theorem position_known (hr : r.Fits) {pos : Option ℕ} {j : ℕ} (hpos : pos = none ∨ ∃ p, pos = some p ∧ p + 1 = j)
    {d : NaiveDate} (hd : d.number ≤ to_.number)
    (hstands : (original w.startDate r (to_.number + 1))[j]? = some d.number) :
    pos.elim (position w.startDate r d) (fun p => some (p + 1)) = some j := by
  rcases hpos with rfl | ⟨p, rfl, hp⟩
  · exact (position_index hr (lt_succ_of_le hd)).mpr hstands
  · exact congrArg some hp

theorem le_of_mem_walk (hr : r.Fits) {limit n : ℕ} (h : n ∈ walk start r limit) : n ≤ limit :=
  ((mem_takeWhile (original_ascending hr start (limit + 1)) limit).mp ((cut_sublist _).mem h)).2

theorem scan_spec (hr : r.Fits) (rest : List ℕ) (turns j y : ℕ) (next pos : Option ℕ) (out : List Occurrence)
    (hrest : (walk w.startDate r to_.number).drop j = rest) (hnext : IsNext w.startDate r y next)
    (hsplit : Split w.startDate r to_.number j y) (hpos : pos = none ∨ ∃ p, pos = some p ∧ p + 1 = j)
    (hturns : rest.length ≤ turns) (hroom : out.length + rest.length ≤ expandMax) :
    ((∃ n ∈ rest, Overflows w.startDate r (n + 1)) →
        scan w r skip moved from_ to_ turns next pos out = none) ∧
      ((∀ n ∈ rest, ¬ Overflows w.startDate r (n + 1)) →
        scan w r skip moved from_ to_ turns next pos out =
          some (out ++ rest.filterMap (placeDay w skip moved from_ to_))) := by
  have hto := number_lt_yearsEnd to_
  have hmax := yearsEnd_le_dateMax
  induction rest generalizing turns j y next pos out with
  | nil =>
    refine ⟨fun ⟨n, hn, _⟩ => absurd hn (not_mem_nil), fun _ => ?_⟩
    have hgone : (walk w.startDate r to_.number)[j]? = none :=
      getElem?_eq_none (drop_eq_nil_iff.mp hrest)
    rw [filterMap_nil, append_nil]
    cases turns with
    | zero => rfl
    | succ turns =>
      cases next with
      | none => rfl
      | some n =>
        rw [scan]
        split
        · rfl
        rename_i hstop
        have hle := not_lt.mp (not_or.mp hstop).1
        obtain ⟨d, hd⟩ := dateAt_isSome (show n < yearsEnd by omega)
        obtain rfl := number_of_dateAt hd
        have hstands := hsplit.next_stands hr hnext hle
        rw [hd]
        dsimp only
        rw [position_known hr hpos hle hstands]
        dsimp only
        split
        · rename_i hwithin
          have hwalk := (getElem?_walk hr hle).mpr ⟨(position_index hr (lt_succ_of_le hle)).mpr hstands, hwithin⟩
          rw [hgone] at hwalk
          cases hwalk
        · rfl
  | cons n rest ih =>
    have hget : (walk w.startDate r to_.number)[j]? = some n := by
      rw [← Nat.add_zero j, ← getElem?_drop, hrest, getElem?_cons_zero]
    have hdrop : (walk w.startDate r to_.number).drop (j + 1) = rest := by
      rw [← drop_drop, hrest, drop_succ_cons, drop_zero]
    have hle := le_of_mem_walk hr (mem_of_getElem? hget)
    obtain ⟨d, hd⟩ := dateAt_isSome (show n < yearsEnd by omega)
    obtain rfl := number_of_dateAt hd
    obtain ⟨hpattern, hwithin⟩ := (getElem?_walk hr hle).mp hget
    have hstands := (position_index hr (lt_succ_of_le hle)).mp hpattern
    obtain rfl := hsplit.next_eq hr hnext hstands hle hto
    obtain ⟨hover, hcalm⟩ := @nextHit_spec w.startDate r _ hr (show d.number + 1 ≤ dateMax by omega)
    cases turns with
    | zero => simp at hturns
    | succ turns =>
      have hstep : scan w r skip moved from_ to_ (turns + 1) (some d.number) pos out =
          (nextHit w.startDate r (d.number + 1)).bind fun next =>
            scan w r skip moved from_ to_ turns next (some j) (out ++ (place w skip moved from_ to_ d).toList) := by
        have hgo : ¬ (to_.number < d.number ∨ expandMax ≤ out.length) := by
          simp only [length_cons] at hroom
          omega
        rw [scan, if_neg hgo, hd]
        dsimp only
        rw [position_known hr hpos hle hstands]
        dsimp only
        rw [if_pos hwithin]
        rfl
      have hplace : (d.number :: rest).filterMap (placeDay w skip moved from_ to_) =
          (place w skip moved from_ to_ d).toList ++ rest.filterMap (placeDay w skip moved from_ to_) := by
        unfold placeDay
        rw [filterMap_cons, hd]
        dsimp only [bind_some]
        cases place w skip moved from_ to_ d <;> rfl
      rw [hstep, hplace, ← append_assoc]
      by_cases hnow : Overflows w.startDate r (d.number + 1)
      · rw [hover hnow]
        exact ⟨fun _ => rfl, fun h => absurd hnow (h _ mem_cons_self)⟩
      · obtain ⟨o, ho, hnext'⟩ := hcalm hnow
        have hlength : (place w skip moved from_ to_ d).toList.length ≤ 1 := by
          cases place w skip moved from_ to_ d <;> simp
        have hrun := ih turns (j + 1) (d.number + 1) o (some j) (out ++ (place w skip moved from_ to_ d).toList) hdrop
          hnext' (Split.after hr hstands) (.inr ⟨j, rfl, rfl⟩) (by simpa using hturns)
          (by rw [length_append]; simp only [length_cons] at hroom; omega)
        rw [ho]
        constructor
        · rintro ⟨n, hn, hlater⟩
          rcases mem_cons.mp hn with rfl | hn
          · exact absurd hlater hnow
          · exact hrun.1 ⟨n, hn, hlater⟩
        · intro h
          exact hrun.2 fun n hn => h n (.tail _ hn)

end

section
variable {w : When} {r : Repeat} {skip : List NaiveDate} {moved : SortedMap NaiveDate When} {from_ to_ : NaiveDate}

theorem walk_stands (hr : r.Fits) {start : NaiveDate} {limit i n : ℕ} (hlimit : limit < yearsEnd)
    (h : (walk start r limit)[i]? = some n) : (original start r (limit + 1))[i]? = some n := by
  have hle := le_of_mem_walk hr (mem_of_getElem? h)
  obtain ⟨d, hd⟩ := dateAt_isSome (show n < yearsEnd by omega)
  obtain rfl := number_of_dateAt hd
  exact (position_index hr (lt_succ_of_le hle)).mp ((getElem?_walk hr hle).mp h).1

theorem length_filter_le_succ {l : List ℕ} (hl : l.Pairwise (· < ·)) {p q : ℕ → Bool} {c : ℕ}
    (h : ∀ n ∈ l, p n → q n = true ∨ n = c) : (l.filter p).length ≤ (l.filter q).length + 1 := by
  have hsplit : ∀ k : List ℕ, (∀ n ∈ k, p n → q n = true ∨ n = c) →
      (k.filter p).length ≤ (k.filter q).length + k.count c := by
    intro k hk
    induction k with
    | nil => simp
    | cons a k ih =>
      have hrest := ih fun n hn => hk n (mem_cons_of_mem _ hn)
      have hhead := hk a mem_cons_self
      rw [filter_cons, filter_cons, count_cons]
      by_cases hp : p a
      · rcases hhead hp with hq | rfl
        · rw [if_pos hp, if_pos hq, length_cons, length_cons]
          omega
        · rw [if_pos hp, length_cons, if_pos (beq_self_eq_true a)]
          split
          · rw [length_cons]
            omega
          · omega
      · rw [if_neg hp]
        refine hrest.trans ?_
        split
        · rw [length_cons]
          omega
        · omega
  have hnodup : l.Nodup := hl.imp fun h => h.ne
  exact (hsplit l h).trans (Nat.add_le_add_left (nodup_iff_count_le_one.mp hnodup c) _)

theorem scanned_le (hr : r.Fits) (hlength : w.ends - w.begins ≤ midnight 365)
    (hfew : ((walk w.startDate r to_.number).filter fun n =>
      midnight from_.number ≤ midnight n + (w.ends - w.begins)).length < expandMax) :
    ((walk w.startDate r to_.number).filter (scanFrom w from_ ≤ ·)).length ≤ expandMax := by
  have hspan : min ((w.ends - w.begins) / midnight 1 + 1) expandReachDays = (w.ends - w.begins) / 1440 + 1 := by
    unfold midnight at hlength ⊢
    unfold expandReachDays
    omega
  have hstep := length_filter_le_succ (walk_ascending hr w.startDate to_.number)
    (p := (scanFrom w from_ ≤ ·)) (q := fun n => midnight from_.number ≤ midnight n + (w.ends - w.begins))
    (c := from_.number - ((w.ends - w.begins) / 1440 + 1)) fun n _ hn => by
      simp only [decide_eq_true_eq] at hn ⊢
      unfold scanFrom at hn
      unfold midnight
      omega
  omega

theorem scanned_of_overlaps (hw : w.begins < w.ends) (hlength : w.ends - w.begins ≤ midnight 365) {d : NaiveDate}
    (hstart : w.startDate ≤ d)
    (hover : (w.window.later (d.number - w.startDate.number)).overlaps from_ to_ = true) :
    scanFrom w from_ ≤ d.number ∧ d.number ≤ to_.number := by
  obtain ⟨hlo, hhi⟩ := w.begins_bounds
  have hnumber := NaiveDate.number_le.mpr hstart
  unfold Window.overlaps at hover
  rw [Window.later_begins, Window.later_ends, w.window_begins, w.window_ends, Bool.and_eq_true, decide_eq_true_eq,
    decide_eq_true_eq] at hover
  unfold scanFrom
  have hspan : min ((w.ends - w.begins) / midnight 1 + 1) expandReachDays = (w.ends - w.begins) / 1440 + 1 := by
    unfold midnight at hlength ⊢
    unfold expandReachDays
    omega
  rw [hspan]
  unfold midnight at *
  omega

def collected (w : When) (r : Repeat) (skip : List NaiveDate) (moved : SortedMap NaiveDate When)
    (from_ to_ : NaiveDate) : List Occurrence :=
  ((walk w.startDate r to_.number).filter (scanFrom w from_ ≤ ·)).filterMap (placeDay w skip moved from_ to_) ++
    ((((moved.entries.map Prod.fst).filter fun k => decide (k.number < scanFrom w from_) || decide (to_ < k)).filter
      (isOccurrence w r)).filterMap (place w skip moved from_ to_))

theorem start_le_occurrence {d : NaiveDate} (h : isOccurrence w r d = true) :
    w.startDate.number ≤ d.number := by
  obtain ⟨j, hj, -⟩ := isOccurrence_iff.mp h
  by_contra hlt
  rw [position_before (NaiveDate.number_lt.mp (Nat.lt_of_not_ge hlt))] at hj
  cases hj

theorem collected_appears (hr : r.Fits) {o : Occurrence} (ho : o ∈ collected w r skip moved from_ to_) :
    Appears w r skip moved from_ to_ o := by
  rw [appears_iff]
  unfold collected placeDay at ho
  simp only [mem_append, mem_filterMap, mem_filter, decide_eq_true_eq, Bool.or_eq_true] at ho
  rcases ho with ⟨n, ⟨hn, -⟩, hplace⟩ | ⟨d, ⟨-, hocc⟩, hplace⟩
  · have hle := le_of_mem_walk hr hn
    obtain ⟨d, hd, hshown⟩ := bind_eq_some_iff.mp hplace
    obtain rfl := number_of_dateAt hd
    obtain ⟨rfl, -⟩ := place_eq_some.mp hshown
    exact ⟨(mem_walk hr hle).mp hn, hshown⟩
  · obtain ⟨rfl, -⟩ := place_eq_some.mp hplace
    exact ⟨hocc, hplace⟩

theorem mem_collected (hw : w.begins < w.ends) (hr : r.Fits) (hlength : w.ends - w.begins ≤ midnight 365)
    {o : Occurrence} : o ∈ collected w r skip moved from_ to_ ↔ Appears w r skip moved from_ to_ o := by
  refine ⟨collected_appears hr, fun happears => ?_⟩
  obtain ⟨hocc, hplace⟩ := appears_iff.mp happears
  obtain ⟨-, -, hover, hwindow⟩ := happears
  unfold collected placeDay
  simp only [mem_append, mem_filterMap, mem_filter, decide_eq_true_eq, Bool.or_eq_true]
  by_cases hin : scanFrom w from_ ≤ o.date.number ∧ o.date.number ≤ to_.number
  · left
    refine ⟨o.date.number, ⟨(mem_walk hr hin.2).mpr hocc, hin.1⟩, ?_⟩
    rw [dateAt_number]
    exact hplace
  · right
    refine ⟨o.date, ⟨⟨?_, ?_⟩, hocc⟩, hplace⟩
    · cases hmoved : moved.get? o.date with
      | some m => exact mem_map.mpr ⟨_, get?_eq_some.mp hmoved, rfl⟩
      | none =>
        rw [hmoved] at hwindow
        rw [hwindow.1] at hover
        have hstart := NaiveDate.number_le.mp (start_le_occurrence hocc)
        exact absurd (scanned_of_overlaps hw hlength hstart hover) hin
    · rw [← NaiveDate.number_lt]
      omega

theorem collected_dates (hr : r.Fits) : ((collected w r skip moved from_ to_).map Occurrence.date).Nodup := by
  have hdate : ∀ {d : NaiveDate} {o : Occurrence}, place w skip moved from_ to_ d = some o → o.date = d :=
    fun h => (place_eq_some.mp h).1
  have hday : ∀ {n : ℕ} {o : Occurrence}, placeDay w skip moved from_ to_ n = some o → o.date.number = n := by
    intro n o h
    obtain ⟨d, hd, hshown⟩ := bind_eq_some_iff.mp h
    rw [hdate hshown]
    exact number_of_dateAt hd
  unfold collected
  rw [map_append, nodup_append]
  refine ⟨?_, ?_, ?_⟩
  · rw [nodup_iff_pairwise_ne, pairwise_map, pairwise_filterMap]
    refine ((walk_ascending hr _ _).filter _).imp ?_
    intro a b hab o ho p hp heq
    have hnumber := congrArg NaiveDate.number heq
    rw [hday ho, hday hp] at hnumber
    exact hab.ne hnumber
  · rw [nodup_iff_pairwise_ne, pairwise_map, pairwise_filterMap]
    refine (((keys_nodup moved).filter _).filter _).imp ?_
    intro a b hab o ho p hp heq
    rw [hdate ho, hdate hp] at heq
    exact hab heq
  · intro a ha b hb
    obtain ⟨o, ho, rfl⟩ := mem_map.mp ha
    obtain ⟨p, hp, rfl⟩ := mem_map.mp hb
    obtain ⟨n, hn, hplace⟩ := mem_filterMap.mp ho
    obtain ⟨d, hd, hplace'⟩ := mem_filterMap.mp hp
    obtain ⟨hwalk, hlo⟩ := mem_filter.mp hn
    have hle := le_of_mem_walk hr hwalk
    have hout := (mem_filter.mp (mem_filter.mp hd).1).2
    simp only [Bool.or_eq_true, decide_eq_true_eq, ← NaiveDate.number_lt] at hout hlo
    intro heq
    have hnumber := congrArg NaiveDate.number heq
    rw [hday hplace, hdate hplace'] at hnumber
    omega

/-- The expansion asks for the next date where the search overflows: past the start's week before
it begins, or after a date that it shows or skips. -/
def OverflowsIn (w : When) (r : Repeat) (from_ to_ : NaiveDate) : Prop :=
  Overflows w.startDate r (scanFrom w from_) ∨
    ∃ n ∈ walk w.startDate r to_.number, scanFrom w from_ ≤ n ∧ Overflows w.startDate r (n + 1)

theorem OverflowsIn.interval (h : OverflowsIn w r from_ to_) : r.interval = lastWeek := by
  rcases h with h | ⟨n, -, -, h⟩
  all_goals exact h.2.1

theorem expand_scanned (hr : r.Fits)
    (hfew : ((walk w.startDate r to_.number).filter (scanFrom w from_ ≤ ·)).length ≤ expandMax) :
    (OverflowsIn w r from_ to_ → expand w skip moved from_ to_ (some r) = none) ∧
      (¬ OverflowsIn w r from_ to_ → expand w skip moved from_ to_ (some r) =
        some ((collected w r skip moved from_ to_).insertionSort fun a b => sortKey a ≤ sortKey b)) := by
  have hto := number_lt_yearsEnd to_
  have hlo : scanFrom w from_ ≤ dateMax := by
    have hstart := number_lt_yearsEnd w.startDate
    have hfrom := number_lt_yearsEnd from_
    have hmax := yearsEnd_le_dateMax
    exact max_le (by omega) ((sub_le _ _).trans (by omega))
  obtain ⟨hover, hcalm⟩ := @nextHit_spec w.startDate r _ hr hlo
  unfold OverflowsIn
  by_cases hfirst : Overflows w.startDate r (scanFrom w from_)
  · refine ⟨fun _ => ?_, fun h => absurd (Or.inl hfirst) h⟩
    unfold expand
    dsimp only
    rw [hover hfirst]
    rfl
  obtain ⟨next, hfound, hnext⟩ := hcalm hfirst
  obtain ⟨j, hsplit⟩ := exists_split (original_ascending hr w.startDate (to_.number + 1)) (scanFrom w from_)
  have hdrop : (walk w.startDate r to_.number).drop j = (walk w.startDate r to_.number).filter (scanFrom w from_ ≤ ·) :=
    drop_eq_filter fun i n hi => hsplit i n (walk_stands hr hto hi)
  obtain ⟨hhalts, hruns⟩ := @scan_spec w r skip moved from_ to_ hr _
    (expandMax + skip.length + moved.entries.length) j (scanFrom w from_) next none [] hdrop hnext hsplit (.inl rfl)
    (hfew.trans (by omega)) (by simpa using hfew)
  constructor
  · rintro (h | ⟨n, hn, hle, hlater⟩)
    · exact absurd h hfirst
    · unfold expand
      dsimp only
      rw [hfound]
      dsimp only [bind_eq_bind, bind_some]
      rw [hhalts ⟨n, mem_filter.mpr ⟨hn, decide_eq_true hle⟩, hlater⟩]
      rfl
  · intro h
    unfold expand
    dsimp only
    rw [hfound]
    dsimp only [bind_eq_bind, bind_some]
    have hno : ∀ n ∈ (walk w.startDate r to_.number).filter (scanFrom w from_ ≤ ·), ¬ Overflows w.startDate r (n + 1) := by
      intro n hn hlater
      obtain ⟨hwalk, hle⟩ := mem_filter.mp hn
      exact h (.inr ⟨n, hwalk, of_decide_eq_true hle, hlater⟩)
    rw [hruns hno]
    rfl

theorem expand_spec (hr : r.Fits) (hlength : w.ends - w.begins ≤ midnight 365)
    (hfew : ((walk w.startDate r to_.number).filter fun n =>
      midnight from_.number ≤ midnight n + (w.ends - w.begins)).length < expandMax) :
    (OverflowsIn w r from_ to_ → expand w skip moved from_ to_ (some r) = none) ∧
      (¬ OverflowsIn w r from_ to_ → expand w skip moved from_ to_ (some r) =
        some ((collected w r skip moved from_ to_).insertionSort fun a b => sortKey a ≤ sortKey b)) :=
  expand_scanned hr (scanned_le hr hlength hfew)

/-- Exactly what should appear, in the order of its begin and then of its date, so each once. -/
def Expands (w : When) (r : Repeat) (skip : List NaiveDate) (moved : SortedMap NaiveDate When) (from_ to_ : NaiveDate)
    (result : Option (List Occurrence)) : Prop :=
  ∃ out, result = some out ∧ (∀ o, o ∈ out ↔ Appears w r skip moved from_ to_ o) ∧
    out.Pairwise fun a b => sortKey a < sortKey b

theorem sorted_expands (hw : w.begins < w.ends) (hr : r.Fits) (hlength : w.ends - w.begins ≤ midnight 365) :
    Expands w r skip moved from_ to_
      (some ((collected w r skip moved from_ to_).insertionSort fun a b => sortKey a ≤ sortKey b)) := by
  let before : Occurrence → Occurrence → Prop := fun a b => sortKey a ≤ sortKey b
  have hperm := perm_insertionSort before (collected w r skip moved from_ to_)
  refine ⟨_, rfl, fun o => (hperm.mem_iff).trans (mem_collected hw hr hlength), ?_⟩
  have hsorted := pairwise_insertionSort before (collected w r skip moved from_ to_)
  have hdates : ((collected w r skip moved from_ to_).insertionSort before).Pairwise fun a b => a.date ≠ b.date :=
    pairwise_map.mp ((hperm.map Occurrence.date).nodup_iff.mpr (collected_dates hr))
  refine (hsorted.and hdates).imp ?_
  rintro a b ⟨hle, hne⟩
  refine lt_of_le_of_ne hle fun heq => hne ?_
  have hpair : (a.window.begins, a.date) = (b.window.begins, b.date) := toLex.injective heq
  exact (Prod.mk.inj hpair).2

end

/-- An expansion whose caps are not reached is exact, and the search finds the next original date,
where the jump to the next series week stays in its word; elsewhere both stop at an overflow. -/
theorem expand_exact {v v' : Json.Value} {w : When} {r : Repeat} (hw : When.parse v = .ok w)
    (hr : Repeat.parse v' = .ok r) (skip : List NaiveDate) (moved : SortedMap NaiveDate When) (from_ to_ : NaiveDate)
    (hlength : w.ends - w.begins ≤ midnight 365)
    (hfew : ((walk w.startDate r to_.number).filter fun n =>
      midnight from_.number ≤ midnight n + (w.ends - w.begins)).length < expandMax) :
    (Expands w r skip moved from_ to_ (expand w skip moved from_ to_ (some r)) ↔ ¬ OverflowsIn w r from_ to_) ∧
      ∀ x ≤ dateMax, (∃ o, nextHit w.startDate r x = some o ∧ IsNext w.startDate r x o) ↔
        ¬ Overflows w.startDate r x := by
  have hfits := Repeat.parse_fits hr
  constructor
  · obtain ⟨hover, hcalm⟩ := @expand_spec w r skip moved from_ to_ hfits hlength hfew
    constructor
    · rintro ⟨out, hout, -⟩ hoverflow
      rw [hover hoverflow] at hout
      cases hout
    · intro hno
      rw [hcalm hno]
      exact sorted_expands (When.parse_begins hw) hfits hlength
  · intro x hx
    obtain ⟨hover, hcalm⟩ := @nextHit_spec w.startDate r x hfits hx
    constructor
    · rintro ⟨o, ho, -⟩ hoverflow
      rw [hover hoverflow] at ho
      cases ho
    · exact hcalm

theorem expand_exact_fortnight :
    Expands fortnightStart fortnight [] (.empty) ⟨0, 1, 6, by decide⟩ ⟨0, 1, 31, by decide⟩
        (expand fortnightStart [] (.empty) ⟨0, 1, 6, by decide⟩ ⟨0, 1, 31, by decide⟩ (some fortnight)) ∧
      ∃ o, nextHit fortnightStart.startDate fortnight 7 = some o ∧ IsNext fortnightStart.startDate fortnight 7 o := by
  have hwhen : When.parse (.obj [("start", .str "0000-01-05"), ("end", .str "0000-01-05")]) = .ok fortnightStart := by
    rfl
  have hrepeat : Repeat.parse (.obj [("freq", .str "weekly"), ("interval", .num (.posInt 2)),
      ("byday", .arr [.str "mo", .str "fr"]), ("count", .num (.posInt 3))]) = .ok fortnight := by rfl
  obtain ⟨hexpand, hnext⟩ := expand_exact hwhen hrepeat [] .empty ⟨0, 1, 6, by decide⟩ ⟨0, 1, 31, by decide⟩
    (by decide) (by decide +kernel)
  exact ⟨hexpand.mpr fun h => absurd h.interval (by decide),
    (hnext 7 (by rw [dateMax_eq]; decide)).mpr fun h => absurd h.2.1 (by decide)⟩

def lastWeekSeries : Repeat := ⟨.weekly, 2635249153387078802, [.sun], .opened⟩

def mondayStart : When := .allDay ⟨0, 1, 3, by decide⟩ ⟨0, 1, 3, by decide⟩

theorem expand_stops_at_last_week :
    When.parse (.obj [("start", .str "0000-01-03"), ("end", .str "0000-01-03")]) = .ok mondayStart ∧
      Repeat.parse (.obj [("freq", .str "weekly"), ("interval", .num (.posInt 2635249153387078802)),
        ("byday", .arr [.str "su"])]) = .ok lastWeekSeries ∧
      mondayStart.ends - mondayStart.begins ≤ midnight 365 ∧
      ((walk mondayStart.startDate lastWeekSeries 30).filter fun n =>
        midnight 0 ≤ midnight n + (mondayStart.ends - mondayStart.begins)).length < expandMax ∧
      expand mondayStart [] .empty ⟨0, 1, 1, by decide⟩ ⟨0, 1, 31, by decide⟩ (some lastWeekSeries) = none ∧
      ¬ Expands mondayStart lastWeekSeries [] .empty ⟨0, 1, 1, by decide⟩ ⟨0, 1, 31, by decide⟩
        (expand mondayStart [] .empty ⟨0, 1, 1, by decide⟩ ⟨0, 1, 31, by decide⟩ (some lastWeekSeries)) ∧
      nextHit mondayStart.startDate lastWeekSeries 9 = none := by
  have hstop : expand mondayStart [] .empty ⟨0, 1, 1, by decide⟩ ⟨0, 1, 31, by decide⟩ (some lastWeekSeries) = none := by
    decide +kernel
  refine ⟨by rfl, by rfl, by decide, by decide +kernel, hstop, ?_, by decide +kernel⟩
  rintro ⟨out, hout, -⟩
  rw [hstop] at hout
  cases hout

end Molt.Kanban
