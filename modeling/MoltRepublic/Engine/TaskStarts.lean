import Mathlib
import MoltRepublic.Engine.TaskTimer

/-! No start is missed and none fires twice, over every run in which a check that is put off is put off
for the board that was scanned. -/

namespace Molt.Wake
open Kanban Json List Option

theorem insertDue_spec (due : List StartDue) (fired : Finset String) :
    (∀ k, k ∈ (insertDue due fired).1 ↔ k ∈ fired ∨ ∃ d ∈ (insertDue due fired).2, d.key = k) ∧
      (∀ d ∈ due, d.key ∈ (insertDue due fired).1) ∧
      (∀ d ∈ (insertDue due fired).2, d ∈ due ∧ d.key ∉ fired) ∧
      ((insertDue due fired).2.map StartDue.key).Nodup := by
  induction due generalizing fired with
  | nil => exact ⟨fun k => by simp [insertDue], nofun, nofun, nodup_nil⟩
  | cons d due ih =>
    rw [insertDue]
    by_cases hold : d.key ∈ fired
    · rw [if_pos hold]
      obtain ⟨hkeys, hall, hnew, hnodup⟩ := ih fired
      refine ⟨hkeys, fun e he => ?_, fun e he => ⟨.tail _ (hnew e he).1, (hnew e he).2⟩, hnodup⟩
      rcases mem_cons.mp he with rfl | he
      · exact (hkeys _).mpr (.inl hold)
      · exact hall e he
    · rw [if_neg hold]
      obtain ⟨hkeys, hall, hnew, hnodup⟩ := ih (insert d.key fired)
      refine ⟨fun k => ?_, ?_, fun e he => ?_, ?_⟩
      · rw [hkeys, Finset.mem_insert]
        constructor
        · rintro ((rfl | hk) | ⟨e, he, rfl⟩)
          · exact .inr ⟨d, .head _, rfl⟩
          · exact .inl hk
          · exact .inr ⟨e, .tail _ he, rfl⟩
        · rintro (hk | ⟨e, he, rfl⟩)
          · exact .inl (.inr hk)
          · rcases mem_cons.mp he with rfl | he
            · exact .inl (.inl rfl)
            · exact .inr ⟨e, he, rfl⟩
      · exact forall_mem_cons.mpr ⟨(hkeys _).mpr (.inl (Finset.mem_insert_self ..)), hall⟩
      · rcases mem_cons.mp he with rfl | he
        · exact ⟨.head _, hold⟩
        · have hnot := (hnew e he).2
          rw [Finset.mem_insert, not_or] at hnot
          exact ⟨.tail _ (hnew e he).1, hnot.2⟩
      · rw [map_cons, nodup_cons]
        refine ⟨fun hin => ?_, hnodup⟩
        obtain ⟨e, he, heq⟩ := mem_map.mp hin
        exact (hnew e he).2 (Finset.mem_insert.mpr (.inl heq))

variable {now : ℕ} {d : StartDue}

theorem mem_pruneFired {fired : Finset String} (hkey : keyBegins d.key = some d.begins) :
    d.key ∈ pruneFired now fired ↔ d.key ∈ fired ∧ now < d.begins * 60 + firedKeepSecs := by
  rw [pruneFired, Finset.mem_filter, hkey, any_some, decide_eq_true_eq]

theorem Starts.key {board : BoardState} {seat : String} (h : Starts board seat d.task d.begins) :
    keyBegins d.key = some d.begins := by
  obtain ⟨t, -, -, -, hbegins⟩ := h
  exact keyBegins_key d hbegins.lt

structure ScannedAt (n : Node) (now : ℕ) (n' : Node) (new : List StartDue) : Prop where
  same : n'.opened = n.opened ∧ n'.seats = n.seats ∧ n'.board = n.board ∧ n'.lead = n.lead ∧ n'.seat = n.seat
  fired : ∀ k, k ∈ n'.wake.fired ↔ k ∈ pruneFired (now + epochSecs) n.wake.fired ∨ ∃ d ∈ new, d.key = k
  starts : ∀ d ∈ new, Starts n.board n.seat d.task d.begins ∧ DueAt (now + epochSecs) n.lead d.begins ∧
    d.key ∉ pruneFired (now + epochSecs) n.wake.fired
  once : (new.map StartDue.key).Nodup
  complete : ∀ d : StartDue, Starts n.board n.seat d.task d.begins → DueAt (now + epochSecs) n.lead d.begins →
    d.key ∈ n'.wake.fired
  covers : ∀ timer, n'.wake.timer = some timer → timer.lead = n.lead ∧ timer.seat = n.seat ∧
    ∀ later, now ≤ later → later < timer.at_ → ∀ d : StartDue, Starts n.board n.seat d.task d.begins →
      DueAt (later + epochSecs) n.lead d.begins → d.key ∈ n'.wake.fired
  saved : n.saved = n.wake.fired → n'.saved = n'.wake.fired

theorem lt_nextAt {later : ℕ} {nextFire : Option ℕ} (h : later < Node.nextAt now nextFire) :
    later < now + timerIdleSecs ∧ ∀ m, nextFire = some m → later < m - epochSecs := by
  unfold Node.nextAt at h
  rw [lt_min_iff, lt_min_iff, lt_min_iff] at h
  refine ⟨h.1.2.1, fun m hm => ?_⟩
  have hfirst := h.1.1
  rwa [hm, map_some, getD_some] at hfirst

theorem key_congr {e : StartDue} (htask : d.task = e.task) (hbegins : d.begins = e.begins) : d.key = e.key := by
  rw [StartDue.key, StartDue.key, htask, hbegins]

theorem taskTimer_rests {n : Node} (h : n.opened = false ∨ n.rests now = true) :
    n.taskTimer now = some (n, []) := by
  rw [Node.taskTimer, if_pos]
  rcases h with h | h <;> simp [h]

theorem taskTimer_scans {n : Node} (hboard : Timely n.board.tasks) (hopen : n.opened = true)
    (hrests : n.rests now = false) (hclock : OnCalendar (now + epochSecs) n.lead) {n' : Node}
    {new : List StartDue} (h : n.taskTimer now = some (n', new)) : ScannedAt n now n' new := by
  have hend := yearsEnd_eq
  have hmax := dateMax_eq
  have hrange : (now + epochSecs) / 86400 ≤ dateMax := by
    unfold OnCalendar at hclock
    omega
  have hepoch : missedHorizonSecs ≤ now + epochSecs := by
    unfold missedHorizonSecs epochSecs
    omega
  rw [Node.taskTimer, if_neg (by simp [hopen, hrests]), utc, if_pos hrange] at h
  obtain ⟨scan, hscan, h⟩ := bind_eq_some_iff.mp h
  obtain ⟨hreal, hsees⟩ := startScan_spec hboard hepoch hclock hscan
  obtain ⟨hkeys, hall, hnew, hnodup⟩ := insertDue_spec scan.due (pruneFired (now + epochSecs) n.wake.fired)
  cases Option.some.inj h
  have hcomplete : ∀ d : StartDue, Starts n.board n.seat d.task d.begins → DueAt (now + epochSecs) n.lead d.begins →
      d.key ∈ (insertDue scan.due (pruneFired (now + epochSecs) n.wake.fired)).1 := by
    intro d hstarts hdue
    obtain ⟨e, he, htask, hbegins⟩ := (hsees d.task d.begins hstarts (.inl hdue)).due hdue
    exact key_congr htask hbegins ▸ hall e he
  refine ⟨⟨rfl, rfl, rfl, rfl, rfl⟩, hkeys, fun d hd => ?_, hnodup, hcomplete, ?_, fun hsaved => ?_⟩
  · exact ⟨(hreal d (hnew d hd).1).1, (hreal d (hnew d hd).1).2, (hnew d hd).2⟩
  · rintro timer htimer
    cases htimer
    refine ⟨rfl, rfl, fun later hle hlt d hstarts hdue => ?_⟩
    by_cases hcome : d.begins * 60 ≤ now + epochSecs + n.lead.toNat * 60
    · refine hcomplete d hstarts ⟨hcome, ?_⟩
      have := hdue.2
      omega
    · obtain ⟨hearly, -⟩ := hdue
      obtain ⟨hidle, hfire⟩ := lt_nextAt hlt
      obtain ⟨m, hm, hle'⟩ := (hsees d.task d.begins hstarts (.inr ⟨by omega, by
        unfold lookaheadDays
        unfold timerIdleSecs at hidle
        omega⟩)).next (by omega)
      have := hfire m hm
      omega
  · split
    case isTrue => rfl
    case isFalse hsame =>
      rw [not_or, not_not, not_not] at hsame
      obtain ⟨hcard, hnone⟩ := hsame
      have hkept : pruneFired (now + epochSecs) n.wake.fired = n.wake.fired :=
        Finset.eq_of_subset_of_card_le (Finset.filter_subset ..) hcard.ge
      rw [hsaved]
      ext k
      rw [hkeys, hnone, hkept]
      simp

def Act.Ordered (r : Run) : Act → Prop
  | .tick now => r.clock ≤ now
  | _ => True

/-- A check that is put off is put off for a board with the starts of the one that was scanned, and
the lead ends in the years of the calendar. -/
def Act.Meets (r : Run) : Act → Prop
  | .tick now => OnCalendar (now + epochSecs) r.node.lead ∧
      (r.node.opened = true → r.node.rests now = true → ∀ id begins,
        Starts r.node.board r.node.seat id begins → Starts r.scanned r.node.seat id begins)
  | _ => True

def Run.start (applied : List Value) (seats : Finset String) (lead : UInt16) (seat : String) (saved : Finset String) :
    Run :=
  ⟨{ seats := seats, board := kanbanFold applied seats, lead := lead, seat := seat, saved := saved }, {}, [], 0⟩

inductive Reached (start : Run) : Run → Prop
  | start : Reached start start
  | step {r r' : Run} (a : Act) : Reached start r → a.Ordered r → a.Meets r → r.step a = some r' → Reached start r'

structure Good (r : Run) : Prop where
  board : Timely r.node.board.tasks
  kept : r.node.opened = true → r.node.saved = r.node.wake.fired
  covered : ∀ timer, r.node.wake.timer = some timer → ∀ later, r.clock ≤ later → later < timer.at_ →
    ∀ d : StartDue, Starts r.scanned timer.seat d.task d.begins → DueAt (later + epochSecs) timer.lead d.begins →
      d.key ∈ r.node.wake.fired
  logged : ∀ d ∈ r.inserted, keyBegins d.key = some d.begins ∧
    (d.key ∈ r.node.saved ∨ d.begins * 60 + firedKeepSecs ≤ r.clock + epochSecs)
  once : (r.inserted.map StartDue.key).Nodup

theorem Good.start (applied : List Value) (seats : Finset String) (lead : UInt16) (seat : String)
    (saved : Finset String) : Good (Run.start applied seats lead seat saved) :=
  ⟨kanbanFold_timely applied seats, nofun, nofun, nofun, nodup_nil⟩

variable {r : Run}

theorem Good.scan (h : Good r) (hclock : r.clock ≤ now) (hopen : r.node.opened = true) {n' : Node}
    {new : List StartDue} (hscan : ScannedAt r.node now n' new) :
    Good ⟨n', r.node.board, r.inserted ++ new, now⟩ := by
  obtain ⟨hopened, -, hboard, hlead, hseat⟩ := hscan.same
  have hsaved := hscan.saved (h.kept hopen)
  have hdue : ∀ d ∈ new, now + epochSecs < d.begins * 60 + missedHorizonSecs := fun d hd => (hscan.starts d hd).2.1.2
  refine ⟨?_, fun _ => hsaved, fun timer htimer later hle hlt d hstarts hd => ?_, fun d hd => ?_, ?_⟩
  · rw [show (⟨n', r.node.board, r.inserted ++ new, now⟩ : Run).node = n' from rfl, hboard]
    exact h.board
  · obtain ⟨htlead, htseat, hcovers⟩ := hscan.covers timer htimer
    rw [htseat] at hstarts
    rw [htlead] at hd
    exact hcovers later hle hlt d hstarts hd
  · show _ ∧ (d.key ∈ n'.saved ∨ _ ≤ now + epochSecs)
    rw [hsaved, hscan.fired]
    rcases mem_append.mp hd with hd | hd
    · obtain ⟨hkey, hin⟩ := h.logged d hd
      refine ⟨hkey, ?_⟩
      rw [h.kept hopen] at hin
      rw [mem_pruneFired hkey]
      by_cases hlate : now + epochSecs < d.begins * 60 + firedKeepSecs
      · rcases hin with hin | hin
        · exact .inl (.inl ⟨hin, hlate⟩)
        · omega
      · omega
    · exact ⟨Starts.key (hscan.starts d hd).1, .inl (.inr ⟨d, hd, rfl⟩)⟩
  · show ((r.inserted ++ new).map StartDue.key).Nodup
    rw [map_append, nodup_append]
    refine ⟨h.once, hscan.once, fun a ha b hb heq => ?_⟩
    obtain ⟨old, hold, rfl⟩ := mem_map.mp ha
    obtain ⟨d, hd, rfl⟩ := mem_map.mp hb
    obtain ⟨hkey, hin⟩ := h.logged old hold
    obtain ⟨hstarts, -, hnot⟩ := hscan.starts d hd
    have hsame : old.begins = d.begins := Option.some.inj (hkey.symm.trans (heq ▸ Starts.key hstarts))
    have hlate := hdue d hd
    have hfits : now + epochSecs < old.begins * 60 + firedKeepSecs := by
      unfold firedKeepSecs
      omega
    rw [h.kept hopen] at hin
    rcases hin with hin | hin
    · rw [← heq, mem_pruneFired hkey] at hnot
      exact hnot ⟨hin, hfits⟩
    · omega

theorem Good.later (h : Good r) (hclock : r.clock ≤ now) : Good { r with clock := now } := by
  refine ⟨h.board, h.kept, fun timer htimer later hle => h.covered timer htimer later (hclock.trans hle), ?_, h.once⟩
  intro d hd
  obtain ⟨hkey, hin⟩ := h.logged d hd
  exact ⟨hkey, hin.imp_right fun hle => hle.trans (Nat.add_le_add_right hclock _)⟩

theorem Good.tick {r' : Run} (h : Good r) (hclock : r.clock ≤ now) (hmeets : (Act.tick now).Meets r)
    (hstep : r.step (.tick now) = some r') :
    Good r' ∧ (r'.node.opened = true → ∀ d : StartDue, Starts r'.node.board r'.node.seat d.task d.begins →
      DueAt (now + epochSecs) r'.node.lead d.begins → d.key ∈ r'.node.wake.fired) := by
  obtain ⟨⟨n', new⟩, htimer, hstep⟩ := bind_eq_some_iff.mp hstep
  obtain rfl := Option.some.inj hstep
  by_cases hscans : r.node.opened = true ∧ r.node.rests now = false
  · obtain ⟨hopen, hrests⟩ := hscans
    have hscan := taskTimer_scans h.board hopen hrests hmeets.1 htimer
    obtain ⟨-, -, hboard, hlead, hseat⟩ := hscan.same
    dsimp only
    rw [if_pos ⟨hopen, by simp [hrests]⟩]
    refine ⟨h.scan hclock hopen hscan, fun _ d hstarts hdue => ?_⟩
    rw [hboard, hseat] at hstarts
    rw [hlead] at hdue
    exact hscan.complete d hstarts hdue
  · have hstill : r.node.opened = false ∨ r.node.rests now = true := by
      cases hopen : r.node.opened with
      | false => exact .inl rfl
      | true => exact .inr (by simpa [hopen] using hscans)
    rw [taskTimer_rests hstill] at htimer
    obtain ⟨rfl, rfl⟩ := Prod.mk.inj (Option.some.inj htimer)
    have hscanned : ¬ (r.node.opened = true ∧ ¬ r.node.rests now = true) := fun ⟨hopen, hrests⟩ =>
      hscans ⟨hopen, Bool.eq_false_iff.mpr hrests⟩
    dsimp only
    rw [if_neg hscanned, append_nil]
    refine ⟨h.later hclock, fun hopen d hstarts hdue => ?_⟩
    have hrests : r.node.rests now = true := hstill.resolve_left (by simp [show r.node.opened = true from hopen])
    obtain ⟨timer, htimer, hsame⟩ := (Option.any_eq_true ..).mp hrests
    obtain ⟨-, hlead, hseat, hlt⟩ := of_decide_eq_true hsame
    refine h.covered timer htimer now hclock hlt d ?_ (hlead ▸ hdue)
    rw [hseat]
    exact hmeets.2 hopen hrests _ _ hstarts

theorem Good.step {r' : Run} (h : Good r) {a : Act} (hordered : a.Ordered r) (hmeets : a.Meets r)
    (hstep : r.step a = some r') : Good r' := by
  cases a with
  | tick now => exact (h.tick hordered hmeets hstep).1
  | append payload =>
    cases hstep
    exact ⟨kanbanFoldOne_timely h.board payload _, h.kept, h.covered, h.logged, h.once⟩
  | rebase applied seats =>
    cases hstep
    exact ⟨kanbanFold_timely applied seats, h.kept, h.covered, h.logged, h.once⟩
  | setLead lead =>
    obtain rfl := Option.some.inj hstep
    exact ⟨h.board, h.kept, h.covered, h.logged, h.once⟩
  | member seat =>
    cases hstep
    exact ⟨h.board, h.kept, h.covered, h.logged, h.once⟩
  | close =>
    obtain rfl := Option.some.inj hstep
    exact ⟨h.board, nofun, nofun, h.logged, h.once⟩
  | opening =>
    obtain rfl := Option.some.inj hstep
    exact ⟨h.board, fun _ => rfl, nofun, h.logged, h.once⟩

theorem Reached.good {start : Run} (hstart : Good start) (h : Reached start r) : Good r := by
  induction h with
  | start => exact hstart
  | step a _ hordered hmeets hstep ih => exact ih.step hordered hmeets hstep

/-- After every tick of a run every start that is due has fired, and none has fired twice. -/
theorem starts_fire_once (applied : List Value) (seats : Finset String) (lead : UInt16) (seat : String)
    (saved : Finset String) {r : Run} (h : Reached (Run.start applied seats lead seat saved) r) :
    (r.inserted.map fun d => (d.task, d.begins)).Nodup ∧
      ∀ now r', (Act.tick now).Ordered r → (Act.tick now).Meets r → r.step (.tick now) = some r' →
        r'.node.opened = true → ∀ d : StartDue, Starts r'.node.board r'.node.seat d.task d.begins →
          DueAt (now + epochSecs) r'.node.lead d.begins → d.key ∈ r'.node.wake.fired := by
  have hgood := h.good (.start ..)
  refine ⟨?_, fun now r' hordered hmeets hstep => (hgood.tick hordered hmeets hstep).2⟩
  have hkeys : r.inserted.map StartDue.key =
      (r.inserted.map fun d => (d.task, d.begins)).map fun e => e.1 ++ "@" ++ fmtDatetime e.2 := by
    rw [List.map_map]
    rfl
  exact List.Nodup.of_map _ (hkeys ▸ hgood.once)

instance (now : ℕ) (lead : UInt16) (begins : ℕ) : Decidable (DueAt now lead begins) := by
  unfold DueAt
  infer_instance

namespace Sample

def changeset (act : List (String × Value)) : Value :=
  .obj [("op", .str "kanban_ops"), ("summary", .str "one act"), ("base_rev", .num (.posInt 0)), ("ops", .arr [.obj act])]

def lost : Value := changeset [("act", .str "state"), ("id", .str "00000000000000000000000000000001"), ("to", .str "wip")]

def soon : Value :=
  changeset [("act", .str "add"), ("id", .str "00000000000000000000000000000002"), ("creator", .str "mia"),
    ("title", .str "water"), ("assignees", .arr [.str "mia"]),
    ("when", .obj [("start", .str "1970-01-01T00:01"), ("end", .str "1970-01-01T01:00")])]

def due : StartDue := ⟨"00000000000000000000000000000002", none, 719528 * 1440 + 1, false⟩

def closed (payload : Value) : Run := Run.start [payload] {"mia"} 0 "mia" ∅

def shows (r : Run) : Bool :=
  r.node.opened && decide (DueAt (r.clock + epochSecs) r.node.lead due.begins) &&
    (r.node.board.tasks.get? due.task).any fun t =>
      t.state = .todo ∧ r.node.seat ∈ t.assignees ∧ t.when.any (fun w => w.begins = due.begins) ∧ t.recurs = none

variable {r : Run}

theorem starts_of_shows (h : shows r = true) :
    r.node.opened = true ∧ DueAt (r.clock + epochSecs) r.node.lead due.begins ∧
      Starts r.node.board r.node.seat due.task due.begins := by
  rw [shows, Bool.and_eq_true, Bool.and_eq_true] at h
  obtain ⟨⟨hopen, hdue⟩, hboard⟩ := h
  obtain ⟨t, ht, hshows⟩ := (Option.any_eq_true ..).mp hboard
  obtain ⟨htodo, hseat, hwhen, hrecurs⟩ := of_decide_eq_true hshows
  obtain ⟨w, hw, hbegins⟩ := (Option.any_eq_true ..).mp hwhen
  refine ⟨hopen, of_decide_eq_true hdue, t, ht, htodo, hseat, w, hw, ?_⟩
  rw [hrecurs]
  exact (of_decide_eq_true hbegins).symm

theorem hidden_run :
    (([.opening, .tick 0, .rebase [soon] {"mia"}, .tick 60] : List Act).foldlM Run.step (closed lost)).any
      (fun r => shows r && decide (due.key ∉ r.node.wake.fired)) = true := by
  decide +kernel

theorem fired_run :
    (([.opening, .tick 60] : List Act).foldlM Run.step (closed soon)).any
      (fun r => shows r && decide (r.clock = 60)) = true := by
  decide +kernel

theorem opened_fresh {payload : Value} (h : (closed payload).step .opening = some r) :
    r.clock = 0 ∧ r.node.lead = 0 ∧ r.node.wake.timer = none := by
  rw [← Option.some.inj h]
  exact ⟨rfl, rfl, rfl⟩

theorem opened_reached {payload : Value} (h : (closed payload).step .opening = some r) :
    Reached (Run.start [payload] {"mia"} 0 "mia" ∅) r :=
  .step .opening .start trivial trivial h

end Sample

open Sample in
/-- The board is replaced by one of the same revision, and a start on it is not looked for. -/
theorem rebase_hides_start :
    ∃ r, [.opening, .tick 0, .rebase [soon] {"mia"}, .tick 60].foldlM Run.step (closed lost) = some r ∧
      r.node.opened = true ∧ DueAt (r.clock + epochSecs) r.node.lead due.begins ∧
      Starts r.node.board r.node.seat due.task due.begins ∧ due.key ∉ r.node.wake.fired := by
  obtain ⟨r, hr, hholds⟩ := (Option.any_eq_true ..).mp hidden_run
  obtain ⟨hshows, hnot⟩ := (Bool.and_eq_true ..).mp hholds
  obtain ⟨hopen, hdue, hstarts⟩ := starts_of_shows hshows
  exact ⟨r, hr, hopen, hdue, hstarts, of_decide_eq_true hnot⟩

open Sample in
theorem starts_fire_once_opening :
    ∃ r r', (closed soon).step .opening = some r ∧ r.step (.tick 60) = some r' ∧ due.key ∈ r'.node.wake.fired := by
  obtain ⟨r', hr, hholds⟩ := (Option.any_eq_true ..).mp fired_run
  obtain ⟨hshows, hclock⟩ := (Bool.and_eq_true ..).mp hholds
  obtain ⟨hopen, hdue, hstarts⟩ := starts_of_shows hshows
  rw [of_decide_eq_true hclock] at hdue
  rw [List.foldlM_cons] at hr
  obtain ⟨r, hopening, hr⟩ := Option.bind_eq_some_iff.mp hr
  rw [List.foldlM_cons] at hr
  obtain ⟨_, hstep, hlast⟩ := Option.bind_eq_some_iff.mp hr
  rw [Option.some.inj hlast] at hstep
  obtain ⟨hclock, hlead, htimer⟩ := opened_fresh hopening
  refine ⟨r, r', hopening, hstep, ?_⟩
  refine (starts_fire_once _ _ _ _ _ (opened_reached hopening)).2 60 r' ?_ ⟨?_, fun _ hrests => ?_⟩ hstep hopen due
    hstarts hdue
  · show r.clock ≤ 60
    rw [hclock]
    decide
  · rw [hlead, OnCalendar, yearsEnd_eq]
    decide
  · rw [Node.rests, htimer] at hrests
    cases hrests

end Molt.Wake
