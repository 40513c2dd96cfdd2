import Mathlib
import MoltRepublic.Lib.Check

/-! The cross-epoch retry loop (`molt-net::epoch_hold`): held frames are offered again, in hold
order, for as long as a pass makes progress; what the last pass cannot open is lost. -/

namespace Molt.Net.EpochHold
open Molt.Check List

inductive Held where
  | progress
  | consumed
  | still
  | opaque_
  | stop
  deriving DecidableEq

/-- `HeldIngest`: the inbound path's state and the item itself may both change. -/
abbrev Ingest (σ α : Type*) := σ → α → Held × α × σ

structure Pass (σ α : Type*) where
  progress : Bool
  kept : List (α × Bool)
  state : σ

structure Drained (σ α : Type*) where
  lost : List α
  hold : List α
  state : σ

variable {σ α : Type*}

def offer (ingest : Ingest σ α) (p : Pass σ α) (item : α) : Except Unit (Pass σ α) :=
  match ingest p.state item with
  | (.progress, _, s) => .ok { p with progress := true, state := s }
  | (.consumed, _, s) => .ok { p with state := s }
  | (.still, item, s) => .ok { p with kept := p.kept ++ [(item, false)], state := s }
  | (.opaque_, item, s) => .ok { p with kept := p.kept ++ [(item, true)], state := s }
  | (.stop, _, _) => .error ()

def runPass (ingest : Ingest σ α) (s : σ) (hold : List α) : Except Unit (Pass σ α) :=
  hold.foldlM (offer ingest) ⟨false, [], s⟩

variable {ingest : Ingest σ α} {hold : List α} {p : Pass σ α}

theorem offers_length {q : Pass σ α} (h : hold.foldlM (offer ingest) p = .ok q) :
    q.kept.length ≤ p.kept.length + hold.length ∧
      (q.progress = true → p.progress = true ∨ q.kept.length < p.kept.length + hold.length) := by
  induction hold generalizing p with
  | nil =>
    obtain rfl := foldlM_nil_eq_ok.mp h
    exact ⟨Nat.le_add_right _ _, .inl⟩
  | cons item hold ih =>
    obtain ⟨r, hr, h⟩ := foldlM_cons_eq_ok.mp h
    obtain ⟨hle, hlt⟩ := ih h
    have hkept : r.kept.length ≤ p.kept.length + 1 ∧
        (r.progress = true → p.progress = true ∨ r.kept.length < p.kept.length + 1) := by
      unfold offer at hr
      split at hr <;> cases hr <;> simp
    rw [length_cons]
    refine ⟨by omega, fun hp => ?_⟩
    rcases hlt hp with hr | hlt
    · exact (hkept.2 hr).imp_right (by omega)
    · exact .inr (by omega)

theorem runPass_shrinks {s : σ} (h : runPass ingest s hold = .ok p) (hp : p.progress = true) :
    p.kept.length < hold.length := by
  rcases (offers_length h).2 hp with hfalse | hlt
  · cases hfalse
  · simpa using hlt

def drainUntilNoProgress (ingest : Ingest σ α) (s : σ) (hold : List α) : Except Unit (Drained σ α) :=
  match _h : runPass ingest s hold with
  | .error () => .error ()
  | .ok p =>
    if _hp : p.progress then
      if p.kept.isEmpty then .ok ⟨[], [], p.state⟩
      else drainUntilNoProgress ingest p.state (p.kept.map Prod.fst)
    else .ok ⟨(p.kept.filter fun k => k.2).map Prod.fst, (p.kept.filter fun k => !k.2).map Prod.fst, p.state⟩
termination_by hold.length
decreasing_by
  rw [length_map]
  exact runPass_shrinks ‹_› ‹_›

theorem drain_eq {s : σ} (h : runPass ingest s hold = .ok p) :
    drainUntilNoProgress ingest s hold =
      if p.progress then
        if p.kept.isEmpty then .ok ⟨[], [], p.state⟩ else drainUntilNoProgress ingest p.state (p.kept.map Prod.fst)
      else .ok ⟨(p.kept.filter fun k => k.2).map Prod.fst, (p.kept.filter fun k => !k.2).map Prod.fst, p.state⟩ := by
  rw [drainUntilNoProgress]
  split
  · rename_i hnone
    rw [h] at hnone
    cases hnone
  · rename_i q hq
    cases h.symm.trans hq
    split_ifs <;> rfl

def logged {ι : Type*} (ingest : Ingest σ α) : Ingest (σ × List (ι × Held)) (ι × α) := fun (s, log) (i, x) =>
  let (answer, y, s') := ingest s x
  (answer, (i, y), (s', log ++ [(i, answer)]))

def placed (hold : List α) : List (ℕ × α) := (List.range hold.length).zip hold

def gone (o : ℕ × Held) : Bool := o.2 = .progress || o.2 = .consumed

def stays (o : ℕ × Held) : Bool := o.2 = .still || o.2 = .opaque_

def places (offered : List (ℕ × Held)) : List ℕ := offered.map Prod.fst

inductive Passes : List ℕ → List (List (ℕ × Held)) → List ℕ → List ℕ → Prop
  | quiet {offered : List (ℕ × Held)} (hquiet : ∀ o ∈ offered, o.2 ≠ .progress) :
      Passes (places offered) [offered] (places (offered.filter (·.2 = .still)))
        (places (offered.filter (·.2 = .opaque_)))
  | emptied {offered : List (ℕ × Held)} (hnone : offered.filter stays = []) : Passes (places offered) [offered] [] []
  | again {offered : List (ℕ × Held)} {passes : List (List (ℕ × Held))} {final lost : List ℕ}
      (hmore : Passes (places (offered.filter stays)) passes final lost) :
      Passes (places offered) (offered :: passes) final lost

structure Answers (p q : Pass (σ × List (ℕ × Held)) (ℕ × α)) (hold : List (ℕ × α))
    (offered : List (ℕ × Held)) : Prop where
  log : q.state.2 = p.state.2 ++ offered
  item : places offered = hold.map Prod.fst
  progress : q.progress = (p.progress || offered.any (·.2 = .progress))
  kept : q.kept.map (fun k => (k.1.1, k.2)) = p.kept.map (fun k => (k.1.1, k.2)) ++
    (offered.filter stays).map fun o => (o.1, decide (o.2 = .opaque_))
  answered : ∀ o ∈ offered, o.2 ≠ .stop

def Pass.bare (p : Pass (σ × List (ℕ × Held)) (ℕ × α)) : Pass σ α :=
  ⟨p.progress, p.kept.map fun k => (k.1.2, k.2), p.state.1⟩

theorem offer_logged (hstop : ∀ s x, (ingest s x).1 ≠ .stop) (p : Pass (σ × List (ℕ × Held)) (ℕ × α))
    (item : ℕ × α) :
    ∃ q answer, offer (logged ingest) p item = .ok q ∧ offer ingest p.bare item.2 = .ok q.bare ∧
      Answers p q [item] [(item.1, answer)] := by
  obtain ⟨progress, kept, s, log⟩ := p
  obtain ⟨i, x⟩ := item
  have hanswer := hstop s x
  unfold offer logged Pass.bare
  dsimp only
  rcases hx : ingest s x with ⟨answer, y, s'⟩
  rw [hx] at hanswer
  cases answer with
  | stop => exact absurd rfl hanswer
  | progress | consumed | still | opaque_ =>
    refine ⟨_, _, rfl, ?_, ⟨rfl, rfl, ?_, ?_, ?_⟩⟩
    · simp
    · simp
    · simp [stays]
    · simp

theorem pass_logged (hstop : ∀ s x, (ingest s x).1 ≠ .stop) (hold : List (ℕ × α))
    (p : Pass (σ × List (ℕ × Held)) (ℕ × α)) :
    ∃ q offered, hold.foldlM (offer (logged ingest)) p = .ok q ∧
      (hold.map Prod.snd).foldlM (offer ingest) p.bare = .ok q.bare ∧ Answers p q hold offered := by
  induction hold generalizing p with
  | nil => exact ⟨p, [], rfl, rfl, ⟨by simp, rfl, by simp, by simp, by simp⟩⟩
  | cons item hold ih =>
    obtain ⟨q, answer, hq, hbare, hone⟩ := offer_logged hstop p item
    obtain ⟨r, offered, hr, hrbare, hrest⟩ := ih q
    refine ⟨r, (item.1, answer) :: offered, foldlM_cons_eq_ok.mpr ⟨q, hq, hr⟩, ?_, ?_⟩
    · exact foldlM_cons_eq_ok.mpr ⟨q.bare, hbare, hrbare⟩
    · refine ⟨?_, ?_, ?_, ?_, ?_⟩
      · rw [hrest.log, hone.log, append_assoc]
        rfl
      · exact congrArg (item.1 :: ·) hrest.item
      · rw [hrest.progress, hone.progress, Bool.or_assoc]
        simp
      · rw [hrest.kept, hone.kept, append_assoc, ← map_append, ← filter_append]
        rfl
      · exact forall_mem_cons.mpr ⟨hone.answered _ (.head _), hrest.answered⟩

theorem filter_kept {p q : Pass (σ × List (ℕ × Held)) (ℕ × α)} {hold : List (ℕ × α)} {offered : List (ℕ × Held)}
    (h : Answers p q hold offered) (hstart : p.kept = []) (b : Bool) :
    ((q.kept.filter fun k => k.2 = b).map Prod.fst).map Prod.fst =
      places ((offered.filter stays).filter fun o => decide (o.2 = .opaque_) = b) := by
  have hkept := h.kept
  rw [hstart, map_nil, nil_append] at hkept
  calc ((q.kept.filter fun k => k.2 = b).map Prod.fst).map Prod.fst
      = ((q.kept.map fun k => (k.1.1, k.2)).filter fun k => k.2 = b).map Prod.fst := by
        rw [filter_map, map_map, map_map]
        rfl
    _ = places ((offered.filter stays).filter fun o => decide (o.2 = .opaque_) = b) := by
        rw [hkept, filter_map, map_map]
        rfl

theorem places_kept {p q : Pass (σ × List (ℕ × Held)) (ℕ × α)} {hold : List (ℕ × α)} {offered : List (ℕ × Held)}
    (h : Answers p q hold offered) (hstart : p.kept = []) :
    (q.kept.map Prod.fst).map Prod.fst = places (offered.filter stays) := by
  have hkept := congrArg (List.map Prod.fst) h.kept
  rw [hstart, map_nil, nil_append, map_map, map_map] at hkept
  rw [map_map]
  exact hkept

theorem filter_stays (offered : List (ℕ × Held)) (b : Bool) :
    (offered.filter stays).filter (fun o => decide (o.2 = .opaque_) = b) =
      offered.filter fun o => decide (o.2 = if b then .opaque_ else .still) := by
  rw [filter_filter]
  apply filter_congr
  rintro ⟨i, answer⟩ _
  cases answer <;> cases b <;> rfl

theorem drain_passes (hstop : ∀ s x, (ingest s x).1 ≠ .stop) (s : σ) (log : List (ℕ × Held))
    (hold : List (ℕ × α)) :
    ∃ passes final lost state,
      drainUntilNoProgress (logged ingest) (s, log) hold = .ok ⟨lost, final, (state, log ++ passes.flatten)⟩ ∧
      drainUntilNoProgress ingest s (hold.map Prod.snd) = .ok ⟨lost.map Prod.snd, final.map Prod.snd, state⟩ ∧
      Passes (hold.map Prod.fst) passes (final.map Prod.fst) (lost.map Prod.fst) ∧
      ∀ o ∈ passes.flatten, o.2 ≠ .stop := by
  obtain ⟨q, offered, hq, hbare, hanswers⟩ := pass_logged hstop hold ⟨false, [], (s, log)⟩
  have hpass := drain_eq hq
  have hpassBare := drain_eq hbare
  have hlog : q.state = (q.state.1, log ++ offered) := Prod.ext rfl hanswers.log
  by_cases hprogress : q.progress = true
  · rw [if_pos hprogress] at hpass
    rw [if_pos (show q.bare.progress = true from hprogress)] at hpassBare
    by_cases hnone : q.kept = []
    · have hleft : offered.filter stays = [] := by
        have hplaces := places_kept hanswers rfl
        rw [hnone] at hplaces
        exact map_eq_nil_iff.mp hplaces.symm
      refine ⟨[offered], [], [], q.state.1, ?_, ?_, ?_, ?_⟩
      · rw [hpass, hnone, flatten_singleton, ← hlog]
        rfl
      · rw [hpassBare]
        simp [Pass.bare, hnone]
      · rw [← hanswers.item]
        exact .emptied hleft
      · rw [flatten_singleton]
        exact hanswers.answered
    · have hshrinks := runPass_shrinks hq hprogress
      obtain ⟨passes, final, lost, state, hdrain, hdrainBare, hpasses, hanswered⟩ :=
        drain_passes hstop q.state.1 (log ++ offered) (q.kept.map Prod.fst)
      refine ⟨offered :: passes, final, lost, state, ?_, ?_, ?_, ?_⟩
      · rw [hpass, if_neg (by simpa using hnone), hlog, hdrain, flatten_cons, append_assoc]
      · have hrest : q.bare.kept.map Prod.fst = (q.kept.map Prod.fst).map Prod.snd := by
          unfold Pass.bare
          rw [map_map, map_map]
          rfl
        rw [hpassBare, if_neg (by simpa [Pass.bare] using hnone), hrest]
        exact hdrainBare
      · rw [← hanswers.item]
        rw [places_kept hanswers rfl] at hpasses
        exact .again hpasses
      · intro o ho
        rw [flatten_cons] at ho
        rcases mem_append.mp ho with ho | ho
        · exact hanswers.answered o ho
        · exact hanswered o ho
  · rw [if_neg hprogress] at hpass
    rw [if_neg (show ¬ q.bare.progress = true from hprogress)] at hpassBare
    refine ⟨[offered], (q.kept.filter fun k => !k.2).map Prod.fst, (q.kept.filter fun k => k.2).map Prod.fst,
      q.state.1, ?_, ?_, ?_, ?_⟩
    · rw [hpass, flatten_singleton, ← hlog]
    · rw [hpassBare]
      unfold Pass.bare
      simp only [filter_map, map_map]
      rfl
    · have hquiet : ∀ o ∈ offered, o.2 ≠ .progress := by
        have hany := hanswers.progress
        rw [Bool.eq_false_iff.mpr hprogress, Bool.false_or] at hany
        exact fun o ho heq => any_eq_false.mp hany.symm o ho (decide_eq_true heq)
      have hfinal := filter_kept hanswers rfl false
      have hlost := filter_kept hanswers rfl true
      rw [filter_stays] at hfinal hlost
      simp only [Bool.decide_eq_false] at hfinal
      simp only [Bool.decide_eq_true] at hlost
      rw [hfinal, hlost, ← hanswers.item]
      exact .quiet hquiet
    · rw [flatten_singleton]
      exact hanswers.answered
termination_by hold.length
decreasing_by
  rw [length_map]
  exact hshrinks

section

variable {held final lost : List ℕ} {passes : List (List (ℕ × Held))}

theorem Passes.sublists (h : Passes held passes final lost) : final.Sublist held ∧ lost.Sublist held := by
  induction h with
  | quiet _ => exact ⟨filter_sublist.map _, filter_sublist.map _⟩
  | emptied _ => exact ⟨nil_sublist _, nil_sublist _⟩
  | again _ ih =>
    have hstays := (filter_sublist (l := ‹List (ℕ × Held)›) (p := stays)).map Prod.fst
    exact ⟨ih.1.trans hstays, ih.2.trans hstays⟩

theorem gone_stays_perm {offered : List (ℕ × Held)} (hanswered : ∀ o ∈ offered, o.2 ≠ .stop) :
    (places (offered.filter gone) ++ places (offered.filter stays)).Perm (places offered) := by
  have hnot : offered.filter stays = offered.filter fun o => !gone o := by
    apply filter_congr
    rintro ⟨i, answer⟩ ho
    have hne := hanswered _ ho
    cases answer with
    | stop => exact absurd rfl hne
    | progress | consumed | still | opaque_ => rfl
  rw [hnot]
  unfold places
  rw [← map_append]
  exact (filter_append_perm gone offered).map _

theorem Passes.conserves (h : Passes held passes final lost) (hanswered : ∀ o ∈ passes.flatten, o.2 ≠ .stop) :
    (places (passes.flatten.filter gone) ++ final ++ lost).Perm held := by
  induction h with
  | quiet hquiet =>
    rename_i offered
    rw [flatten_singleton] at hanswered ⊢
    have hparts : (offered.filter (·.2 = .still) ++ offered.filter (·.2 = .opaque_)).Perm (offered.filter stays) := by
      have hcut := filter_append_perm (fun o => decide (o.2 = Held.still)) (offered.filter stays)
      rw [filter_filter, filter_filter] at hcut
      refine (List.Perm.of_eq ?_).trans hcut
      congr 1
      · apply filter_congr
        rintro ⟨i, answer⟩ _
        cases answer <;> rfl
      · apply filter_congr
        rintro ⟨i, answer⟩ _
        cases answer <;> rfl
    rw [append_assoc]
    refine List.Perm.trans (List.Perm.append_left _ ?_) (gone_stays_perm hanswered)
    unfold places
    rw [← map_append]
    exact hparts.map _
  | emptied hnone =>
    rw [flatten_singleton] at hanswered ⊢
    have hall := gone_stays_perm hanswered
    rw [hnone] at hall
    rw [append_nil]
    exact hall
  | again _ ih =>
    rename_i offered passes final lost _
    rw [flatten_cons] at hanswered ⊢
    have hrest := ih fun o ho => hanswered o (mem_append_right _ ho)
    have hsplit : places ((offered ++ passes.flatten).filter gone) ++ final ++ lost =
        places (offered.filter gone) ++ (places (passes.flatten.filter gone) ++ final ++ lost) := by
      unfold places
      rw [filter_append, map_append]
      simp
    rw [hsplit]
    exact (List.Perm.append_left _ hrest).trans
      (gone_stays_perm fun o ho => hanswered o (mem_append_left _ ho))

def left (before : List (List (ℕ × Held))) (i : ℕ) : Bool := !(before.flatten.any fun o => o.1 = i && gone o)

theorem left_cons {first : List (ℕ × Held)} (hnodup : (places first).Nodup) (hanswered : ∀ o ∈ first, o.2 ≠ .stop)
    {o : ℕ × Held} (ho : o ∈ first) (before : List (List (ℕ × Held))) :
    left (first :: before) o.1 = (left before o.1 && stays o) := by
  have hown : (first.any fun o' => o'.1 = o.1 && gone o') = gone o := by
    rw [Bool.eq_iff_iff, any_eq_true]
    constructor
    · rintro ⟨o', ho', hboth⟩
      obtain ⟨hplace, hgone⟩ := Bool.and_eq_true_iff.mp hboth
      rwa [inj_on_of_nodup_map hnodup ho' ho (of_decide_eq_true hplace)] at hgone
    · intro hgone
      exact ⟨o, ho, Bool.and_eq_true_iff.mpr ⟨decide_eq_true rfl, hgone⟩⟩
  have hstays : stays o = !gone o := by
    obtain ⟨i, answer⟩ := o
    have hne := hanswered _ ho
    cases answer with
    | stop => exact absurd rfl hne
    | progress | consumed | still | opaque_ => rfl
  unfold left
  rw [flatten_cons, any_append, hown, hstays, Bool.not_or, Bool.and_comm]

theorem Passes.offers (h : Passes held passes final lost) (hnodup : held.Nodup)
    (hanswered : ∀ o ∈ passes.flatten, o.2 ≠ .stop) {before after : List (List (ℕ × Held))} {offered : List (ℕ × Held)}
    (hcut : passes = before ++ offered :: after) : places offered = held.filter (left before) := by
  induction h generalizing before with
  | quiet _ | emptied _ =>
    rcases before with _ | ⟨_, before⟩
    · obtain ⟨rfl, -⟩ := List.cons.inj hcut
      exact (filter_eq_self.mpr fun _ _ => rfl).symm
    · obtain ⟨-, hrest⟩ := List.cons.inj hcut
      cases before <;> cases hrest
  | again _ ih =>
    rename_i first passes final lost _
    rcases before with _ | ⟨_, before⟩
    · obtain ⟨rfl, -⟩ := List.cons.inj hcut
      exact (filter_eq_self.mpr fun _ _ => rfl).symm
    · obtain ⟨rfl, hrest⟩ := List.cons.inj hcut
      have hstays := (filter_sublist (l := first) (p := stays)).map Prod.fst
      have hmore := ih (hnodup.sublist hstays) (fun o ho => hanswered o (by
        rw [flatten_cons]
        exact mem_append_right _ ho)) hrest
      rw [hmore]
      unfold places
      rw [filter_map, filter_map, filter_filter]
      congr 1
      apply filter_congr
      intro o ho
      exact (left_cons hnodup (fun o ho => hanswered o (by
        exact mem_append_left _ ho)) ho before).symm

theorem Passes.lost_last (h : Passes held passes final lost) {i : ℕ} (hi : i ∈ lost) :
    ∃ before last, passes = before ++ [last] ∧ (∀ o ∈ last, o.2 ≠ .progress) ∧ (i, .opaque_) ∈ last := by
  induction h with
  | quiet hquiet =>
    rename_i offered
    obtain ⟨⟨j, answer⟩, ho, rfl⟩ := mem_map.mp hi
    obtain ⟨hmem, hanswer⟩ := mem_filter.mp ho
    obtain rfl : answer = .opaque_ := of_decide_eq_true hanswer
    exact ⟨[], offered, rfl, hquiet, hmem⟩
  | emptied _ => exact absurd hi not_mem_nil
  | again _ ih =>
    rename_i first _ _ _ _
    obtain ⟨before, last, rfl, hquiet, hmem⟩ := ih hi
    exact ⟨first :: before, last, rfl, hquiet, hmem⟩

end

theorem map_fst_placed (hold : List α) : (placed hold).map Prod.fst = List.range hold.length :=
  map_fst_zip (Nat.le_of_eq length_range)

theorem map_snd_placed (hold : List α) : (placed hold).map Prod.snd = hold :=
  map_snd_zip (Nat.le_of_eq length_range.symm)

/-- The drain ends, and its log falls into passes: each offers what the passes before left, and what it
reports lost was opaque in a last pass without progress. -/
theorem drain_loses_late (ingest : Ingest σ α) (hstop : ∀ s x, (ingest s x).1 ≠ .stop) (s : σ) (hold : List α) :
    ∃ passes final lost state,
      drainUntilNoProgress (logged ingest) (s, []) (placed hold) = .ok ⟨lost, final, (state, passes.flatten)⟩ ∧
      drainUntilNoProgress ingest s hold = .ok ⟨lost.map Prod.snd, final.map Prod.snd, state⟩ ∧
      (places (passes.flatten.filter gone) ++ final.map Prod.fst ++ lost.map Prod.fst).Perm (List.range hold.length) ∧
      (final.map Prod.fst).Sublist (List.range hold.length) ∧
      (lost.map Prod.fst).Sublist (List.range hold.length) ∧
      (∀ before offered after, passes = before ++ offered :: after →
        places offered = (List.range hold.length).filter (left before)) ∧
      ∀ i ∈ lost.map Prod.fst, ∃ before last, passes = before ++ [last] ∧
        places last = (List.range hold.length).filter (left before) ∧
        (∀ o ∈ last, o.2 ≠ .progress) ∧ (i, .opaque_) ∈ last := by
  obtain ⟨passes, final, lost, state, hdrain, hbare, hpasses, hanswered⟩ := drain_passes hstop s [] (placed hold)
  rw [map_fst_placed] at hpasses
  rw [map_snd_placed] at hbare
  rw [List.nil_append] at hdrain
  have hoffers : ∀ before offered after, passes = before ++ offered :: after →
      places offered = (List.range hold.length).filter (left before) := fun _ _ _ hcut =>
    hpasses.offers List.nodup_range hanswered hcut
  refine ⟨passes, final, lost, state, hdrain, hbare, hpasses.conserves hanswered, hpasses.sublists.1,
    hpasses.sublists.2, hoffers, fun i hi => ?_⟩
  obtain ⟨before, last, hcut, hquiet, hmem⟩ := hpasses.lost_last hi
  exact ⟨before, last, hcut, hoffers before last [] hcut, hquiet, hmem⟩

def commitOpens : Ingest Bool ℕ := fun merged item =>
  if item = 0 then (.progress, item, true) else if merged then (.consumed, item, merged) else (.opaque_, item, merged)

theorem drain_commit_late : ∃ drained, drainUntilNoProgress commitOpens false [1, 0] = .ok drained := by
  have hstop : ∀ s x, (commitOpens s x).1 ≠ .stop := by
    intro s x
    unfold commitOpens
    split_ifs <;> exact Held.noConfusion
  obtain ⟨_, _, _, _, -, hdrain, -⟩ := drain_loses_late commitOpens hstop false [1, 0]
  exact ⟨_, hdrain⟩

end Molt.Net.EpochHold
