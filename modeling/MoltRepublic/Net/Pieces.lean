import Mathlib
import MoltRepublic.Net.Trickle

/-! What the publish queue owes. An owed piece stands at or behind the cursor of its series'
job, whatever is merged into that job while a piece is under way; only a job put in its place
with the cursor at the start can lose one. -/

namespace Molt.Net.Trickle
open List

section

variable {ranges more : Ranges} {p : Nat} {i : UInt32}

theorem jobTotal_cons (r : UInt32 × UInt32) (ranges : Ranges) :
    jobTotal (r :: ranges) = rangeLen r + jobTotal ranges := rfl

theorem lt_jobTotal_of_indexAt (h : indexAt ranges p = some i) : p < jobTotal ranges := by
  induction ranges generalizing p with
  | nil => simp [indexAt] at h
  | cons r ranges ih =>
    rw [jobTotal_cons]
    unfold indexAt at h
    by_cases hp : p < rangeLen r
    · omega
    · rw [if_neg hp] at h
      have := ih h
      omega

theorem range_fits (r : UInt32 × UInt32) {p : Nat} (h : p < rangeLen r) : r.1.toNat + p < 2 ^ 32 := by
  have hlo := r.1.toNat_lt
  have hhi := r.2.toNat_lt
  unfold rangeLen at h
  omega

theorem indexAt_isSome (h : p < jobTotal ranges) : ∃ i, indexAt ranges p = some i := by
  induction ranges generalizing p with
  | nil => simp [jobTotal] at h
  | cons r ranges ih =>
    rw [jobTotal_cons] at h
    unfold indexAt
    by_cases hp : p < rangeLen r
    · rw [if_pos hp, if_pos (range_fits r hp)]
      exact ⟨_, rfl⟩
    · rw [if_neg hp]
      exact ih (by omega)

theorem indexAt_append (h : indexAt ranges p = some i) : indexAt (ranges ++ more) p = some i := by
  induction ranges generalizing p with
  | nil => simp [indexAt] at h
  | cons r ranges ih =>
    rw [cons_append]
    unfold indexAt at h ⊢
    by_cases hp : p < rangeLen r
    · rw [if_pos hp] at h ⊢
      exact h
    · rw [if_neg hp] at h ⊢
      exact ih h

theorem indexAt_append_right (ranges more : Ranges) (p : Nat) :
    indexAt (ranges ++ more) (jobTotal ranges + p) = indexAt more p := by
  induction ranges with
  | nil =>
    rw [nil_append]
    simp [jobTotal]
  | cons r ranges ih =>
    rw [cons_append, jobTotal_cons, Nat.add_assoc, indexAt, if_neg (by omega), Nat.add_sub_cancel_left,
      ih]

theorem Named.exists_indexAt (h : Named ranges i) : ∃ p, indexAt ranges p = some i := by
  obtain ⟨r, hr, hlo, hhi⟩ := h
  obtain ⟨before, after, rfl⟩ := append_of_mem hr
  have hlo : r.1.toNat ≤ i.toNat := hlo
  have hhi : i.toNat ≤ r.2.toNat := hhi
  have hin : i.toNat - r.1.toNat < rangeLen r := by
    unfold rangeLen
    omega
  refine ⟨jobTotal before + (i.toNat - r.1.toNat), ?_⟩
  rw [indexAt_append_right, indexAt, if_pos hin, if_pos (range_fits r hin), Nat.add_sub_cancel' hlo,
    UInt32.ofNat_toNat]

end

section

variable {jobs : List PublishJob} {σ : String} {f : PublishJob → PublishJob} {j : PublishJob}

theorem seriesJob_eq_some (h : seriesJob jobs σ = some j) : j ∈ jobs ∧ j.series = σ :=
  ⟨mem_of_find?_eq_some h, by simpa using find?_some h⟩

theorem seriesJob_eq_none (h : seriesJob jobs σ = none) (hj : j ∈ jobs) : j.series ≠ σ := by
  have hno := find?_eq_none.mp h j hj
  simpa using hno

theorem adjust_series (hf : ∀ j, j.series = σ → (f j).series = σ) :
    (adjust σ f jobs).map PublishJob.series = jobs.map PublishJob.series := by
  induction jobs with
  | nil => rfl
  | cons a jobs ih =>
    unfold adjust
    by_cases ha : a.series = σ
    · rw [if_pos ha, map_cons, map_cons, hf a ha, ha]
    · rw [if_neg ha, map_cons, map_cons, ih]

theorem mem_adjust_self (hnodup : (jobs.map PublishJob.series).Nodup) (hj : j ∈ jobs)
    (hseries : j.series = σ) : f j ∈ adjust σ f jobs := by
  induction jobs with
  | nil => simp at hj
  | cons a jobs ih =>
    rw [map_cons, nodup_cons] at hnodup
    unfold adjust
    rcases mem_cons.mp hj with rfl | hj
    · rw [if_pos hseries]
      exact .head _
    · have ha : a.series ≠ σ := by
        intro ha
        apply hnodup.1
        rw [ha, ← hseries]
        exact mem_map_of_mem hj
      rw [if_neg ha]
      exact .tail _ (ih hnodup.2 hj)

theorem mem_adjust_other (hj : j ∈ jobs) (hseries : j.series ≠ σ) : j ∈ adjust σ f jobs := by
  induction jobs with
  | nil => simp at hj
  | cons a jobs ih =>
    unfold adjust
    rcases mem_cons.mp hj with rfl | hj
    · rw [if_neg hseries]
      exact .head _
    · by_cases ha : a.series = σ
      · rw [if_pos ha]
        exact .tail _ hj
      · rw [if_neg ha]
        exact .tail _ (ih hj)

theorem mem_of_adjust (h : j ∈ adjust σ f jobs) : j ∈ jobs ∨ ∃ a ∈ jobs, a.series = σ ∧ f a = j := by
  induction jobs with
  | nil => exact absurd h (not_mem_nil)
  | cons a jobs ih =>
    unfold adjust at h
    by_cases ha : a.series = σ
    · rw [if_pos ha] at h
      rcases mem_cons.mp h with rfl | h
      · exact .inr ⟨a, .head _, ha, rfl⟩
      · exact .inl (.tail _ h)
    · rw [if_neg ha] at h
      rcases mem_cons.mp h with rfl | h
      · exact .inl (.head _)
      · rcases ih h with h | ⟨b, hb, hbs⟩
        · exact .inl (.tail _ h)
        · exact .inr ⟨b, .tail _ hb, hbs⟩

theorem eq_of_series (hnodup : (jobs.map PublishJob.series).Nodup) {k : PublishJob} (hj : j ∈ jobs)
    (hk : k ∈ jobs) (h : j.series = k.series) : j = k :=
  inj_on_of_nodup_map hnodup hj hk h

theorem pickJob_eq_some {last : Option String} (h : pickJob jobs last = some j) :
    j ∈ jobs ∧ j.next.toNat < jobTotal j.ranges := by
  have hmem := mem_of_getElem? h
  have hunfinished : j ∈ jobs.filter fun j => decide (j.next.toNat < jobTotal j.ranges) := by
    split_ifs at hmem
    · exact mem_of_mem_filter hmem
    · exact hmem
  obtain ⟨hj, hlt⟩ := mem_filter.mp hunfinished
  exact ⟨hj, of_decide_eq_true hlt⟩

end

/-- The first position of a job whose piece may still be owed: its cursor, or the place behind
it while the piece at the cursor is out and the cursor not yet moved. -/
def cursor (flight : Option Flight) (j : PublishJob) : Nat :=
  j.next.toNat + if flight.any fun f => f.out && f.job.series == j.series then 1 else 0

/-- What the queue keeps: one entry a series, every owed piece at or behind the cursor of its
entry, and a piece under way is the one at the cursor. -/
structure Kept (s : Sender) (history : List Event) : Prop where
  once : (s.publish.map PublishJob.series).Nodup
  within : ∀ j ∈ s.publish, j.next.toNat ≤ jobTotal j.ranges
  ahead : ∀ σ i, Owed history σ i → ∃ j ∈ s.publish, j.series = σ ∧
    ∃ p, cursor s.flight j ≤ p ∧ indexAt j.ranges p = some i
  aimed : ∀ f, s.flight = some f → ∃ j ∈ s.publish, j.series = f.job.series ∧
    indexAt j.ranges j.next.toNat = some f.index

variable {f : Flight}

theorem cursor_of_not_out (h : f.out = false) (j : PublishJob) :
    cursor (some f) j = j.next.toNat := by
  simp [cursor, h]

theorem cursor_of_other {j : PublishJob} (h : f.job.series ≠ j.series) :
    cursor (some f) j = j.next.toNat := by
  simp [cursor, h]

theorem cursor_of_out {j : PublishJob} (hout : f.out = true) (h : f.job.series = j.series) :
    cursor (some f) j = j.next.toNat + 1 := by
  simp [cursor, hout, h]

theorem next_le_cursor (flight : Option Flight) (j : PublishJob) : j.next.toNat ≤ cursor flight j :=
  Nat.le_add_right ..

namespace Kept

variable {s : Sender} {history : List Event}

variable {f : Flight}

theorem aimed_at (h : Kept s history) (hf : s.flight = some f) {j : PublishJob} (hj : j ∈ s.publish)
    (hseries : j.series = f.job.series) :
    indexAt j.ranges j.next.toNat = some f.index := by
  obtain ⟨k, hk, hks, hindex⟩ := h.aimed f hf
  rw [eq_of_series h.once hj hk (hseries.trans hks.symm)]
  exact hindex

theorem cursor_le (h : Kept s history) {j : PublishJob} (hj : j ∈ s.publish) :
    cursor s.flight j ≤ jobTotal j.ranges := by
  cases hf : s.flight with
  | none => exact h.within j hj
  | some f =>
    by_cases hout : f.out = true
    · by_cases hseries : f.job.series = j.series
      · rw [cursor_of_out hout hseries]
        exact lt_jobTotal_of_indexAt (h.aimed_at hf hj hseries.symm)
      · rw [cursor_of_other hseries]
        exact h.within j hj
    · rw [cursor_of_not_out (Bool.not_eq_true _ ▸ hout)]
      exact h.within j hj

theorem land (h : Kept s history) (last : Option String) :
    Kept { s with flight := none, last := last } history where
  once := h.once
  within := h.within
  ahead := by
    intro σ i howed
    obtain ⟨j, hj, hseries, p, hp, hindex⟩ := h.ahead σ i howed
    exact ⟨j, hj, hseries, p, Nat.le_trans (next_le_cursor s.flight j) hp, hindex⟩
  aimed := nofun

theorem dropJob (h : Kept s history) (σ : String) :
    Kept (dropJob s σ).1 ((dropJob s σ).2 ++ history) where
  once := h.once.sublist (filter_sublist.map _)
  within := fun j hj => h.within j (mem_of_mem_filter hj)
  ahead := by
    rintro τ i ⟨hne, howed⟩
    obtain ⟨j, hj, hseries, p, hp, hindex⟩ := h.ahead τ i howed
    refine ⟨j, mem_filter.mpr ⟨hj, ?_⟩, hseries, p, Nat.le_trans (next_le_cursor s.flight j) hp, hindex⟩
    rw [hseries]
    simpa using Ne.symm hne
  aimed := nofun

theorem load (h : Kept s history) (hflight : s.flight = none) (gates : Gates) :
    Kept (load s gates).1 ((load s gates).2 ++ history) := by
  unfold Trickle.load
  cases hpick : pickJob s.publish s.last with
  | none => exact h
  | some job =>
    obtain ⟨hjob, hnext⟩ := pickJob_eq_some hpick
    have hlast : Kept { s with last := some job.series } history :=
      ⟨h.once, h.within, h.ahead, h.aimed⟩
    obtain ⟨index, hindex⟩ := indexAt_isSome hnext
    dsimp only
    rw [hindex]
    split_ifs
    · exact hlast
    · refine ⟨h.once, h.within, ?_, ?_⟩
      · intro σ i howed
        obtain ⟨j, hj, hseries, p, hp, hat⟩ := h.ahead σ i howed
        rw [hflight] at hp
        exact ⟨j, hj, hseries, p, hp, hat⟩
      · intro f hf
        cases hf
        exact ⟨job, hjob, rfl, hindex⟩

theorem publish (h : Kept s history) (hf : s.flight = some f) (hout : f.out = false) :
    Kept { s with flight := some { f with out := true } } (.published f.job.series f.index :: history) where
  once := h.once
  within := h.within
  ahead := by
    rintro σ i ⟨hother, howed⟩
    obtain ⟨j, hj, hseries, p, hp, hindex⟩ := h.ahead σ i howed
    rw [hf, cursor_of_not_out hout] at hp
    refine ⟨j, hj, hseries, p, ?_, hindex⟩
    change cursor (some { f with out := true }) j ≤ p
    by_cases hsame : f.job.series = j.series
    · -- the piece at the cursor is out, so what is still owed stands behind it
      rw [cursor_of_out (f := { f with out := true }) rfl hsame]
      have haim := h.aimed_at hf hj hsame.symm
      have hne : p ≠ j.next.toNat := by
        rintro rfl
        rw [haim] at hindex
        exact hother ⟨hsame.trans hseries, Option.some.inj hindex⟩
      omega
    · rw [cursor_of_other (f := { f with out := true }) hsame]
      exact hp
  aimed := by
    intro g hg
    cases hg
    exact h.aimed f hf

theorem toNat_saturatingSucc_le (n : UInt32) : (saturatingSucc n).toNat ≤ n.toNat + 1 := by
  unfold saturatingSucc
  split_ifs with hn
  · rw [UInt32.toNat_add]
    exact Nat.mod_le ..
  · omega

theorem advance (h : Kept s history) (hf : s.flight = some f) (hout : f.out = true) :
    Kept (advance s f.job.series f.day) history where
  once := by
    refine List.Nodup.sublist (filter_sublist.map _) ?_
    rw [adjust_series]
    · exact h.once
    · exact fun _ hseries => hseries
  within := fun j hj => le_of_lt (of_decide_eq_true (mem_filter.mp hj).2)
  ahead := by
    intro σ i howed
    obtain ⟨j, hj, hseries, p, hp, hindex⟩ := h.ahead σ i howed
    have hlt := lt_jobTotal_of_indexAt hindex
    rw [hf] at hp
    by_cases hsame : f.job.series = j.series
    · rw [cursor_of_out hout hsame] at hp
      have hmoved := le_trans (toNat_saturatingSucc_le j.next) hp
      refine ⟨{ j with next := saturatingSucc j.next }, mem_filter.mpr ⟨?_, ?_⟩, hseries, p, hmoved, hindex⟩
      · exact mem_adjust_self (f := fun j => { j with next := saturatingSucc j.next }) h.once hj hsame.symm
      · exact decide_eq_true (lt_of_le_of_lt hmoved hlt)
    · rw [cursor_of_other hsame] at hp
      refine ⟨j, mem_filter.mpr ⟨mem_adjust_other hj (Ne.symm hsame), ?_⟩, hseries, p, hp, hindex⟩
      exact decide_eq_true (lt_of_le_of_lt hp hlt)
  aimed := nofun

end Kept

def Replaces (jobs : List PublishJob) (job : PublishJob) : Prop :=
  ∃ existing, seriesJob jobs job.series = some existing ∧ isWhole existing = false ∧ isWhole job = true

theorem enqueue_cases (jobs : List PublishJob) (job : PublishJob) :
    (seriesJob jobs job.series = none ∧ enqueuePublish jobs job = (jobs ++ [job], true) ∧
      enqueued jobs job = [.queued job.series job.ranges]) ∨
    (Replaces jobs job ∧ enqueuePublish jobs job = (adjust job.series (fun _ => job) jobs, true) ∧
      enqueued jobs job = [.replaced job.series job.ranges]) ∨
    (∃ existing, seriesJob jobs job.series = some existing ∧
      enqueuePublish jobs job = (adjust job.series
        (fun j => { j with ranges := j.ranges ++ freshRanges existing job }) jobs, true) ∧
      enqueued jobs job = [.queued job.series (freshRanges existing job)]) ∨
    (enqueuePublish jobs job = (jobs, false) ∧ enqueued jobs job = []) := by
  cases hfound : seriesJob jobs job.series with
  | none =>
    refine .inl ⟨rfl, ?_, ?_⟩
    · unfold enqueuePublish
      rw [hfound]
    · unfold enqueued
      rw [hfound]
  | some existing =>
    right
    have hnone : enqueuePublish jobs job = (jobs, false) → enqueued jobs job = [] := by
      intro h
      unfold enqueued
      rw [hfound, h]
      rfl
    by_cases hold : isWhole existing = true
    · have hkept : enqueuePublish jobs job = (jobs, false) := by
        unfold enqueuePublish
        rw [hfound]
        exact if_pos hold
      exact .inr (.inr ⟨hkept, hnone hkept⟩)
    · by_cases hnew : isWhole job = true
      · have hreplaced : enqueuePublish jobs job = (adjust job.series (fun _ => job) jobs, true) := by
          unfold enqueuePublish
          rw [hfound]
          exact (if_neg hold).trans (if_pos hnew)
        refine .inl ⟨⟨existing, hfound, Bool.not_eq_true _ ▸ hold, hnew⟩, hreplaced, ?_⟩
        unfold enqueued
        rw [hfound, hreplaced]
        exact if_pos hnew
      · by_cases hfull : ((freshRanges existing job).isEmpty ||
            maxJobRanges < existing.ranges.length + (freshRanges existing job).length) = true
        · have hkept : enqueuePublish jobs job = (jobs, false) := by
            unfold enqueuePublish
            rw [hfound]
            exact (if_neg hold).trans ((if_neg hnew).trans (if_pos hfull))
          exact .inr (.inr ⟨hkept, hnone hkept⟩)
        · have hmerged : enqueuePublish jobs job = (adjust job.series
              (fun j => { j with ranges := j.ranges ++ freshRanges existing job }) jobs, true) := by
            unfold enqueuePublish
            rw [hfound]
            exact (if_neg hold).trans ((if_neg hnew).trans (if_neg hfull))
          refine .inr (.inl ⟨existing, rfl, hmerged, ?_⟩)
          unfold enqueued
          rw [hfound, hmerged]
          exact if_neg hnew

def InStep (flight : Option Flight) (job : PublishJob) : Prop :=
  ∀ f, flight = some f → f.job.series = job.series → f.out = false ∧ indexAt job.ranges 0 = some f.index

/-- No whole-series job replaces a range job while another piece of the series is under way. -/
def Calm (s : Sender) : Call → Prop
  | .enqueue job => Replaces s.publish job → InStep s.flight job
  | _ => True

namespace Kept

variable {s : Sender} {history : List Event} {job : PublishJob}

theorem push (h : Kept s history) (hnext : job.next = 0) (hnone : seriesJob s.publish job.series = none) :
    Kept { s with publish := s.publish ++ [job] } (.queued job.series job.ranges :: history) where
  once := by
    rw [map_append, map_singleton, nodup_append]
    refine ⟨h.once, nodup_singleton _, ?_⟩
    intro a ha b hb
    obtain ⟨j, hj, rfl⟩ := mem_map.mp ha
    rw [mem_singleton.mp hb]
    exact seriesJob_eq_none hnone hj
  within := by
    intro j hj
    rcases mem_append.mp hj with hj | hj
    · exact h.within j hj
    · rw [mem_singleton.mp hj, hnext]
      exact Nat.zero_le _
  ahead := by
    rintro σ i (⟨rfl, hnamed⟩ | howed)
    · obtain ⟨p, hp⟩ := hnamed.exists_indexAt
      refine ⟨job, mem_append_right _ (.head _), rfl, p, ?_, hp⟩
      have hcursor : cursor s.flight job = job.next.toNat := by
        cases hf : s.flight with
        | none => rfl
        | some f =>
          obtain ⟨j, hj, hseries, -⟩ := h.aimed f hf
          exact cursor_of_other (hseries ▸ seriesJob_eq_none hnone hj)
      rw [hcursor, hnext]
      exact Nat.zero_le _
    · obtain ⟨j, hj, hrest⟩ := h.ahead σ i howed
      exact ⟨j, mem_append_left _ hj, hrest⟩
  aimed := by
    intro f hf
    obtain ⟨j, hj, hrest⟩ := h.aimed f hf
    exact ⟨j, mem_append_left _ hj, hrest⟩

theorem replace (h : Kept s history) (hnext : job.next = 0) {existing : PublishJob}
    (hfound : seriesJob s.publish job.series = some existing) (hstep : InStep s.flight job) :
    Kept { s with publish := adjust job.series (fun _ => job) s.publish }
      (.replaced job.series job.ranges :: history) := by
  obtain ⟨hexisting, hseries⟩ := seriesJob_eq_some hfound
  have hjob : job ∈ adjust job.series (fun _ => job) s.publish :=
    mem_adjust_self (f := fun _ => job) h.once hexisting hseries
  refine ⟨?_, ?_, ?_, ?_⟩
  · change ((adjust job.series (fun _ => job) s.publish).map PublishJob.series).Nodup
    rw [adjust_series fun _ _ => rfl]
    exact h.once
  · intro j hj
    rcases mem_of_adjust hj with hj | ⟨_, _, _, rfl⟩
    · exact h.within j hj
    · rw [hnext]
      exact Nat.zero_le _
  · rintro σ i (⟨rfl, hnamed⟩ | ⟨hne, howed⟩)
    · obtain ⟨p, hp⟩ := hnamed.exists_indexAt
      refine ⟨job, hjob, rfl, p, ?_, hp⟩
      have hcursor : cursor s.flight job = job.next.toNat := by
        cases hf : s.flight with
        | none => rfl
        | some f =>
          by_cases hsame : f.job.series = job.series
          · exact cursor_of_not_out (hstep f hf hsame).1 job
          · exact cursor_of_other hsame
      change cursor s.flight job ≤ p
      rw [hcursor, hnext]
      exact Nat.zero_le _
    · obtain ⟨j, hj, hj', hrest⟩ := h.ahead σ i howed
      exact ⟨j, mem_adjust_other hj (hj' ▸ Ne.symm hne), hj', hrest⟩
  · intro f hf
    by_cases hsame : f.job.series = job.series
    · refine ⟨job, hjob, hsame.symm, ?_⟩
      rw [hnext]
      exact (hstep f hf hsame).2
    · obtain ⟨j, hj, hj', hrest⟩ := h.aimed f hf
      exact ⟨j, mem_adjust_other hj (hj' ▸ hsame), hj', hrest⟩

theorem merge (h : Kept s history) {σ : String} {existing : PublishJob}
    (hfound : seriesJob s.publish σ = some existing) (fresh : Ranges) :
    Kept { s with publish := adjust σ (fun j => { j with ranges := j.ranges ++ fresh }) s.publish }
      (.queued σ fresh :: history) := by
  obtain ⟨hexisting, hseries⟩ := seriesJob_eq_some hfound
  have hmerged := mem_adjust_self (f := fun j => { j with ranges := j.ranges ++ fresh })
    h.once hexisting hseries
  have hcursor : ∀ (j : PublishJob), cursor s.flight { j with ranges := j.ranges ++ fresh } =
      cursor s.flight j := fun _ => rfl
  -- an entry keeps its cursor and every piece at its place, whether it is the one that grew or not
  have hkeep : ∀ j ∈ s.publish, ∃ k ∈ adjust σ (fun j => { j with ranges := j.ranges ++ fresh }) s.publish,
      k.series = j.series ∧ k.next = j.next ∧ cursor s.flight k = cursor s.flight j ∧
        ∀ p i, indexAt j.ranges p = some i → indexAt k.ranges p = some i := by
    intro j hj
    by_cases hsame : j.series = σ
    · exact ⟨_, mem_adjust_self h.once hj hsame, rfl, rfl, hcursor j, fun p i => indexAt_append⟩
    · exact ⟨j, mem_adjust_other hj hsame, rfl, rfl, rfl, fun p i hi => hi⟩
  refine ⟨?_, ?_, ?_, ?_⟩
  · change ((adjust σ _ s.publish).map PublishJob.series).Nodup
    rw [adjust_series]
    · exact h.once
    · exact fun _ hseries => hseries
  · intro j hj
    rcases mem_of_adjust hj with hj | ⟨a, ha, -, rfl⟩
    · exact h.within j hj
    · have hle := h.within a ha
      change a.next.toNat ≤ jobTotal (a.ranges ++ fresh)
      unfold jobTotal at hle ⊢
      rw [map_append, sum_append]
      omega
  · rintro τ i (⟨rfl, hnamed⟩ | howed)
    · obtain ⟨p, hp⟩ := hnamed.exists_indexAt
      refine ⟨_, hmerged, hseries, jobTotal existing.ranges + p, ?_, ?_⟩
      · have hle := h.cursor_le hexisting
        change cursor s.flight existing ≤ jobTotal existing.ranges + p
        omega
      · exact (indexAt_append_right ..).trans hp
    · obtain ⟨j, hj, hj', p, hp, hindex⟩ := h.ahead τ i howed
      obtain ⟨k, hk, hks, -, hkc, hki⟩ := hkeep j hj
      exact ⟨k, hk, hks.trans hj', p, le_of_eq_of_le hkc hp, hki p i hindex⟩
  · intro f hf
    obtain ⟨j, hj, hj', hindex⟩ := h.aimed f hf
    obtain ⟨k, hk, hks, hkn, -, hki⟩ := hkeep j hj
    exact ⟨k, hk, hks.trans hj', hkn ▸ hki _ _ hindex⟩

theorem enqueue (h : Kept s history) (hnext : job.next = 0) (hcalm : Calm s (.enqueue job)) :
    Kept { s with publish := (enqueuePublish s.publish job).1 } (enqueued s.publish job ++ history) := by
  obtain ⟨hnone, hjobs, hevents⟩ | ⟨hreplaces, hjobs, hevents⟩ | ⟨existing, hfound, hjobs, hevents⟩ |
    ⟨hjobs, hevents⟩ := enqueue_cases s.publish job
  · rw [hjobs, hevents]
    exact h.push hnext hnone
  · obtain ⟨existing, hfound, -⟩ := id hreplaces
    rw [hjobs, hevents]
    exact h.replace hnext hfound (hcalm hreplaces)
  · rw [hjobs, hevents]
    exact h.merge hfound _
  · rw [hjobs, hevents]
    exact h

theorem step (h : Kept s history) {call : Call} (hbegins : ∀ job, call = .enqueue job → job.next = 0)
    (hcalm : Calm s call) : Kept (step s call).1 ((step s call).2 ++ history) := by
  unfold Trickle.step
  cases call with
  | enqueue job => exact h.enqueue (hbegins job rfl) hcalm
  | load gates =>
    cases hf : s.flight with
    | none => exact h.load hf gates
    | some f => exact h
  | refuse =>
    cases hf : s.flight with
    | none => exact h
    | some f =>
      dsimp only
      split_ifs
      · exact h
      · exact h.dropJob f.job.series
  | hold =>
    cases hf : s.flight with
    | none => exact h
    | some f =>
      dsimp only
      split_ifs
      · exact h
      · exact h.land s.last
  | publish =>
    cases hf : s.flight with
    | none => exact h
    | some f =>
      dsimp only
      split_ifs with hout
      · exact h
      · exact h.publish hf (Bool.not_eq_true _ ▸ hout)
  | advance =>
    cases hf : s.flight with
    | none => exact h
    | some f =>
      dsimp only
      split_ifs with hout
      · exact h.advance hf hout
      · exact h
  | restart => exact h.land none

end Kept

def Along (P : Sender → Call → Prop) : Sender → List Call → Prop
  | _, [] => True
  | s, call :: calls => P s call ∧ Along P (step s call).1 calls

theorem Kept.run {s : Sender} {history : List Event} (h : Kept s history) {calls : List Call}
    (hbegins : ∀ job, Call.enqueue job ∈ calls → job.next = 0) (hcalm : Along Calm s calls) :
    Kept (run s history calls).1 (run s history calls).2 := by
  induction calls generalizing s history with
  | nil => exact h
  | cons call calls ih =>
    refine ih (h.step ?_ hcalm.1) (fun job hjob => hbegins job (mem_cons_of_mem _ hjob)) hcalm.2
    rintro job rfl
    exact hbegins job (.head _)

theorem Along.take {P : Sender → Call → Prop} {s : Sender} {before after : List Call}
    (h : Along P s (before ++ after)) : Along P s before := by
  induction before generalizing s with
  | nil => trivial
  | cons call before ih => exact ⟨h.1, ih h.2⟩

def Sender.idle : Sender := ⟨[], 0, 0, none, none⟩

theorem kept_idle : Kept Sender.idle [] :=
  ⟨nodup_nil, by simp [Sender.idle], nofun, nofun⟩

def Left (before : List Call) (call : Call) (series : String) : Prop :=
  (∃ j ∈ (run Sender.idle [] before).1.publish, j.series = series) ∧
    ∀ j ∈ (run Sender.idle [] (before ++ [call])).1.publish, j.series ≠ series

/-- Jobs begin at their first piece, as every caller builds them. In a run in which no
whole-series job replaces a range job while another piece of the series is under way, a job
leaves the queue with every piece out that was queued for it. -/
theorem publish_queue_skips_nothing {calls : List Call}
    (hbegins : ∀ job, Call.enqueue job ∈ calls → job.next = 0) (hcalm : Along Calm Sender.idle calls)
    {before after : List Call} (hcalls : calls = before ++ .advance :: after) {series : String}
    (hleft : Left before .advance series) (i : UInt32) :
    ¬ Owed (run Sender.idle [] (before ++ [.advance])).2 series i := by
  have hsplit : calls = (before ++ [.advance]) ++ after := by
    rw [hcalls, List.append_assoc]
    rfl
  rw [hsplit] at hbegins hcalm
  have hkept := kept_idle.run (fun job hjob => hbegins job (List.mem_append_left _ hjob)) hcalm.take
  intro howed
  obtain ⟨j, hj, hseries, -⟩ := hkept.ahead series i howed
  exact hleft.2 j hj hseries

namespace Sample

def rangeJob : PublishJob :=
  ⟨"a1", List.replicate 32 0, "/share/a", 1, 10, "r", [(0, 0)], 0, 1700000000, false, false, none⟩

def wholeJob : PublishJob := { rangeJob with ranges := [(2, 2), (1, 1), (0, 0)] }

def openGates : Gates := ⟨false, 10, 1700000000, 1000000⟩

def piece : List Call := [.load openGates, .publish, .advance]

def grown : List Call :=
  [.enqueue rangeJob, .load openGates, .enqueue { rangeJob with ranges := [(1, 1)] }, .publish, .advance,
    .load openGates, .publish]

def crossed : List Call :=
  [.enqueue rangeJob, .load openGates, .enqueue wholeJob, .publish, .advance] ++ piece ++
    [.load openGates, .publish]

end Sample
open Sample in
theorem publish_queue_skips_nothing_grown : Left grown .advance "a1" ∧
    ∀ i, ¬ Owed (run Sender.idle [] (grown ++ [.advance])).2 "a1" i := by
  have hleft : Left grown .advance "a1" := by
    unfold Left
    decide +kernel
  have hbegins : ∀ job, Call.enqueue job ∈ grown ++ [.advance] → job.next = 0 := by
    intro job hjob
    simp only [grown, List.cons_append, List.nil_append, List.mem_cons, reduceCtorEq, false_or, or_false,
      List.not_mem_nil, Call.enqueue.injEq] at hjob
    rcases hjob with rfl | rfl <;> rfl
  have hrange : ∀ s job, isWhole job = false → Calm s (.enqueue job) := by
    rintro s job hjob ⟨_, _, _, hwhole⟩
    exact absurd hwhole (hjob ▸ Bool.false_ne_true)
  have hcalm : Along Calm Sender.idle (grown ++ [.advance]) :=
    ⟨hrange _ _ (by decide +kernel), trivial, hrange _ _ (by decide +kernel), trivial, trivial, trivial, trivial,
      trivial, trivial⟩
  exact ⟨hleft, fun i => publish_queue_skips_nothing hbegins hcalm rfl hleft i⟩

open Sample in
/-- The top record of a series whose whole job came while a piece was under way: the job is
gone, the record never went out. -/
theorem publish_queue_skips_top : (∀ job, Call.enqueue job ∈ crossed → job.next = 0) ∧
    Left crossed .advance "a1" ∧ Owed (run Sender.idle [] (crossed ++ [.advance])).2 "a1" 2 := by
  refine ⟨?_, ?_, by decide +kernel⟩
  · intro job hjob
    simp only [crossed, piece, List.cons_append, List.nil_append, List.mem_cons, reduceCtorEq, false_or,
      or_false, List.not_mem_nil, Call.enqueue.injEq] at hjob
    rcases hjob with rfl | rfl <;> rfl
  · unfold Left
    decide +kernel

end Molt.Net.Trickle
