import Mathlib
import MoltRepublic.Lib.Contest
import MoltRepublic.Net.Mls

/-! Re-key commits made at one epoch, in every order of arrival. Each member holds the state of
one of them; the pairwise rule singles out one commit for all exactly when one beats each of the
others. -/

set_option linter.unusedSectionVars false

namespace Molt.Net.Mls

open Contest List Option

structure Restore (ρ Wire Cred Key : Type) where
  wire : Wire
  staged : Staged Cred Key
  committer : String
  seat : String
  leaf : Leaf Cred Key
  pending : ρ

inductive Arrival (ρ Wire Cred Key : Type) where
  | commit (c : Restore ρ Wire Cred Key)
  | other (wire : Wire)

def Arrival.wire {ρ Wire Cred Key : Type} : Arrival ρ Wire Cred Key → Wire
  | commit c => c.wire
  | other wire => wire

section
variable {σ ρ Wire Cred Key Secret Digest : Type} [LinearOrder Digest]
variable (O : OpenMls σ ρ Wire Cred Key Secret Digest)

/-- The commit `d` takes the place of `c`. -/
def beats (d c : Restore ρ Wire Cred Key) : Bool :=
  O.sha256 d.wire ≠ O.sha256 c.wire &&
    match decide (d.seat = c.committer), decide (c.seat = d.committer) with
    | true, false => true
    | false, true => false
    | _, _ => O.sha256 d.wire < O.sha256 c.wire

theorem beats_asymm (d c : Restore ρ Wire Cred Key) (h : beats O d c = true) : beats O c d = false := by
  simp only [beats] at h ⊢
  by_cases hd : d.seat = c.committer
  · by_cases hc : c.seat = d.committer
    · simp only [hd, hc] at h ⊢
      simp at h ⊢
      exact fun _ => h.2.le
    · simp [hd, hc]
  · by_cases hc : c.seat = d.committer
    · simp [hd, hc] at h
    · simp [hd, hc] at h ⊢
      exact fun _ => h.2.le

variable [DecidableEq Cred] [DecidableEq Key] [DecidableEq Secret]

/-- A member at the epoch of `g`, who reads the others' commits of `S` as valid, its own as an
echo, and has issued its own if it has one. -/
structure Seated (g : σ) (S : List (Restore ρ Wire Cred Key)) (m : MlsMember σ ρ Key Secret Digest) : Prop where
  group : ∃ kept, m.group = some (g, kept)
  prior : ∀ slot, m.prior = some slot → slot.epoch ≠ O.epoch g
  takes : ∀ c ∈ S, c.committer ≠ m.name → ∀ kept,
    (O.read m.name m.rosterKeys (g, kept) c.wire).1 = .ok (c.committer, .commit c.staged)
  own : ∀ c ∈ S, c.committer = m.name → ∀ kept, ¬ m.TakesCommit O (g, kept) c.wire
  issues : ∀ c ∈ S, c.committer = m.name →
    ∃ m', m.restoreMember O c.seat c.leaf (.ok (c.wire, c.staged, c.pending)) = .ok (c.wire, m')

/-- The commits of `S` were made at the epoch of `g` by different members, each for one seat. -/
structure Concurrent (g : σ) (S : List (Restore ρ Wire Cred Key))
    (members : List (MlsMember σ ρ Key Secret Digest)) : Prop where
  committers : (S.map Restore.committer).Nodup
  authors : ∀ c ∈ S, ∃ m ∈ members, m.name = c.committer
  seated : ∀ m ∈ members, Seated O g S m
  frame : ∀ c ∈ S, O.parse c.wire = .ok (.message (O.epoch g) true)
  removed : ∀ c ∈ S, O.removed g c.staged = [c.seat]
  advances : ∀ c ∈ S, O.epoch (O.merge g c.staged).1 = O.epoch g + 1
  states : ∀ c ∈ S, ∀ d ∈ S, (O.merge g c.staged).1 = (O.merge g d.staged).1 → c = d

def NoCommit (wire : Wire) : Prop :=
  ∀ (m : MlsMember σ ρ Key Secret Digest) (g : σ × ρ), ¬ m.TakesCommit O g wire

def issued (S : List (Restore ρ Wire Cred Key)) (m : MlsMember σ ρ Key Secret Digest) :
    MlsMember σ ρ Key Secret Digest :=
  match S.find? fun c => c.committer = m.name with
  | none => m
  | some c =>
    match m.restoreMember O c.seat c.leaf (.ok (c.wire, c.staged, c.pending)) with
    | .ok (_, m') => m'
    | .error _ => m

def ran (S : List (Restore ρ Wire Cred Key)) (m : MlsMember σ ρ Key Secret Digest)
    (arrivals : List (Arrival ρ Wire Cred Key)) : MlsMember σ ρ Key Secret Digest :=
  arrivals.foldl (fun m a => (m.decrypt O a.wire).2) (issued O S m)

/-- All the others' commits in any order and with repetitions, and frames that are no commit. -/
structure Arrived (S : List (Restore ρ Wire Cred Key)) (m : MlsMember σ ρ Key Secret Digest)
    (arrivals : List (Arrival ρ Wire Cred Key)) : Prop where
  complete : ∀ c ∈ S, c.committer ≠ m.name → .commit c ∈ arrivals
  sound : ∀ c, .commit c ∈ arrivals → c ∈ S
  others : ∀ wire, .other wire ∈ arrivals → NoCommit O wire

def Settles (g : σ) (S : List (Restore ρ Wire Cred Key)) (members : List (MlsMember σ ρ Key Secret Digest)) : Prop :=
  ∀ m ∈ members, ∀ m' ∈ members, m.name ≠ m'.name → ∀ l l', Arrived O S m l → Arrived O S m' l' →
    ∃ c ∈ S, (ran O S m l).group.map Prod.fst = some (O.merge g c.staged).1 ∧
      (ran O S m' l').group.map Prod.fst = some (O.merge g c.staged).1

/-- The member is in the state of `c`, with what `c` was made on in its slot. -/
structure Holds (g : σ) (m₀ : MlsMember σ ρ Key Secret Digest) (c : Restore ρ Wire Cred Key)
    (m : MlsMember σ ρ Key Secret Digest) : Prop where
  name : m.name = m₀.name
  rosterKeys : m.rosterKeys = m₀.rosterKeys
  group : ∃ kept, m.group = some ((O.merge g c.staged).1, kept)
  prior : ∃ kept, m.prior = some ⟨O.epoch g, (g, kept), O.sha256 c.wire, [c.seat], c.committer⟩

variable {O}

theorem holds_mergeCommit {g : σ} {m₀ m : MlsMember σ ρ Key Secret Digest} (hname : m.name = m₀.name)
    (hroster : m.rosterKeys = m₀.rosterKeys) (kept : ρ) (c : Restore ρ Wire Cred Key) :
    Holds O g m₀ c (m.mergeCommit O (g, kept) c.wire c.committer [c.seat] c.staged) := by
  simp only [MlsMember.mergeCommit, MlsMember.retireExporter]
  split
  · exact ⟨hname, hroster, ⟨_, rfl⟩, ⟨kept, rfl⟩⟩
  · split_ifs
    · exact ⟨hname, hroster, ⟨_, rfl⟩, ⟨kept, rfl⟩⟩
    · exact ⟨hname, hroster, ⟨_, rfl⟩, ⟨kept, rfl⟩⟩

theorem restoreMember_eq_ok {m m' : MlsMember σ ρ Key Secret Digest} {member : String} {leaf : Leaf Cred Key}
    {wire wire' : Wire} {staged : Staged Cred Key} {pending : ρ} {g : σ × ρ} (hg : m.group = some g)
    (h : m.restoreMember O member leaf (.ok (wire, staged, pending)) = .ok (wire', m')) :
    m' = m.mergeCommit O (g.1, pending) wire m.name [member] staged := by
  simp only [MlsMember.restoreMember, hg] at h
  split_ifs at h
  split at h
  · cases h
  · cases h
    rfl

theorem Holds.unmoved {g : σ} {m₀ m m' : MlsMember σ ρ Key Secret Digest} {c : Restore ρ Wire Cred Key}
    (h : Holds O g m₀ c m) (hsame : m.Unmoved m') : Holds O g m₀ c m' := by
  obtain ⟨kept, hgroup⟩ := h.group
  have hstate := hsame.group
  rw [hgroup] at hstate
  obtain ⟨⟨state, kept'⟩, hgroup', heq⟩ := map_eq_some_iff.mp hstate
  obtain rfl : state = (O.merge g c.staged).1 := heq
  exact ⟨hsame.name.trans h.name, hsame.rosterKeys.trans h.rosterKeys, ⟨kept', hgroup'⟩, hsame.prior ▸ h.prior⟩

section
variable {g : σ} {S : List (Restore ρ Wire Cred Key)} {members : List (MlsMember σ ρ Key Secret Digest)}
  {m₀ : MlsMember σ ρ Key Secret Digest}

variable {m : MlsMember σ ρ Key Secret Digest} {c : Restore ρ Wire Cred Key}

theorem readFrame_commit (h : Concurrent O g S members) (hm : m₀ ∈ members) (hname : m.name = m₀.name)
    (hroster : m.rosterKeys = m₀.rosterKeys) (hc : c ∈ S) (hother : c.committer ≠ m₀.name) (kept : ρ) :
    (m.readFrame O (g, kept) c.wire).1 = .ok (.commit (O.readmitted c.staged)) ∧
      Holds O g m₀ c (m.readFrame O (g, kept) c.wire).2 := by
  have hread := (h.seated m₀ hm).takes c hc hother kept
  rw [← hname, ← hroster] at hread
  rcases hfull : O.read m.name m.rosterKeys (g, kept) c.wire with ⟨result, spent⟩
  rw [hfull] at hread
  obtain rfl : result = _ := hread
  rw [MlsMember.readFrame, hfull]
  refine ⟨rfl, ?_⟩
  simp only [h.removed c hc]
  exact holds_mergeCommit hname hroster spent c

theorem decrypt_first (h : Concurrent O g S members) (hm : m₀ ∈ members) (hwait : m₀.Unmoved m) (hc : c ∈ S)
    (hother : c.committer ≠ m₀.name) :
    Holds O g m₀ c (m.decrypt O c.wire).2 := by
  obtain ⟨kept₀, hgroup₀⟩ := (h.seated m₀ hm).group
  have hstate := hwait.group
  rw [hgroup₀] at hstate
  obtain ⟨⟨state, kept⟩, hgroup, heq⟩ := map_eq_some_iff.mp hstate
  obtain rfl : g = state := heq.symm
  have hframe := (readFrame_commit h hm hwait.name hwait.rosterKeys hc hother kept).2
  simp only [MlsMember.decrypt, MlsMember.decryptWith, h.frame c hc, hgroup]
  rw [if_neg (Nat.lt_irrefl (O.epoch g))]
  rcases hprior : m.prior with _ | slot
  · exact hframe
  · have hepoch := (h.seated m₀ hm).prior slot (hwait.prior ▸ hprior)
    simp only [and_true]
    rw [if_neg fun heq => hepoch heq.symm]
    exact hframe

theorem theirsWin_eq_beats (c d : Restore ρ Wire Cred Key) (hne : O.sha256 c.wire ≠ O.sha256 d.wire) (kept kept' : ρ) :
    MlsMember.theirsWin (σ := σ) ⟨O.epoch g, (g, kept), O.sha256 c.wire, [c.seat], c.committer⟩
      ⟨O.epoch g, (g, kept'), O.sha256 d.wire, [d.seat], d.committer⟩ (O.sha256 d.wire < O.sha256 c.wire) =
      beats O d c := by
  have hcontains : ∀ a b : String, [a].contains b = decide (a = b) := by
    intro a b
    rw [contains_cons, contains_nil, Bool.or_false, Bool.beq_eq_decide_eq, decide_eq_decide]
    exact eq_comm
  have hfirst : decide (O.sha256 d.wire ≠ O.sha256 c.wire) = true := decide_eq_true hne.symm
  cases hd : decide (d.seat = c.committer) <;> cases hc : decide (c.seat = d.committer) <;>
    simp only [MlsMember.theirsWin, beats, hfirst, hcontains, hd, hc, Bool.true_and]

variable {d : Restore ρ Wire Cred Key}

theorem Holds.decrypt (h : Concurrent O g S members) (hm : m₀ ∈ members) (hholds : Holds O g m₀ c m)
    (hc : c ∈ S) (hd : d ∈ S) (hother : d.committer ≠ m₀.name) :
    Holds O g m₀ (duel (beats O) c d) (m.decrypt O d.wire).2 := by
  obtain ⟨kept, hgroup⟩ := hholds.group
  obtain ⟨keptPrior, hprior⟩ := hholds.prior
  have hpast : ¬ O.epoch (O.merge g c.staged).1 < O.epoch g := by
    rw [h.advances c hc]
    omega
  simp only [MlsMember.decrypt, MlsMember.decryptWith, h.frame d hd, hgroup, if_neg hpast, hprior, true_and, if_true]
  split_ifs with hkey
  · have hbeats : beats O d c = false := by simp [beats, hkey]
    simpa [duel, hbeats] using hholds
  · obtain ⟨hincoming, htaken⟩ := readFrame_commit h hm (m := { m with prior := none, group := some (g, keptPrior) })
      hholds.name hholds.rosterKeys hd hother keptPrior
    obtain ⟨keptTheirs, htheirs⟩ := htaken.prior
    have htried : MlsMember.decryptWith O
        (fun _ => (.error .noGroup, { m with prior := none, group := some (g, keptPrior) }))
        { m with prior := none, group := some (g, keptPrior) } d.wire =
        MlsMember.readFrame O { m with prior := none, group := some (g, keptPrior) } (g, keptPrior) d.wire := by
      simp only [MlsMember.decryptWith, h.frame d hd]
      rw [if_neg (Nat.lt_irrefl (O.epoch g))]
    rcases hread : MlsMember.readFrame O { m with prior := none, group := some (g, keptPrior) } (g, keptPrior) d.wire
      with ⟨incoming, tried⟩
    rw [hread] at hincoming htaken htheirs htried
    simp only at hincoming htaken htheirs
    simp only [MlsMember.contest, htried, hincoming, htheirs, theirsWin_eq_beats c d hkey]
    rw [duel]
    split_ifs with hwin
    · exact htaken
    · exact hholds

theorem Holds.decrypt_own (h : Concurrent O g S members) (hm : m₀ ∈ members) (hholds : Holds O g m₀ c m)
    (hc : c ∈ S) (hd : d ∈ S) (hown : d.committer = m₀.name) :
    Holds O g m₀ c (m.decrypt O d.wire).2 := by
  obtain ⟨kept, hgroup⟩ := hholds.group
  obtain ⟨keptPrior, hprior⟩ := hholds.prior
  have hpast : ¬ O.epoch (O.merge g c.staged).1 < O.epoch g := by
    rw [h.advances c hc]
    omega
  simp only [MlsMember.decrypt, MlsMember.decryptWith, h.frame d hd, hgroup, if_neg hpast, hprior, true_and, if_true]
  split_ifs with hkey
  · exact hholds
  · have hecho : ¬ m.TakesCommit O (g, keptPrior) d.wire := by
      have hseat := (h.seated m₀ hm).own d hd hown keptPrior
      rw [MlsMember.TakesCommit] at hseat ⊢
      rw [hholds.name, hholds.rosterKeys]
      exact hseat
    have hsame : (m.contest O ⟨O.epoch g, (g, keptPrior), O.sha256 c.wire, [c.seat], c.committer⟩ d.wire
        (decide (O.sha256 d.wire < O.sha256 c.wire))).2 = m := (MlsMember.contest_unmoved O hecho _).1
    rw [hsame]
    exact hholds

def seenBy (name : String) (arrivals : List (Arrival ρ Wire Cred Key)) : List (Restore ρ Wire Cred Key) :=
  arrivals.filterMap fun
    | .commit c => if c.committer = name then none else some c
    | .other _ => none

variable {arrivals : List (Arrival ρ Wire Cred Key)}

theorem mem_seenBy {name : String} :
    c ∈ seenBy name arrivals ↔ .commit c ∈ arrivals ∧ c.committer ≠ name := by
  rw [seenBy, mem_filterMap]
  constructor
  · rintro ⟨a, ha, heq⟩
    cases a with
    | other wire => cases heq
    | commit d =>
      simp only at heq
      split_ifs at heq with hd
      cases heq
      exact ⟨ha, hd⟩
  · rintro ⟨hmem, hne⟩
    exact ⟨_, hmem, if_neg hne⟩

theorem Holds.run (h : Concurrent O g S members) (hm : m₀ ∈ members)
    (hsound : ∀ c, .commit c ∈ arrivals → c ∈ S) (hothers : ∀ wire, .other wire ∈ arrivals → NoCommit O wire)
    (hholds : Holds O g m₀ c m) (hc : c ∈ S) :
    Holds O g m₀ (survivor (beats O) c (seenBy m₀.name arrivals))
      (arrivals.foldl (fun m a => (m.decrypt O a.wire).2) m) := by
  induction arrivals generalizing m c with
  | nil => exact hholds
  | cons a rest ih =>
    have hsound' : ∀ c, .commit c ∈ rest → c ∈ S := fun c hmem => hsound c (.tail _ hmem)
    have hothers' : ∀ wire, .other wire ∈ rest → NoCommit O wire :=
      fun wire hmem => hothers wire (.tail _ hmem)
    cases a with
    | other wire =>
      have hno := hothers wire (.head _)
      exact ih hsound' hothers' (hholds.unmoved (MlsMember.decrypt_unmoved O (fun g' _ => hno m g') fun _ _ => hno m _)) hc
    | commit d =>
      have hd := hsound d (.head _)
      by_cases hown : d.committer = m₀.name
      · have hskip : seenBy m₀.name (Arrival.commit d :: rest) = seenBy m₀.name rest := by simp [seenBy, hown]
        rw [hskip]
        exact ih hsound' hothers' (hholds.decrypt_own h hm hc hd hown) hc
      · have htake : seenBy m₀.name (Arrival.commit d :: rest) = d :: seenBy m₀.name rest := by simp [seenBy, hown]
        rw [htake]
        refine ih hsound' hothers' (hholds.decrypt h hm hc hd hown) ?_
        rw [duel]
        split_ifs
        · exact hd
        · exact hc

theorem run_bystander (h : Concurrent O g S members) (hm : m₀ ∈ members)
    (hnone : ∀ c ∈ S, c.committer ≠ m₀.name) (hsound : ∀ c, .commit c ∈ arrivals → c ∈ S)
    (hothers : ∀ wire, .other wire ∈ arrivals → NoCommit O wire) (hwait : m₀.Unmoved m)
    {seen : List (Restore ρ Wire Cred Key)} (hseen : seenBy m₀.name arrivals = c :: seen) :
    Holds O g m₀ (survivor (beats O) c seen) (arrivals.foldl (fun m a => (m.decrypt O a.wire).2) m) := by
  induction arrivals generalizing m with
  | nil => cases hseen
  | cons a rest ih =>
    have hsound' : ∀ c, .commit c ∈ rest → c ∈ S := fun c hmem => hsound c (.tail _ hmem)
    have hothers' : ∀ wire, .other wire ∈ rest → NoCommit O wire :=
      fun wire hmem => hothers wire (.tail _ hmem)
    cases a with
    | other wire =>
      have hno := hothers wire (.head _)
      exact ih hsound' hothers'
        (hwait.trans (MlsMember.decrypt_unmoved O (fun g' _ => hno m g') fun _ _ => hno m _)) hseen
    | commit d =>
      have hd := hsound d (.head _)
      have htake : seenBy m₀.name (Arrival.commit d :: rest) = d :: seenBy m₀.name rest := by
        simp [seenBy, hnone d hd]
      obtain ⟨hfirst, hrest⟩ := List.cons.inj (htake.symm.trans hseen)
      rw [← hfirst, ← hrest]
      exact Holds.run h hm hsound' hothers' (decrypt_first h hm hwait hd (hnone d hd)) hd

theorem eq_of_committer (h : Concurrent O g S members) (hc : c ∈ S) (hd : d ∈ S)
    (heq : c.committer = d.committer) : c = d :=
  inj_on_of_nodup_map h.committers hc hd heq

theorem ran_author (h : Concurrent O g S members) (hm : m₀ ∈ members) {a : Restore ρ Wire Cred Key}
    (ha : a ∈ S) (hname : m₀.name = a.committer) (harrived : Arrived O S m₀ arrivals) :
    Holds O g m₀ (survivor (beats O) a (seenBy m₀.name arrivals)) (ran O S m₀ arrivals) := by
  obtain ⟨kept, hgroup⟩ := (h.seated m₀ hm).group
  obtain ⟨m', hissue⟩ := (h.seated m₀ hm).issues a ha hname.symm
  have hfind : S.find? (fun c => c.committer = m₀.name) = some a := by
    rcases hfound : S.find? (fun c => c.committer = m₀.name) with _ | c
    · exact absurd hname.symm (by simpa using find?_eq_none.mp hfound a ha)
    · have hc : c.committer = m₀.name := by simpa using find?_some hfound
      rwa [eq_of_committer h (mem_of_find?_eq_some hfound) ha (hc.trans hname)] at hfound
  have hissued : issued O S m₀ = m' := by simp [issued, hfind, hissue]
  have hstart : Holds O g m₀ a m' := by
    rw [restoreMember_eq_ok hgroup hissue, hname]
    exact holds_mergeCommit rfl rfl a.pending a
  rw [ran, hissued]
  exact Holds.run h hm harrived.sound harrived.others hstart ha

theorem ran_holds (h : Concurrent O g S members) (hm : m₀ ∈ members) (hS : S ≠ [])
    (harrived : Arrived O S m₀ arrivals) :
    ∃ start seen, (∀ c ∈ start :: seen, c ∈ S) ∧ (∀ c ∈ S, c ∈ start :: seen) ∧
      Holds O g m₀ (survivor (beats O) start seen) (ran O S m₀ arrivals) := by
  have hsound : ∀ c ∈ seenBy m₀.name arrivals, c ∈ S := fun c hc => harrived.sound c (mem_seenBy.mp hc).1
  by_cases hown : ∃ a ∈ S, m₀.name = a.committer
  · obtain ⟨a, ha, hname⟩ := hown
    refine ⟨a, seenBy m₀.name arrivals, ?_, ?_, ran_author h hm ha hname harrived⟩
    · exact forall_mem_cons.mpr ⟨ha, hsound⟩
    · intro c hc
      by_cases hcommitter : c.committer = m₀.name
      · rw [eq_of_committer h hc ha (hcommitter.trans hname)]
        exact .head _
      · exact .tail _ (mem_seenBy.mpr ⟨harrived.complete c hc hcommitter, hcommitter⟩)
  · have hnone : ∀ c ∈ S, c.committer ≠ m₀.name := fun c hc heq => hown ⟨c, hc, heq.symm⟩
    have hcomplete : ∀ c ∈ S, c ∈ seenBy m₀.name arrivals :=
      fun c hc => mem_seenBy.mpr ⟨harrived.complete c hc (hnone c hc), hnone c hc⟩
    have hissued : issued O S m₀ = m₀ := by
      have hfind : S.find? (fun c => c.committer = m₀.name) = none := by
        rw [find?_eq_none]
        intro c hc
        simpa using hnone c hc
      simp only [issued, hfind]
    rcases hseen : seenBy m₀.name arrivals with _ | ⟨start, seen⟩
    · obtain ⟨c, hc⟩ := exists_mem_of_ne_nil S hS
      have hmem := hcomplete c hc
      rw [hseen] at hmem
      cases hmem
    · refine ⟨start, seen, hseen ▸ hsound, hseen ▸ hcomplete, ?_⟩
      rw [ran, hissued]
      exact run_bystander h hm hnone harrived.sound harrived.others (MlsMember.Unmoved.refl m₀) hseen

theorem Holds.state (h : Holds O g m₀ c m) :
    m.group.map Prod.fst = some (O.merge g c.staged).1 := by
  obtain ⟨kept, hgroup⟩ := h.group
  rw [hgroup]
  rfl

theorem settles_of_champion (h : Concurrent O g S members) {w : Restore ρ Wire Cred Key}
    (hw : Champion (beats O) S w) : Settles O g S members := by
  have hend : ∀ m ∈ members, ∀ l, Arrived O S m l → (ran O S m l).group.map Prod.fst = some (O.merge g w.staged).1 := by
    intro m hm l hl
    obtain ⟨start, seen, hall, hcomplete, hholds⟩ := ran_holds h hm (ne_nil_of_mem hw.1) hl
    rw [survivor_of_champion (beats_asymm O) hw hall (hcomplete w hw.1)] at hholds
    exact hholds.state
  intro m hm m' hm' _ l l' hl hl'
  exact ⟨w, hw.1, hend m hm l hl, hend m' hm' l' hl'⟩

theorem champion_of_settles (h : Concurrent O g S members) (hS : S ≠ []) (hsettles : Settles O g S members) :
    ∃ w, Champion (beats O) S w := by
  refine exists_champion (beats O) hS ?_
  intro a ha b hb hab l l' hal hbl hl hl'
  -- the committers of `a` and `b`, each given the others' commits in the order of its list
  have hrun : ∀ c ∈ S, ∀ seen, c ∉ seen → Covers S c seen → ∀ m ∈ members, m.name = c.committer →
      Arrived O S m (seen.map Arrival.commit) ∧
        Holds O g m (survivor (beats O) c seen) (ran O S m (seen.map Arrival.commit)) := by
    intro c hc seen hown hcovers m hm hname
    have harrived : Arrived O S m (seen.map Arrival.commit) := by
      refine ⟨?_, ?_, ?_⟩
      · intro d hd hne
        exact mem_map_of_mem (hcovers.complete d hd fun heq => hne (heq ▸ hname.symm))
      · intro d hd
        obtain ⟨d', hd', heq⟩ := mem_map.mp hd
        cases heq
        exact hcovers.sound d hd'
      · intro wire hwire
        obtain ⟨d, -, heq⟩ := mem_map.mp hwire
        cases heq
    have hseen : seenBy m.name (seen.map Arrival.commit) = seen := by
      rw [seenBy, filterMap_map]
      refine (filterMap_congr ?_).trans filterMap_some
      intro d hd
      have hne : d.committer ≠ m.name := by
        intro heq
        exact hown (eq_of_committer h (hcovers.sound d hd) hc (heq.trans hname) ▸ hd)
      exact if_neg hne
    have hholds := ran_author h hm hc hname harrived
    rw [hseen] at hholds
    exact ⟨harrived, hholds⟩
  obtain ⟨ma, hma, hnamea⟩ := h.authors a ha
  obtain ⟨mb, hmb, hnameb⟩ := h.authors b hb
  obtain ⟨harra, hholdsa⟩ := hrun a ha l hal hl ma hma hnamea
  obtain ⟨harrb, hholdsb⟩ := hrun b hb l' hbl hl' mb hmb hnameb
  have hne : ma.name ≠ mb.name := fun heq => hab (eq_of_committer h ha hb (hnamea ▸ hnameb ▸ heq))
  obtain ⟨c, hc, hstatea, hstateb⟩ := hsettles ma hma mb hmb hne _ _ harra harrb
  have hmem : ∀ x ∈ S, ∀ seen, (∀ y ∈ seen, y ∈ S) → survivor (beats O) x seen ∈ S := by
    intro x hx seen hseen
    rcases mem_cons.mp (survivor_mem (beats O) x seen) with heq | hin
    · rw [heq]
      exact hx
    · exact hseen _ hin
  have hsa := h.states _ (hmem a ha l hl.sound) c hc (Option.some.inj (hholdsa.state.symm.trans hstatea))
  have hsb := h.states _ (hmem b hb l' hl'.sound) c hc (Option.some.inj (hholdsb.state.symm.trans hstateb))
  rw [hsa, hsb]

theorem Concurrent.sublist (h : Concurrent O g S members) {S' : List (Restore ρ Wire Cred Key)} (hS : S'.Sublist S) :
    Concurrent O g S' members where
  committers := h.committers.sublist (hS.map _)
  authors := fun c hc => h.authors c (hS.subset hc)
  seated := fun m hm =>
    have hseat := h.seated m hm
    ⟨hseat.group, hseat.prior, fun c hc => hseat.takes c (hS.subset hc), fun c hc => hseat.own c (hS.subset hc),
      fun c hc => hseat.issues c (hS.subset hc)⟩
  frame := fun c hc => h.frame c (hS.subset hc)
  removed := fun c hc => h.removed c (hS.subset hc)
  advances := fun c hc => h.advances c (hS.subset hc)
  states := fun c hc d hd => h.states c (hS.subset hc) d (hS.subset hd)

end

/-- Every two members that have processed the commits end in the state of the same one exactly
when one commit beats each of the others; a frame that is no valid commit moves nobody. -/
theorem race_settles_iff (g : σ) (S : List (Restore ρ Wire Cred Key)) (members : List (MlsMember σ ρ Key Secret Digest))
    (h : Concurrent O g S members) :
    ((S ≠ [] → Settles O g S members) ∧
      ∀ (m : MlsMember σ ρ Key Secret Digest) (wire : Wire), (∀ g', m.group = some g' → ¬ m.TakesCommit O g' wire) →
        (∀ ours, m.prior = some ours → ¬ m.TakesCommit O ours.snapshot wire) → m.Unmoved (m.decrypt O wire).2) ↔
      (S ≠ [] → ∃ w, Champion (beats O) S w) := by
  constructor
  · rintro ⟨hsettles, -⟩ hS
    exact champion_of_settles h hS (hsettles hS)
  · intro hchampion
    refine ⟨?_, fun m wire hgroup hprior => MlsMember.decrypt_unmoved O hgroup hprior⟩
    intro hS
    obtain ⟨w, hw⟩ := hchampion hS
    exact settles_of_champion h hw

end

def toyTree : List (Nat × Leaf String Nat) :=
  [(0, ⟨"ana", 10⟩), (1, ⟨"ben", 11⟩), (2, ⟨"cleo", 12⟩), (3, ⟨"dora", 13⟩)]

def toyRoster (name : String) : Option Nat := (toyTree.find? fun m => m.2.cred = name).map fun m => m.2.key

def toyRestore (wire : Nat) (committer seat : Nat × Leaf String Nat) : Restore Unit Nat String Nat :=
  ⟨wire, ⟨[seat.2], [seat.1], some committer.2, []⟩, committer.2.cred, seat.2.cred, seat.2, ()⟩

def toyRace : List (Restore Unit Nat String Nat) :=
  [toyRestore 3 (0, ⟨"ana", 10⟩) (1, ⟨"ben", 11⟩), toyRestore 1 (1, ⟨"ben", 11⟩) (3, ⟨"dora", 13⟩),
    toyRestore 2 (2, ⟨"cleo", 12⟩) (3, ⟨"dora", 13⟩)]

def toyMls : OpenMls (Option (Staged String Nat)) Unit Nat String Nat Nat Nat where
  parse := fun wire => if wire = 0 then .error "no frame" else .ok (.message 5 true)
  epoch := fun g => if g = none then 5 else 6
  members := fun _ => toyTree
  process := fun me g _ wire =>
    match g, toyRace.find? fun c => c.wire = wire with
    | none, some c =>
      if c.committer = me then (.error .cannotDecryptOwnMessage, ())
      else (.ok ⟨(toyTree.find? fun m => m.2.cred = c.committer).map Prod.fst, c.committer, .commit c.staged⟩, ())
    | _, _ => (.error .wrongEpoch, ())
  store := fun _ _ => ()
  merge := fun _ staged => (some staged, ())
  exporter := fun g => if g = none then some 5 else some 6
  name := id
  credential := id
  sha256 := id

def toyMember (name : String) : MlsMember (Option (Staged String Nat)) Unit Nat Nat Nat :=
  ⟨name, some (none, ()), none, some toyRoster, [], []⟩

def toyMembers : List (MlsMember (Option (Staged String Nat)) Unit Nat Nat Nat) :=
  [toyMember "ana", toyMember "ben", toyMember "cleo", toyMember "dora"]

theorem toy_takes : ∀ m ∈ toyMembers, ∀ c ∈ toyRace,
    (toyMls.read m.name m.rosterKeys (none, ()) c.wire).1.toOption =
      if c.committer = m.name then none else some (c.committer, .commit c.staged) := by
  decide

theorem toy_issues : ∀ m ∈ toyMembers, ∀ c ∈ toyRace, c.committer = m.name →
    ((m.restoreMember toyMls c.seat c.leaf (.ok (c.wire, c.staged, c.pending))).toOption.map Prod.fst) = some c.wire := by
  decide

theorem eq_ok_of_toOption {ε α : Type} {x : Except ε α} {a : α} (h : x.toOption = some a) : x = .ok a := by
  cases x with
  | error e => cases h
  | ok b => exact congrArg _ (Option.some.inj h)

theorem toy_seated {m : MlsMember (Option (Staged String Nat)) Unit Nat Nat Nat} (hm : m ∈ toyMembers) :
    Seated toyMls none toyRace m where
  group := ⟨(), by
    simp only [toyMembers, mem_cons, not_mem_nil, or_false] at hm
    rcases hm with rfl | rfl | rfl | rfl <;> rfl⟩
  prior := by
    intro slot hslot
    simp only [toyMembers, mem_cons, not_mem_nil, or_false] at hm
    rcases hm with rfl | rfl | rfl | rfl <;> cases hslot
  takes := fun c hc hother _ => eq_ok_of_toOption ((toy_takes m hm c hc).trans (if_neg hother))
  own := by
    rintro c hc hown _ ⟨sender, staged, hread⟩
    have hnone := (toy_takes m hm c hc).trans (if_pos hown)
    rw [hread] at hnone
    cases hnone
  issues := by
    intro c hc hown
    obtain ⟨⟨wire, m'⟩, hissue, rfl⟩ := map_eq_some_iff.mp (toy_issues m hm c hc hown)
    exact ⟨m', eq_ok_of_toOption hissue⟩

theorem toy_concurrent : Concurrent toyMls none toyRace toyMembers where
  committers := by decide
  authors := by
    have hauthors : ∀ c ∈ toyRace, toyMembers.any fun m => m.name = c.committer := by decide
    intro c hc
    obtain ⟨m, hm, hname⟩ := any_eq_true.mp (hauthors c hc)
    exact ⟨m, hm, by simpa using hname⟩
  seated := fun m hm => toy_seated hm
  frame := by
    intro c hc
    simp only [toyRace, mem_cons, not_mem_nil, or_false] at hc
    rcases hc with rfl | rfl | rfl <;> rfl
  removed := by decide
  advances := by decide
  states := by
    intro c hc d hd heq
    simp only [toyRace, mem_cons, not_mem_nil, or_false] at hc hd
    rcases hc with rfl | rfl | rfl <;> rcases hd with rfl | rfl | rfl <;>
      first | rfl | exact absurd heq (by decide)

/-- Ben's and Cleo's commits alone settle on Ben's. -/
theorem race_settles_iff_two : Settles toyMls none toyRace.tail toyMembers := by
  have hconcurrent : Concurrent toyMls none toyRace.tail toyMembers := toy_concurrent.sublist (List.tail_sublist _)
  have hchampion : Champion (beats toyMls) toyRace.tail (toyRestore 1 (1, ⟨"ben", 11⟩) (3, ⟨"dora", 13⟩)) := by
    refine ⟨by simp [toyRace], ?_⟩
    intro c hc hne
    simp only [toyRace, List.tail_cons, List.mem_cons, List.not_mem_nil, or_false] at hc
    rcases hc with rfl | rfl
    · exact absurd rfl hne
    · decide
  exact ((race_settles_iff none toyRace.tail toyMembers hconcurrent).mpr fun _ => ⟨_, hchampion⟩).1 (by simp [toyRace])

/-- Ana's commit evicts Ben, Ben's has a lower digest than Cleo's, and Cleo's a lower one than
Ana's: Ana ends in the state of Cleo's commit and Ben in that of Ana's. -/
theorem three_commits_fork : Concurrent toyMls none toyRace toyMembers ∧ ¬ Settles toyMls none toyRace toyMembers := by
  refine ⟨toy_concurrent, ?_⟩
  intro hsettles
  let a := toyRestore 3 (0, ⟨"ana", 10⟩) (1, ⟨"ben", 11⟩)
  let b := toyRestore 1 (1, ⟨"ben", 11⟩) (3, ⟨"dora", 13⟩)
  let c := toyRestore 2 (2, ⟨"cleo", 12⟩) (3, ⟨"dora", 13⟩)
  have hana : Arrived toyMls toyRace (toyMember "ana") [.commit b, .commit c] := by
    refine ⟨?_, ?_, ?_⟩
    · intro d hd hne
      simp only [toyRace, List.mem_cons, List.not_mem_nil, or_false] at hd
      rcases hd with rfl | rfl | rfl
      · exact absurd rfl hne
      · simp [b]
      · simp [c]
    · intro d hd
      rcases List.mem_cons.mp hd with heq | hd
      · cases heq
        simp [b, toyRace]
      · cases List.mem_singleton.mp hd
        simp [c, toyRace]
    · intro wire hwire
      simp at hwire
  have hben : Arrived toyMls toyRace (toyMember "ben") [.commit c, .commit a] := by
    refine ⟨?_, ?_, ?_⟩
    · intro d hd hne
      simp only [toyRace, List.mem_cons, List.not_mem_nil, or_false] at hd
      rcases hd with rfl | rfl | rfl
      · simp [a]
      · exact absurd rfl hne
      · simp [c]
    · intro d hd
      rcases List.mem_cons.mp hd with heq | hd
      · cases heq
        simp [c, toyRace]
      · cases List.mem_singleton.mp hd
        simp [a, toyRace]
    · intro wire hwire
      simp at hwire
  obtain ⟨d, -, hleft, hright⟩ := hsettles (toyMember "ana") (by simp [toyMembers]) (toyMember "ben")
    (by simp [toyMembers]) (by decide) _ _ hana hben
  have hdiffer : (ran toyMls toyRace (toyMember "ana") [.commit b, .commit c]).group.map Prod.fst ≠
      (ran toyMls toyRace (toyMember "ben") [.commit c, .commit a]).group.map Prod.fst := by
    decide
  exact hdiffer (hleft.trans hright.symm)

end Molt.Net.Mls
