import Mathlib
import MoltRepublic.Net.Race

/-! The ring of past exporter secrets over a member's life: the group made or joined, adds, own
restores, foreign commits merged or raced, failures and reopened snapshots (`molt-net/mls.rs`). -/

set_option linter.unusedSectionVars false

namespace Molt.Net.Mls
open List Option Nat

section
variable {σ ρ Wire Cred Key Secret Digest : Type} [DecidableEq Cred] [DecidableEq Key] [DecidableEq Secret]
variable (O : OpenMls σ ρ Wire Cred Key Secret Digest)

namespace MlsMember

def fresh (name : String) : MlsMember σ ρ Key Secret Digest := ⟨name, none, none, none, [], []⟩

def createGroup (m : MlsMember σ ρ Key Secret Digest) (made : Except String (σ × ρ)) :
    Except MlsError Unit × MlsMember σ ρ Key Secret Digest :=
  match m.group, made with
  | some _, _ => (.error (.mls "group already exists"), m)
  | none, .error e => (.error (.mls s!"creating group: {e}"), m)
  | none, .ok g => (.ok (), { m with group := some g })

def joinFromWelcome (m : MlsMember σ ρ Key Secret Digest) (staged : Except MlsError (σ × ρ)) :
    Except MlsError Unit × MlsMember σ ρ Key Secret Digest :=
  match m.group, staged with
  | some _, _ => (.error (.mls "already in a group"), m)
  | none, .error e => (.error e, m)
  | none, .ok g => (.ok (), { m with group := some g })

/-- `add_members`: `parsed` are the validated key packages, `made` what becomes of the commit that
adds them and of its Welcome. The secret of the epoch is retired before the commit is built. -/
def addMembers (m : MlsMember σ ρ Key Secret Digest) (parsed : Except MlsError (List (Leaf Cred Key)))
    (made : List (Leaf Cred Key) → Except String (Staged Cred Key × Except String Wire)) :
    Except MlsError (Option Wire) × MlsMember σ ρ Key Secret Digest :=
  match parsed with
  | .error e => (.error e, m)
  | .ok [] => (.ok none, m)
  | .ok leaves =>
    match m.group with
    | none => (.error .noGroup, m)
    | some g =>
      let retired := m.retireExporter O g.1
      match made leaves with
      | .error e => (.error (.mls s!"adding members: {e}"), retired)
      | .ok (staged, welcome) =>
        let merged := { retired with group := some (O.merge g.1 staged) }
        match welcome with
        | .error e => (.error (.wire s!"serializing welcome: {e}"), merged)
        | .ok wire => (.ok (some wire), merged)

/-- `restore_member` where the commit it built is not merged: the slot is armed and the secret
retired by then. -/
def restoreUnmerged (m : MlsMember σ ρ Key Secret Digest) (member : String) (leaf : Leaf Cred Key)
    (built : Except String (Wire × Staged Cred Key × ρ)) : MlsMember σ ρ Key Secret Digest :=
  match m.restoreMember O member leaf built, m.group, built with
  | .ok _, some g, .ok (wire, _, pending) =>
    let armed : MlsMember σ ρ Key Secret Digest := { m with
      prior := some ⟨O.epoch g.1, (g.1, pending), O.sha256 wire, [member], m.name⟩
      group := some (g.1, pending) }
    armed.retireExporter O g.1
  | _, _, _ => m

/-- `decrypt` where the commit the frame carries is not merged: on the own group the slot is armed
by then, a race is undone. -/
def decryptUnmerged (m : MlsMember σ ρ Key Secret Digest) (wire : Wire) : MlsMember σ ρ Key Secret Digest :=
  match O.parse wire, m.group with
  | .ok (.message epoch commit), some g =>
    if O.epoch g.1 < epoch ∨ (m.prior.any fun ours => decide (epoch = ours.epoch) && commit) = true then m
    else
      match O.read m.name m.rosterKeys g wire with
      | (.ok (sender, .commit staged), spent) => { m with
          prior := some ⟨O.epoch g.1, (g.1, spent), O.sha256 wire, O.removed g.1 staged, sender⟩
          group := some (g.1, spent) }
      | (_, spent) => { m with group := some (g.1, spent) }
  | _, _ => m

end MlsMember

structure MlsSnapshot (σ ρ Secret Digest : Type) where
  name : String
  group : σ × ρ
  exporterRing : List Secret
  exporterRingEpochs : List ℕ
  prior : Option (PriorSlot σ ρ Digest)

def MlsMember.snapshot (m : MlsMember σ ρ Key Secret Digest) : Except MlsError (MlsSnapshot σ ρ Secret Digest) :=
  match m.group with
  | none => .error .noGroup
  | some g => .ok ⟨m.name, g, m.exporterRing, m.exporterRingEpochs, m.prior⟩

def MlsSnapshot.restore (s : MlsSnapshot σ ρ Secret Digest) : MlsMember σ ρ Key Secret Digest :=
  ⟨s.name, some s.group, s.prior, none, s.exporterRing, s.exporterRingEpochs⟩

inductive MlsStep (σ ρ Wire Cred Key : Type) where
  | createGroup (made : Except String (σ × ρ))
  | joinFromWelcome (staged : Except MlsError (σ × ρ))
  | setRosterKeys (roster : String → Option Key)
  | addMembers (parsed : Except MlsError (List (Leaf Cred Key)))
      (made : List (Leaf Cred Key) → Except String (Staged Cred Key × Except String Wire))
  | restoreMember (member : String) (leaf : Leaf Cred Key) (built : Except String (Wire × Staged Cred Key × ρ))
  | restoreUnmerged (member : String) (leaf : Leaf Cred Key) (built : Except String (Wire × Staged Cred Key × ρ))
  | decrypt (wire : Wire)
  | decryptUnmerged (wire : Wire)
  | reopen

abbrev Travelled (σ ρ Key Secret Digest : Type) := MlsMember σ ρ Key Secret Digest × List σ

def leftBehind (m m' : MlsMember σ ρ Key Secret Digest) (past : List σ) : List σ :=
  match m.group, m'.group with
  | some g, some g' => if O.epoch g'.1 = O.epoch g.1 then past else g.1 :: past
  | _, _ => past

/-- The states behind a member once a frame is read: a race won leads on from the state before
the commit that lost. -/
def behindFrame (m : MlsMember σ ρ Key Secret Digest) (past : List σ) (reply : Except MlsError MlsIncoming) : List σ :=
  match reply with
  | .ok (.commit _) => (m.group.map Prod.fst).toList ++ past
  | .ok (.commitRewound _) =>
    match m.prior with
    | some ours => ours.snapshot.1 :: past.filter fun p => O.epoch p < ours.epoch
    | none => past
  | _ => past

variable [LinearOrder Digest]

def MlsStep.take (t : Travelled σ ρ Key Secret Digest) : MlsStep σ ρ Wire Cred Key → Travelled σ ρ Key Secret Digest
  | createGroup made => ((t.1.createGroup made).2, t.2)
  | joinFromWelcome staged => ((t.1.joinFromWelcome staged).2, t.2)
  | setRosterKeys roster => ({ t.1 with rosterKeys := some roster }, t.2)
  | addMembers parsed made =>
    let m := (t.1.addMembers O parsed made).2
    (m, leftBehind O t.1 m t.2)
  | restoreMember member leaf built =>
    match t.1.restoreMember O member leaf built with
    | .error _ => t
    | .ok (_, m) => (m, leftBehind O t.1 m t.2)
  | restoreUnmerged member leaf built => (t.1.restoreUnmerged O member leaf built, t.2)
  | decrypt wire => ((t.1.decrypt O wire).2, behindFrame O t.1 t.2 (t.1.decrypt O wire).1)
  | decryptUnmerged wire => (t.1.decryptUnmerged O wire, t.2)
  | reopen =>
    match t.1.snapshot with
    | .error _ => t
    | .ok s => (s.restore, t.2)

def life (t : Travelled σ ρ Key Secret Digest) (steps : List (MlsStep σ ρ Wire Cred Key)) :
    Travelled σ ρ Key Secret Digest := steps.foldl (MlsStep.take O) t

def branch (t : Travelled σ ρ Key Secret Digest) : List σ := (t.1.group.map Prod.fst).toList ++ t.2

def MlsMember.Roomy (m : MlsMember σ ρ Key Secret Digest) : Prop :=
  ∀ g, m.group = some g → m.exporterRing.length < exporterRingK ∨ m.exporterRing.head? = O.exporter g.1

def Beats (ours : PriorSlot σ ρ Digest) (wire : Wire) (sender : String) (staged : Staged Cred Key) : Prop :=
  MlsMember.theirsWin ours
    ⟨ours.epoch, ours.snapshot, O.sha256 wire, O.removed ours.snapshot.1 staged, sender⟩
    (decide (O.sha256 wire < ours.key)) = true

def Stays (g : σ) (staged : Staged Cred Key) : Prop := (O.exporter (O.merge g staged).1).isSome

/-- The step loses nothing of the ring: a failure finds room for the secret it retires, and no
commit wins a race over a slot that an add has left behind. -/
def MlsStep.Spares (m : MlsMember σ ρ Key Secret Digest) : MlsStep σ ρ Wire Cred Key → Prop
  | createGroup made => ∀ g, made = .ok g → (O.exporter g.1).isSome
  | joinFromWelcome staged => ∀ g, staged = .ok g → (O.exporter g.1).isSome
  | addMembers parsed made => ∀ g leaves, m.group = some g → parsed = .ok leaves → leaves ≠ [] →
      (∀ e, made leaves = .error e → m.Roomy O) ∧
      ∀ staged welcome, made leaves = .ok (staged, welcome) → Stays O g.1 staged
  | restoreMember _ _ built => ∀ g wire staged pending, m.group = some g → built = .ok (wire, staged, pending) →
      Stays O g.1 staged
  | restoreUnmerged member leaf built => (∃ out, m.restoreMember O member leaf built = .ok out) → m.Roomy O
  | decrypt wire =>
      (∀ g sender staged, m.group = some g →
        (O.read m.name m.rosterKeys g wire).1 = .ok (sender, .commit staged) → Stays O g.1 staged) ∧
      ∀ ours sender staged, m.prior = some ours →
        (O.read m.name m.rosterKeys ours.snapshot wire).1 = .ok (sender, .commit staged) →
        Beats O ours wire sender staged →
        Stays O ours.snapshot.1 staged ∧ ∀ label ∈ m.exporterRingEpochs, label ≤ ours.epoch
  | _ => True

def Careful (t : Travelled σ ρ Key Secret Digest) : List (MlsStep σ ρ Wire Cred Key) → Prop
  | [] => True
  | step :: rest => step.Spares O t.1 ∧ Careful (step.take O t) rest

def Holding (m : MlsMember σ ρ Key Secret Digest) (held : List σ) : Prop :=
  m.exporterRing.map some = held.map O.exporter ∧ m.exporterRingEpochs = held.map O.epoch

/-- The ring holds the newest states behind the member; behind a failure the current one too, and
then it holds all of them. -/
structure Tracks (t : Travelled σ ρ Key Secret Digest) : Prop where
  started : t.1.group = none → t.2 = []
  descending : (branch t).Pairwise fun a b => O.epoch b < O.epoch a
  exports : ∀ p ∈ branch t, (O.exporter p).isSome
  held : ∃ held, (held = t.2.take exporterRingK ∨ held = branch t ∧ held.length ≤ exporterRingK) ∧
    Holding O t.1 held
  slot : ∀ ours, t.1.prior = some ours → ours.snapshot.1 ∈ branch t ∧ ours.epoch = O.epoch ours.snapshot.1

variable {O} {m m' : MlsMember σ ρ Key Secret Digest} {past : List σ} {g : σ × ρ}

theorem branch_some (h : m.group = some g) : branch (m, past) = g.1 :: past := by
  unfold branch
  rw [h]
  rfl

variable {held : List σ}

theorem Holding.length (h : Holding O m held) : m.exporterRing.length = held.length := by
  have hlen := congrArg List.length h.1
  rwa [length_map, length_map] at hlen

theorem Holding.head? (h : Holding O m held) :
    m.exporterRing.head?.map some = held.head?.map O.exporter := by
  rw [← head?_map, ← head?_map, h.1]

variable {p : σ}

theorem Holding.retire_again (h : Holding O m held) (hp : held.head? = some p) :
    m.retireExporter O p = m := by
  have hhead := h.head?
  rw [hp] at hhead
  unfold MlsMember.retireExporter
  cases hsecret : O.exporter p with
  | none => rfl
  | some secret =>
    rw [map_some, hsecret] at hhead
    obtain ⟨s, hs, heq⟩ := map_eq_some_iff.mp hhead
    cases heq
    exact if_pos hs

theorem Holding.retire
    (hdiffer : ∀ a b s, O.exporter a = some s → O.exporter b = some s → O.epoch a = O.epoch b)
    (h : Holding O m held) (hp : (O.exporter p).isSome)
    (hnew : ∀ q, held.head? = some q → O.epoch q ≠ O.epoch p) :
    Holding O (m.retireExporter O p) ((p :: held).take exporterRingK) := by
  obtain ⟨secret, hsecret⟩ := isSome_iff_exists.mp hp
  have hhead := h.head?
  have hother : m.exporterRing.head? ≠ some secret := by
    intro heq
    rw [heq, map_some] at hhead
    obtain ⟨q, hq, hexp⟩ := map_eq_some_iff.mp hhead.symm
    exact hnew q hq (hdiffer q p secret hexp hsecret)
  unfold MlsMember.retireExporter
  rw [hsecret]
  dsimp only
  rw [if_neg hother]
  constructor
  · show ((secret :: m.exporterRing).take exporterRingK).map some = _
    rw [map_take, map_cons, h.1, map_take, map_cons, hsecret]
  · show (O.epoch p :: m.exporterRingEpochs).take exporterRingK = _
    rw [h.2, map_take, map_cons]

theorem retireExporter_same (O : OpenMls σ ρ Wire Cred Key Secret Digest) (m : MlsMember σ ρ Key Secret Digest)
    (p : σ) :
    (m.retireExporter O p).group = m.group ∧ (m.retireExporter O p).prior = m.prior := by
  unfold MlsMember.retireExporter
  split
  · exact ⟨rfl, rfl⟩
  · split_ifs
    · exact ⟨rfl, rfl⟩
    · exact ⟨rfl, rfl⟩

theorem retireExporter_ring (O : OpenMls σ ρ Wire Cred Key Secret Digest) {m m' : MlsMember σ ρ Key Secret Digest}
    (p : σ) (hring : m.exporterRing = m'.exporterRing) (hepochs : m.exporterRingEpochs = m'.exporterRingEpochs) :
    (m.retireExporter O p).exporterRing = (m'.retireExporter O p).exporterRing ∧
      (m.retireExporter O p).exporterRingEpochs = (m'.retireExporter O p).exporterRingEpochs := by
  unfold MlsMember.retireExporter
  rw [hring, hepochs]
  split
  · exact ⟨hring, hepochs⟩
  · split_ifs
    · exact ⟨hring, hepochs⟩
    · exact ⟨rfl, rfl⟩

theorem Tracks.label_le (h : Tracks O (m, past)) (hg : m.group = some g) :
    ∀ label ∈ m.exporterRingEpochs, label ≤ O.epoch g.1 := by
  obtain ⟨held, hcase, hheld⟩ := h.held
  have hdesc := h.descending
  rw [branch_some hg] at hdesc
  have hle : ∀ p ∈ g.1 :: past, O.epoch p ≤ O.epoch g.1 := by
    intro p hp
    rcases mem_cons.mp hp with rfl | hp
    · exact le_rfl
    · exact (rel_of_pairwise_cons hdesc hp).le
  intro label hlabel
  rw [hheld.2] at hlabel
  obtain ⟨p, hp, rfl⟩ := mem_map.mp hlabel
  refine hle p ?_
  rcases hcase with rfl | ⟨rfl, -⟩
  · exact mem_cons_of_mem _ (mem_of_mem_take hp)
  · rwa [branch_some hg] at hp

theorem take_cons_take {α : Type} (a : α) (l : List α) : (a :: l.take exporterRingK).take exporterRingK =
    (a :: l).take exporterRingK := by
  show a :: (l.take exporterRingK).take 7 = a :: l.take 7
  rw [take_take]
  rfl

theorem Tracks.lead (hdiffer : ∀ a b s, O.exporter a = some s → O.exporter b = some s → O.epoch a = O.epoch b)
    (h : Tracks O (m, past)) (hg : m.group = some g) {ahead behind : List σ}
    (hsplit : g.1 :: past = ahead ++ p :: behind)
    (hlabels : ∀ label ∈ m.exporterRingEpochs, label ≤ O.epoch p) {g' : σ × ρ} (hgroup : m'.group = some g')
    (hring : m'.exporterRing = (m.retireExporter O p).exporterRing)
    (hepochs : m'.exporterRingEpochs = (m.retireExporter O p).exporterRingEpochs)
    (hepoch : O.epoch p < O.epoch g'.1) (hstays : (O.exporter g'.1).isSome)
    (hslot : ∀ ours, m'.prior = some ours → ours.snapshot.1 ∈ g'.1 :: p :: behind ∧ ours.epoch = O.epoch ours.snapshot.1) :
    Tracks O (m', p :: behind) := by
  have hbranch : branch (m, past) = g.1 :: past := branch_some hg
  have hdesc := h.descending
  have hexports := h.exports
  rw [hbranch, hsplit] at hdesc hexports
  have hbehind := (pairwise_append.mp hdesc).2.1
  have hp : (O.exporter p).isSome := hexports p (mem_append_right _ mem_cons_self)
  have hnext : ∀ held, Holding O (m.retireExporter O p) held → Holding O m' held := fun held hheld =>
    ⟨hring ▸ hheld.1, hepochs ▸ hheld.2⟩
  refine ⟨fun hnone => absurd (hgroup.symm.trans hnone) nofun, ?_, ?_, ?_, ?_⟩
  · rw [branch_some hgroup, pairwise_cons]
    refine ⟨fun q hq => ?_, hbehind⟩
    rcases mem_cons.mp hq with rfl | hq
    · exact hepoch
    · exact (rel_of_pairwise_cons hbehind hq).trans hepoch
  · rw [branch_some hgroup]
    exact forall_mem_cons.mpr ⟨hstays, fun q hq => hexports q (mem_append_right _ hq)⟩
  · refine ⟨(p :: behind).take exporterRingK, .inl rfl, hnext _ ?_⟩
    obtain ⟨held, hcase, hheld⟩ := h.held
    cases ahead with
    | nil =>
      obtain ⟨rfl, rfl⟩ := List.cons.inj hsplit
      rcases hcase with rfl | ⟨rfl, hroom⟩
      · have hretired := hheld.retire hdiffer hp fun q hq heq => by
          have hmem : q ∈ past := mem_of_mem_take (mem_of_mem_head? hq)
          exact absurd heq (rel_of_pairwise_cons hbehind hmem).ne
        rwa [take_cons_take] at hretired
      · rw [hbranch] at hroom hheld
        rw [hheld.retire_again rfl, take_of_length_le hroom]
        exact hheld
    | cons q ahead =>
      obtain ⟨rfl, hpast⟩ := List.cons.inj hsplit
      change past = ahead ++ p :: behind at hpast
      -- the slot is behind the current state: the ring stops at it
      have hlater : O.epoch p < O.epoch g.1 :=
        (pairwise_append.mp hdesc).2.2 g.1 mem_cons_self p mem_cons_self
      rcases hcase with rfl | ⟨rfl, -⟩
      · cases ahead with
        | nil =>
          rw [nil_append] at hpast
          rw [hpast] at hheld
          rw [hheld.retire_again rfl]
          exact hheld
        | cons r ahead =>
          have hr : O.epoch p < O.epoch r := (pairwise_append.mp hdesc).2.2 r
            (.tail _ mem_cons_self) p mem_cons_self
          have hlabel := hlabels (O.epoch r) (by
            rw [hheld.2, hpast]
            exact mem_map_of_mem mem_cons_self)
          exact absurd hlabel (Nat.not_le.mpr hr)
      · have hlabel := hlabels (O.epoch g.1) (by
          rw [hheld.2, hbranch]
          exact mem_map_of_mem mem_cons_self)
        exact absurd hlabel (Nat.not_le.mpr hlater)
  · rw [branch_some hgroup]
    exact hslot

theorem Tracks.same (h : Tracks O (m, past)) (hgroup : m'.group.map Prod.fst = m.group.map Prod.fst)
    (hring : m'.exporterRing = m.exporterRing) (hepochs : m'.exporterRingEpochs = m.exporterRingEpochs)
    (hslot : ∀ ours, m'.prior = some ours → ours.snapshot.1 ∈ branch (m, past) ∧ ours.epoch = O.epoch ours.snapshot.1) :
    Tracks O (m', past) := by
  have hbranch : branch (m', past) = branch (m, past) := congrArg (fun o => o.toList ++ past) hgroup
  obtain ⟨held, hcase, hheld⟩ := h.held
  refine ⟨fun hnone => h.started ?_, hbranch ▸ h.descending, hbranch ▸ h.exports, ⟨held, hbranch ▸ hcase, ?_⟩,
    hbranch ▸ hslot⟩
  · rw [hnone] at hgroup
    exact map_eq_none_iff.mp hgroup.symm
  · exact ⟨hring ▸ hheld.1, hepochs ▸ hheld.2⟩

theorem Tracks.unmoved (h : Tracks O (m, past)) (hsame : m.Unmoved m') : Tracks O (m', past) :=
  h.same hsame.group hsame.exporterRing hsame.exporterRingEpochs fun ours hours => h.slot ours (hsame.prior ▸ hours)

theorem Tracks.current_mem (hg : m.group = some g) : g.1 ∈ branch (m, past) := by
  rw [branch_some hg]
  exact mem_cons_self

theorem Tracks.failed (hdiffer : ∀ a b s, O.exporter a = some s → O.exporter b = some s → O.epoch a = O.epoch b)
    (h : Tracks O (m, past)) (hg : m.group = some g) (hroomy : m.Roomy O) :
    Tracks O (m.retireExporter O g.1, past) := by
  have hbranch : branch (m, past) = g.1 :: past := branch_some hg
  have hdesc := h.descending
  rw [hbranch] at hdesc
  have hexport := h.exports g.1 (Tracks.current_mem hg)
  obtain ⟨held, hcase, hheld⟩ := h.held
  have hsame := retireExporter_same O m g.1
  have hbranch' : branch (m.retireExporter O g.1, past) = g.1 :: past := branch_some (hsame.1.trans hg)
  suffices hgoal : Holding O (m.retireExporter O g.1) (g.1 :: past) ∧ (g.1 :: past).length ≤ exporterRingK by
    refine ⟨fun hnone => h.started (hsame.1 ▸ hnone), ?_, ?_, ⟨_, .inr ⟨rfl, ?_⟩, ?_⟩, ?_⟩
    · rwa [hbranch']
    · rw [hbranch', ← hbranch]
      exact h.exports
    · rw [hbranch']
      exact hgoal.2
    · rw [hbranch']
      exact hgoal.1
    · intro ours hours
      rw [hbranch', ← hbranch]
      exact h.slot ours (hsame.2 ▸ hours)
  rcases hcase with rfl | ⟨rfl, hroom⟩
  · have hnew : ∀ q, (past.take exporterRingK).head? = some q → O.epoch q ≠ O.epoch g.1 := by
      intro q hq
      have hmem : q ∈ past := mem_of_mem_take (mem_of_mem_head? hq)
      exact (rel_of_pairwise_cons hdesc hmem).ne
    have hretired := hheld.retire hdiffer hexport hnew
    rw [take_cons_take] at hretired
    rcases hroomy g hg with hlen | hhead
    · have hshort : past.length < exporterRingK := by
        rw [hheld.length, length_take] at hlen
        change min exporterRingK past.length < exporterRingK at hlen
        omega
      rw [take_of_length_le (succ_le_of_lt hshort)] at hretired
      exact ⟨hretired, succ_le_of_lt hshort⟩
    · -- the head is the secret of an older epoch
      obtain ⟨secret, hsecret⟩ := isSome_iff_exists.mp hexport
      have hheads := hheld.head?
      rw [hhead, hsecret, map_some] at hheads
      obtain ⟨q, hq, hexp⟩ := map_eq_some_iff.mp hheads.symm
      exact absurd (hdiffer q g.1 secret hexp hsecret) (hnew q hq)
  · rw [hbranch] at hroom hheld
    rw [hheld.retire_again rfl]
    exact ⟨hheld, hroom⟩

theorem Tracks.merge
    (hdiffer : ∀ a b s, O.exporter a = some s → O.exporter b = some s → O.epoch a = O.epoch b)
    (hmerge : ∀ g staged, O.epoch (O.merge g staged).1 = O.epoch g + 1) (h : Tracks O (m, past))
    (hg : m.group = some g) {ahead behind : List σ} (hsplit : g.1 :: past = ahead ++ p :: behind)
    (hlabels : ∀ label ∈ m.exporterRingEpochs, label ≤ O.epoch p) (base : MlsMember σ ρ Key Secret Digest)
    (hring : base.exporterRing = m.exporterRing) (hepochs : base.exporterRingEpochs = m.exporterRingEpochs)
    {staged : Staged Cred Key} (hstays : Stays O p staged) (kept : ρ) (wire : Wire) (committer : String)
    (removed : List String) :
    Tracks O (base.mergeCommit O (p, kept) wire committer removed staged, p :: behind) := by
  have hsame := retireExporter_same O { base with
    prior := some ⟨O.epoch p, (p, kept), O.sha256 wire, removed, committer⟩
    group := some (O.merge p staged) } p
  have hrings := retireExporter_ring O p (m := { base with
    prior := some ⟨O.epoch p, (p, kept), O.sha256 wire, removed, committer⟩
    group := some (O.merge p staged) }) hring hepochs
  refine h.lead hdiffer hg hsplit hlabels hsame.1 hrings.1 hrings.2 ?_ hstays ?_
  · rw [hmerge]
    exact lt_succ_self _
  · intro ours hours
    cases hsame.2.symm.trans hours
    exact ⟨.tail _ mem_cons_self, rfl⟩

/-- What reading a frame makes of a member: a commit merged on its own state, one that wins over
the commit merged on the slot's state, or nothing but spent keys. -/
inductive Reads (O : OpenMls σ ρ Wire Cred Key Secret Digest) (m : MlsMember σ ρ Key Secret Digest) (wire : Wire) :
    Except MlsError MlsIncoming × MlsMember σ ρ Key Secret Digest → Prop where
  | unmoved {reply m'} (same : m.Unmoved m') (commit : ∀ readmitted, reply ≠ .ok (.commit readmitted))
      (rewound : ∀ readmitted, reply ≠ .ok (.commitRewound readmitted)) : Reads O m wire (reply, m')
  | commit {g spent sender staged} (group : m.group = some g)
      (read : O.read m.name m.rosterKeys g wire = (.ok (sender, .commit staged), spent)) :
      Reads O m wire (.ok (.commit (O.readmitted staged)),
        m.mergeCommit O (g.1, spent) wire sender (O.removed g.1 staged) staged)
  | rewound {g ours spent sender staged} (group : m.group = some g) (prior : m.prior = some ours)
      (read : O.read m.name m.rosterKeys ours.snapshot wire = (.ok (sender, .commit staged), spent))
      (beats : Beats O ours wire sender staged) :
      Reads O m wire (.ok (.commitRewound (O.readmitted staged)),
        ({ m with prior := none, group := some ours.snapshot } : MlsMember σ ρ Key Secret Digest).mergeCommit O
          (ours.snapshot.1, spent) wire sender (O.removed ours.snapshot.1 staged) staged)

variable {wire : Wire}

theorem reads_readFrame (hg : m.group = some g) : Reads O m wire (m.readFrame O g wire) := by
  unfold MlsMember.readFrame
  rcases hread : O.read m.name m.rosterKeys g wire with ⟨_ | ⟨sender, _ | staged | _ | _⟩, spent⟩
  · exact .unmoved (MlsMember.unmoved_spent hg _) nofun nofun
  · exact .unmoved (MlsMember.unmoved_spent hg _) nofun nofun
  · exact .commit hg hread
  all_goals exact .unmoved (MlsMember.unmoved_spent hg _) nofun nofun

theorem reads_decryptWith
    {race : PriorSlot σ ρ Digest → Except MlsError MlsIncoming × MlsMember σ ρ Key Secret Digest}
    (hrace : ∀ g ours, m.group = some g → m.prior = some ours → Reads O m wire (race ours)) :
    Reads O m wire (m.decryptWith O race wire) := by
  unfold MlsMember.decryptWith
  rcases O.parse wire with _ | ⟨epoch, commit⟩ | _
  · exact .unmoved (MlsMember.Unmoved.refl m) (fun _ h => by cases h) fun _ h => by cases h
  · rcases hg : m.group with _ | g
    · exact .unmoved (MlsMember.Unmoved.refl m) (fun _ h => by cases h) fun _ h => by cases h
    · simp only
      split_ifs
      · exact .unmoved (MlsMember.Unmoved.refl m) (fun _ h => by cases h) fun _ h => by cases h
      · rcases hprior : m.prior with _ | ours
        · exact reads_readFrame hg
        · simp only
          split_ifs
          · exact hrace g ours hg hprior
          · exact reads_readFrame hg
  · exact .unmoved (MlsMember.Unmoved.refl m) (fun _ h => by cases h) fun _ h => by cases h

theorem mergeCommit_prior (O : OpenMls σ ρ Wire Cred Key Secret Digest) (m : MlsMember σ ρ Key Secret Digest)
    (g : σ × ρ) (wire : Wire) (committer : String) (removed : List String) (staged : Staged Cred Key) :
    (m.mergeCommit O g wire committer removed staged).prior =
      some ⟨O.epoch g.1, g, O.sha256 wire, removed, committer⟩ :=
  (retireExporter_same O _ g.1).2

theorem reads_contest {ours : PriorSlot σ ρ Digest} (hg : m.group = some g) (hprior : m.prior = some ours)
    (hepoch : ours.epoch = O.epoch ours.snapshot.1) :
    Reads O m wire (m.contest O ours wire (decide (O.sha256 wire < ours.key))) := by
  have hundone : ∀ {reply : Except MlsError MlsIncoming}, (∀ readmitted, reply ≠ .ok (.commit readmitted)) →
      (∀ readmitted, reply ≠ .ok (.commitRewound readmitted)) → Reads O m wire (reply, m) := fun h h' =>
    .unmoved (MlsMember.Unmoved.refl m) h h'
  unfold MlsMember.contest
  have htried : Reads O { m with prior := none, group := some ours.snapshot } wire (MlsMember.decryptWith O
      (fun _ => (.error .noGroup, { m with prior := none, group := some ours.snapshot }))
      { m with prior := none, group := some ours.snapshot } wire) := reads_decryptWith nofun
  dsimp only at htried ⊢
  generalize MlsMember.decryptWith O _ _ wire = tried at htried ⊢
  cases htried with
  | unmoved same commit rewound =>
    split
    · exact absurd ‹_› (commit _)
    · exact absurd ‹_› (commit _)
    · split_ifs
      all_goals exact hundone nofun nofun
    · split_ifs
      all_goals exact hundone nofun nofun
  | rewound group prior => cases prior
  | commit group read =>
    cases group
    rw [mergeCommit_prior]
    dsimp only
    split_ifs with hwin
    · refine .rewound hg hprior read ?_
      unfold Beats
      rw [hepoch]
      exact hwin
    · exact hundone nofun nofun

theorem reads_decrypt (hslot : ∀ ours, m.prior = some ours → ours.epoch = O.epoch ours.snapshot.1) :
    Reads O m wire (m.decrypt O wire) := by
  refine reads_decryptWith fun g ours hg hprior => ?_
  split_ifs
  · exact .unmoved (MlsMember.Unmoved.refl m) (fun _ h => by cases h) fun _ h => by cases h
  · exact reads_contest hg hprior (hslot ours hprior)

theorem filter_behind {l ahead behind : List σ} (hdesc : l.Pairwise fun a b => O.epoch b < O.epoch a)
    (hsplit : l = ahead ++ p :: behind) : (l.filter fun q => O.epoch q < O.epoch p) = behind := by
  subst hsplit
  have hparts := pairwise_append.mp hdesc
  have hahead : (ahead.filter fun q => O.epoch q < O.epoch p) = [] := by
    rw [filter_eq_nil_iff]
    intro q hq
    have hlater := hparts.2.2 q hq p mem_cons_self
    simpa using hlater.le
  have hbehind : (behind.filter fun q => O.epoch q < O.epoch p) = behind := by
    rw [filter_eq_self]
    intro q hq
    simpa using rel_of_pairwise_cons hparts.2.1 hq
  rw [filter_append, filter_cons, hahead, hbehind]
  simp

theorem restoreMember_group {member : String} {leaf : Leaf Cred Key}
    {built : Except String (Wire × Staged Cred Key × ρ)} {out : Wire × MlsMember σ ρ Key Secret Digest}
    (h : m.restoreMember O member leaf built = .ok out) :
    ∃ g wire staged pending, m.group = some g ∧ built = .ok (wire, staged, pending) := by
  unfold MlsMember.restoreMember at h
  dsimp only at h
  split_ifs at h
  rcases hg : m.group with _ | g
  · rw [hg] at h
    cases h
  · rw [hg] at h
    dsimp only at h
    split at h
    · cases h
    · rcases built with e | ⟨wire, staged, pending⟩
      · cases h
      · exact ⟨g, wire, staged, pending, rfl, rfl⟩

theorem Tracks.enter (h : Tracks O (m, past)) (hg : m.group = none) (hexport : (O.exporter g.1).isSome) :
    Tracks O ({ m with group := some g }, past) := by
  obtain rfl : past = [] := h.started hg
  have hbranch : branch (m, ([] : List σ)) = [] := by
    unfold branch
    rw [hg]
    rfl
  have hentered : branch (({ m with group := some g } : MlsMember σ ρ Key Secret Digest), ([] : List σ)) = [g.1] :=
    branch_some rfl
  obtain ⟨held, hcase, hheld⟩ := h.held
  rw [hbranch] at hcase
  refine ⟨nofun, ?_, ?_, ⟨[], .inl rfl, ?_⟩, ?_⟩
  · rw [hentered]
    exact pairwise_singleton _ _
  · rw [hentered]
    intro p hp
    rwa [mem_singleton.mp hp]
  · rcases hcase with rfl | ⟨rfl, -⟩
    · exact hheld
    · exact hheld
  · intro ours hours
    have hmem := (h.slot ours hours).1
    rw [hbranch] at hmem
    cases hmem

theorem Tracks.restoreUnmerged
    (hdiffer : ∀ a b s, O.exporter a = some s → O.exporter b = some s → O.epoch a = O.epoch b) (h : Tracks O (m, past))
    {member : String} {leaf : Leaf Cred Key} {built : Except String (Wire × Staged Cred Key × ρ)}
    (hspares : (MlsStep.restoreUnmerged member leaf built : MlsStep σ ρ Wire Cred Key).Spares O m) :
    Tracks O (m.restoreUnmerged O member leaf built, past) := by
  unfold MlsMember.restoreUnmerged
  split
  · rename_i out g wire staged pending hg hrestored
    have harmed : Tracks O (({ m with
        prior := some ⟨O.epoch g.1, (g.1, pending), O.sha256 wire, [member], m.name⟩
        group := some (g.1, pending) } : MlsMember σ ρ Key Secret Digest), past) := by
      refine h.same (congrArg (Option.map Prod.fst) hg).symm rfl rfl ?_
      intro ours hours
      have hcurrent : g.1 ∈ branch (m, past) := Tracks.current_mem hg
      cases hours
      exact ⟨hcurrent, rfl⟩
    refine harmed.failed hdiffer (g := (g.1, pending)) rfl ?_
    intro g' hg'
    cases hg'
    exact hspares ⟨out, hrestored⟩ g hg
  · exact h

theorem Tracks.decryptUnmerged (h : Tracks O (m, past)) :
    Tracks O (m.decryptUnmerged O wire, past) := by
  unfold MlsMember.decryptUnmerged
  split
  · rename_i epoch commit g hframe hg
    split_ifs
    · exact h
    · split
      · refine h.same (congrArg (Option.map Prod.fst) hg).symm rfl rfl ?_
        intro ours hours
        have hcurrent : g.1 ∈ branch (m, past) := Tracks.current_mem hg
        cases hours
        exact ⟨hcurrent, rfl⟩
      · exact h.unmoved (MlsMember.unmoved_spent hg _)
  · exact h

theorem Holding.zip (h : Holding O m held) : ∀ e ∈ m.exporterRingEpochs.zip m.exporterRing,
    ∃ p ∈ held, O.epoch p = e.1 ∧ O.exporter p = some e.2 := by
  have hpairs : (m.exporterRingEpochs.zip m.exporterRing).map (Prod.map id some) =
      held.map fun p => (O.epoch p, O.exporter p) := by
    rw [← zip_map_right, h.1, h.2]
    exact zip_map' ..
  intro e he
  have hmem := mem_map_of_mem (f := Prod.map id some) he
  rw [hpairs] at hmem
  obtain ⟨p, hp, heq⟩ := mem_map.mp hmem
  obtain ⟨hepoch, hexport⟩ := Prod.mk.inj heq
  exact ⟨p, hp, hepoch, hexport⟩

section
variable (hdiffer : ∀ a b s, O.exporter a = some s → O.exporter b = some s → O.epoch a = O.epoch b)
  (hmerge : ∀ g staged, O.epoch (O.merge g staged).1 = O.epoch g + 1)
include hdiffer hmerge

theorem Tracks.decrypt (h : Tracks O (m, past)) {wire : Wire}
    (hspares : (MlsStep.decrypt wire : MlsStep σ ρ Wire Cred Key).Spares O m) :
    Tracks O ((MlsStep.decrypt wire : MlsStep σ ρ Wire Cred Key).take O (m, past)) := by
  show Tracks O ((m.decrypt O wire).2, behindFrame O m past (m.decrypt O wire).1)
  have hreads : Reads O m wire (m.decrypt O wire) := reads_decrypt fun ours hours => (h.slot ours hours).2
  generalize m.decrypt O wire = read at hreads ⊢
  cases hreads with
  | @unmoved reply m' same commit rewound =>
    have hbehind : behindFrame O m past reply = past := by
      unfold behindFrame
      split
      · exact absurd rfl (commit _)
      · exact absurd rfl (rewound _)
      · rfl
    rw [hbehind]
    exact h.unmoved same
  | @commit g spent sender staged group hread =>
    have hstays := hspares.1 g sender staged group (by rw [hread])
    have hmerged := h.merge hdiffer hmerge group (nil_append _).symm (h.label_le group) m rfl rfl hstays spent wire
      sender
      (O.removed g.1 staged)
    show Tracks O (_, (m.group.map Prod.fst).toList ++ past)
    rw [group]
    exact hmerged
  | @rewound g ours spent sender staged group prior hread beats =>
    obtain ⟨hmem, hepoch⟩ := h.slot ours prior
    rw [branch_some group] at hmem
    obtain ⟨ahead, behind, hsplit⟩ := append_of_mem hmem
    obtain ⟨hstays, hlabels⟩ := hspares.2 ours sender staged prior (by rw [hread]) beats
    have hmerged := h.merge hdiffer hmerge group hsplit (hepoch ▸ hlabels)
      { m with prior := none, group := some ours.snapshot } rfl rfl hstays spent wire sender
      (O.removed ours.snapshot.1 staged)
    have hdesc := h.descending
    rw [branch_some group] at hdesc
    have hbehind := filter_behind hdesc hsplit
    -- the current state is not behind the slot
    have hcurrent : ¬ O.epoch g.1 < O.epoch ours.snapshot.1 := by
      rcases mem_cons.mp hmem with heq | hin
      · rw [heq]
        exact lt_irrefl _
      · exact (rel_of_pairwise_cons hdesc hin).le.not_gt
    rw [filter_cons_of_neg (by simpa using hcurrent)] at hbehind
    unfold behindFrame
    rw [prior]
    dsimp only
    rw [hepoch, hbehind]
    exact hmerged

theorem Tracks.addMembers (h : Tracks O (m, past)) {parsed : Except MlsError (List (Leaf Cred Key))}
    {made : List (Leaf Cred Key) → Except String (Staged Cred Key × Except String Wire)}
    (hspares : (MlsStep.addMembers parsed made : MlsStep σ ρ Wire Cred Key).Spares O m) :
    Tracks O ((MlsStep.addMembers parsed made : MlsStep σ ρ Wire Cred Key).take O (m, past)) := by
  show Tracks O ((m.addMembers O parsed made).2, leftBehind O m (m.addMembers O parsed made).2 past)
  have hstill : leftBehind O m m past = past := by
    unfold leftBehind
    split
    · rename_i hg hg'
      cases hg.symm.trans hg'
      exact if_pos rfl
    · rfl
  unfold MlsMember.addMembers
  rcases parsed with e | _ | ⟨leaf, leaves⟩
  · dsimp only
    rwa [hstill]
  · dsimp only
    rwa [hstill]
  · rcases hg : m.group with _ | g
    · dsimp only
      rwa [hstill]
    · obtain ⟨hroomy, hstays⟩ := hspares g (leaf :: leaves) hg rfl (cons_ne_nil _ _)
      have hretired := retireExporter_same O m g.1
      rcases hmade : made (leaf :: leaves) with e | ⟨staged, welcome⟩
      · have hbehind : leftBehind O m (m.retireExporter O g.1) past = past := by
          unfold leftBehind
          rw [hretired.1, hg]
          exact if_pos rfl
        dsimp only
        rw [hmade]
        rw [hbehind]
        exact h.failed hdiffer hg (hroomy e hmade)
      · have hmerged : Tracks O ({ m.retireExporter O g.1 with group := some (O.merge g.1 staged) }, g.1 :: past) := by
          refine h.lead hdiffer hg (nil_append _).symm (h.label_le hg) rfl rfl rfl ?_
            (hstays staged welcome hmade) ?_
          · rw [hmerge]
            exact lt_succ_self _
          · intro ours hours
            obtain ⟨hmem, hepoch⟩ := h.slot ours (hretired.2.symm.trans hours)
            rw [branch_some hg] at hmem
            exact ⟨.tail _ hmem, hepoch⟩
        have hbehind : leftBehind O m { m.retireExporter O g.1 with group := some (O.merge g.1 staged) } past =
            g.1 :: past := by
          unfold leftBehind
          rw [hg]
          dsimp only
          rw [hmerge, if_neg (Nat.succ_ne_self _)]
        dsimp only
        rw [hmade]
        rcases welcome with e | wire
        · dsimp only
          rwa [hbehind]
        · dsimp only
          rwa [hbehind]

theorem Tracks.restoreMember (h : Tracks O (m, past)) {member : String} {leaf : Leaf Cred Key}
    {built : Except String (Wire × Staged Cred Key × ρ)}
    (hspares : (MlsStep.restoreMember member leaf built : MlsStep σ ρ Wire Cred Key).Spares O m) :
    Tracks O ((MlsStep.restoreMember member leaf built : MlsStep σ ρ Wire Cred Key).take O (m, past)) := by
  show Tracks O (match m.restoreMember O member leaf built with
    | .error _ => (m, past)
    | .ok (_, m') => (m', leftBehind O m m' past))
  rcases hrestored : m.restoreMember O member leaf built with e | ⟨wire', m'⟩
  · exact h
  · obtain ⟨g, wire, staged, pending, hg, rfl⟩ := restoreMember_group hrestored
    obtain rfl := restoreMember_eq_ok hg hrestored
    have hmerged := h.merge hdiffer hmerge hg (nil_append _).symm (h.label_le hg) m rfl rfl
      (hspares g wire staged pending hg rfl) pending wire m.name [member]
    have hgroup : (m.mergeCommit O (g.1, pending) wire m.name [member] staged).group = some (O.merge g.1 staged) :=
      (retireExporter_same O _ g.1).1
    dsimp only
    unfold leftBehind
    rw [hg, hgroup]
    dsimp only
    rw [hmerge, if_neg (Nat.succ_ne_self _)]
    exact hmerged

theorem Tracks.step {t : Travelled σ ρ Key Secret Digest} (h : Tracks O t) {step : MlsStep σ ρ Wire Cred Key}
    (hspares : step.Spares O t.1) : Tracks O (step.take O t) := by
  obtain ⟨m, past⟩ := t
  cases step with
  | createGroup made =>
    show Tracks O ((m.createGroup made).2, past)
    unfold MlsMember.createGroup
    rcases hg : m.group with _ | g
    · rcases made with e | made
      · exact h
      · exact h.enter hg (hspares made rfl)
    · exact h
  | joinFromWelcome staged =>
    show Tracks O ((m.joinFromWelcome staged).2, past)
    unfold MlsMember.joinFromWelcome
    rcases hg : m.group with _ | g
    · rcases staged with e | staged
      · exact h
      · exact h.enter hg (hspares staged rfl)
    · exact h
  | setRosterKeys roster => exact h.same rfl rfl rfl h.slot
  | addMembers parsed made => exact h.addMembers hdiffer hmerge hspares
  | restoreMember member leaf built => exact h.restoreMember hdiffer hmerge hspares
  | restoreUnmerged member leaf built => exact h.restoreUnmerged hdiffer hspares
  | decrypt wire => exact h.decrypt hdiffer hmerge hspares
  | decryptUnmerged wire => exact h.decryptUnmerged
  | reopen =>
    show Tracks O (match m.snapshot with
      | .error _ => (m, past)
      | .ok s => (s.restore, past))
    unfold MlsMember.snapshot
    rcases hg : m.group with _ | g
    · exact h
    · exact h.same (congrArg (Option.map Prod.fst) hg.symm) rfl rfl h.slot

theorem Tracks.life {t : Travelled σ ρ Key Secret Digest} (h : Tracks O t) (steps : List (MlsStep σ ρ Wire Cred Key))
    (hcareful : Careful O t steps) : Tracks O (life O t steps) := by
  induction steps generalizing t with
  | nil => exact h
  | cons step rest ih => exact ih (h.step hdiffer hmerge hcareful.1) hcareful.2

end

end

namespace Tagged

def rewound : List (MlsStep (List ℕ) Unit (ℕ × ℕ) String Unit) :=
  [.createGroup (.ok ([], ())), .decrypt (0, 5), .decrypt (0, 3),
    .addMembers (.ok [⟨"carol", ()⟩]) (fun _ => .error "no randomness"), .reopen, .decrypt (1, 7)]

/-- An add leaves the slot armed one epoch further back; a commit of that epoch wins over the one
merged there. -/
def overtaken : List (MlsStep (List ℕ) Unit (ℕ × ℕ) String Unit) :=
  [.createGroup (.ok ([], ())), .decrypt (0, 5),
    .addMembers (.ok [⟨"carol", ()⟩]) (fun _ => .ok (⟨[], [9], none, []⟩, .ok (1, 9))), .decrypt (0, 3)]

end Tagged

end Molt.Net.Mls
