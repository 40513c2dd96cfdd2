import Mathlib

/-! One member of the MLS group (`molt-net/mls.rs`) over an ideal OpenMLS: the frames `decrypt`
takes, the checks a commit passes before it is merged, the slot with the state before the last
merge, and the contest of two commits of one epoch. -/

namespace Molt.Net.Mls

structure Leaf (Cred Key : Type) where
  cred : Cred
  key : Key
  deriving DecidableEq

structure Staged (Cred Key : Type) where
  adds : List (Leaf Cred Key)
  removes : List Nat
  path : Option (Leaf Cred Key)
  updates : List (Option Nat × Leaf Cred Key)
  deriving DecidableEq

inductive Content (Cred Key : Type) where
  | application (plaintext : List UInt8)
  | commit (staged : Staged Cred Key)
  | proposal
  | externalJoin
  deriving DecidableEq

structure Processed (Cred Key : Type) where
  sender : Option Nat
  cred : Cred
  content : Content Cred Key

inductive ProcessFault where
  | secretReuse
  | tooDistantInThePast
  | tooDistantInTheFuture
  | generationOutOfBound
  | cannotDecryptOwnMessage
  | wrongEpoch
  | other (text : String)

inductive MlsError where
  | mls (text : String)
  | wire (text : String)
  | noGroup
  | stale (text : String)
  | ownEcho
  deriving DecidableEq

def classifyProcessError : ProcessFault → MlsError
  | .secretReuse => .stale "generation already spent"
  | .tooDistantInThePast => .stale "generation behind the window"
  | .tooDistantInTheFuture => .stale "generation ahead of the window"
  | .generationOutOfBound => .stale "generation out of bounds"
  | .cannotDecryptOwnMessage => .ownEcho
  | .wrongEpoch => .stale "past epoch"
  | .other text => .wire s!"processing message: {text}"

inductive Frame where
  | message (epoch : Nat) (commit : Bool)
  | other (text : String)

/-- OpenMLS as the code uses it. `σ` is the state of an epoch, which only a commit changes; `ρ`
is what a member keeps beside it, the spent ratchet keys and the proposals stored. -/
structure OpenMls (σ ρ Wire Cred Key Secret Digest : Type) where
  parse : Wire → Except String Frame
  epoch : σ → Nat
  members : σ → List (Nat × Leaf Cred Key)
  process : String → σ → ρ → Wire → Except ProcessFault (Processed Cred Key) × ρ
  store : ρ → Wire → ρ
  merge : σ → Staged Cred Key → σ × ρ
  exporter : σ → Option Secret
  /-- A credential's bytes as text, and back. -/
  name : Cred → String
  credential : String → Cred
  sha256 : Wire → Digest

/-- The epoch, the state before the merge, the key of the commit merged, the leaves it removed
and its committer. -/
structure PriorSlot (σ ρ Digest : Type) where
  epoch : Nat
  snapshot : σ × ρ
  key : Digest
  removed : List String
  committer : String

def exporterRingK : Nat := 8

structure MlsMember (σ ρ Key Secret Digest : Type) where
  name : String
  group : Option (σ × ρ)
  prior : Option (PriorSlot σ ρ Digest)
  rosterKeys : Option (String → Option Key)
  exporterRing : List Secret
  exporterRingEpochs : List Nat

inductive MlsIncoming where
  | application (sender : String) (plaintext : List UInt8)
  | commit (readmitted : List String)
  | commitRewound (readmitted : List String)
  | commitSuperseded
  | proposal
  | futureEpoch
  deriving DecidableEq

def MlsIncoming.debug : MlsIncoming → String
  | application sender plaintext => "Application \x7b from: " ++ sender.quote ++ ", plaintext: " ++
      toString plaintext ++ " \x7d"
  | commit readmitted => "Commit \x7b readmitted: " ++ toString (readmitted.map String.quote) ++ " \x7d"
  | commitRewound readmitted =>
    "CommitRewound \x7b readmitted: " ++ toString (readmitted.map String.quote) ++ " \x7d"
  | commitSuperseded => "CommitSuperseded"
  | proposal => "Proposal"
  | futureEpoch => "FutureEpoch"

section
variable {σ ρ Wire Cred Key Secret Digest : Type} [DecidableEq Cred] [DecidableEq Key] [DecidableEq Secret]
variable (O : OpenMls σ ρ Wire Cred Key Secret Digest)

namespace OpenMls

def memberAt (g : σ) (idx : Nat) : Option (Leaf Cred Key) :=
  (O.members g).find? (fun m => m.1 = idx) |>.map Prod.snd

def checkReplacement (g : σ) (roster : Option (String → Option Key)) (idx : Option Nat)
    (leaf : Leaf Cred Key) : Except MlsError Unit :=
  match idx.bind (O.memberAt g) with
  | none => .error (.wire "leaf update: no such sender leaf")
  | some old =>
    let name := O.name old.cred
    if leaf.cred ≠ old.cred then .error (.wire s!"leaf update: {name} renamed")
    else
      match roster with
      | none => .ok ()
      | some roster =>
        if roster name ≠ some leaf.key then .error (.wire s!"leaf update: {name} is not its anchored key")
        else .ok ()

def checkSender (g : σ) (roster : Option (String → Option Key)) (p : Processed Cred Key) :
    Except MlsError Unit :=
  match roster with
  | none => .ok ()
  | some roster =>
    match p.sender.bind (O.memberAt g) with
    | none => .error (.wire s!"sender {O.name p.cred} is not its anchored key")
    | some leaf =>
      if roster (O.name p.cred) ≠ some leaf.key then
        .error (.wire s!"sender {O.name p.cred} is not its anchored key")
      else .ok ()

def checkAdds (roster : Option (String → Option Key)) (adds : List (Leaf Cred Key)) : Except MlsError Unit :=
  match roster with
  | none => .ok ()
  | some roster =>
    match adds.find? fun leaf => roster (O.name leaf.cred) ≠ some leaf.key with
    | none => .ok ()
    | some leaf => .error (.wire s!"re-key refused: leaf for {O.name leaf.cred} is not its anchored key")

def readmitted (staged : Staged Cred Key) : List String := staged.adds.map fun leaf => O.name leaf.cred

def removed (g : σ) (staged : Staged Cred Key) : List String :=
  ((O.members g).filter fun m => staged.removes.contains m.1).map fun m => O.name m.2.cred

def checkStaged (g : σ) (roster : Option (String → Option Key)) (sender : Option Nat)
    (staged : Staged Cred Key) : Except MlsError Unit := do
  O.checkAdds roster staged.adds
  match staged.path with
  | none => pure ()
  | some leaf => O.checkReplacement g roster sender leaf
  staged.updates.forM fun u => O.checkReplacement g roster u.1 u.2
  match (O.removed g staged).find? fun n => !(O.readmitted staged).contains n with
  | none => pure ()
  | some name => .error (.wire s!"removal of {name} without its re-key")

/-- A frame read on the state `g` of an epoch: who sent it and what it carries, and what the
reading spends. -/
def read (me : String) (roster : Option (String → Option Key)) (g : σ × ρ) (wire : Wire) :
    Except MlsError (String × Content Cred Key) × ρ :=
  match O.process me g.1 g.2 wire with
  | (.error e, spent) => (.error (classifyProcessError e), spent)
  | (.ok p, spent) =>
    match O.checkSender g.1 roster p with
    | .error e => (.error e, spent)
    | .ok () =>
      match p.content with
      | .commit staged =>
        match O.checkStaged g.1 roster p.sender staged with
        | .error e => (.error e, spent)
        | .ok () => (.ok (O.name p.cred, .commit staged), spent)
      | content => (.ok (O.name p.cred, content), spent)

end OpenMls

namespace MlsMember

/-- The exporter secret of `g`, put at the head of the ring before the epoch changes. -/
def retireExporter (m : MlsMember σ ρ Key Secret Digest) (g : σ) : MlsMember σ ρ Key Secret Digest :=
  match O.exporter g with
  | none => m
  | some secret =>
    if m.exporterRing.head? = some secret then m
    else
      { m with
        exporterRing := (secret :: m.exporterRing).take exporterRingK
        exporterRingEpochs := (O.epoch g :: m.exporterRingEpochs).take exporterRingK }

/-- The slot armed with the state `g`, the commit merged on it, and the secret of the epoch left
retired. -/
def mergeCommit (m : MlsMember σ ρ Key Secret Digest) (g : σ × ρ) (wire : Wire) (committer : String)
    (removed : List String) (staged : Staged Cred Key) : MlsMember σ ρ Key Secret Digest :=
  let slot := ⟨O.epoch g.1, g, O.sha256 wire, removed, committer⟩
  let merged : MlsMember σ ρ Key Secret Digest :=
    { m with prior := some slot, group := some (O.merge g.1 staged) }
  merged.retireExporter O g.1

def readFrame (m : MlsMember σ ρ Key Secret Digest) (g : σ × ρ) (wire : Wire) :
    Except MlsError MlsIncoming × MlsMember σ ρ Key Secret Digest :=
  match O.read m.name m.rosterKeys g wire with
  | (.error e, spent) => (.error e, { m with group := some (g.1, spent) })
  | (.ok (sender, .application plaintext), spent) =>
    (.ok (.application sender plaintext), { m with group := some (g.1, spent) })
  | (.ok (sender, .commit staged), spent) =>
    (.ok (.commit (O.readmitted staged)),
      m.mergeCommit O (g.1, spent) wire sender (O.removed g.1 staged) staged)
  | (.ok (_, .proposal), spent) => (.ok .proposal, { m with group := some (g.1, O.store spent wire) })
  | (.ok (_, .externalJoin), spent) => (.ok .proposal, { m with group := some (g.1, spent) })

/-- `decrypt`, with `race` for a commit of the epoch before the last merge. -/
def decryptWith (race : PriorSlot σ ρ Digest → Except MlsError MlsIncoming × MlsMember σ ρ Key Secret Digest)
    (m : MlsMember σ ρ Key Secret Digest) (wire : Wire) :
    Except MlsError MlsIncoming × MlsMember σ ρ Key Secret Digest :=
  match O.parse wire with
  | .error e => (.error (.wire s!"parsing message: {e}"), m)
  | .ok (.other text) => (.error (.wire s!"not a group message: {text}"), m)
  | .ok (.message epoch commit) =>
    match m.group with
    | none => (.error .noGroup, m)
    | some g =>
      if O.epoch g.1 < epoch then (.ok .futureEpoch, m)
      else
        match m.prior with
        | some ours => if epoch = ours.epoch ∧ commit then race ours else m.readFrame O g wire
        | none => m.readFrame O g wire

/-- The rule of the race: a commit whose committer the other removed loses, else the digest
decides. -/
def theirsWin (ours theirs : PriorSlot σ ρ Digest) (lower : Bool) : Bool :=
  match theirs.removed.contains ours.committer, ours.removed.contains theirs.committer with
  | true, false => true
  | false, true => false
  | _, _ => lower

/-- The foreign commit tried on the state ours was built on; undone unless it wins. The slot is
disarmed meanwhile, so that the frame does not come back here. -/
def contest (m : MlsMember σ ρ Key Secret Digest) (ours : PriorSlot σ ρ Digest) (wire : Wire) (lower : Bool) :
    Except MlsError MlsIncoming × MlsMember σ ρ Key Secret Digest :=
  let disarmed : MlsMember σ ρ Key Secret Digest := { m with prior := none, group := some ours.snapshot }
  let (outcome, tried) := disarmed.decryptWith O (fun _ => (.error .noGroup, disarmed)) wire
  match outcome, tried.prior with
  | .ok (.commit readmitted), some theirs =>
    if theirsWin ours theirs lower then (.ok (.commitRewound readmitted), tried)
    else (.ok .commitSuperseded, m)
  | .ok (.commit _), none => (.ok .commitSuperseded, m)
  | .error e, _ => (if lower then .error e else .ok .commitSuperseded, m)
  | .ok other, _ => (if lower then .error (.wire s!"not a commit: {other.debug}") else .ok .commitSuperseded, m)

def decrypt [LinearOrder Digest] (m : MlsMember σ ρ Key Secret Digest) (wire : Wire) :
    Except MlsError MlsIncoming × MlsMember σ ρ Key Secret Digest :=
  m.decryptWith O (fun ours =>
    -- the commit we merged, delivered again
    if ours.key = O.sha256 wire then (.ok .commitSuperseded, m)
    else m.contest O ours wire (O.sha256 wire < ours.key)) wire

/-- `restore_member`: `leaf` is the validated key package, `built` what the commit builder staged
for the removal of the seat's leaf and its addition. -/
def restoreMember (m : MlsMember σ ρ Key Secret Digest) (member : String) (leaf : Leaf Cred Key)
    (built : Except String (Wire × Staged Cred Key × ρ)) :
    Except MlsError (Wire × MlsMember σ ρ Key Secret Digest) :=
  let anchored : Bool := match m.rosterKeys with
    | none => true
    | some roster => leaf.cred = O.credential member ∧ roster member = some leaf.key
  if !anchored then .error (.wire s!"re-key refused: leaf for {member} is not its anchored key")
  else
    match m.group with
    | none => .error .noGroup
    | some g =>
      match (O.members g.1).find? fun l => l.2.cred = O.credential member with
      | none => .error (.mls s!"no leaf anchors {member}")
      | some _ =>
        match built with
        | .error e => .error (.mls s!"building restore commit: {e}")
        | .ok (wire, staged, pending) =>
          .ok (wire, m.mergeCommit O (g.1, pending) wire m.name [member] staged)

/-- The frame, read on the state `g`, is a commit that passes every check. -/
def TakesCommit (m : MlsMember σ ρ Key Secret Digest) (g : σ × ρ) (wire : Wire) : Prop :=
  ∃ sender staged, (O.read m.name m.rosterKeys g wire).1 = .ok (sender, .commit staged)

structure Unmoved (m m' : MlsMember σ ρ Key Secret Digest) : Prop where
  name : m'.name = m.name
  rosterKeys : m'.rosterKeys = m.rosterKeys
  group : m'.group.map Prod.fst = m.group.map Prod.fst
  prior : m'.prior = m.prior
  exporterRing : m'.exporterRing = m.exporterRing
  exporterRingEpochs : m'.exporterRingEpochs = m.exporterRingEpochs

omit [DecidableEq Key] [DecidableEq Secret] in
theorem Unmoved.refl (m : MlsMember σ ρ Key Secret Digest) : Unmoved m m := ⟨rfl, rfl, rfl, rfl, rfl, rfl⟩

omit [DecidableEq Key] [DecidableEq Secret] in
theorem Unmoved.trans {m m' m'' : MlsMember σ ρ Key Secret Digest} (h : Unmoved m m') (h' : Unmoved m' m'') :
    Unmoved m m'' :=
  ⟨h'.name.trans h.name, h'.rosterKeys.trans h.rosterKeys, h'.group.trans h.group, h'.prior.trans h.prior,
    h'.exporterRing.trans h.exporterRing, h'.exporterRingEpochs.trans h.exporterRingEpochs⟩

omit [DecidableEq Key] [DecidableEq Secret] in
theorem unmoved_spent {m : MlsMember σ ρ Key Secret Digest} {g : σ × ρ} (h : m.group = some g) (spent : ρ) :
    Unmoved m { m with group := some (g.1, spent) } :=
  ⟨rfl, rfl, by rw [h]; rfl, rfl, rfl, rfl⟩

theorem readFrame_unmoved {m : MlsMember σ ρ Key Secret Digest} {g : σ × ρ} {wire : Wire} (hg : m.group = some g)
    (h : ¬ m.TakesCommit O g wire) :
    Unmoved m (m.readFrame O g wire).2 ∧ ∀ readmitted, (m.readFrame O g wire).1 ≠ .ok (.commit readmitted) := by
  rw [readFrame]
  rcases hread : O.read m.name m.rosterKeys g wire with ⟨_ | ⟨sender, _ | staged | _ | _⟩, spent⟩
  · exact ⟨unmoved_spent hg _, fun _ h => nomatch h⟩
  · exact ⟨unmoved_spent hg _, fun _ h => nomatch h⟩
  · exact absurd ⟨sender, staged, by rw [hread]⟩ h
  all_goals exact ⟨unmoved_spent hg _, fun _ h => nomatch h⟩

theorem decryptWith_unmoved {race : PriorSlot σ ρ Digest → Except MlsError MlsIncoming × MlsMember σ ρ Key Secret Digest}
    {m : MlsMember σ ρ Key Secret Digest} {wire : Wire} (h : ∀ g, m.group = some g → ¬ m.TakesCommit O g wire)
    (hrace : ∀ ours, m.prior = some ours → Unmoved m (race ours).2 ∧
      ∀ readmitted, (race ours).1 ≠ .ok (.commit readmitted)) :
    Unmoved m (m.decryptWith O race wire).2 ∧
      ∀ readmitted, (m.decryptWith O race wire).1 ≠ .ok (.commit readmitted) := by
  rw [decryptWith]
  rcases O.parse wire with _ | ⟨epoch, commit⟩ | _
  · exact ⟨Unmoved.refl m, fun _ h => nomatch h⟩
  · rcases hg : m.group with _ | g
    · exact ⟨Unmoved.refl m, fun _ h => nomatch h⟩
    · simp only
      split_ifs
      · exact ⟨Unmoved.refl m, fun _ h => nomatch h⟩
      · rcases hprior : m.prior with _ | ours
        · exact readFrame_unmoved O hg (h g hg)
        · simp only
          split_ifs
          · exact hrace ours hprior
          · exact readFrame_unmoved O hg (h g hg)
  · exact ⟨Unmoved.refl m, fun _ h => nomatch h⟩

theorem contest_unmoved {m : MlsMember σ ρ Key Secret Digest} {ours : PriorSlot σ ρ Digest} {wire : Wire}
    (h : ¬ m.TakesCommit O ours.snapshot wire) (lower : Bool) :
    (m.contest O ours wire lower).2 = m ∧ ∀ readmitted, (m.contest O ours wire lower).1 ≠ .ok (.commit readmitted) := by
  have hno : ∀ readmitted, (MlsMember.decryptWith O
      (fun _ => (.error .noGroup, { m with prior := none, group := some ours.snapshot }))
      { m with prior := none, group := some ours.snapshot } wire).1 ≠ .ok (.commit readmitted) :=
    (decryptWith_unmoved O (fun g hg => by cases hg; exact h) (fun _ hprior => by cases hprior)).2
  rw [contest]
  revert hno
  rcases MlsMember.decryptWith O (fun _ => (.error .noGroup, { m with prior := none, group := some ours.snapshot }))
    { m with prior := none, group := some ours.snapshot } wire with ⟨_ | incoming, tried⟩
  · intro _
    refine ⟨rfl, ?_⟩
    cases lower <;> simp
  · intro hno
    cases incoming with
    | commit readmitted => exact absurd rfl (hno readmitted)
    | application _ _ | commitRewound _ | commitSuperseded => exact ⟨rfl, by intro r; cases lower <;> simp⟩
    | proposal | futureEpoch => exact ⟨rfl, by intro r; cases lower <;> simp⟩

theorem decrypt_unmoved [LinearOrder Digest] {m : MlsMember σ ρ Key Secret Digest} {wire : Wire}
    (h : ∀ g, m.group = some g → ¬ m.TakesCommit O g wire)
    (hprior : ∀ ours, m.prior = some ours → ¬ m.TakesCommit O ours.snapshot wire) :
    Unmoved m (m.decrypt O wire).2 := by
  refine (decryptWith_unmoved O h ?_).1
  intro ours hours
  split_ifs
  · exact ⟨Unmoved.refl m, fun _ h => nomatch h⟩
  · obtain ⟨hsame, hno⟩ := contest_unmoved O (hprior ours hours) (O.sha256 wire < ours.key)
    refine ⟨?_, hno⟩
    rw [hsame]
    exact Unmoved.refl m

end MlsMember

end

end Molt.Net.Mls
