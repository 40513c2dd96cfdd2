import Mathlib
import MoltRepublic.Net.Floor

/-! The broadcast outbox (`outbox_loop`): it reads its log from a persisted cursor, publishes its
own events in order and holds the cursor at the first one no relay took; a stall round pulls the
cursor back to the proven floor. -/

namespace Molt.Net
open List Nat

def resendRoundsPerHour : Nat := 12

def rollResendWindow (cur : GroupCursor) (now : Nat) : GroupCursor :=
  if 3600 ≤ now - cur.resendWindowStart then { cur with resendWindowStart := now, resendRounds := 0, healRounds := 0 }
  else cur

def consumeResendRound (cur : GroupCursor) (now : Nat) : Bool × GroupCursor :=
  let cur := rollResendWindow cur now
  if resendRoundsPerHour ≤ cur.resendRounds then (false, cur)
  else (true, { cur with resendRounds := cur.resendRounds + 1, healEvidence := false })

/-- The one round an hour grants past a spent budget, against evidence of a lagging listener. -/
def consumeHealRound (cur : GroupCursor) (now : Nat) : Bool × GroupCursor :=
  let cur := rollResendWindow cur now
  if cur.healEvidence = false ∨ 0 < cur.healRounds then (false, cur)
  else (true, { cur with healEvidence := false, healRounds := 1 })

def stallRound (members : List String) (now : Nat) (t : TransportState) : Option TransportState :=
  match groupFloor t members with
  | none => none
  | some _ =>
    let (granted, cur) := consumeResendRound t.cursor now
    if granted then some (rewindGroup { t with group := some cur } members)
    else
      let (healed, cur) := consumeHealRound cur now
      if healed then some (rewindGroup { t with group := some cur } members) else none

/-- `take_publish_round`: an upload of the file plane draws from the same budget. -/
def takePublishRound (now : Nat) (t : TransportState) : Option TransportState :=
  let (granted, cur) := consumeResendRound t.cursor now
  if granted then some { t with group := some cur } else none

/-- `persist_cursor`: never backwards, never when nothing went out. -/
def persistCursor (start publishedThrough : Nat) (t : TransportState) : Option TransportState :=
  if publishedThrough ≤ start then none
  else if t.cursor.logSeq < publishedThrough then
    some { t with group := some { t.cursor with logSeq := publishedThrough } }
  else none

structure HeldFrame where
  reported : Bool
  permanent : Bool
  deriving DecidableEq

def HeldFrame.new : HeldFrame := ⟨false, false⟩

inductive Attempt where
  /-- A local framing error: skipped, and loud. -/
  | unframed
  | accepted
  | transient
  | permanent
  | stopped
  deriving DecidableEq

section

variable (Body : Type)

/-- A log frame; `birth` tells apart frames that had the same seq before and after a crash. -/
structure Logged where
  birth : Nat
  env : LogEntry Body

inductive Phase where
  | top
  | loaded (start : Nat)
  | passing (start : Nat) (batch : List (Logged Body)) (publishedThrough : Nat)
  | ending (start : Nat) (publishedThrough : Nat) (stopped : Bool)
  | passed
  | looking (floor : Option Nat) (cursor : Nat)
  | waiting (stall : Bool)
  | stopped

structure Outbox where
  log : List (Logged Body)
  /-- How many frames are on the disk for good. -/
  synced : Nat
  /-- The persisted cursors. -/
  transport : TransportState
  phase : Phase Body
  held : HeldFrame
  /-- The sheet the inbox is about to write down. -/
  sheet : Option (String × Nat)
  births : Nat
  accepted : List Nat
  unframed : List Nat

inductive OutboxEvent where
  | append (author : String) (ts : Nat) (body : WorkspaceEvent Body) (prevSeq : Nat)
  | synced
  | loaded
  | read
  | walked
  | attempt (result : Attempt)
  | exhausted
  /-- A write of the cursors reaches the disk before the next read of them, or is lost. -/
  | persisted (saved : Bool)
  | looked
  | decided
  | woken
  | fired (now : Nat) (saved : Bool)
  | uploadRound (now : Nat) (saved : Bool)
  | sheetRead (from_ : String) (win : AcceptedWindow)
  | sheetApplied (saved : Bool)
  | stop
  | spawned
  /-- A crash, after which the log has so many frames: those synced, and it may be more. -/
  | crash (keep : Nat)

end

variable {Body : Type}

namespace Outbox

def opened : Outbox Body := ⟨[], 0, TransportState.default, .top, HeldFrame.new, none, 0, [], []⟩

/-- `StateStore::update`: read, modify and write as one step. -/
def update (s : Outbox Body) (saved : Bool) (f : TransportState → Option TransportState) : Outbox Body :=
  { s with transport := if saved then (f s.transport).getD s.transport else s.transport }

def envelopes (s : Outbox Body) : List (LogEntry Body) := s.log.map (·.env)

def append (s : Outbox Body) (author : String) (ts : Nat) (body : WorkspaceEvent Body) (prevSeq : Nat) : Outbox Body :=
  { s with
    log := s.log ++ [⟨s.births, ⟨s.log.length + 1, ts, author, body, prevSeq⟩⟩]
    births := s.births + 1 }

def publish (s : Outbox Body) (start : Nat) (entry : Logged Body) (batch : List (Logged Body))
    (publishedThrough : Nat) : Attempt → Outbox Body
  | .unframed => { s with unframed := s.unframed ++ [entry.birth], phase := .passing start batch entry.env.seq }
  | .accepted =>
    { s with
      accepted := s.accepted ++ [entry.birth]
      held := HeldFrame.new
      phase := .passing start batch entry.env.seq }
  -- nothing recovers a skipped envelope: the cursor is held right before it
  | .transient => { s with held := ⟨true, false⟩, phase := .ending start publishedThrough false }
  | .permanent => { s with held := ⟨true, true⟩, phase := .ending start publishedThrough false }
  | .stopped => { s with phase := .ending start publishedThrough true }

def tail (me : String) (s : Outbox Body) (floor : Option Nat) (cursor : Nat) : Bool :=
  floor.any fun f => decide (f < cursor) && (readFrom s.envelopes (f + 1)).any (ownAckable me)

variable (me : String) (members : List String)

def step (s : Outbox Body) : OutboxEvent Body → Option (Outbox Body)
  | .append author ts body prevSeq => some (s.append author ts body prevSeq)
  | .synced => some { s with synced := s.log.length }
  | .loaded =>
    match s.phase with
    | .top => some { s with phase := .loaded s.transport.cursor.logSeq }
    | _ => none
  | .read =>
    match s.phase with
    | .loaded start => some { s with phase := .passing start (s.log.filter (start + 1 ≤ ·.env.seq)) start }
    | _ => none
  | .walked =>
    match s.phase with
    | .passing start (entry :: batch) _ =>
      if entry.env.author = me then none else some { s with phase := .passing start batch entry.env.seq }
    | _ => none
  | .attempt result =>
    match s.phase with
    | .passing start (entry :: batch) publishedThrough =>
      if entry.env.author = me then some (s.publish start entry batch publishedThrough result) else none
    | _ => none
  | .exhausted =>
    match s.phase with
    | .passing start [] publishedThrough => some { s with phase := .ending start publishedThrough false }
    | _ => none
  | .persisted saved =>
    match s.phase with
    | .ending start publishedThrough stopped =>
      some { s.update saved (persistCursor start publishedThrough) with phase := if stopped then .stopped else .passed }
    | _ => none
  | .looked =>
    match s.phase with
    | .passed => some { s with phase := .looking (groupFloor s.transport members) s.transport.cursor.logSeq }
    | _ => none
  | .decided =>
    match s.phase with
    | .looking floor cursor => some { s with phase := .waiting (s.tail me floor cursor && !s.held.permanent) }
    | _ => none
  | .woken =>
    match s.phase with
    | .waiting _ => some { s with phase := .top }
    | _ => none
  | .fired now saved =>
    match s.phase with
    | .waiting true => some { s.update saved (stallRound members now) with phase := .top }
    | _ => none
  | .uploadRound now saved => some (s.update saved (takePublishRound now))
  | .sheetRead from_ win => some { s with sheet := some (from_, ackFloor me s.envelopes s.transport from_ win) }
  | .sheetApplied saved =>
    match s.sheet with
    | none => none
    | some (from_, floor) => some { s.update saved (recordGroupAck from_ floor) with sheet := none }
  | .stop =>
    match s.phase with
    | .waiting _ => some { s with phase := .stopped }
    | _ => none
  | .spawned =>
    match s.phase with
    | .stopped => some { s with phase := .top, held := HeldFrame.new }
    | _ => none
  | .crash keep =>
    if s.synced ≤ keep ∧ keep ≤ s.log.length then
      some { s with
        log := s.log.take keep
        synced := keep
        phase := .top
        held := HeldFrame.new
        sheet := none }
    else none

def run (s : Outbox Body) : List (OutboxEvent Body) → Option (Outbox Body)
  | [] => some s
  | e :: events => (s.step me members e).bind fun s => run s events

end Outbox

section

variable {t t' : TransportState} {members : List String} {now : Nat}

variable (cur : GroupCursor)

theorem rollResendWindow_logSeq (now : Nat) : (rollResendWindow cur now).logSeq = cur.logSeq := by
  unfold rollResendWindow
  split_ifs <;> rfl

theorem consumeResendRound_logSeq (now : Nat) :
    (consumeResendRound cur now).2.logSeq = cur.logSeq := by
  unfold consumeResendRound
  dsimp only
  split_ifs <;> exact rollResendWindow_logSeq cur now

theorem consumeHealRound_logSeq (now : Nat) :
    (consumeHealRound cur now).2.logSeq = cur.logSeq := by
  unfold consumeHealRound
  dsimp only
  split_ifs <;> exact rollResendWindow_logSeq cur now

theorem stallRound_spec (h : stallRound members now t = some t') : ∃ floor cur, groupFloor t members = some floor ∧
    cur.logSeq = t.cursor.logSeq ∧ t' = rewindGroup { t with group := some cur } members := by
  unfold stallRound at h
  cases hfloor : groupFloor t members with
  | none =>
    rw [hfloor] at h
    simp at h
  | some floor =>
    rw [hfloor] at h
    dsimp only at h
    have hspent := consumeResendRound_logSeq t.cursor now
    split_ifs at h with hgranted hhealed
    · exact ⟨floor, _, rfl, hspent, (Option.some.inj h).symm⟩
    · exact ⟨floor, _, rfl, (consumeHealRound_logSeq _ _).trans hspent, (Option.some.inj h).symm⟩

theorem stallRound_cursor (h : stallRound members now t = some t') :
    ∃ floor, groupFloor t members = some floor ∧ t'.cursor.logSeq = min floor t.cursor.logSeq := by
  obtain ⟨floor, cur, hfloor, hcur, rfl⟩ := stallRound_spec h
  have hsame : groupFloor { t with group := some cur } members = some floor := hfloor
  refine ⟨floor, hfloor, ?_⟩
  rw [(rewindGroup_cursor hsame).1, ← hcur]
  rfl

theorem takePublishRound_cursor (h : takePublishRound now t = some t') : t'.cursor.logSeq = t.cursor.logSeq := by
  unfold takePublishRound at h
  dsimp only at h
  split_ifs at h
  cases h
  exact consumeResendRound_logSeq t.cursor now

theorem persistCursor_cursor {start publishedThrough : Nat} (h : persistCursor start publishedThrough t = some t') :
    t'.cursor.logSeq = publishedThrough ∧ t.cursor.logSeq < publishedThrough := by
  unfold persistCursor at h
  split_ifs at h with hnone hraise
  cases h
  exact ⟨rfl, hraise⟩

end

section

variable {me : String} {members : List String} {s s' : Outbox Body}

structure Covered (me : String) (s : Outbox Body) (n : Nat) : Prop where
  bound : n ≤ s.log.length
  taken : ∀ e ∈ s.log, e.env.author = me → e.env.seq ≤ n → e.birth ∈ s.accepted ∨ e.birth ∈ s.unframed

structure Batch (s : Outbox Body) (batch : List (Logged Body)) (publishedThrough : Nat) : Prop where
  logged : ∀ b ∈ batch, b ∈ s.log
  sorted : batch.Pairwise (·.env.seq < ·.env.seq)
  above : ∀ b ∈ batch, publishedThrough < b.env.seq
  next : ∀ e ∈ s.log, publishedThrough < e.env.seq → e ∈ batch ∨ ∀ b ∈ batch, b.env.seq < e.env.seq

def PhaseInv (me : String) (s : Outbox Body) : Phase Body → Prop
  | .loaded start => Covered me s start
  | .passing _ batch publishedThrough => Covered me s publishedThrough ∧ Batch s batch publishedThrough
  | .ending _ publishedThrough _ => Covered me s publishedThrough
  | _ => True

def InOrder (me : String) (s : Outbox Body) : Prop :=
  ∀ before e after, s.accepted = before ++ e.birth :: after → e ∈ s.log → e.env.author = me →
    ∀ e₁ ∈ s.log, e₁.env.author = me → e₁.env.seq < e.env.seq → e₁.birth ∈ before ∨ e₁.birth ∈ s.unframed

structure OutboxInv (me : String) (s : Outbox Body) : Prop where
  seqs : ∀ i e, s.log[i]? = some e → e.env.seq = i + 1
  unique : ∀ e ∈ s.log, ∀ e' ∈ s.log, e.birth = e'.birth → e = e'
  young : ∀ e ∈ s.log, e.birth < s.births
  acceptedYoung : ∀ b ∈ s.accepted, b < s.births
  cursor : Covered me s s.transport.cursor.logSeq
  phase : PhaseInv me s s.phase
  order : InOrder me s

variable {n : Nat}

theorem Covered.mono {k : Nat} (h : Covered me s n) (hk : k ≤ n) : Covered me s k :=
  ⟨hk.trans h.bound, fun e he hown hle => h.taken e he hown (hle.trans hk)⟩

theorem OutboxInv.opened : OutboxInv me (Outbox.opened : Outbox Body) where
  seqs := fun i e h => absurd h (by simp [Outbox.opened])
  unique := fun e h => absurd h (by simp [Outbox.opened])
  young := fun e h => absurd h (by simp [Outbox.opened])
  acceptedYoung := fun b h => absurd h (by simp [Outbox.opened])
  cursor := ⟨Nat.le_refl _, fun e h => absurd h (by simp [Outbox.opened])⟩
  phase := trivial
  order := fun before e after h => absurd h (by simp [Outbox.opened])

theorem OutboxInv.bounded (h : OutboxInv me s) {e : Logged Body} (he : e ∈ s.log) :
    0 < e.env.seq ∧ e.env.seq ≤ s.log.length := by
  obtain ⟨i, hi⟩ := mem_iff_getElem?.mp he
  rw [h.seqs i e hi]
  exact ⟨succ_pos i, (List.getElem?_eq_some_iff.mp hi).1⟩

theorem OutboxInv.sorted (h : OutboxInv me s) : s.log.Pairwise (·.env.seq < ·.env.seq) := by
  refine pairwise_iff_getElem.mpr fun i j hi hj hij => ?_
  rw [h.seqs i _ (getElem?_eq_getElem hi), h.seqs j _ (getElem?_eq_getElem hj)]
  exact succ_lt_succ hij

theorem PhaseInv.carry {phase : Phase Body} (h : PhaseInv me s phase)
    (hcovered : ∀ n, Covered me s n → Covered me s' n)
    (hbatch : ∀ batch n, Batch s batch n → Batch s' batch n) : PhaseInv me s' phase := by
  cases phase with
  | loaded start => exact hcovered _ h
  | passing start batch publishedThrough => exact ⟨hcovered _ h.1, hbatch _ _ h.2⟩
  | ending start publishedThrough stopped => exact hcovered _ h
  | top | passed | looking floor cursor | waiting stall | stopped => trivial

theorem OutboxInv.put (h : OutboxInv me s) (t : TransportState) (phase : Phase Body) (held : HeldFrame)
    (sheet : Option (String × Nat)) (synced : Nat) (hcursor : Covered me s t.cursor.logSeq)
    (hphase : PhaseInv me s phase) :
    OutboxInv me { s with transport := t, phase := phase, held := held, sheet := sheet, synced := synced } :=
  ⟨h.seqs, h.unique, h.young, h.acceptedYoung, ⟨hcursor.bound, hcursor.taken⟩,
    hphase.carry (fun _ hc => ⟨hc.bound, hc.taken⟩) fun _ _ hb => ⟨hb.logged, hb.sorted, hb.above, hb.next⟩, h.order⟩

theorem OutboxInv.append (h : OutboxInv me s) (author : String) (ts : Nat) (body : WorkspaceEvent Body)
    (prevSeq : Nat) : OutboxInv me (s.append author ts body prevSeq) := by
  have hmem : ∀ e ∈ (s.append author ts body prevSeq).log, e ∈ s.log ∨
      e.birth = s.births ∧ e.env.seq = s.log.length + 1 := by
    exact forall_mem_append.mpr ⟨fun e hold => .inl hold, forall_mem_singleton.mpr (.inr ⟨rfl, rfl⟩)⟩
  have hcovered : ∀ n, Covered me s n → Covered me (s.append author ts body prevSeq) n := by
    intro n hn
    refine ⟨?_, fun e he hown hle => ?_⟩
    · unfold Outbox.append
      rw [length_append]
      exact le_add_right_of_le hn.bound
    · rcases hmem e he with hold | ⟨-, hseq⟩
      · exact hn.taken e hold hown hle
      · exact absurd (hle.trans hn.bound) (by rw [hseq]; exact not_succ_le_self _)
  refine ⟨?_, ?_, ?_, ?_, hcovered _ h.cursor, ?_, ?_⟩
  · intro i e hi
    unfold Outbox.append at hi
    dsimp only at hi
    by_cases hlt : i < s.log.length
    · rw [getElem?_append_left hlt] at hi
      exact h.seqs i e hi
    · rw [getElem?_append_right (not_lt.mp hlt)] at hi
      have hzero : i - s.log.length = 0 := by
        have hlast := (List.getElem?_eq_some_iff.mp hi).1
        exact lt_one_iff.mp hlast
      rw [hzero] at hi
      cases hi
      have heq : i = s.log.length := by omega
      rw [heq]
  · intro e he e' he' heq
    rcases mem_append.mp he with hold | hnew <;> rcases mem_append.mp he' with hold' | hnew'
    · exact h.unique e hold e' hold' heq
    · rw [mem_singleton.mp hnew'] at heq
      exact absurd heq (Nat.ne_of_lt (h.young e hold))
    · rw [mem_singleton.mp hnew] at heq
      exact absurd heq.symm (Nat.ne_of_lt (h.young e' hold'))
    · rw [mem_singleton.mp hnew, mem_singleton.mp hnew']
  · intro e he
    rcases hmem e he with hold | ⟨hbirth, -⟩
    · exact lt_succ_of_lt (h.young e hold)
    · rw [hbirth]
      exact lt_succ_self _
  · exact fun b hb => lt_succ_of_lt (h.acceptedYoung b hb)
  · refine h.phase.carry hcovered fun batch n hb =>
      ⟨fun b hmem => mem_append_left _ (hb.logged b hmem), hb.sorted, hb.above, ?_⟩
    intro e he hlt
    rcases hmem e he with hold | ⟨-, hseq⟩
    · exact hb.next e hold hlt
    · refine .inr fun b hmem => ?_
      rw [hseq]
      exact lt_succ_of_le (h.bounded (hb.logged b hmem)).2
  · -- the new frame has not been published
    intro before e after haccepted he hown e₁ he₁ hown₁ hlt
    have hpublished : e.birth ∈ s.accepted := by
      change e.birth ∈ (s.append author ts body prevSeq).accepted
      rw [haccepted]
      exact mem_append_right _ (.head _)
    rcases hmem e he with hold | ⟨hbirth, -⟩
    · rcases hmem e₁ he₁ with hold₁ | ⟨-, hseq₁⟩
      · exact h.order before e after haccepted hold hown e₁ hold₁ hown₁ hlt
      · exact absurd ((h.bounded hold).2) (by rw [hseq₁] at hlt; exact Nat.not_le.mpr (lt_of_succ_lt hlt))
    · exact absurd (h.acceptedYoung _ hpublished) (by rw [hbirth]; exact Nat.lt_irrefl _)

theorem OutboxInv.crash (h : OutboxInv me s) {keep : Nat} (hkeep : keep ≤ s.log.length)
    (hcursor : s.transport.cursor.logSeq ≤ keep) :
    OutboxInv me { s with
      log := s.log.take keep
      synced := keep
      phase := .top
      held := HeldFrame.new
      sheet := none } := by
  have hmem : ∀ e ∈ s.log.take keep, e ∈ s.log := fun e he => mem_of_mem_take he
  refine ⟨?_, ?_, ?_, h.acceptedYoung, ⟨?_, ?_⟩, trivial, ?_⟩
  · intro i e hi
    rw [getElem?_take] at hi
    split_ifs at hi
    exact h.seqs i e hi
  · exact fun e he e' he' => h.unique e (hmem e he) e' (hmem e' he')
  · exact fun e he => h.young e (hmem e he)
  · dsimp only
    rw [length_take, Nat.min_eq_left hkeep]
    exact hcursor
  · exact fun e he => h.cursor.taken e (hmem e he)
  · intro before e after haccepted he hown e₁ he₁ hown₁ hlt
    exact h.order before e after haccepted (hmem e he) hown e₁ (hmem e₁ he₁) hown₁ hlt

variable {entry : Logged Body}

theorem Batch.head {batch : List (Logged Body)} (h : Batch s (entry :: batch) n) {e : Logged Body}
    (he : e ∈ s.log) (hlt : n < e.env.seq) (hle : e.env.seq ≤ entry.env.seq) : e = entry := by
  rcases h.next e he hlt with hin | hbeyond
  · rcases mem_cons.mp hin with heq | hrest
    · exact heq
    · exact absurd ((pairwise_cons.mp h.sorted).1 e hrest) (not_lt.mpr hle)
  · exact absurd (hbeyond entry (.head _)) (not_lt.mpr hle)

theorem Batch.rest {batch : List (Logged Body)} (h : Batch s (entry :: batch) n) :
    Batch s batch entry.env.seq := by
  obtain ⟨hfirst, hsorted⟩ := pairwise_cons.mp h.sorted
  refine ⟨fun b hb => h.logged b (.tail _ hb), hsorted, hfirst, ?_⟩
  intro e he hlt
  rcases h.next e he ((h.above entry (.head _)).trans hlt) with hin | hbeyond
  · rcases mem_cons.mp hin with heq | hrest
    · exact absurd hlt (by rw [heq]; exact Nat.lt_irrefl _)
    · exact .inl hrest
  · exact .inr fun b hb => hbeyond b (.tail _ hb)

theorem OutboxInv.batch (h : OutboxInv me s) (start : Nat) :
    Batch s (s.log.filter (start + 1 ≤ ·.env.seq)) start := by
  refine ⟨fun b hb => (mem_filter.mp hb).1, h.sorted.filter _, fun b hb => ?_, fun e he hlt => .inl ?_⟩
  · exact of_decide_eq_true (mem_filter.mp hb).2
  · exact mem_filter.mpr ⟨he, decide_eq_true hlt⟩

theorem Covered.over {batch : List (Logged Body)} (h : Covered me s n) (hbatch : Batch s (entry :: batch) n)
    (hinv : OutboxInv me s)
    (hentry : entry.env.author = me → entry.birth ∈ s.accepted ∨ entry.birth ∈ s.unframed) :
    Covered me s entry.env.seq := by
  refine ⟨(hinv.bounded (hbatch.logged entry (.head _))).2, fun e he hown hle => ?_⟩
  by_cases hn : e.env.seq ≤ n
  · exact h.taken e he hown hn
  · have heq := hbatch.head he (not_le.mp hn) hle
    rw [heq] at hown ⊢
    exact hentry hown

theorem OutboxInv.accept (h : OutboxInv me s) (hentry : entry ∈ s.log)
    (hbefore : ∀ e ∈ s.log, e.env.author = me → e.env.seq < entry.env.seq → e.birth ∈ s.accepted ∨ e.birth ∈ s.unframed) :
    OutboxInv me { s with accepted := s.accepted ++ [entry.birth] } := by
  have hgrow : ∀ b, b ∈ s.accepted ∨ b ∈ s.unframed → b ∈ s.accepted ++ [entry.birth] ∨ b ∈ s.unframed :=
    fun b hb => hb.imp_left (mem_append_left _)
  refine ⟨h.seqs, h.unique, h.young, ?_, ⟨h.cursor.bound, fun e he hown hle => hgrow _ (h.cursor.taken e he hown hle)⟩,
    ?_, ?_⟩
  · exact forall_mem_append.mpr ⟨h.acceptedYoung, forall_mem_singleton.mpr (h.young entry hentry)⟩
  · exact h.phase.carry (fun _ hc => ⟨hc.bound, fun e he hown hle => hgrow _ (hc.taken e he hown hle)⟩)
      fun _ _ hb => ⟨hb.logged, hb.sorted, hb.above, hb.next⟩
  · intro before e after haccepted he hown e₁ he₁ hown₁ hlt
    dsimp only at haccepted
    rcases eq_nil_or_concat after with rfl | ⟨l, x, rfl⟩
    · obtain ⟨hsame, hlast⟩ := append_inj' haccepted rfl
      obtain rfl := h.unique entry hentry e he (List.cons.inj hlast).1
      rw [← hsame]
      exact hbefore e₁ he₁ hown₁ hlt
    · rw [concat_eq_append, ← cons_append, ← append_assoc] at haccepted
      obtain ⟨hsame, -⟩ := append_inj' haccepted rfl
      exact h.order before e l hsame he hown e₁ he₁ hown₁ hlt

theorem OutboxInv.unframe (h : OutboxInv me s) (b : Nat) : OutboxInv me { s with unframed := s.unframed ++ [b] } := by
  have hgrow : ∀ a, a ∈ s.accepted ∨ a ∈ s.unframed → a ∈ s.accepted ∨ a ∈ s.unframed ++ [b] :=
    fun a ha => ha.imp_right (mem_append_left _)
  refine ⟨h.seqs, h.unique, h.young, h.acceptedYoung,
    ⟨h.cursor.bound, fun e he hown hle => hgrow _ (h.cursor.taken e he hown hle)⟩, ?_, ?_⟩
  · exact h.phase.carry (fun _ hc => ⟨hc.bound, fun e he hown hle => hgrow _ (hc.taken e he hown hle)⟩)
      fun _ _ hb => ⟨hb.logged, hb.sorted, hb.above, hb.next⟩
  · intro before e after haccepted he hown e₁ he₁ hown₁ hlt
    exact (h.order before e after haccepted he hown e₁ he₁ hown₁ hlt).imp_right (mem_append_left _)

theorem OutboxInv.publish (h : OutboxInv me s) {batch : List (Logged Body)} {start : Nat}
    (hcovered : Covered me s n) (hbatch : Batch s (entry :: batch) n) (result : Attempt) :
    OutboxInv me (s.publish start entry batch n result) := by
  have hentry : entry ∈ s.log := hbatch.logged entry (.head _)
  have hbefore : ∀ e ∈ s.log, e.env.author = me → e.env.seq < entry.env.seq →
      e.birth ∈ s.accepted ∨ e.birth ∈ s.unframed := by
    intro e he howner hlt
    by_cases hn : e.env.seq ≤ n
    · exact hcovered.taken e he howner hn
    · have heq := hbatch.head he (not_le.mp hn) hlt.le
      exact absurd hlt (by rw [heq]; exact Nat.lt_irrefl _)
  cases result with
  | unframed =>
    have hnext := h.unframe entry.birth
    have hold : Covered me { s with unframed := s.unframed ++ [entry.birth] } n :=
      ⟨hcovered.bound, fun e he howner hle => (hcovered.taken e he howner hle).imp_right (mem_append_left _)⟩
    have hkept : Batch { s with unframed := s.unframed ++ [entry.birth] } (entry :: batch) n :=
      ⟨hbatch.logged, hbatch.sorted, hbatch.above, hbatch.next⟩
    refine hnext.put s.transport (.passing start batch entry.env.seq) s.held s.sheet s.synced hnext.cursor
      ⟨hold.over hkept hnext fun _ => .inr ?_, hkept.rest⟩
    exact mem_append_right _ (.head _)
  | accepted =>
    have hnext := h.accept hentry hbefore
    have hold : Covered me { s with accepted := s.accepted ++ [entry.birth] } n :=
      ⟨hcovered.bound, fun e he howner hle => (hcovered.taken e he howner hle).imp_left (mem_append_left _)⟩
    have hkept : Batch { s with accepted := s.accepted ++ [entry.birth] } (entry :: batch) n :=
      ⟨hbatch.logged, hbatch.sorted, hbatch.above, hbatch.next⟩
    refine hnext.put s.transport (.passing start batch entry.env.seq) HeldFrame.new s.sheet s.synced hnext.cursor
      ⟨hold.over hkept hnext fun _ => .inl ?_, hkept.rest⟩
    exact mem_append_right _ (.head _)
  | transient => exact h.put s.transport (.ending start n false) ⟨true, false⟩ s.sheet s.synced h.cursor hcovered
  | permanent => exact h.put s.transport (.ending start n false) ⟨true, true⟩ s.sheet s.synced h.cursor hcovered
  | stopped => exact h.put s.transport (.ending start n true) s.held s.sheet s.synced h.cursor hcovered

def Keeps (s : Outbox Body) : OutboxEvent Body → Prop
  | .crash keep => s.transport.cursor.logSeq ≤ keep
  | _ => True

theorem OutboxInv.update_covered (h : OutboxInv me s) {saved : Bool} {f : TransportState → Option TransportState}
    (hf : ∀ t, f s.transport = some t → Covered me s t.cursor.logSeq) :
    Covered me s (s.update saved f).transport.cursor.logSeq := by
  unfold Outbox.update
  dsimp only
  split_ifs
  · cases hwrite : f s.transport with
    | none => exact h.cursor
    | some t => exact hf t hwrite
  · exact h.cursor

theorem OutboxInv.step (h : OutboxInv me s) {event : OutboxEvent Body} (hkeeps : Keeps s event)
    (hstep : s.step me members event = some s') : OutboxInv me s' := by
  unfold Outbox.step at hstep
  cases event with
  | append author ts body prevSeq =>
    cases hstep
    exact h.append author ts body prevSeq
  | synced =>
    cases hstep
    exact h.put s.transport s.phase s.held s.sheet _ h.cursor h.phase
  | crash keep =>
    dsimp only at hstep
    split_ifs at hstep with hrange
    cases hstep
    exact h.crash hrange.2 hkeeps
  | uploadRound now saved =>
    cases hstep
    refine h.put _ s.phase s.held s.sheet s.synced (h.update_covered fun t ht => ?_) h.phase
    rw [takePublishRound_cursor ht]
    exact h.cursor
  | sheetRead from_ win =>
    cases hstep
    exact h.put s.transport s.phase s.held _ s.synced h.cursor h.phase
  | sheetApplied saved =>
    dsimp only at hstep
    split at hstep
    · simp at hstep
    · cases hstep
      refine h.put _ s.phase s.held none s.synced (h.update_covered fun t ht => ?_) h.phase
      rw [(recordGroupAck_spec ht).1]
      exact h.cursor
  | loaded =>
    dsimp only at hstep
    split at hstep
    · cases hstep
      exact h.put s.transport _ s.held s.sheet s.synced h.cursor h.cursor
    · simp at hstep
  | read =>
    dsimp only at hstep
    split at hstep
    next start hphase =>
      cases hstep
      have hstart := h.phase
      rw [hphase] at hstart
      exact h.put s.transport (.passing start _ start) s.held s.sheet s.synced h.cursor ⟨hstart, h.batch start⟩
    next => simp at hstep
  | walked =>
    dsimp only at hstep
    split at hstep
    next start entry batch n hphase =>
      split_ifs at hstep with hown
      cases hstep
      have hpassing := h.phase
      rw [hphase] at hpassing
      exact h.put s.transport (.passing start batch _) s.held s.sheet s.synced h.cursor
        ⟨hpassing.1.over hpassing.2 h fun heq => absurd heq hown, hpassing.2.rest⟩
    next => simp at hstep
  | attempt result =>
    dsimp only at hstep
    split at hstep
    next start entry batch n hphase =>
      split_ifs at hstep with hown
      cases hstep
      have hpassing := h.phase
      rw [hphase] at hpassing
      exact h.publish hpassing.1 hpassing.2 result
    next => simp at hstep
  | exhausted =>
    dsimp only at hstep
    split at hstep
    next start n hphase =>
      cases hstep
      have hpassing := h.phase
      rw [hphase] at hpassing
      exact h.put s.transport (.ending start n false) s.held s.sheet s.synced h.cursor hpassing.1
    next => simp at hstep
  | persisted saved =>
    dsimp only at hstep
    split at hstep
    next start n stopped hphase =>
      cases hstep
      have hending := h.phase
      rw [hphase] at hending
      refine h.put _ _ s.held s.sheet s.synced (h.update_covered fun t ht => ?_) ?_
      · rw [(persistCursor_cursor ht).1]
        exact hending
      · cases stopped <;> trivial
    next => simp at hstep
  | looked | decided | woken =>
    dsimp only at hstep
    split at hstep
    · cases hstep
      exact h.put s.transport _ s.held s.sheet s.synced h.cursor trivial
    · simp at hstep
  | fired now saved =>
    dsimp only at hstep
    split at hstep
    · cases hstep
      refine h.put _ .top s.held s.sheet s.synced (h.update_covered fun t ht => ?_) trivial
      obtain ⟨floor, -, hcursor⟩ := stallRound_cursor ht
      rw [hcursor]
      exact h.cursor.mono (Nat.min_le_right _ _)
    · simp at hstep
  | stop =>
    dsimp only at hstep
    split at hstep
    · cases hstep
      exact h.put s.transport _ s.held s.sheet s.synced h.cursor trivial
    · simp at hstep
  | spawned =>
    dsimp only at hstep
    split at hstep
    · cases hstep
      exact h.put s.transport _ _ s.sheet s.synced h.cursor trivial
    · simp at hstep

theorem step_transport {event : OutboxEvent Body} (hstep : s.step me members event = some s') :
    s'.transport = s.transport ∨ ∃ saved f, s'.transport = (s.update saved f).transport ∧
      ((∃ start n, f = persistCursor start n) ∨ (∃ now, f = takePublishRound now) ∨
        (∃ from_ floor, f = recordGroupAck from_ floor) ∨
        ∃ now, event = .fired now saved ∧ f = stallRound members now) := by
  unfold Outbox.step at hstep
  cases event with
  | append author ts body prevSeq =>
    cases hstep
    exact .inl rfl
  | synced =>
    cases hstep
    exact .inl rfl
  | uploadRound now saved =>
    cases hstep
    exact .inr ⟨saved, _, rfl, .inr (.inl ⟨now, rfl⟩)⟩
  | sheetRead from_ win =>
    cases hstep
    exact .inl rfl
  | sheetApplied saved =>
    dsimp only at hstep
    split at hstep
    · simp at hstep
    · cases hstep
      exact .inr ⟨saved, _, rfl, .inr (.inr (.inl ⟨_, _, rfl⟩))⟩
  | persisted saved =>
    dsimp only at hstep
    split at hstep
    · cases hstep
      exact .inr ⟨saved, _, rfl, .inl ⟨_, _, rfl⟩⟩
    · simp at hstep
  | fired now saved =>
    dsimp only at hstep
    split at hstep
    · cases hstep
      exact .inr ⟨saved, _, rfl, .inr (.inr (.inr ⟨now, rfl, rfl⟩))⟩
    · simp at hstep
  | attempt result =>
    dsimp only at hstep
    split at hstep
    · split_ifs at hstep
      cases hstep
      cases result <;> exact .inl rfl
    · simp at hstep
  | walked =>
    dsimp only at hstep
    split at hstep
    · split_ifs at hstep
      cases hstep
      exact .inl rfl
    · simp at hstep
  | crash keep =>
    dsimp only at hstep
    split_ifs at hstep
    cases hstep
    exact .inl rfl
  | _ =>
    dsimp only at hstep
    split at hstep
    · cases hstep
      exact .inl rfl
    · simp at hstep

theorem cursor_back {event : OutboxEvent Body} (hstep : s.step me members event = some s')
    (hback : s'.transport.cursor.logSeq < s.transport.cursor.logSeq) :
    ∃ now floor cur, event = .fired now true ∧
      s'.transport = rewindGroup { s.transport with group := some cur } members ∧
      s'.transport.cursor.logSeq = floor ∧ ∀ m ∈ members, s.transport.acking m → floor ≤ s.transport.ackedFloor m := by
  rcases step_transport hstep with heq | ⟨saved, f, heq, hf⟩
  · rw [heq] at hback
    exact absurd hback (Nat.lt_irrefl _)
  · cases saved with
    | false =>
      rw [heq] at hback
      exact absurd hback (Nat.lt_irrefl _)
    | true =>
      have hwritten : s'.transport = (f s.transport).getD s.transport := heq
      cases hwrite : f s.transport with
      | none =>
        rw [hwritten, hwrite] at hback
        exact absurd hback (Nat.lt_irrefl _)
      | some t =>
        have ht : s'.transport = t := by rw [hwritten, hwrite]; rfl
        rw [ht] at hback ⊢
        rcases hf with ⟨start, n, rfl⟩ | ⟨now, rfl⟩ | ⟨from_, floor, rfl⟩ | ⟨now, rfl, rfl⟩
        · obtain ⟨hcursor, hraise⟩ := persistCursor_cursor hwrite
          exact absurd hback (not_lt.mpr (hraise.trans_eq hcursor.symm).le)
        · exact absurd hback (by rw [takePublishRound_cursor hwrite]; exact Nat.lt_irrefl _)
        · exact absurd hback (by rw [(recordGroupAck_spec hwrite).1]; exact Nat.lt_irrefl _)
        · obtain ⟨floor, cur, hfloor, -, hrewound⟩ := stallRound_spec hwrite
          obtain ⟨floor', hfloor', hcursor⟩ := stallRound_cursor hwrite
          cases hfloor.symm.trans hfloor'
          refine ⟨now, floor, cur, rfl, hrewound, ?_, groupFloor_eq_some hfloor⟩
          rw [hcursor] at hback ⊢
          exact Nat.min_eq_left (Nat.le_of_not_le fun hle => absurd hback (by rw [Nat.min_eq_right hle]; exact Nat.lt_irrefl _))

def KeepsRun (me : String) (members : List String) (s : Outbox Body) : List (OutboxEvent Body) → Prop
  | [] => True
  | event :: events => Keeps s event ∧ ∀ next, s.step me members event = some next → KeepsRun me members next events

variable {events : List (OutboxEvent Body)}

theorem keepsRun_of_forall (h : ∀ event ∈ events, ∀ s : Outbox Body, Keeps s event) :
    KeepsRun me members s events := by
  induction events generalizing s with
  | nil => trivial
  | cons event events ih =>
    exact ⟨h event (.head _) s, fun next _ => ih fun e he => h e (.tail _ he)⟩

theorem KeepsRun.concat {event : OutboxEvent Body} (h : KeepsRun me members s events)
    (hlast : ∀ s', s.run me members events = some s' → Keeps s' event) :
    KeepsRun me members s (events ++ [event]) := by
  induction events generalizing s with
  | nil => exact ⟨hlast s rfl, fun _ _ => trivial⟩
  | cons e events ih =>
    refine ⟨h.1, fun next hstep => ih (h.2 next hstep) fun s' hrun => hlast s' ?_⟩
    unfold Outbox.run
    rw [hstep]
    exact hrun

theorem OutboxInv.run (h : OutboxInv me s) (hkeeps : KeepsRun me members s events)
    (hrun : s.run me members events = some s') : OutboxInv me s' := by
  induction events generalizing s with
  | nil =>
    cases hrun
    exact h
  | cons event events ih =>
    obtain ⟨next, hstep, hrest⟩ := Option.bind_eq_some_iff.mp hrun
    exact ih (h.step hkeeps.1 hstep) (hkeeps.2 next hstep) hrest

/-- The outbox publishes every own event in order and loses none: what the persisted cursor has
passed was taken by a relay, and the cursor goes back to a proven floor only. -/
theorem outbox_publishes_own {events : List (OutboxEvent Body)} (hkeeps : KeepsRun me members Outbox.opened events)
    (hrun : Outbox.opened.run me members events = some s) :
    (∀ e ∈ s.log, e.env.author = me → e.env.seq ≤ s.transport.cursor.logSeq →
      e.birth ∈ s.accepted ∨ e.birth ∈ s.unframed) ∧
    InOrder me s ∧
    ∀ event s', s.step me members event = some s' → s'.transport.cursor.logSeq < s.transport.cursor.logSeq →
      ∃ now floor cur, event = .fired now true ∧
        s'.transport = rewindGroup { s.transport with group := some cur } members ∧
        s'.transport.cursor.logSeq = floor ∧
        ∀ m ∈ members, s.transport.acking m → floor ≤ s.transport.ackedFloor m := by
  have hinv := OutboxInv.opened.run hkeeps hrun
  exact ⟨hinv.cursor.taken, hinv.order, fun event s' hstep hback => cursor_back hstep hback⟩

end

section

def publishedOnce : List (OutboxEvent Unit) :=
  [.append "alice" 0 (.other ()) 0, .loaded, .read, .attempt .accepted, .exhausted, .persisted true]

theorem publishedOnce_crash : ((Outbox.opened.run "alice" ["bob"] (publishedOnce ++ [.crash 1])).map fun s =>
    (s.transport.cursor.logSeq, s.log.map fun e => (e.birth, e.env.author, e.env.seq))) =
      some (1, [(0, "alice", 1)]) := by
  decide +kernel

theorem publishedOnce_keeps : KeepsRun "alice" ["bob"] Outbox.opened (publishedOnce ++ [.crash 1]) := by
  have hcrashless : KeepsRun "alice" ["bob"] Outbox.opened publishedOnce :=
    keepsRun_of_forall fun event hmem s => by
      simp only [publishedOnce, mem_cons, not_mem_nil, or_false] at hmem
      rcases hmem with rfl | rfl | rfl | rfl | rfl | rfl <;> trivial
  refine hcrashless.concat fun s hrun => ?_
  have heval : ((Outbox.opened.run "alice" ["bob"] publishedOnce).map fun s => s.transport.cursor.logSeq) = some 1 := by
    decide +kernel
  rw [hrun] at heval
  exact le_of_eq (Option.some.inj heval)

theorem outbox_publishes_own_crash : ∃ s, Outbox.opened.run "alice" ["bob"] (publishedOnce ++ [.crash 1]) = some s ∧
    ∃ e ∈ s.log, e.env.seq = 1 ∧ (e.birth ∈ s.accepted ∨ e.birth ∈ s.unframed) := by
  obtain ⟨s, hrun, hs⟩ := Option.map_eq_some_iff.mp publishedOnce_crash
  obtain ⟨hcursor, hlog⟩ := Prod.mk.inj hs
  obtain ⟨hpublished, -, -⟩ := outbox_publishes_own publishedOnce_keeps hrun
  obtain ⟨e, he, hfields⟩ : ∃ e ∈ s.log, (e.birth, e.env.author, e.env.seq) = (0, "alice", 1) := by
    refine List.mem_map.mp ?_
    rw [hlog]
    exact List.mem_singleton_self _
  obtain ⟨hbirth, hrest⟩ := Prod.mk.inj hfields
  obtain ⟨hauthor, hseq⟩ := Prod.mk.inj hrest
  exact ⟨s, hrun, e, he, hseq, hpublished e he hauthor (by rw [hseq, hcursor])⟩

/-- The frame was not synced when the cursor was: the log comes back without it, and the next
own event takes its seq. -/
def publishedUnsynced : List (OutboxEvent Unit) :=
  publishedOnce ++ [.crash 0, .append "alice" 9 (.other ()) 0]

theorem publishedUnsynced_run : ((Outbox.opened.run "alice" ["bob"] publishedUnsynced).map fun s =>
    (s.transport.cursor.logSeq, s.accepted ++ s.unframed, s.log.map fun e => (e.birth, e.env.author, e.env.seq))) =
      some (1, [0], [(1, "alice", 1)]) := by
  decide +kernel

theorem unsynced_frame_never_published : ¬ ∀ (events : List (OutboxEvent Unit)) s,
    Outbox.opened.run "alice" ["bob"] events = some s → ∀ e ∈ s.log, e.env.author = "alice" →
      e.env.seq ≤ s.transport.cursor.logSeq → e.birth ∈ s.accepted ∨ e.birth ∈ s.unframed := by
  intro h
  obtain ⟨s, hrun, hs⟩ := Option.map_eq_some_iff.mp publishedUnsynced_run
  obtain ⟨hcursor, hrest⟩ := Prod.mk.inj hs
  obtain ⟨hpublishes, hlog⟩ := Prod.mk.inj hrest
  obtain ⟨e, he, hfields⟩ : ∃ e ∈ s.log, (e.birth, e.env.author, e.env.seq) = (1, "alice", 1) := by
    refine List.mem_map.mp ?_
    rw [hlog]
    exact List.mem_singleton_self _
  obtain ⟨hbirth, hrest⟩ := Prod.mk.inj hfields
  obtain ⟨hauthor, hseq⟩ := Prod.mk.inj hrest
  have hpublished := h publishedUnsynced s hrun e he hauthor (by rw [hseq, hcursor])
  rw [hbirth, ← List.mem_append, hpublishes] at hpublished
  exact absurd hpublished (by decide)

end

end Molt.Net
