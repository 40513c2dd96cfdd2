import Mathlib
import MoltRepublic.Storage.Segments

/-! Replaying the log (`replay_log`): every segment split into its frames, the last one cut at its
torn tail unless something valid stands behind the damage. -/

namespace Molt.Storage
open List

def segmentRotateBytes : Nat := 8 * 1024 * 1024

def readCapSegment : Nat := segmentRotateBytes + frameHeaderLen + nonceLen + frameMaxLen

structure Segment where
  no : Nat
  path : String
  data : Bytes
  deriving DecidableEq

/-- `SegmentKeyTable`: the data key of each segment, and the seq of its first frame. -/
structure SegmentKeys where
  dek : Nat → Option Bytes
  firstSeq : Nat → Option Nat

inductive Line (E : Type) where
  | envelope (seq : Nat) (event : E)
  | newer
  | other

inductive OpenError where
  | io (text : String)
  | storage (e : StorageError)
  deriving DecidableEq

structure LogReader (E : Type) where
  key : Bytes
  id : Bytes
  segKeys : Option SegmentKeys
  read : Bytes → Line E

structure Progress (E : Type) where
  history : List E
  unknownEvents : Nat
  expectedSeq : Nat
  lastSeg : Nat × Nat

structure LogReplay (E : Type) where
  history : List E
  unknownEvents : Nat
  logStartsAt : Nat
  lastSeq : Nat
  lastSeg : Nat × Nat

section
variable {E : Type} (P : LogPrimitives) (R : LogReader E)

def decryptFrame (key : Bytes) (segment seq : Nat) (frame : RawFrame) : Except OpenError Bytes :=
  match P.decrypt key frame.nonce (frameAad R.id segment seq) frame.ciphertext with
  | some plaintext => .ok plaintext
  | none => .error (.storage (.crypto (s!"frame authentication failed at segment {segment}, seq {seq} " ++
    "(tampered, transplanted, or wrong key)")))

def segKey (no : Nat) : Bytes := (R.segKeys.bind fun t => t.dek no).getD R.key

def openFrame (segment seq : Nat) (frame : RawFrame) : Except OpenError Bytes :=
  match decryptFrame P R (segKey R segment) segment seq frame with
  | .ok plaintext => .ok plaintext
  | .error e =>
    if segKey R segment ≠ R.key then (decryptFrame P R R.key segment seq frame).mapError fun _ => e
    else .error e

def replayFrame (segment : Nat) (p : Progress E) (frame : RawFrame) : Except OpenError (Progress E) := do
  let plaintext ← openFrame P R segment p.expectedSeq frame
  let p := { p with lastSeg := (segment, frame.end_) }
  match R.read plaintext with
  | .envelope seq event =>
    if seq ≠ p.expectedSeq then
      throw (.storage (.corrupt s!"envelope seq {seq} at log position {p.expectedSeq}"))
    return { p with history := p.history ++ [event], expectedSeq := p.expectedSeq + 1 }
  | .newer => return { p with unknownEvents := p.unknownEvents + 1, expectedSeq := p.expectedSeq + 1 }
  | .other => throw (.storage (.corrupt s!"frame at seq {p.expectedSeq} is not an event envelope"))

def replayFrames (segment : Nat) (p : Progress E) (frames : List RawFrame) : Except OpenError (Progress E) :=
  match R.segKeys.bind fun t => t.firstSeq segment with
  | some stated =>
    if stated ≠ p.expectedSeq then
      .error (.storage (.corrupt (s!"log key table says segment {segment} starts at seq {stated}, " ++
        s!"the surviving log reaches it at {p.expectedSeq}")))
    else frames.foldlM (replayFrame P R segment) { p with lastSeg := (segment, 0) }
  | none => frames.foldlM (replayFrame P R segment) { p with lastSeg := (segment, 0) }

def replaySegment (last : Bool) (p : Progress E) (seg : Segment) : Segment × Except OpenError (Progress E) :=
  if readCapSegment < seg.data.length then
    (seg, .error (.io s!"log segment is {seg.data.length} bytes - beyond the {readCapSegment}-byte cap"))
  else
    let (frames, torn) := splitFrames P seg.data
    match torn with
    | none => (seg, replayFrames P R seg.no p frames)
    | some pos =>
      if last then
        if hasValidFrameAfter P seg.data pos then
          (seg, .error (.storage (.corrupt (s!"segment {seg.no} is damaged at byte {pos} but valid frames " ++
            "follow it - refusing to truncate history away"))))
        else
          ({ seg with data := seg.data.take pos }, replayFrames P R seg.no p frames)
      else
        (seg, .error (.storage (.corrupt (s!"segment {seg.path} is damaged at byte {pos} but is not the last " ++
          "segment - refusing to guess"))))

def replaySegments : Progress E → List Segment → List Segment × Except OpenError (Progress E)
  | p, [] => ([], .ok p)
  | p, seg :: rest =>
    match replaySegment P R rest.isEmpty p seg with
    | (seg, .error e) => (seg :: rest, .error e)
    | (seg, .ok p) =>
      let (rest, result) := replaySegments p rest
      (seg :: rest, result)

def surviving (log : List Segment) : List Segment :=
  match R.segKeys with
  | none => log
  | some table => log.filter fun seg => (table.dek seg.no).isSome

def replayLog (log : List Segment) : List Segment × Except OpenError (LogReplay E) :=
  match surviving R log with
  | [] => ([], .error (.storage (.corrupt "workspace has no log segments")))
  | first :: rest =>
    let startsAt := (R.segKeys.bind fun t => t.firstSeq first.no).getD 1
    let (files, result) := replaySegments P R ⟨[], 0, startsAt, (1, 0)⟩ (first :: rest)
    (files, result.map fun p => ⟨p.history, p.unknownEvents, startsAt, p.expectedSeq - 1, p.lastSeg⟩)

end

section

variable {E : Type} (P : LogPrimitives) (R : LogReader E)

/-- The segments before it as they were; the last one as it was, or cut where its valid frames
end with nothing valid behind; and refused, every file as it was, where something is. -/
structure TailKept (earlier : List Segment) (seg : Segment) (files : List Segment)
    (result : Except OpenError (LogReplay E)) : Prop where
  cut : files = earlier ++ [seg] ∨ ∃ pos, files = earlier ++ [{ seg with data := seg.data.take pos }] ∧
    RunEnds P seg.data pos ∧ ∀ q, pos < q → validAt P seg.data q = false
  refused : ∀ pos q, RunEnds P seg.data pos → pos < q → validAt P seg.data q = true →
    files = earlier ++ [seg] ∧ ∃ e, result = .error e

def Payable (data : Bytes) : Prop :=
  ∀ pos q, RunEnds P data pos → pos < q → validAt P data q = true →
    (∀ p, pos < p → p < q → validAt P data p = false) →
    ∑ p ∈ Finset.Ico (pos + 1) (q + 1), charge data p ≤ data.length * tornScanBudgetFactor

variable {P R} {data : Bytes}

theorem RunEnds.unique {m n : Nat} (hm : RunEnds P data m) (hn : RunEnds P data n) : m = n :=
  Option.some.inj ((splitFrames_torn.mpr hm).symm.trans (splitFrames_torn.mpr hn))

variable {pos : Nat}

theorem exists_first {q : Nat} (hq : pos < q) (hvalid : validAt P data q = true) :
    ∃ f, pos < f ∧ f ≤ q ∧ validAt P data f = true ∧ ∀ p, pos < p → p < f → validAt P data p = false := by
  have hex : ∃ f, pos < f ∧ validAt P data f = true := ⟨q, hq, hvalid⟩
  obtain ⟨hafter, hfound⟩ := Nat.find_spec hex
  refine ⟨Nat.find hex, hafter, Nat.find_min' hex ⟨hq, hvalid⟩, hfound, fun p hp hlt => ?_⟩
  have hmin := Nat.find_min hex hlt
  simpa [hp] using hmin

theorem hasValidFrameAfter_iff (hcap : data.length ≤ readCapSegment) :
    hasValidFrameAfter P data pos = true ↔ ∃ q, pos < q ∧ validAt P data q = true ∧
      (∀ p, pos < p → p < q → validAt P data p = false) ∧
      ∑ p ∈ Finset.Ico (pos + 1) (q + 1), charge data p ≤ data.length * tornScanBudgetFactor := by
  have hbudget : min (data.length * tornScanBudgetFactor) (2 ^ 64 - 1) = data.length * tornScanBudgetFactor := by
    refine min_eq_left ?_
    unfold readCapSegment segmentRotateBytes frameHeaderLen nonceLen frameMaxLen at hcap
    unfold tornScanBudgetFactor
    omega
  rw [hasValidFrameAfter, hbudget, scanFrom_iff (by omega)]
  rfl

theorem hasValidFrameAfter_of_payable (hcap : data.length ≤ readCapSegment) (hpay : Payable P data) {q : Nat}
    (hrun : RunEnds P data pos) (hq : pos < q) (hvalid : validAt P data q = true) :
    hasValidFrameAfter P data pos = true := by
  obtain ⟨f, hf, -, hvalid', hfirst⟩ := exists_first hq hvalid
  exact (hasValidFrameAfter_iff hcap).mpr ⟨f, hf, hvalid', hfirst, hpay pos f hrun hf hvalid' hfirst⟩

theorem replaySegment_cases (last : Bool) (p : Progress E) (seg : Segment) :
    (readCapSegment < seg.data.length ∧ (replaySegment P R last p seg).1 = seg ∧
      ∃ e, (replaySegment P R last p seg).2 = .error e) ∨
    seg.data.length ≤ readCapSegment ∧
      (((∀ pos, ¬ RunEnds P seg.data pos) ∧ (replaySegment P R last p seg).1 = seg) ∨
      ∃ pos, RunEnds P seg.data pos ∧
        (((replaySegment P R last p seg).1 = seg ∧ (∃ e, (replaySegment P R last p seg).2 = .error e) ∧
          (last = true → hasValidFrameAfter P seg.data pos = true)) ∨
        (last = true ∧ hasValidFrameAfter P seg.data pos = false ∧
          (replaySegment P R last p seg).1 = { seg with data := seg.data.take pos }))) := by
  unfold replaySegment
  by_cases hcap : readCapSegment < seg.data.length
  · rw [if_pos hcap]
    exact .inl ⟨hcap, rfl, _, rfl⟩
  · rw [if_neg hcap]
    refine .inr ⟨not_lt.mp hcap, ?_⟩
    dsimp only
    cases htorn : (splitFrames P seg.data).2 with
    | none =>
      refine .inl ⟨fun pos hrun => ?_, rfl⟩
      rw [splitFrames_torn.mpr hrun] at htorn
      cases htorn
    | some pos =>
      refine .inr ⟨pos, splitFrames_torn.mp htorn, ?_⟩
      dsimp only
      cases last with
      | false => exact .inl ⟨rfl, ⟨_, rfl⟩, nofun⟩
      | true =>
        rw [if_pos rfl]
        cases hscan : hasValidFrameAfter P seg.data pos with
        | true => exact .inl ⟨rfl, ⟨_, rfl⟩, fun _ => rfl⟩
        | false => exact .inr ⟨rfl, rfl, rfl⟩

theorem replaySegment_earlier (p : Progress E) (seg : Segment) : (replaySegment P R false p seg).1 = seg := by
  rcases replaySegment_cases false p seg with ⟨-, h, -⟩ | ⟨-, ⟨-, h⟩ | ⟨pos, -, ⟨h, -⟩ | ⟨h, -⟩⟩⟩
  · exact h
  · exact h
  · exact h
  · cases h

theorem replaySegments_one (p : Progress E) (seg : Segment) :
    replaySegments P R p [seg] = ([(replaySegment P R true p seg).1], (replaySegment P R true p seg).2) := by
  rw [replaySegments, isEmpty_nil]
  cases replaySegment P R true p seg with
  | mk file result => cases result <;> rfl

variable {seg : Segment}

theorem replaySegment_cut {p : Progress E} (hcap : seg.data.length ≤ readCapSegment)
    (hrun : RunEnds P seg.data pos) (hscan : hasValidFrameAfter P seg.data pos = false) :
    (replaySegment P R true p seg).1 = { seg with data := seg.data.take pos } := by
  rcases replaySegment_cases (P := P) (R := R) true p seg with
    ⟨hlong, -⟩ | ⟨-, ⟨hnone, -⟩ | ⟨m, hm, ⟨-, -, hfound⟩ | ⟨-, -, hcut⟩⟩⟩
  · omega
  · exact absurd hrun (hnone pos)
  · have hfound := hfound rfl
    rw [hm.unique hrun, hscan] at hfound
    cases hfound
  · rw [hcut, hm.unique hrun]

theorem replaySegments_append (p : Progress E) (earlier : List Segment) (seg : Segment) :
    (∃ e, replaySegments P R p (earlier ++ [seg]) = (earlier ++ [seg], .error e)) ∨
      ∃ p', replaySegments P R p (earlier ++ [seg]) =
        (earlier ++ [(replaySegment P R true p' seg).1], (replaySegment P R true p' seg).2) := by
  induction earlier generalizing p with
  | nil =>
    exact .inr ⟨p, replaySegments_one p seg⟩
  | cons first earlier ih =>
    have hkeep := replaySegment_earlier (P := P) (R := R) p first
    have hmore : (earlier ++ [seg]).isEmpty = false := by simp
    rw [cons_append, replaySegments, hmore]
    generalize replaySegment P R false p first = step at hkeep
    obtain ⟨file, result⟩ := step
    obtain rfl : file = first := hkeep
    cases result with
    | error e => exact .inl ⟨e, rfl⟩
    | ok p' =>
      dsimp only
      rcases ih p' with ⟨e, he⟩ | ⟨p'', hp''⟩
      · exact .inl ⟨e, by rw [he]⟩
      · exact .inr ⟨p'', by rw [hp'']; rfl⟩

theorem replayLog_last {log earlier : List Segment} (hlog : surviving R log = earlier ++ [seg]) :
    (∃ e, replayLog P R log = (earlier ++ [seg], .error e)) ∨
      ∃ p, (replayLog P R log).1 = earlier ++ [(replaySegment P R true p seg).1] ∧
        ∀ e, (replaySegment P R true p seg).2 = .error e → (replayLog P R log).2 = .error e := by
  unfold replayLog
  rw [hlog]
  cases hall : earlier ++ [seg] with
  | nil => simp at hall
  | cons first rest =>
    dsimp only
    rw [← hall]
    let start : Progress E := ⟨[], 0, (R.segKeys.bind fun t => t.firstSeq first.no).getD 1, (1, 0)⟩
    rcases replaySegments_append (P := P) (R := R) start earlier seg with ⟨e, he⟩ | ⟨p, hp⟩
    · rw [he]
      exact .inl ⟨e, rfl⟩
    · rw [hp]
      refine .inr ⟨p, rfl, fun e he => ?_⟩
      rw [he]
      rfl

theorem tailKept_of_payable {log earlier : List Segment} (hlog : surviving R log = earlier ++ [seg])
    (hpay : seg.data.length ≤ readCapSegment → Payable P seg.data) :
    TailKept P earlier seg (replayLog P R log).1 (replayLog P R log).2 := by
  rcases replayLog_last (P := P) hlog with ⟨e, he⟩ | ⟨p, hfiles, herror⟩
  · rw [he]
    exact ⟨.inl rfl, fun _ _ _ _ _ => ⟨rfl, e, rfl⟩⟩
  · rw [hfiles]
    rcases replaySegment_cases (P := P) (R := R) true p seg with
      ⟨-, hsame, e, he⟩ | ⟨hcap, ⟨hnone, hsame⟩ | ⟨pos, hrun, ⟨hsame, ⟨e, he⟩, -⟩ | ⟨-, hscan, hcut⟩⟩⟩
    · rw [hsame]
      exact ⟨.inl rfl, fun _ _ _ _ _ => ⟨rfl, e, herror e he⟩⟩
    · rw [hsame]
      exact ⟨.inl rfl, fun pos _ hrun _ _ => absurd hrun (hnone pos)⟩
    · rw [hsame]
      exact ⟨.inl rfl, fun _ _ _ _ _ => ⟨rfl, e, herror e he⟩⟩
    · have hbehind : ∀ q, pos < q → validAt P seg.data q = false := by
        intro q hq
        by_contra hvalid
        have hfound := hasValidFrameAfter_of_payable hcap (hpay hcap) hrun hq (by simpa using hvalid)
        rw [hscan] at hfound
        cases hfound
      rw [hcut]
      refine ⟨.inr ⟨pos, rfl, hrun, hbehind⟩, fun m q hm hq hvalid => ?_⟩
      rw [hm.unique hrun] at hq
      rw [hbehind q hq] at hvalid
      cases hvalid

/-- Torn-tail recovery keeps the history behind the damage exactly where its scan can pay for
the way there, and a segment cut short while it was written splits into its whole frames exactly
where none is longer than a reader takes. -/
theorem torn_tail_exact (P : LogPrimitives) :
    (∀ data, (∀ (E : Type) (R : LogReader E) (log earlier : List Segment) (no : Nat) (path : String),
        surviving R log = earlier ++ [⟨no, path, data⟩] →
          TailKept P earlier ⟨no, path, data⟩ (replayLog P R log).1 (replayLog P R log).2) ↔
      (data.length ≤ readCapSegment → Payable P data)) ∧
    ∀ frames part f, (∀ g ∈ frames, IsEncoded P g) → IsEncoded P f → part <+: f → part ≠ f →
      (splitFrames P (frames.flatten ++ part) =
          (rawFrames 0 frames, if part = [] then none else some frames.flatten.length) ↔
        ∀ g ∈ frames, g.length ≤ frameHeaderLen + nonceLen + frameMaxLen) := by
  refine ⟨fun data => ⟨fun hkept hcap => ?_, fun hpay E R log earlier no path hlog =>
    tailKept_of_payable hlog hpay⟩, fun frames part f hframes hf hpart hne => ?_⟩
  · by_contra hnot
    unfold Payable at hnot
    push Not at hnot
    obtain ⟨pos, q, hrun, hq, hvalid, hfirst, hcost⟩ := hnot
    -- the log of the one segment, read by someone without a key table
    have hone := hkept Unit ⟨[], [], none, fun _ => .other⟩ [⟨0, "", data⟩] [] 0 "" rfl
    have hscan : hasValidFrameAfter P data pos = false := by
      by_contra hfound
      obtain ⟨f, hf, hvalid', hfirst', hsum⟩ := (hasValidFrameAfter_iff hcap).mp (by simpa using hfound)
      obtain rfl : f = q := by
        rcases Nat.lt_trichotomy f q with hlt | heq | hlt
        · rw [hfirst f hf hlt] at hvalid'
          cases hvalid'
        · exact heq
        · rw [hfirst' q hq hlt] at hvalid
          cases hvalid
      omega
    obtain ⟨hsame, -⟩ := hone.refused pos q hrun hq hvalid
    unfold replayLog surviving at hsame
    dsimp only at hsame
    rw [replaySegments_one, replaySegment_cut hcap hrun hscan, List.nil_append] at hsame
    have hdata : data.take pos = data := congrArg Segment.data (List.cons.inj hsame).1
    have hlen := congrArg List.length hdata
    rw [List.length_take] at hlen
    have hinside := hrun.inside
    omega
  · have hexact := @splitFrom_written P frames part f hframes hf hpart hne (frames.flatten ++ part)
      (frames.flatten ++ part).length 0 rfl (Nat.zero_le _) (by omega)
    rw [Nat.zero_add] at hexact
    exact hexact

end

section

def crcStep (c : Nat) : Nat := if c % 2 = 1 then (c / 2) ^^^ 0x82F63B78 else c / 2

def crc32cBits (data : Bytes) : Nat :=
  (data.foldl (fun c b => crcStep^[8] (c ^^^ b.toNat)) 0xFFFFFFFF) ^^^ 0xFFFFFFFF

example : crc32cBits (Text.utf8 "123456789") = 0xE3069283 := by decide +kernel

def clearLog : LogPrimitives where
  crc32c data := UInt32.ofNat (crc32cBits data)
  encrypt _ _ _ pt := some (pt ++ List.replicate 16 0)
  decrypt _ _ _ ct := some (ct.take (ct.length - 16))
  tagged key nonce aad pt ct h := by
    rw [← Option.some.inj h, length_append, length_replicate]

def plantedTail : Bytes :=
  [0, 0, 0, 0] ++ ((List.range 13).flatMap fun k => leBytes 4 (53 - 4 * k)) ++
    (leBytes 4 1 ++ leBytes 4 (crc32cBits [7]) ++ List.replicate 24 0 ++ [7])

set_option maxRecDepth 100000 in
theorem planted_tail_cut : RunEnds clearLog plantedTail 0 ∧ validAt clearLog plantedTail 56 = true ∧
    (replayLog clearLog (⟨[], [], none, fun _ => .other⟩ : LogReader Unit) [⟨1, "1.mlog", plantedTail⟩]).1 =
      [⟨1, "1.mlog", []⟩] := by
  have hrun : RunEnds clearLog plantedTail 0 := ⟨.refl, by decide +kernel, by decide +kernel⟩
  have hscan : hasValidFrameAfter clearLog plantedTail 0 = false := by decide +kernel
  refine ⟨hrun, by decide +kernel, ?_⟩
  unfold replayLog surviving
  dsimp only
  rw [replaySegments_one, replaySegment_cut (by decide +kernel) hrun hscan]
  rfl

end

end Molt.Storage
