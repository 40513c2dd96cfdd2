import Mathlib
import MoltRepublic.Lib.SortedMap
import MoltRepublic.Storage.Replay

/-! Compaction of the log (`compact_once`): whole segments at or below a floor are dropped. The
floor is where the snapshot stands, held back by every holding peer whose acks have not stalled. -/

namespace Molt.Storage.Compaction
open List SortedMap Option

section

structure Frame where
  seq : ℕ
  len : ℕ
  deriving DecidableEq

structure LogFile where
  no : ℕ
  frames : List Frame
  deriving DecidableEq

structure SegmentKeyTable where
  floor : ℕ
  segments : SortedMap ℕ ℕ

namespace SegmentKeyTable

def new : SegmentKeyTable := ⟨0, SortedMap.empty⟩

def highestNo (table : SegmentKeyTable) : Option ℕ := (table.segments.entries.map Prod.fst).max?

def hasDek (table : SegmentKeyTable) (no : ℕ) : Bool := (table.segments.get? no).isSome

def firstSeq (table : SegmentKeyTable) (no : ℕ) : Option ℕ := table.segments.get? no

def put (table : SegmentKeyTable) (no firstSeq : ℕ) : SegmentKeyTable :=
  { table with segments := table.segments.insert no firstSeq }

def forget (table : SegmentKeyTable) (no : ℕ) : SegmentKeyTable := { table with segments := table.segments.erase no }

end SegmentKeyTable

structure OpenedLog where
  files : List LogFile
  segKeys : Option SegmentKeyTable
  segNo : ℕ
  nextSeq : ℕ

def segLen (log : OpenedLog) : ℕ :=
  ((log.files.filter fun f => f.no = log.segNo).flatMap fun f => f.frames.map Frame.len).sum

def rotate (log : OpenedLog) : OpenedLog :=
  let no := log.segNo + 1
  { log with
    files := log.files ++ [⟨no, []⟩]
    segKeys := log.segKeys.map fun table => table.put no log.nextSeq
    segNo := no }

def append (log : OpenedLog) (len : ℕ) : OpenedLog :=
  let log := if segmentRotateBytes ≤ segLen log then rotate log else log
  { log with
    files := log.files.map fun f =>
      if f.no = log.segNo then { f with frames := f.frames ++ [⟨log.nextSeq, len⟩] } else f
    nextSeq := log.nextSeq + 1 }

def migrateStep (highestKeyed : Option ℕ) (found : SegmentKeyTable × ℕ) (f : LogFile) : SegmentKeyTable × ℕ :=
  -- an erased segment whose file is back gets no fresh key
  if found.1.hasDek f.no = false ∧ highestKeyed.any (f.no < ·) then found
  else
    (if found.1.hasDek f.no then found.1 else found.1.put f.no (found.2 + 1), found.2 + f.frames.length)

def migrateToSegmentKeys (log : OpenedLog) : OpenedLog :=
  let table := log.segKeys.getD SegmentKeyTable.new
  { log with segKeys := some (log.files.foldl (migrateStep table.highestNo) (table, table.floor)).1 }

def lastSeq (table : SegmentKeyTable) (nextSeq : ℕ) (behind : List LogFile) : ℕ :=
  ((behind.head?.bind fun f => table.firstSeq f.no).getD nextSeq) - 1

def doomed (table : SegmentKeyTable) (segNo nextSeq floor : ℕ) : List LogFile → List (ℕ × ℕ)
  | [] => []
  | f :: behind =>
    let last := lastSeq table nextSeq behind
    if f.no ≠ segNo ∧ (table.firstSeq f.no).any (fun first => last ≤ floor ∧ first ≤ last)
    then (f.no, last) :: doomed table segNo nextSeq floor behind
    else doomed table segNo nextSeq floor behind

def dropSegmentsBelow (log : OpenedLog) (floor : ℕ) (unlinks : ℕ → Bool) : OpenedLog × ℕ :=
  match log.segKeys with
  | none => (log, 0)
  | some table =>
    let doomed := doomed table log.segNo log.nextSeq floor log.files
    if doomed.isEmpty then (log, 0)
    else
      let droppedTo := (doomed.map Prod.snd).max?.getD table.floor
      let table := doomed.foldl (fun table d => table.forget d.1) table
      ({ log with
          files := log.files.filter fun f => ¬ (f.no ∈ doomed.map Prod.fst ∧ unlinks f.no)
          segKeys := some { table with floor := max table.floor droppedTo } },
        doomed.length)

def readable (log : OpenedLog) : List LogFile :=
  match log.segKeys with
  | none => log.files
  | some table => log.files.filter fun f => table.hasDek f.no

def held (log : OpenedLog) : List ℕ := (readable log).flatMap fun f => f.frames.map Frame.seq

def truncate (lost : ℕ) (f : LogFile) : LogFile := { f with frames := f.frames.take (f.frames.length - lost) }

/-- The workspace opened again: erased segments are swept, a torn tail has lost the last frames
of the last file, and the seqs are counted from the first. -/
def reopen (log : OpenedLog) (lost : ℕ) : OpenedLog :=
  let files := (readable log).modifyLast (truncate lost)
  let starts := match log.segKeys with
    | some table => (files.head?.bind fun f => table.firstSeq f.no).getD 1
    | none => 1
  { log with
    files := files
    segNo := (files.getLast?.map LogFile.no).getD 1
    nextSeq := starts + (files.map fun f => f.frames.length).sum }

end

section

structure OutboundCursor where
  logSeq : ℕ
  ackSeen : Bool
  ackedFloor : ℕ

structure AckProgress where
  floor : ℕ
  since : ℕ
  checked : ℕ
  deriving DecidableEq

structure AckClock where
  now : ℕ
  stallSecs : ℕ
  absenceSecs : ℕ

structure Round where
  atSeq : ℕ
  holdingPeers : List String
  clock : AckClock
  outbound : String → Option OutboundCursor
  unlinks : ℕ → Bool

def Round.hold (r : Round) (peer : String) : ℕ :=
  match r.outbound peer with
  | some c => if c.ackSeen then c.ackedFloor else c.logSeq
  | none => 0

/-- A sum that would not fit its word is past `now` as well. -/
def ackProgress (prev : Option AckProgress) (hold atSeq : ℕ) (clock : AckClock) : AckProgress :=
  let since := match prev with
    | none => clock.now
    | some p =>
      if atSeq ≤ hold then clock.now
      else if p.floor < hold then clock.now
      else
        let gap := clock.now - p.checked
        if clock.absenceSecs < gap then min (p.since + gap) clock.now else min p.since clock.now
  ⟨hold, since, clock.now⟩

structure Workspace where
  log : OpenedLog
  ackProgress : SortedMap String AckProgress

structure CompactionOutcome where
  floor : ℕ
  segmentsDropped : ℕ
  deriving DecidableEq

def holdStep (ws : Workspace) (r : Round) (acc : SortedMap String AckProgress × ℕ) (peer : String) :
    SortedMap String AckProgress × ℕ :=
  let hold := r.hold peer
  let seen := Compaction.ackProgress (ws.ackProgress.get? peer) hold r.atSeq r.clock
  (acc.1.insert peer seen, if r.clock.now - seen.since ≤ r.clock.stallSecs then min acc.2 hold else acc.2)

def holds (ws : Workspace) (r : Round) : SortedMap String AckProgress × ℕ :=
  r.holdingPeers.foldl (holdStep ws r) (SortedMap.empty, r.atSeq)

def compactionFloor (log : OpenedLog) : ℕ := (log.segKeys.map SegmentKeyTable.floor).getD 0

def compactOnce (ws : Workspace) (r : Round) : Workspace × CompactionOutcome :=
  let (progress, floor) := holds ws r
  if floor = 0 then (⟨ws.log, progress⟩, ⟨compactionFloor ws.log, 0⟩)
  else
    let (log, dropped) := dropSegmentsBelow (migrateToSegmentKeys ws.log) floor r.unlinks
    (⟨log, progress⟩, ⟨compactionFloor log, dropped⟩)

end

section

def frameCount (files : List LogFile) : ℕ := (files.map fun f => f.frames.length).sum

def Keyed (table : SegmentKeyTable) : ℕ → List LogFile → Prop
  | _, [] => True
  | start, f :: files => table.firstSeq f.no = some start ∧ Keyed table (start + f.frames.length) files

def seqsOf (files : List LogFile) : List ℕ := files.flatMap fun f => f.frames.map Frame.seq

/-- The log on disk: behind files whose key is gone, the live ones number their frames on and on
up to the active one, and only the active one may be empty. -/
structure LogOk (log : OpenedLog) (erased live : List LogFile) (active : LogFile) (start : ℕ) : Prop where
  files : log.files = erased ++ (live ++ [active])
  ascending : log.files.Pairwise fun a b => a.no < b.no
  segNo : active.no = log.segNo
  full : ∀ f ∈ live, f.frames ≠ []
  seqs : seqsOf (live ++ [active]) = List.range' start (frameCount (live ++ [active]))
  next : start + frameCount (live ++ [active]) = log.nextSeq
  unkeyed : log.segKeys = none → erased = [] ∧ start = 1
  keyed : ∀ table, log.segKeys = some table →
    start = table.floor + 1 ∧ (∀ f ∈ erased, table.firstSeq f.no = none) ∧ Keyed table start (live ++ [active])

@[simp]
theorem frameCount_append (files files' : List LogFile) :
    frameCount (files ++ files') = frameCount files + frameCount files' := by simp [frameCount]

@[simp]
theorem frameCount_cons (f : LogFile) (files : List LogFile) :
    frameCount (f :: files) = f.frames.length + frameCount files := by simp [frameCount]

@[simp]
theorem frameCount_nil : frameCount [] = 0 := rfl

theorem seqsOf_append (files files' : List LogFile) : seqsOf (files ++ files') = seqsOf files ++ seqsOf files' := by
  simp [seqsOf]

theorem length_seqsOf (files : List LogFile) : (seqsOf files).length = frameCount files := by
  simp [seqsOf, frameCount, length_flatMap]

variable {table : SegmentKeyTable}

theorem keyed_append (start : ℕ) (files files' : List LogFile) :
    Keyed table start (files ++ files') ↔ Keyed table start files ∧ Keyed table (start + frameCount files) files' := by
  induction files generalizing start with
  | nil => simp [Keyed]
  | cons f files ih =>
    rw [cons_append, Keyed, Keyed, ih, frameCount_cons, Nat.add_assoc, and_assoc]

variable {files : List LogFile}

theorem Keyed.congr {table' : SegmentKeyTable} {start : ℕ} (h : Keyed table start files)
    (hsame : ∀ f ∈ files, table'.firstSeq f.no = table.firstSeq f.no) : Keyed table' start files := by
  induction files generalizing start with
  | nil => trivial
  | cons f files ih =>
    refine ⟨?_, ih h.2 fun g hg => hsame g (.tail _ hg)⟩
    rw [hsame f (.head _)]
    exact h.1

variable {f : LogFile}

theorem Keyed.hasDek {start : ℕ} (h : Keyed table start files) (hf : f ∈ files) :
    table.hasDek f.no = true := by
  induction files generalizing start with
  | nil => cases hf
  | cons g files ih =>
    rcases mem_cons.mp hf with rfl | hf
    · exact isSome_iff_exists.mpr ⟨start, h.1⟩
    · exact ih h.2 hf

variable {log : OpenedLog} {erased live : List LogFile} {active : LogFile} {start : ℕ}

theorem LogOk.readable (h : LogOk log erased live active start) : readable log = live ++ [active] := by
  unfold Compaction.readable
  cases hkeys : log.segKeys with
  | none =>
    obtain ⟨hnone, -⟩ := h.unkeyed hkeys
    rw [h.files, hnone, nil_append]
  | some table =>
    obtain ⟨-, hgone, hlive⟩ := h.keyed table hkeys
    have hdrop : erased.filter (fun f => table.hasDek f.no) = [] := by
      refine filter_eq_nil_iff.mpr fun f hf => ?_
      unfold SegmentKeyTable.hasDek
      have hnone : table.segments.get? f.no = none := hgone f hf
      simp [hnone]
    dsimp only
    rw [h.files, filter_append, hdrop, nil_append]
    exact filter_eq_self.mpr fun f hf => hlive.hasDek hf

theorem LogOk.held (h : LogOk log erased live active start) : held log = seqsOf (live ++ [active]) := by
  unfold Compaction.held
  rw [h.readable]
  rfl

theorem LogOk.no_lt (h : LogOk log erased live active start) (hf : f ∈ erased ∨ f ∈ live) :
    f.no < log.segNo := by
  have hsorted := h.ascending
  rw [h.files, ← append_assoc] at hsorted
  rw [← h.segNo]
  exact (pairwise_append.mp hsorted).2.2 f (mem_append.mpr hf) active (.head _)

theorem LogOk.active_eq (h : LogOk log erased live active start) :
    log.files.filter (fun f => f.no = log.segNo) = [active] := by
  have hrest : (erased ++ live).filter (fun f => f.no = log.segNo) = [] := by
    refine filter_eq_nil_iff.mpr fun f hf => ?_
    have hlt := h.no_lt (mem_append.mp hf)
    simp [hlt.ne]
  rw [h.files, ← append_assoc, filter_append, hrest, nil_append]
  simp [h.segNo]

theorem LogOk.rotate (h : LogOk log erased live active start) (hfull : active.frames ≠ []) :
    LogOk (rotate log) erased (live ++ [active]) ⟨log.segNo + 1, []⟩ start := by
  have hlast : ∀ f ∈ log.files, f.no < log.segNo + 1 := by
    intro f hf
    rw [h.files] at hf
    rcases mem_append.mp hf with hf | hf
    · exact Nat.lt_succ_of_lt (h.no_lt (.inl hf))
    · rcases mem_append.mp hf with hf | hf
      · exact Nat.lt_succ_of_lt (h.no_lt (.inr hf))
      · rw [mem_singleton.mp hf, h.segNo]
        exact Nat.lt_succ_self _
  refine ⟨?_, ?_, rfl, ?_, ?_, ?_, ?_, ?_⟩
  · show log.files ++ [_] = _
    rw [h.files, append_assoc]
  · refine pairwise_append.mpr ⟨h.ascending, pairwise_singleton .., fun f hf g hg => ?_⟩
    rw [mem_singleton.mp hg]
    exact hlast f hf
  · exact forall_mem_append.mpr ⟨h.full, fun f hf => mem_singleton.mp hf ▸ hfull⟩
  · have hnew : seqsOf [(⟨log.segNo + 1, []⟩ : LogFile)] = [] := rfl
    rw [seqsOf_append, hnew, append_nil, h.seqs]
    simp
  · show _ = log.nextSeq
    rw [← h.next]
    simp
  · intro hkeys
    exact h.unkeyed (map_eq_none_iff.mp hkeys)
  · intro table' hkeys
    obtain ⟨table, htable, rfl⟩ := map_eq_some_iff.mp hkeys
    obtain ⟨hstart, hgone, hlive⟩ := h.keyed table htable
    have hsame : ∀ f ∈ log.files, (table.put (log.segNo + 1) log.nextSeq).firstSeq f.no = table.firstSeq f.no := by
      intro f hf
      unfold SegmentKeyTable.put SegmentKeyTable.firstSeq
      rw [get?_insert, if_neg (hlast f hf).ne]
    rw [h.files] at hsame
    refine ⟨hstart, fun f hf => ?_, ?_⟩
    · rw [hsame f (mem_append_left _ hf)]
      exact hgone f hf
    · refine (keyed_append ..).mpr ⟨hlive.congr fun f hf => hsame f (mem_append_right _ hf), ?_, trivial⟩
      unfold SegmentKeyTable.put SegmentKeyTable.firstSeq
      rw [get?_insert, if_pos rfl, h.next]

theorem LogOk.push (h : LogOk log erased live active start) (len : ℕ) :
    LogOk { log with
        files := log.files.map fun f =>
          if f.no = log.segNo then { f with frames := f.frames ++ [⟨log.nextSeq, len⟩] } else f
        nextSeq := log.nextSeq + 1 }
      erased live { active with frames := active.frames ++ [⟨log.nextSeq, len⟩] } start := by
  have hquiet : ∀ files : List LogFile, (∀ f ∈ files, f.no < log.segNo) → (files.map fun f =>
      if f.no = log.segNo then { f with frames := f.frames ++ [⟨log.nextSeq, len⟩] } else f) = files := by
    intro files hbelow
    conv_rhs => rw [← map_id files]
    exact map_congr_left fun f hf => if_neg (hbelow f hf).ne
  have hseqs := h.seqs
  have hnext := h.next
  rw [seqsOf_append] at hseqs
  rw [frameCount_append] at hseqs hnext
  refine ⟨?_, ?_, h.segNo, h.full, ?_, ?_, h.unkeyed, fun table htable => ?_⟩
  · dsimp only
    rw [h.files, map_append, map_append, hquiet erased fun f hf => h.no_lt (.inl hf),
      hquiet live fun f hf => h.no_lt (.inr hf), map_singleton, if_pos h.segNo]
  · refine pairwise_map.mpr (h.ascending.imp fun {f g} hlt => ?_)
    split_ifs <;> exact hlt
  · have hone : seqsOf [({ active with frames := active.frames ++ [⟨log.nextSeq, len⟩] } : LogFile)] =
        seqsOf [active] ++ [log.nextSeq] := by simp [seqsOf]
    have hcount : frameCount (live ++ [({ active with frames := active.frames ++ [⟨log.nextSeq, len⟩] } : LogFile)]) =
        frameCount live + frameCount [active] + 1 := by
      simp
      omega
    rw [seqsOf_append, hone, ← append_assoc, hseqs, hcount, range'_concat, Nat.one_mul, hnext]
  · simp at hnext ⊢
    omega
  · obtain ⟨hstart, hgone, hlive⟩ := h.keyed table htable
    rw [keyed_append] at hlive ⊢
    exact ⟨hstart, hgone, hlive.1, hlive.2.1, trivial⟩

theorem LogOk.append (h : LogOk log erased live active start) (len : ℕ) :
    ∃ live' active', LogOk (append log len) erased live' active' start := by
  unfold Compaction.append
  split_ifs with hfull
  · have hsome : active.frames ≠ [] := by
      intro hnil
      unfold segLen at hfull
      rw [h.active_eq, flatMap_singleton, hnil] at hfull
      cases hfull
    exact ⟨_, _, (h.rotate hsome).push len⟩
  · exact ⟨_, _, h.push len⟩

theorem LogOk.reopen (h : LogOk log erased live active start) (lost : ℕ) :
    LogOk (reopen log lost) [] live (truncate lost active) start := by
  have hfiles : (Compaction.readable log).modifyLast (truncate lost) = live ++ [truncate lost active] := by
    rw [h.readable, modifyLast_concat]
  have hsorted := h.ascending
  rw [h.files] at hsorted
  have hfirst : (match log.segKeys with
      | some table => ((live ++ [truncate lost active]).head?.bind fun f => table.firstSeq f.no).getD 1
      | none => 1) = start := by
    cases hkeys : log.segKeys with
    | none => exact (h.unkeyed hkeys).2.symm
    | some table =>
      obtain ⟨-, -, hlive⟩ := h.keyed table hkeys
      cases live with
      | nil =>
        have hfirst : table.firstSeq active.no = some start := hlive.1
        simp [truncate, hfirst]
      | cons f live =>
        have hfirst : table.firstSeq f.no = some start := hlive.1
        simp [hfirst]
  unfold Compaction.reopen
  rw [hfiles]
  dsimp only
  rw [hfirst]
  refine ⟨rfl, ?_, ?_, h.full, ?_, rfl, fun hkeys => ⟨rfl, (h.unkeyed hkeys).2⟩, fun table htable => ?_⟩
  · have hlive := (pairwise_append.mp hsorted).2.1
    refine pairwise_append.mpr ⟨(pairwise_append.mp hlive).1, pairwise_singleton .., ?_⟩
    intro f hf g hg
    rw [mem_singleton.mp hg]
    exact (pairwise_append.mp hlive).2.2 f hf active (.head _)
  · simp [truncate]
  · -- the frames that are left are the first ones
    have hcount : frameCount (live ++ [truncate lost active]) ≤ frameCount (live ++ [active]) := by
      simp [truncate]
    have htake : seqsOf (live ++ [truncate lost active]) =
        (seqsOf (live ++ [active])).take (frameCount (live ++ [truncate lost active])) := by
      rw [seqsOf_append, seqsOf_append, frameCount_append, ← length_seqsOf live, take_length_add_append]
      simp [seqsOf, truncate, frameCount, map_take]
    rw [htake, h.seqs, take_range'_of_length_ge hcount]
  · obtain ⟨hstart, -, hlive⟩ := h.keyed table htable
    rw [keyed_append] at hlive ⊢
    exact ⟨hstart, fun f hf => absurd hf not_mem_nil, hlive.1, hlive.2.1, trivial⟩

theorem migrate_keyed {highest : Option ℕ} (files : List LogFile) (seq : ℕ)
    (hkeyed : ∀ f ∈ files, table.hasDek f.no = true) :
    files.foldl (migrateStep highest) (table, seq) = (table, seq + frameCount files) := by
  induction files generalizing seq with
  | nil => rfl
  | cons f files ih =>
    have hf := hkeyed f (.head _)
    have hstep : migrateStep highest (table, seq) f = (table, seq + f.frames.length) := by
      unfold migrateStep
      simp [hf]
    rw [foldl_cons, hstep, ih _ fun g hg => hkeyed g (.tail _ hg), frameCount_cons, Nat.add_assoc]

theorem migrate_erased {highest : ℕ} (files : List LogFile) (seq : ℕ)
    (hgone : ∀ f ∈ files, table.firstSeq f.no = none ∧ f.no < highest) :
    files.foldl (migrateStep (some highest)) (table, seq) = (table, seq) := by
  induction files with
  | nil => rfl
  | cons f files ih =>
    obtain ⟨hnone, hlt⟩ := hgone f (.head _)
    have hstep : migrateStep (some highest) (table, seq) f = (table, seq) := by
      have hdek : table.hasDek f.no = false := by
        unfold SegmentKeyTable.hasDek
        have hget : table.segments.get? f.no = none := hnone
        simp [hget]
      unfold migrateStep
      simp [hdek, hlt]
    rw [foldl_cons, hstep, ih fun g hg => hgone g (.tail _ hg)]

-- the first migration: every segment gets its entry, in order
theorem migrate_fresh (table : SegmentKeyTable) (files : List LogFile) (seq : ℕ)
    (hsorted : files.Pairwise fun a b => a.no < b.no) (hfresh : ∀ f ∈ files, table.firstSeq f.no = none) :
    (files.foldl (migrateStep none) (table, seq)).1.floor = table.floor ∧
      Keyed (files.foldl (migrateStep none) (table, seq)).1 (seq + 1) files ∧
      ∀ no, (∀ f ∈ files, f.no ≠ no) →
        (files.foldl (migrateStep none) (table, seq)).1.firstSeq no = table.firstSeq no := by
  induction files generalizing table seq with
  | nil => exact ⟨rfl, trivial, fun no _ => rfl⟩
  | cons f files ih =>
    obtain ⟨hlt, hrest⟩ := pairwise_cons.mp hsorted
    have hput : ∀ no, (table.put f.no (seq + 1)).firstSeq no =
        if no = f.no then some (seq + 1) else table.firstSeq no := fun no => get?_insert ..
    have hstep : migrateStep none (table, seq) f = (table.put f.no (seq + 1), seq + f.frames.length) := by
      have hdek : table.hasDek f.no = false := by
        unfold SegmentKeyTable.hasDek
        have hget : table.segments.get? f.no = none := hfresh f (.head _)
        simp [hget]
      unfold migrateStep
      simp [hdek]
    have hbehind : ∀ g ∈ files, (table.put f.no (seq + 1)).firstSeq g.no = none := by
      intro g hg
      rw [hput, if_neg (hlt g hg).ne']
      exact hfresh g (.tail _ hg)
    obtain ⟨hfloor, hkeyed, hother⟩ := ih (table.put f.no (seq + 1)) (seq + f.frames.length) hrest hbehind
    rw [foldl_cons, hstep]
    refine ⟨hfloor, ⟨?_, ?_⟩, fun no hno => ?_⟩
    · rw [hother f.no fun g hg => (hlt g hg).ne', hput, if_pos rfl]
    · rw [Nat.add_right_comm]
      exact hkeyed
    · rw [hother no fun g hg => hno g (.tail _ hg), hput,
        if_neg (hno f (mem_cons_self ..)).symm]

theorem LogOk.migrate (h : LogOk log erased live active start) :
    LogOk (migrateToSegmentKeys log) erased live active start ∧ (migrateToSegmentKeys log).segKeys.isSome = true := by
  refine ⟨⟨h.files, h.ascending, h.segNo, h.full, h.seqs, h.next, fun hkeys => (by cases hkeys), ?_⟩, rfl⟩
  intro table' htable'
  cases htable'
  cases hkeys : log.segKeys with
  | none =>
    obtain ⟨hnone, hstart⟩ := h.unkeyed hkeys
    obtain ⟨hfloor, hkeyed, -⟩ :=
      migrate_fresh SegmentKeyTable.new log.files 0 h.ascending fun f _ => rfl
    have hhighest : SegmentKeyTable.new.highestNo = none := rfl
    refine ⟨?_, fun f hf => ?_, ?_⟩
    · rw [hstart]
      exact congrArg (· + 1) hfloor.symm
    · rw [hnone] at hf
      cases hf
    · rw [hstart]
      have hlive : log.files = live ++ [active] := by rw [h.files, hnone, nil_append]
      rw [hlive] at hkeyed ⊢
      exact hkeyed
  | some table =>
    obtain ⟨hstart, hgone, hlive⟩ := h.keyed table hkeys
    rw [getD_some, h.files, foldl_append]
    have hactive : table.hasDek active.no = true := hlive.hasDek (by simp)
    obtain ⟨first, hfirst⟩ := isSome_iff_exists.mp hactive
    obtain ⟨highest, hhighest, hle⟩ : ∃ highest, table.highestNo = some highest ∧ active.no ≤ highest := by
      have hmem : active.no ∈ table.segments.entries.map Prod.fst :=
        mem_map.mpr ⟨_, get?_eq_some.mp hfirst, rfl⟩
      cases hmax : table.highestNo with
      | none =>
        rw [SegmentKeyTable.highestNo, max?_eq_none_iff] at hmax
        rw [hmax] at hmem
        cases hmem
      | some highest => exact ⟨highest, rfl, (max?_eq_some_iff.mp hmax).2 _ hmem⟩
    rw [hhighest, migrate_erased erased _ fun f hf => ⟨hgone f hf, ?_⟩,
      migrate_keyed _ _ fun f hf => hlive.hasDek hf]
    · exact ⟨hstart, hgone, hlive⟩
    · exact Nat.lt_of_lt_of_le (h.segNo ▸ h.no_lt (Or.inl hf)) hle

variable {nextSeq : ℕ}

theorem lastSeq_keyed (h : Keyed table start (f :: files)) :
    lastSeq table nextSeq (f :: files) = start - 1 := by
  unfold lastSeq
  rw [head?_cons, bind_some, h.1, getD_some]

theorem doomed_erased {segNo floor : ℕ} {erased : List LogFile} (h : ∀ f ∈ erased, table.firstSeq f.no = none) :
    doomed table segNo nextSeq floor (erased ++ files) = doomed table segNo nextSeq floor files := by
  induction erased with
  | nil => rfl
  | cons f erased ih =>
    rw [cons_append, doomed, h f (.head _), any_none, if_neg (by simp)]
    exact ih fun g hg => h g (.tail _ hg)

theorem doomed_above {floor : ℕ} (hkeyed : Keyed table start (live ++ [active]))
    (hfull : ∀ f ∈ live, f.frames ≠ []) (habove : floor < start) :
    doomed table active.no nextSeq floor (live ++ [active]) = [] := by
  induction live generalizing start with
  | nil => simp [doomed]
  | cons f live ih =>
    obtain ⟨hfirst, hrest⟩ := hkeyed
    have hlen : 0 < f.frames.length := length_pos_iff.mpr (hfull f (.head _))
    have hlast : lastSeq table nextSeq (live ++ [active]) = start + f.frames.length - 1 := by
      cases live with
      | nil | cons g live => exact lastSeq_keyed hrest
    have hstays : ¬ start + f.frames.length - 1 ≤ floor := by omega
    rw [cons_append, doomed, hlast, hfirst, any_some, if_neg (by simp [hstays])]
    exact ih hrest (fun g hg => hfull g (.tail _ hg)) (by omega)

theorem doomed_spec (nextSeq floor : ℕ) (hkeyed : Keyed table start (live ++ [active]))
    (hfull : ∀ f ∈ live, f.frames ≠ []) (hbefore : ∀ f ∈ live, f.no ≠ active.no) :
    ∃ gone kept, live = gone ++ kept ∧
      (doomed table active.no nextSeq floor (live ++ [active])).map Prod.fst = gone.map LogFile.no ∧
      (gone ≠ [] → start + frameCount gone - 1 ≤ floor ∧
        ((doomed table active.no nextSeq floor (live ++ [active])).map Prod.snd).max? =
          some (start + frameCount gone - 1)) := by
  induction live generalizing start with
  | nil => exact ⟨[], [], rfl, by simp [doomed], absurd rfl⟩
  | cons f live ih =>
    obtain ⟨hfirst, hrest⟩ := hkeyed
    have hlen : 0 < f.frames.length := length_pos_iff.mpr (hfull f (.head _))
    have hlast : lastSeq table nextSeq (live ++ [active]) = start + f.frames.length - 1 := by
      cases live with
      | nil | cons g live => exact lastSeq_keyed hrest
    have hne := hbefore f (.head _)
    have hlive := fun g hg => hfull g (.tail _ hg)
    rw [cons_append, doomed, hlast, hfirst, any_some]
    by_cases hfits : start + f.frames.length - 1 ≤ floor
    · obtain ⟨gone, kept, hsplit, hnos, hmax⟩ := ih hrest hlive fun g hg => hbefore g (.tail _ hg)
      have hdrop : f.no ≠ active.no ∧
          decide (start + f.frames.length - 1 ≤ floor ∧ start ≤ start + f.frames.length - 1) = true :=
        ⟨hne, decide_eq_true ⟨hfits, by omega⟩⟩
      rw [if_pos hdrop]
      refine ⟨f :: gone, kept, by rw [hsplit, cons_append], ?_, fun _ => ?_⟩
      · rw [map_cons, map_cons, hnos]
      rw [frameCount_cons, map_cons, max?_cons]
      by_cases hgone : gone = []
      · subst hgone
        have hnone : doomed table active.no nextSeq floor (live ++ [active]) = [] := by simpa using hnos
        rw [hnone]
        exact ⟨hfits, rfl⟩
      · obtain ⟨hle, htop⟩ := hmax hgone
        rw [htop]
        refine ⟨by omega, congrArg some ?_⟩
        show max _ _ = _
        omega
    · have hstay : ¬ (f.no ≠ active.no ∧
          decide (start + f.frames.length - 1 ≤ floor ∧ start ≤ start + f.frames.length - 1) = true) := by
        simp [hfits]
      rw [if_neg hstay, doomed_above hrest hlive (by omega)]
      exact ⟨[], f :: live, rfl, rfl, absurd rfl⟩

theorem foldl_forget (drops : List (ℕ × ℕ)) (table : SegmentKeyTable) :
    (drops.foldl (fun table d => table.forget d.1) table).floor = table.floor ∧
      ∀ no, (drops.foldl (fun table d => table.forget d.1) table).firstSeq no =
        if no ∈ drops.map Prod.fst then none else table.firstSeq no := by
  induction drops generalizing table with
  | nil => exact ⟨rfl, fun no => rfl⟩
  | cons d drops ih =>
    obtain ⟨hfloor, hget⟩ := ih (table.forget d.1)
    refine ⟨hfloor, fun no => ?_⟩
    have hforget : (table.forget d.1).firstSeq no = if no = d.1 then none else table.firstSeq no :=
      get?_erase ..
    rw [foldl_cons, hget, hforget, map_cons]
    by_cases hno : no = d.1
    · simp [hno]
    · rw [if_neg hno]
      simp only [mem_cons, hno, false_or]

theorem LogOk.drop (h : LogOk log erased live active start) (hkeys : log.segKeys.isSome = true) (floor : ℕ)
    (unlinks : ℕ → Bool) :
    ∃ gone kept erased', live = gone ++ kept ∧ (∀ seq ∈ seqsOf gone, seq ≤ floor) ∧
      LogOk (dropSegmentsBelow log floor unlinks).1 erased' kept active (start + frameCount gone) := by
  obtain ⟨table, htable⟩ := isSome_iff_exists.mp hkeys
  obtain ⟨hstart, herased, hlive⟩ := h.keyed table htable
  have hbefore : ∀ f ∈ live, f.no ≠ active.no := fun f hf => h.segNo ▸ (h.no_lt (.inr hf)).ne
  obtain ⟨gone, kept, hsplit, hnos, hmax⟩ := doomed_spec log.nextSeq floor hlive h.full hbefore
  unfold dropSegmentsBelow
  rw [htable]
  dsimp only
  rw [h.files, doomed_erased herased, ← h.segNo]
  set drops := doomed table active.no log.nextSeq floor (live ++ [active]) with hdrops
  split_ifs with hempty
  · have hgone : gone = [] := by
      rw [List.isEmpty_iff.mp hempty] at hnos
      simpa using hnos.symm
    subst hgone
    exact ⟨[], kept, erased, hsplit, fun seq hseq => absurd hseq not_mem_nil, by simpa [hsplit] using h⟩
  · have hgone : gone ≠ [] := by
      rintro rfl
      exact hempty (List.isEmpty_iff.mpr (by simpa using hnos))
    obtain ⟨hfloor, htop⟩ := hmax hgone
    have hsorted := h.ascending
    rw [h.files, hsplit, append_assoc, ← append_assoc] at hsorted
    have hapart : ∀ f ∈ kept ++ [active], f.no ∉ drops.map Prod.fst := by
      intro f hf hmem
      rw [hnos] at hmem
      obtain ⟨g, hg, heq⟩ := mem_map.mp hmem
      exact ((pairwise_append.mp hsorted).2.2 g (mem_append_right _ hg) f hf).ne heq
    have hseqs := h.seqs
    have hnext := h.next
    rw [hsplit, append_assoc, seqsOf_append, frameCount_append, ← range'_append, Nat.one_mul] at hseqs
    rw [hsplit, append_assoc, frameCount_append] at hnext
    have hlen : (seqsOf gone).length = (List.range' start (frameCount gone)).length := by
      rw [length_seqsOf, length_range']
    obtain ⟨hfirst, hrest⟩ := append_inj hseqs hlen
    obtain ⟨hkeepsFloor, hget⟩ := foldl_forget drops table
    refine ⟨gone, kept, (erased ++ gone).filter fun f => ¬ (f.no ∈ drops.map Prod.fst ∧ unlinks f.no), hsplit,
      fun seq hseq => ?_, ⟨?_, ?_, rfl, fun f hf => h.full f (hsplit ▸ mem_append_right _ hf), hrest, ?_,
        fun hkeys' => (by cases hkeys'), fun table' htable' => ?_⟩⟩
    · rw [hfirst, mem_range'_1] at hseq
      omega
    · have hstays : (kept ++ [active]).filter (fun f => ¬ (f.no ∈ drops.map Prod.fst ∧ unlinks f.no)) =
          kept ++ [active] :=
        filter_eq_self.mpr fun f hf => decide_eq_true fun hgone => hapart f hf hgone.1
      rw [hsplit, append_assoc, ← append_assoc, filter_append, hstays]
    · dsimp only
      rw [hsplit, append_assoc, ← append_assoc]
      exact hsorted.filter _
    · rw [Nat.add_assoc]
      exact hnext
    · obtain rfl := Option.some.inj htable'
      have hlookup : ∀ no, SegmentKeyTable.firstSeq
          { drops.foldl (fun table d => table.forget d.1) table with
            floor := max (drops.foldl (fun table d => table.forget d.1) table).floor
              ((drops.map Prod.snd).max?.getD table.floor) } no =
          if no ∈ drops.map Prod.fst then none else table.firstSeq no := hget
      refine ⟨?_, fun f hf => ?_, ?_⟩
      · rw [htop, getD_some, hkeepsFloor]
        show start + frameCount gone = max table.floor (start + frameCount gone - 1) + 1
        omega
      · rw [hlookup]
        split_ifs with hmem
        · rfl
        · rcases mem_append.mp (mem_filter.mp hf).1 with hf | hf
          · exact herased f hf
          · exact absurd (hnos ▸ mem_map_of_mem hf) hmem
      · rw [hsplit, append_assoc, keyed_append] at hlive
        refine hlive.2.congr fun f hf => ?_
        rw [hlookup, if_neg (hapart f hf)]

end

section

def restarted (peer : String) (r prev : Round) : Prop := r.atSeq ≤ r.hold peer ∨ prev.hold peer < r.hold peer

instance (peer : String) (r prev : Round) : Decidable (restarted peer r prev) := by
  unfold restarted
  infer_instance

def streak (peer : String) (past : List Round) : List Round := past.takeWhile fun r => peer ∈ r.holdingPeers

def gap (g : Round × Round) : ℕ := g.1.clock.now - g.2.clock.now

def chargedGaps (peer : String) (past : List Round) : List (Round × Round) :=
  (((streak peer past).zip (streak peer past).tail).takeWhile fun g => ¬ restarted peer g.1 g.2).filter fun g =>
    gap g ≤ g.1.clock.absenceSecs

def charged (peer : String) (past : List Round) : ℕ := ((chargedGaps peer past).map gap).sum

def Stalled (peer : String) (past : List Round) : Prop :=
  ∃ r ∈ past.head?, r.clock.stallSecs < charged peer past

variable {peer : String} {r prev : Round} {past : List Round}

theorem charged_first (hprev : ∀ p ∈ past.head?, peer ∉ p.holdingPeers) : charged peer (r :: past) = 0 := by
  have hstreak : streak peer past = [] := by
    cases past with
    | nil => rfl
    | cons p past => simp [streak, hprev p rfl]
  unfold charged chargedGaps
  by_cases hr : peer ∈ r.holdingPeers
  · have hone : streak peer (r :: past) = [r] := by
      unfold streak at hstreak ⊢
      rw [takeWhile_cons, if_pos (decide_eq_true hr), hstreak]
    rw [hone]
    rfl
  · have hnone : streak peer (r :: past) = [] := by simp [streak, hr]
    rw [hnone]
    rfl

theorem charged_next (hr : peer ∈ r.holdingPeers) (hprev : peer ∈ prev.holdingPeers) :
    charged peer (r :: prev :: past) =
      if restarted peer r prev then 0
      else (if gap (r, prev) ≤ r.clock.absenceSecs then gap (r, prev) else 0) + charged peer (prev :: past) := by
  have htail : streak peer (prev :: past) = prev :: streak peer past := by simp [streak, hprev]
  have hall : streak peer (r :: prev :: past) = r :: streak peer (prev :: past) := by
    unfold streak
    rw [takeWhile_cons, if_pos (decide_eq_true hr)]
  have hgaps : (streak peer (r :: prev :: past)).zip (streak peer (r :: prev :: past)).tail =
      (r, prev) :: (streak peer (prev :: past)).zip (streak peer (prev :: past)).tail := by
    rw [hall, tail_cons, htail, zip_cons_cons, tail_cons]
  unfold charged chargedGaps
  rw [hgaps, takeWhile_cons]
  split_ifs with hkeep hfresh hcounts hfresh
  · exact absurd hfresh (of_decide_eq_true hkeep)
  · simp [hcounts]
  · simp [hcounts]
  · rfl
  all_goals exact absurd (decide_eq_true hfresh) hkeep

/-- The progress on disk is the one the rounds so far have left: the stall clock stands as far
behind the last round as gaps have been charged. -/
structure Follows (progress : SortedMap String AckProgress) (past : List Round) : Prop where
  absent : ∀ peer, (∀ r ∈ past.head?, peer ∉ r.holdingPeers) → progress.get? peer = none
  present : ∀ peer, ∀ r ∈ past.head?, peer ∈ r.holdingPeers → ∃ seen, progress.get? peer = some seen ∧
    seen.floor = r.hold peer ∧ seen.checked = r.clock.now ∧ seen.since + charged peer past = r.clock.now

def seen (ws : Workspace) (r : Round) (peer : String) : AckProgress :=
  Compaction.ackProgress (ws.ackProgress.get? peer) (r.hold peer) r.atSeq r.clock

theorem Follows.seen {ws : Workspace} (h : Follows ws.ackProgress past)
    (hnow : ∀ p ∈ past.head?, p.clock.now ≤ r.clock.now) (hr : peer ∈ r.holdingPeers) :
    (seen ws r peer).since + charged peer (r :: past) = r.clock.now := by
  by_cases hprev : ∀ p ∈ past.head?, peer ∉ p.holdingPeers
  · rw [charged_first hprev]
    unfold Compaction.seen
    rw [h.absent peer hprev]
    rfl
  · push Not at hprev
    obtain ⟨prev, hhead, hin⟩ := hprev
    obtain ⟨rest, rfl⟩ : ∃ rest, past = prev :: rest := by
      cases past with
      | nil => cases hhead
      | cons p rest => exact ⟨rest, by rw [Option.some.inj hhead]⟩
    have hle := hnow prev rfl
    obtain ⟨last, hlast, hfloor, hchecked, hsince⟩ := h.present peer prev rfl hin
    have hgap : gap (r, prev) = r.clock.now - prev.clock.now := rfl
    rw [charged_next hr hin, hgap]
    unfold Compaction.seen Compaction.ackProgress
    rw [hlast]
    dsimp only
    rw [hfloor, hchecked]
    by_cases hrestart : restarted peer r prev
    · rw [if_pos hrestart]
      rcases hrestart with hreached | hadvanced
      · rw [if_pos hreached]
        rfl
      · rw [if_pos hadvanced, ite_self]
        rfl
    · rw [if_neg hrestart]
      obtain ⟨hbehind, hstill⟩ := not_or.mp hrestart
      split_ifs <;> omega

variable {ws : Workspace}

theorem holds_get? (ws : Workspace) (r : Round) (peer : String) :
    (holds ws r).1.get? peer = if peer ∈ r.holdingPeers then some (seen ws r peer) else none := by
  have hfold : ∀ (peers : List String) (acc : SortedMap String AckProgress × ℕ),
      (peers.foldl (holdStep ws r) acc).1.get? peer =
        if peer ∈ peers then some (seen ws r peer) else acc.1.get? peer := by
    intro peers
    induction peers with
    | nil => exact fun acc => rfl
    | cons first peers ih =>
      intro acc
      have hstep : (holdStep ws r acc first).1.get? peer =
          if peer = first then some (seen ws r first) else acc.1.get? peer := get?_insert ..
      rw [foldl_cons, ih, hstep]
      by_cases hfirst : peer = first
      all_goals simp [hfirst]
  rw [holds, hfold]
  rfl

theorem holds_floor (ws : Workspace) (r : Round) :
    (holds ws r).2 = ((r.holdingPeers.filter fun peer =>
      r.clock.now - (seen ws r peer).since ≤ r.clock.stallSecs).map r.hold).foldl min r.atSeq := by
  have hfold : ∀ (peers : List String) (acc : SortedMap String AckProgress × ℕ),
      (peers.foldl (holdStep ws r) acc).2 = ((peers.filter fun peer =>
        r.clock.now - (seen ws r peer).since ≤ r.clock.stallSecs).map r.hold).foldl min acc.2 := by
    intro peers
    induction peers with
    | nil => exact fun acc => rfl
    | cons first peers ih =>
      intro acc
      have hstep : (holdStep ws r acc first).2 =
          if r.clock.now - (seen ws r first).since ≤ r.clock.stallSecs then min acc.2 (r.hold first) else acc.2 := rfl
      rw [foldl_cons, ih, hstep, filter_cons]
      by_cases hheld : r.clock.now - (seen ws r first).since ≤ r.clock.stallSecs
      · rw [if_pos hheld, if_pos (decide_eq_true hheld), map_cons, foldl_cons]
      · rw [if_neg hheld, if_neg (by simpa using hheld)]
  rw [holds, hfold]

/-- The floor of a round: the snapshot, held back by the holding peers that have not stalled. -/
def IsFloor (r : Round) (past : List Round) (floor : ℕ) : Prop :=
  floor ≤ r.atSeq ∧ (∀ peer ∈ r.holdingPeers, ¬ Stalled peer (r :: past) → floor ≤ r.hold peer) ∧
    (floor = r.atSeq ∨ ∃ peer ∈ r.holdingPeers, ¬ Stalled peer (r :: past) ∧ floor = r.hold peer)

theorem foldl_min_spec (l : List ℕ) (a : ℕ) :
    l.foldl min a ≤ a ∧ (∀ x ∈ l, l.foldl min a ≤ x) ∧ (l.foldl min a = a ∨ l.foldl min a ∈ l) := by
  induction l generalizing a with
  | nil => exact ⟨Nat.le_refl a, fun x hx => absurd hx not_mem_nil, .inl rfl⟩
  | cons b l ih =>
    obtain ⟨hle, hall, hwhich⟩ := ih (min a b)
    rw [foldl_cons]
    refine ⟨hle.trans (Nat.min_le_left ..), ?_, ?_⟩
    · exact forall_mem_cons.mpr ⟨hle.trans (Nat.min_le_right ..), hall⟩
    · rcases hwhich with heq | hmem
      · rw [heq, mem_cons]
        omega
      · exact .inr (.tail _ hmem)

theorem stalled_iff (h : Follows ws.ackProgress past) (hnow : ∀ p ∈ past.head?, p.clock.now ≤ r.clock.now)
    (hr : peer ∈ r.holdingPeers) :
    Stalled peer (r :: past) ↔ ¬ r.clock.now - (seen ws r peer).since ≤ r.clock.stallSecs := by
  have hsince := h.seen hnow hr
  unfold Stalled
  simp only [head?_cons, mem_some_iff, exists_eq_left']
  omega

theorem Follows.isFloor (h : Follows ws.ackProgress past) (hnow : ∀ p ∈ past.head?, p.clock.now ≤ r.clock.now) :
    IsFloor r past (holds ws r).2 := by
  rw [holds_floor]
  obtain ⟨hle, hall, hwhich⟩ := foldl_min_spec ((r.holdingPeers.filter fun peer =>
    r.clock.now - (Compaction.seen ws r peer).since ≤ r.clock.stallSecs).map r.hold) r.atSeq
  refine ⟨hle, fun peer hpeer hlive => ?_, hwhich.imp_right fun hmem => ?_⟩
  · rw [stalled_iff h hnow hpeer, not_not] at hlive
    exact hall _ (mem_map_of_mem (mem_filter.mpr ⟨hpeer, decide_eq_true hlive⟩))
  · obtain ⟨peer, hpeer, heq⟩ := mem_map.mp hmem
    obtain ⟨hin, hlive⟩ := mem_filter.mp hpeer
    refine ⟨peer, hin, ?_, heq.symm⟩
    rw [stalled_iff h hnow hin, not_not]
    exact of_decide_eq_true hlive

theorem compactOnce_progress (ws : Workspace) (r : Round) : (compactOnce ws r).1.ackProgress = (holds ws r).1 := by
  unfold compactOnce
  dsimp only
  split_ifs <;> rfl

theorem Follows.compact (h : Follows ws.ackProgress past) (hnow : ∀ p ∈ past.head?, p.clock.now ≤ r.clock.now) :
    Follows (compactOnce ws r).1.ackProgress (r :: past) := by
  rw [compactOnce_progress]
  refine ⟨fun peer hpeer => ?_, fun peer r' hr' hpeer => ?_⟩
  · rw [holds_get?, if_neg (hpeer r rfl)]
  · cases hr'
    rw [holds_get?, if_pos hpeer]
    exact ⟨_, rfl, rfl, rfl, h.seen hnow hpeer⟩

end

section

inductive Op where
  | append (len : ℕ)
  | reopen (lost : ℕ)
  | compact (r : Round)

def step (ws : Workspace) : Op → Workspace
  | .append len => { ws with log := append ws.log len }
  | .reopen lost => { ws with log := reopen ws.log lost }
  | .compact r => (compactOnce ws r).1

def created (len : ℕ) : Workspace := ⟨⟨[⟨1, [⟨1, len⟩]⟩], none, 1, 2⟩, SortedMap.empty⟩

def run (len : ℕ) (ops : List Op) : Workspace := ops.foldl step (created len)

def roundOf : Op → Option Round
  | .compact r => some r
  | _ => none

def rounds (ops : List Op) : List Round := ops.filterMap roundOf

def Ordered (rounds : List Round) : Prop := rounds.Pairwise fun r r' => r.clock.now ≤ r'.clock.now

structure Reached (ws : Workspace) (past : List Round) : Prop where
  log : ∃ erased live active start, LogOk ws.log erased live active start
  progress : Follows ws.ackProgress past

theorem created_reached (len : ℕ) : Reached (created len) [] := by
  refine ⟨⟨[], [], ⟨1, [⟨1, len⟩]⟩, 1, rfl, pairwise_singleton .., rfl, by simp, rfl, rfl, fun _ => ⟨rfl, rfl⟩,
    fun table h => by cases h⟩, fun peer _ => rfl, fun peer r hr => by cases hr⟩

theorem compactOnce_drops {ws : Workspace} {past : List Round} (h : Reached ws past) (r : Round) :
    (∃ erased live active start, LogOk (compactOnce ws r).1.log erased live active start) ∧
      ∀ seq ∈ held ws.log, seq ∉ held (compactOnce ws r).1.log → seq ≤ (holds ws r).2 := by
  obtain ⟨erased, live, active, start, hlog⟩ := h.log
  unfold compactOnce
  dsimp only
  split_ifs with hzero
  · exact ⟨⟨erased, live, active, start, hlog⟩, fun seq hseq hgone => absurd hseq hgone⟩
  · obtain ⟨hmigrated, hkeys⟩ := hlog.migrate
    obtain ⟨gone, kept, erased', hsplit, hbelow, hdropped⟩ := hmigrated.drop hkeys (holds ws r).2 r.unlinks
    refine ⟨⟨_, _, _, _, hdropped⟩, fun seq hseq hgone => ?_⟩
    rw [hlog.held, hsplit, append_assoc, seqsOf_append] at hseq
    rw [hdropped.held] at hgone
    exact hbelow seq ((mem_append.mp hseq).resolve_right hgone)

theorem run_reached (len : ℕ) {ops : List Op} (hordered : Ordered (rounds ops)) :
    Reached (run len ops) (rounds ops).reverse := by
  induction ops using List.reverseRecOn with
  | nil => exact created_reached len
  | append_singleton ops op ih =>
    have hsplit : rounds (ops ++ [op]) = rounds ops ++ (roundOf op).toList := by
      unfold rounds
      rw [filterMap_append]
      cases op <;> rfl
    rw [hsplit] at hordered ⊢
    have hbefore := ih (pairwise_append.mp hordered).1
    unfold run at hbefore ⊢
    rw [foldl_concat]
    obtain ⟨erased, live, active, start, hlog⟩ := hbefore.log
    cases op with
    | append size =>
      obtain ⟨live', active', hnext⟩ := hlog.append size
      have hnone : (roundOf (.append size)).toList = [] := rfl
      rw [hnone, append_nil]
      exact ⟨⟨_, _, _, _, hnext⟩, hbefore.progress⟩
    | reopen lost =>
      have hnone : (roundOf (.reopen lost)).toList = [] := rfl
      rw [hnone, append_nil]
      exact ⟨⟨_, _, _, _, hlog.reopen lost⟩, hbefore.progress⟩
    | compact r =>
      have hnow : ∀ p ∈ (rounds ops).reverse.head?, p.clock.now ≤ r.clock.now := by
        intro p hp
        rw [head?_reverse] at hp
        exact (pairwise_append.mp hordered).2.2 p (mem_of_getLast? hp) r (by simp [roundOf])
      rw [roundOf, toList_some, reverse_append]
      exact ⟨(compactOnce_drops hbefore r).1, hbefore.progress.compact hnow⟩

/-- In every run, a round drops nothing above its floor. -/
theorem compaction_spares_holds (len : ℕ) (ops : List Op) (r : Round) (hordered : Ordered (rounds ops ++ [r])) :
    IsFloor r (rounds ops).reverse (holds (run len ops) r).2 ∧
      ∀ seq ∈ held (run len ops).log, seq ∉ held (step (run len ops) (.compact r)).log →
        seq ≤ r.atSeq ∧ ∀ peer ∈ r.holdingPeers, ¬ Stalled peer (r :: (rounds ops).reverse) → seq ≤ r.hold peer := by
  obtain ⟨hpast, -, hlast⟩ := List.pairwise_append.mp hordered
  have hreached := run_reached len hpast
  have hnow : ∀ p ∈ (rounds ops).reverse.head?, p.clock.now ≤ r.clock.now := by
    intro p hp
    rw [List.head?_reverse] at hp
    exact hlast p (List.mem_of_getLast? hp) r (List.mem_singleton_self r)
  have hfloor := hreached.progress.isFloor hnow
  refine ⟨hfloor, fun seq hseq hgone => ?_⟩
  have hle := (compactOnce_drops hreached r).2 seq hseq hgone
  exact ⟨Nat.le_trans hle hfloor.1, fun peer hpeer hlive => Nat.le_trans hle (hfloor.2.1 peer hpeer hlive)⟩

def sampleRound : Round :=
  ⟨2, ["peer"], ⟨100, 10, 5⟩, fun _ => some ⟨1, false, 0⟩, fun _ => true⟩

theorem compaction_spares_holds_sample :
    1 ∈ held (run segmentRotateBytes [.append 1]).log ∧
      1 ∉ held (step (run segmentRotateBytes [.append 1]) (.compact sampleRound)).log ∧
      1 ≤ sampleRound.hold "peer" := by
  have hin : 1 ∈ held (run segmentRotateBytes [.append 1]).log := by decide +kernel
  have hgone : 1 ∉ held (step (run segmentRotateBytes [.append 1]) (.compact sampleRound)).log := by decide +kernel
  have hlive : ¬ Stalled "peer" [sampleRound] := by
    rintro ⟨r, hr, hlong⟩
    rw [charged_first fun p hp => by cases hp] at hlong
    exact absurd hlong (Nat.not_lt_zero _)
  have hspared := compaction_spares_holds segmentRotateBytes [.append 1] sampleRound (List.pairwise_singleton ..)
  exact ⟨hin, hgone, (hspared.2 1 hin hgone).2 "peer" (by simp [sampleRound]) hlive⟩

end

end Molt.Storage.Compaction
