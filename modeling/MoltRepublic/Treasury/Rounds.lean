import Mathlib
import MoltRepublic.Treasury.Files

/-! The scanner side of a purse (`wallet_scan`): a task scans and reports its state as bytes, the
engine keeps the state and has it saved, and the next start goes on from the file. -/

namespace Molt.Treasury
open Text Cursor Option

/-- The running `scan_loop`: its state, and the bytes it sent last. -/
structure Scanner where
  state : ScanState
  last : List UInt8

structure ScanReport where
  state : List UInt8
  generation : Nat

/-- What of `ScanRt` the state depends on, the reports that are under way, and the file. `task` is the
handle of the task, which a panic leaves in place. -/
structure ScanRt where
  task : Bool := false
  generation : Nat := 0
  state : Option ScanState := none
  saved : Option (List UInt8) := none
  saveDue : Bool := false
  scanner : Option Scanner := none
  reports : List ScanReport := []
  file : Option (List UInt8) := none

def applyRound (s : ScanState) : List Block → Option ScanState
  | [] => some s
  | b :: blocks =>
    match s.apply b with
    | none => none
    | some (s', .applied _) => applyRound s' blocks
    | some (s', _) => some s'

namespace ScanRt

def stop (p : ScanRt) : ScanRt :=
  { p with task := false, scanner := none, generation := p.generation + 1 }

def reset (p : ScanRt) : ScanRt :=
  { p.stop with state := none, saved := none, saveDue := false }

/-- `wallet_scan_on_open`, on what could be read of the file. -/
def walletScanOnOpen (address : String) (birthday : Nat) (p : ScanRt) (file : Option (List UInt8)) : ScanRt :=
  { p with state := (file.bind ScanState.parse).filter fun s => s.address = address ∧ s.birthday = birthday }

/-- `wallet_scan_step`, where what the scanner runs with has changed. -/
def walletScanStep (address : String) (birthday : Nat) (p : ScanRt) : ScanRt :=
  let state := p.state.getD (ScanState.new address birthday)
  { p.stop with task := true, state := some state, scanner := some ⟨state, []⟩ }

/-- `round` and its `report`: bytes that were sent before go as empty. -/
def round (p : ScanRt) (blocks : List Block) : ScanRt :=
  match p.scanner with
  | none => p
  | some c =>
    match applyRound c.state blocks with
    | none => { p with scanner := none }
    | some s =>
      let bytes := if s.encode = c.last then [] else s.encode
      { p with
        scanner := some ⟨s, s.encode⟩
        reports := p.reports ++ [⟨bytes, p.generation⟩] }

def decodeReport (state : Option ScanState) (r : ScanReport) : Option ScanState :=
  if r.state = [] then state else ScanState.parse r.state <|> state

/-- `cmd_net_wallet_scan`. The writer may drop a save, and one that it took may not reach the disk. -/
def cmdNetWalletScan (p : ScanRt) (r : ScanReport) (taken written : Bool) : ScanRt :=
  if r.generation ≠ p.generation ∨ p.task = false then p
  else
    let p := { p with state := decodeReport p.state r }
    let bytes := if r.state ≠ [] then some r.state
      else if p.saveDue then p.state.map ScanState.encode else none
    match bytes.filter fun b => p.saved ≠ some b with
    | none => p
    | some b =>
      if taken then { p with saveDue := false, saved := some b, file := if written then some b else p.file }
      else { p with saveDue := true }

end ScanRt

inductive ScanTurn where
  | start
  | stop
  | round (blocks : List Block)
  | report (taken written : Bool)
  | reopen (readable : Bool)
  | restart (readable : Bool)

def ScanRt.turn (address : String) (birthday : Nat) (p : ScanRt) : ScanTurn → ScanRt
  | .start => p.walletScanStep address birthday
  | .stop => p.stop
  | .round blocks => p.round blocks
  | .report taken written =>
    match p.reports with
    | [] => p
    | r :: reports => { p with reports := reports }.cmdNetWalletScan r taken written
  | .reopen readable => p.reset.walletScanOnOpen address birthday (if readable then p.file else none)
  | .restart readable =>
    ScanRt.walletScanOnOpen address birthday { file := p.file } (if readable then p.file else none)

def ScanRt.run (address : String) (birthday : Nat) (p : ScanRt) (turns : List ScanTurn) : ScanRt :=
  turns.foldl (ScanRt.turn address birthday) p

def servedBlocks (turns : List ScanTurn) : List Block :=
  turns.flatMap fun
    | .round blocks => blocks
    | _ => []

variable {address : String} {birthday : Nat} {served : List Block} {s : ScanState} {p : ScanRt}

def Reached (address : String) (birthday : Nat) (served : List Block) (s : ScanState) : Prop :=
  ∃ calls L, (∀ b ∈ calls, b ∈ served) ∧ scan address birthday calls = some (s, L)

theorem Reached.apply {s' : ScanState} {b : Block} {step : Step} (h : Reached address birthday served s)
    (hb : b ∈ served) (happly : s.apply b = some (s', step)) : Reached address birthday served s' := by
  obtain ⟨calls, L, hcalls, hscan⟩ := h
  refine ⟨calls ++ [b], standing L b s' step, ?_, ?_⟩
  · exact List.forall_mem_append.mpr ⟨hcalls, fun c hc => List.mem_singleton.mp hc ▸ hb⟩
  · rw [scan, List.foldlM_append, ← scan, hscan]
    simp [scanStep, happly]

theorem Reached.round {s' : ScanState} {blocks : List Block} (h : Reached address birthday served s)
    (hblocks : ∀ b ∈ blocks, b ∈ served) (hround : applyRound s blocks = some s') :
    Reached address birthday served s' := by
  induction blocks generalizing s with
  | nil => exact Option.some.inj hround ▸ h
  | cons b blocks ih =>
    unfold applyRound at hround
    split at hround
    · cases hround
    · exact ih (h.apply (hblocks b (.head _)) ‹_›) (fun c hc => hblocks c (.tail _ hc)) hround
    · exact Option.some.inj hround ▸ h.apply (hblocks b (.head _)) ‹_›

def ScanRt.landed (p : ScanRt) : Option ScanState :=
  (p.reports.filter fun r => r.generation = p.generation).foldl ScanRt.decodeReport p.state

structure Sound (R : ScanState → Prop) (p : ScanRt) : Prop where
  state : ∀ s, p.state = some s → R s
  scanner : ∀ c, p.scanner = some c → p.task = true ∧ R c.state ∧ (c.last = [] ∨ c.last = c.state.encode)
  landed : ∀ c, p.scanner = some c → p.landed = some c.state
  reports : ∀ r ∈ p.reports, r.generation ≤ p.generation ∧ (r.state ≠ [] → ∃ s, R s ∧ s.encode = r.state)
  file : ∀ b, p.file = some b → ∃ s, R s ∧ s.encode = b

section

variable {R : ScanState → Prop}

theorem parse_nil : ScanState.parse [] = none := isNone_iff_eq_none.mp (by decide +kernel)

theorem Sound.decoded (h : Sound R p) (hparse : ∀ s, R s → ScanState.parse s.encode = some s) {r : ScanReport}
    (hr : r ∈ p.reports) (hs : ScanRt.decodeReport p.state r = some s) : R s := by
  unfold ScanRt.decodeReport at hs
  split_ifs at hs with hempty
  · exact h.state s hs
  · obtain ⟨u, hu, hencode⟩ := (h.reports r hr).2 hempty
    rw [← hencode, hparse u hu] at hs
    exact Option.some.inj hs ▸ hu

theorem Sound.stop (h : Sound R p) : Sound R p.stop :=
  ⟨h.state, nofun, nofun, fun r hr => ⟨Nat.le_succ_of_le (h.reports r hr).1, (h.reports r hr).2⟩, h.file⟩

theorem Sound.opened (h : Sound R p) (hparse : ∀ s, R s → ScanState.parse s.encode = some s) (hno : p.scanner = none)
    (readable : Bool) : Sound R (p.walletScanOnOpen address birthday (if readable then p.file else none)) := by
  refine ⟨fun s hs => ?_, fun c hc => ?_, fun c hc => ?_, h.reports, h.file⟩
  · obtain ⟨hread, -⟩ := filter_eq_some_iff.mp hs
    obtain ⟨b, hb, hparsed⟩ := bind_eq_some_iff.mp hread
    split_ifs at hb
    obtain ⟨u, hu, hencode⟩ := h.file b hb
    rw [← hencode, hparse u hu] at hparsed
    exact Option.some.inj hparsed ▸ hu
  · exact absurd (hno.symm.trans hc) (by simp)
  · exact absurd (hno.symm.trans hc) (by simp)

theorem Sound.start (h : Sound R p) (hnew : R (ScanState.new address birthday)) :
    Sound R (p.walletScanStep address birthday) := by
  have hstate : R (p.state.getD (ScanState.new address birthday)) := by
    cases hs : p.state with
    | none => exact hnew
    | some s => exact h.state s hs
  have hstale : (p.stop.reports.filter fun r => r.generation = p.stop.generation) = [] := by
    refine List.filter_eq_nil_iff.mpr fun r hr => ?_
    have hother : r.generation ≠ p.generation + 1 := (Nat.lt_succ_of_le (h.reports r hr).1).ne
    exact fun hsame => hother (of_decide_eq_true hsame)
  refine ⟨fun s hs => ?_, fun c hc => ?_, fun c hc => ?_, h.stop.reports, h.file⟩
  · cases hs
    exact hstate
  · cases hc
    exact ⟨rfl, hstate, Or.inl rfl⟩
  · cases hc
    show (p.stop.reports.filter fun r => r.generation = p.stop.generation).foldl _ _ = _
    rw [hstale]
    rfl

theorem Sound.round (h : Sound R p) (hparse : ∀ s, R s → ScanState.parse s.encode = some s)
    {blocks : List Block} (hround : ∀ s s', R s → applyRound s blocks = some s' → R s') : Sound R (p.round blocks) := by
  unfold ScanRt.round
  split
  · exact h
  rename_i c hc
  obtain ⟨htask, hreached, hlast⟩ := h.scanner c hc
  split
  · exact ⟨h.state, nofun, nofun, h.reports, h.file⟩
  rename_i s' happlied
  have hs' : R s' := hround _ _ hreached happlied
  have hsent : ∀ u, R u → u.encode ≠ [] := by
    intro u hu hempty
    have hread := hparse u hu
    rw [hempty, parse_nil] at hread
    cases hread
  refine ⟨h.state, fun d hd => ?_, fun d hd => ?_, fun r hr => ?_, h.file⟩
  · cases hd
    exact ⟨htask, hs', Or.inr rfl⟩
  · cases hd
    have hland : p.landed = some c.state := h.landed c hc
    unfold ScanRt.landed at hland ⊢
    rw [List.filter_append, List.foldl_append, hland]
    by_cases hsame : s'.encode = c.last
    · have hkept : s' = c.state := by
        rcases hlast with hnone | hsome
        · exact absurd (hsame.trans hnone) (hsent s' hs')
        · exact Option.some.inj ((hparse s' hs').symm.trans (hsame.trans hsome ▸ hparse _ hreached))
      subst hkept
      simp [ScanRt.decodeReport, hsame]
    · simp [ScanRt.decodeReport, hsame, hsent s' hs', hparse s' hs']
  · rcases List.mem_append.mp hr with hr | hr
    · exact h.reports r hr
    · rw [List.mem_singleton.mp hr]
      refine ⟨le_rfl, fun hne => ⟨s', hs', ?_⟩⟩
      by_cases hsame : s'.encode = c.last
      · simp [hsame] at hne
      · simp [hsame]

theorem Sound.deliver (h : Sound R p) (hparse : ∀ s, R s → ScanState.parse s.encode = some s) {r : ScanReport}
    {reports : List ScanReport} (hreports : p.reports = r :: reports) (taken written : Bool) :
    Sound R ({ p with reports := reports }.cmdNetWalletScan r taken written) := by
  have hr : r ∈ p.reports := hreports ▸ .head _
  have hrest : ∀ q ∈ reports, q.generation ≤ p.generation ∧ (q.state ≠ [] → ∃ s, R s ∧ s.encode = q.state) :=
    fun q hq => h.reports q (hreports ▸ .tail _ hq)
  by_cases hstale : r.generation ≠ p.generation ∨ p.task = false
  · rw [ScanRt.cmdNetWalletScan, if_pos hstale]
    refine ⟨h.state, h.scanner, fun c hc => ?_, hrest, h.file⟩
    have hother : r.generation ≠ p.generation :=
      hstale.resolve_right (by simp [(h.scanner c hc).1])
    rw [← h.landed c hc]
    simp [ScanRt.landed, hreports, hother]
  obtain ⟨hcurrent, -⟩ := not_or.mp hstale
  have hland : ∀ c, p.scanner = some c → (reports.filter fun q => q.generation = p.generation).foldl
      ScanRt.decodeReport (ScanRt.decodeReport p.state r) = some c.state := by
    intro c hc
    rw [← h.landed c hc]
    simp [ScanRt.landed, hreports, not_not.mp hcurrent]
  have hstate : ∀ s, ScanRt.decodeReport p.state r = some s → R s := fun s hs => h.decoded hparse hr hs
  rw [ScanRt.cmdNetWalletScan, if_neg hstale]
  dsimp only
  split
  · exact ⟨hstate, h.scanner, hland, hrest, h.file⟩
  rename_i b hb
  obtain ⟨hb, -⟩ := filter_eq_some_iff.mp hb
  have hencoded : ∃ s, R s ∧ s.encode = b := by
    split_ifs at hb with hsent
    · exact Option.some.inj hb ▸ (h.reports r hr).2 hsent
    · obtain ⟨s, hs, rfl⟩ := map_eq_some_iff.mp hb
      exact ⟨s, hstate s hs, rfl⟩
  split_ifs
  · exact ⟨hstate, h.scanner, hland, hrest, fun d hd => Option.some.inj hd ▸ hencoded⟩
  all_goals exact ⟨hstate, h.scanner, hland, hrest, h.file⟩

theorem Sound.turn (h : Sound (Reached address birthday served) p)
    (hparse : ∀ s, Reached address birthday served s → ScanState.parse s.encode = some s) {t : ScanTurn}
    (hserved : ∀ b ∈ servedBlocks [t], b ∈ served) :
    Sound (Reached address birthday served) (p.turn address birthday t) := by
  cases t with
  | start => exact h.start ⟨[], [], by simp, rfl⟩
  | stop => exact h.stop
  | round blocks => exact h.round hparse fun _ _ hs hround => hs.round (by simpa [servedBlocks] using hserved) hround
  | report taken written =>
    simp only [ScanRt.turn]
    split
    · exact h
    · exact h.deliver hparse ‹_› taken written
  | reopen readable =>
    have hreset : Sound (Reached address birthday served) p.reset :=
      ⟨nofun, h.stop.scanner, nofun, h.stop.reports, h.file⟩
    exact hreset.opened hparse rfl readable
  | restart readable =>
    have hempty : Sound (Reached address birthday served) { file := p.file } := ⟨nofun, nofun, nofun, nofun, h.file⟩
    exact hempty.opened hparse rfl readable

end

theorem scan_survives_restarts (address : String) (birthday : Nat) (haddress : (utf8 address).length < 2 ^ 32)
    (hbirthday : birthday < 2 ^ 64) (turns : List ScanTurn)
    (hblocks : ∀ b ∈ servedBlocks turns, b.Honest ∧ b.Fits)
    (hdust : ∀ calls, (∀ b ∈ calls, b ∈ servedBlocks turns) → DustFits address birthday calls) :
    let p := ScanRt.run address birthday {} turns
    (∀ s, p.state = some s → Reached address birthday (servedBlocks turns) s) ∧
    (∀ bytes, p.file = some bytes →
      ∃ s, ScanState.parse bytes = some s ∧ Reached address birthday (servedBlocks turns) s) ∧
    (p.reports = [] → ∀ c, p.scanner = some c → p.state = some c.state) := by
  have hparse : ∀ s, Reached address birthday (servedBlocks turns) s → ScanState.parse s.encode = some s := by
    rintro s ⟨calls, L, hcalls, hscan⟩
    exact (readScan_codec.canonical fun _ (h : Scanned _) => h.valid).back s ⟨address, birthday, calls, L, hbirthday, haddress,
      fun b hb => hblocks b (hcalls b hb), hdust calls hcalls, hscan⟩
  have hrun : ∀ (later : List ScanTurn) (p : ScanRt), (∀ b ∈ servedBlocks later, b ∈ servedBlocks turns) →
      Sound (Reached address birthday (servedBlocks turns)) p →
      Sound (Reached address birthday (servedBlocks turns)) (ScanRt.run address birthday p later) := by
    intro later
    induction later with
    | nil => exact fun _ _ h => h
    | cons t later ih =>
      intro p hserved h
      refine ih _ (fun b hb => hserved b ?_) (h.turn hparse fun b hb => hserved b ?_)
      · exact List.mem_append_right _ hb
      · simp only [servedBlocks, List.flatMap_cons, List.mem_append] at hb ⊢
        exact Or.inl (by simpa using hb)
  have hsound := hrun turns {} (fun _ hb => hb) ⟨nofun, nofun, nofun, nofun, nofun⟩
  refine ⟨hsound.state, fun bytes hbytes => ?_, fun hnone c hc => ?_⟩
  · obtain ⟨s, hs, rfl⟩ := hsound.file bytes hbytes
    exact ⟨s, hparse s hs, hs⟩
  · rw [← hsound.landed c hc]
    simp [ScanRt.landed, hnone]

theorem sampleBlock_fits (height : Nat) (hash previous key : UInt8) (amount : Nat) (hheight : height < 2 ^ 63)
    (hamount : amount < 2 ^ 64) : (sampleBlock height hash previous key amount).Honest ∧
      (sampleBlock height hash previous key amount).Fits := by
  refine ⟨by simp [Block.Honest, sampleBlock], ?_, ?_⟩
  · simp only [sampleBlock]
    omega
  · intro r hr
    obtain rfl := List.mem_singleton.mp hr
    constructor <;> simp only [Lock.Fits] <;> omega

theorem dustOf_content_free {L : List Block} (h : ∀ b ∈ L, b.found.filter isDust = []) :
    dustOf (content L).entries = Dust.zero := by
  induction L using List.reverseRecOn with
  | nil => rfl
  | append_singleton L b ih =>
    have hkept : (unseen (keys (content L).outputs) ∅ b.found).filter isDust = [] :=
      List.filter_eq_nil_iff.mpr fun r hr =>
        List.filter_eq_nil_iff.mp (h b (by simp)) r ((unseen_spec _ _ _).1 r hr).1
    rw [content_concat, Content.push, dustOf_append, ih fun c hc => h c (List.mem_append_left _ hc)]
    simp [dustOf, exactDust, hkept, Dust.zero]

def sampleTurns : List ScanTurn :=
  [.start, .round [sampleBlock 7 1 0 11 200000000], .report true true, .round [sampleBlock 8 3 1 12 300000000],
    .report true false, .restart true, .start, .round [sampleBlock 8 3 1 12 300000000], .report true true]

theorem scan_survives_restarts_sample : ∃ s, (ScanRt.run "purse" 7 {} sampleTurns).state = some s ∧ s.next = 9 ∧
    Reached "purse" 7 (servedBlocks sampleTurns) s := by
  have hserved : servedBlocks sampleTurns = [sampleBlock 7 1 0 11 200000000, sampleBlock 8 3 1 12 300000000,
    sampleBlock 8 3 1 12 300000000] := rfl
  have hblocks : ∀ b ∈ servedBlocks sampleTurns, b.Honest ∧ b.Fits := by
    rw [hserved]
    simp only [List.forall_mem_cons]
    exact ⟨sampleBlock_fits 7 1 0 11 _ (by decide) (by decide), sampleBlock_fits 8 3 1 12 _ (by decide) (by decide),
      sampleBlock_fits 8 3 1 12 _ (by decide) (by decide), nofun⟩
  have hfree : ∀ b ∈ servedBlocks sampleTurns, b.found.filter isDust = [] := by decide +kernel
  have hdust : ∀ calls, (∀ b ∈ calls, b ∈ servedBlocks sampleTurns) → DustFits "purse" 7 calls := by
    intro calls hcalls done s L hdone hscan
    rw [dustOf_content_free fun b hb => hfree b (hcalls b (hdone.subset (scan_standing hscan b hb)))]
    exact ⟨by decide, by decide⟩
  have hnext : (ScanRt.run "purse" 7 {} sampleTurns).state.map ScanState.next = some 9 := by decide +kernel
  obtain ⟨s, hs, hnine⟩ := Option.map_eq_some_iff.mp hnext
  exact ⟨s, hs, hnine,
    (scan_survives_restarts "purse" 7 (by decide +kernel) (by decide) sampleTurns hblocks hdust).1 s hs⟩

end Molt.Treasury
