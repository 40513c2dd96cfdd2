import Mathlib
import MoltRepublic.Lib.SortedMap
import MoltRepublic.Net.Window

/-! The accept point of a delivery (`net::delivery`): an envelope whose stamped predecessor the
accept window does not hold waits in the ordered park of its sender, and what an accepted one
makes ready is drained from there in seq order. -/

namespace Molt.Net
open List SortedMap Function Option Nat

variable {Body : Type}

structure Envelope (Body : Type) where
  seq : Nat
  ts : Nat
  author : String
  body : Body
  prevSeq : Nat

def orderedParkMax : Nat := 512

def ackDebounceSecs : Nat := 3

/-- What became of an envelope: `passed` is the kind match, `duplicate` the drop at the accept
point, the last two are what the full parks shed. -/
inductive Outcome where
  | passed
  | duplicate
  | parked
  | parkShed
  | declineShed
  deriving DecidableEq

abbrev Happened (Body : Type) := Outcome × Envelope Body

/-- What the delivery maps hold under one sender, and what happened to its envelopes. A sender
without an entry has the empty window and the empty park. -/
structure Link (Body : Type) where
  accepted : AcceptedWindow
  orderedPark : SortedMap Nat (Envelope Body × Nat)
  ackDue : Option Nat
  happened : List (Happened Body)

/-- What a delivery reads of the engine around it. The decline park fills with what is passed,
so its verdict depends on that. -/
structure Engine (Body : Type) where
  member : String
  roster : List String
  net : Option (Nat × List String)
  declined : Body → Option (Nat × String)
  declineWouldShed : List (Happened Body) → Nat → String → Bool
  now : Nat

structure Arrival (Body : Type) where
  source : String
  envelope : Envelope Body
  generation : Option Nat

namespace Link

def empty : Link Body := ⟨AcceptedWindow.default, SortedMap.empty, none, []⟩

def note (l : Link Body) (outcome : Outcome) (envelope : Envelope Body) : Link Body :=
  { l with happened := l.happened ++ [(outcome, envelope)] }

def oweAck (l : Link Body) (due : Nat) : Link Body := { l with ackDue := some (l.ackDue.getD due) }

end Link

def acceptEnvelope (l : Link Body) (seq : Nat) : Bool × Link Body :=
  ((l.accepted.accept seq).1, { l with accepted := (l.accepted.accept seq).2 })

def deliverGated (engine : Engine Body) (source : String) (l : Link Body) (envelope : Envelope Body) : Link Body :=
  if (engine.declined envelope.body).any fun d => d.2 == source && engine.declineWouldShed l.happened d.1 d.2 then
    l.note .declineShed envelope
  else
    let (fresh, l) := acceptEnvelope l envelope.seq
    let l := l.oweAck (engine.now + ackDebounceSecs)
    if fresh then l.note .passed envelope else l.note .duplicate envelope

def hold (engine : Engine Body) (l : Link Body) (envelope : Envelope Body) : Link Body :=
  let park := if (l.orderedPark.get? envelope.seq).isSome then l.orderedPark
    else l.orderedPark.insert envelope.seq (envelope, engine.now)
  ({ l with orderedPark := park }.note .parked envelope).oweAck (engine.now + ackDebounceSecs)

def parkOrdered (engine : Engine Body) (l : Link Body) (envelope : Envelope Body) : Link Body :=
  if orderedParkMax ≤ l.orderedPark.entries.length ∧ l.orderedPark.get? envelope.seq = none then
    match l.orderedPark.entries.getLast? with
    | none => hold engine l envelope
    | some (last, newest, _) =>
      if last < envelope.seq then l.note .parkShed envelope
      else hold engine ({ l with orderedPark := l.orderedPark.erase last }.note .parkShed newest) envelope
  else hold engine l envelope

def ready (win : AcceptedWindow) (envelope : Envelope Body) : Bool :=
  envelope.prevSeq == 0 || win.isAccepted envelope.prevSeq

def takeReadyParked (l : Link Body) : Option (Envelope Body × Link Body) :=
  (l.orderedPark.entries.find? fun entry => ready l.accepted entry.2.1).map fun entry =>
    (entry.2.1, { l with orderedPark := l.orderedPark.erase entry.1 })

def drain (engine : Engine Body) (source : String) : Nat → Link Body → Link Body
  | 0, l => l
  | rounds + 1, l =>
    match takeReadyParked l with
    | none => l
    | some (next, l) => drain engine source rounds (deliverGated engine source l next)

def netGenerationCurrent (engine : Engine Body) : Option Nat → Bool
  | none => true
  | some generation => engine.net.any fun net => net.1 == generation

def admitted (engine : Engine Body) (arrival : Arrival Body) : Bool :=
  let known := match engine.net with
    | some net => net.2.contains arrival.source
    | none => engine.roster.contains arrival.source
  netGenerationCurrent engine arrival.generation && known && arrival.source != engine.member &&
    arrival.envelope.author == arrival.source

def deliver (engine : Engine Body) (source : String) (l : Link Body) (envelope : Envelope Body) : Link Body :=
  if envelope.prevSeq ≠ 0 ∧ 0 < l.accepted.high ∧ l.accepted.isAccepted envelope.prevSeq = false then
    parkOrdered engine l envelope
  else
    let l := deliverGated engine source l envelope
    drain engine source l.orderedPark.entries.length l

def cmdNetDelivered (engine : Engine Body) (links : String → Link Body) (arrival : Arrival Body) :
    String → Link Body :=
  if admitted engine arrival then
    update links arrival.source
      (deliver engine arrival.source (links arrival.source) arrival.envelope)
  else links

def deliverAll (run : List (Engine Body × Arrival Body)) : String → Link Body :=
  run.foldl (fun links x => cmdNetDelivered x.1 links x.2) fun _ => Link.empty

def passedSeqs (happened : List (Happened Body)) : List Nat :=
  (happened.filter fun h => h.1 == .passed).map fun h => h.2.seq

structure Chain where
  seq : Nat → Nat
  increasing : StrictMono seq
  positive : 0 < seq 0

namespace Chain

def prev (c : Chain) : Nat → Nat
  | 0 => 0
  | k + 1 => c.seq k

def Stamped (c : Chain) (envelope : Envelope Body) : Prop :=
  ∃ k, envelope.seq = c.seq k ∧ envelope.prevSeq = c.prev k

variable (c : Chain)

theorem pos (k : Nat) : 0 < c.seq k :=
  c.positive.trans_le (c.increasing.monotone (Nat.zero_le k))

theorem seq_inj {i k : Nat} (h : c.seq i = c.seq k) : i = k := c.increasing.injective h

theorem le_of_seq_le {i k : Nat} (h : c.seq i ≤ c.seq k) : i ≤ k := c.increasing.le_iff_le.mp h

end Chain

/-- The seq at place `k` may be taken after these: its predecessor is among them, or it comes
before the first of them and its predecessor has aged out. -/
def InTurn (c : Chain) (taken : List Nat) (k : Nat) : Prop :=
  k = 0 ∨ c.seq (k - 1) ∈ taken ∨
    (∃ f, taken.head? = some (c.seq f) ∧ k < f) ∧ ∃ high ∈ taken, c.seq (k - 1) + acceptWindowBits < high

def Judged (c : Chain) (before : List (Happened Body)) : Happened Body → Prop
  | (.passed, e) => e.seq ∉ passedSeqs before ∧
      ∀ k, e.seq = c.seq k → passedSeqs before ≠ [] → InTurn c (passedSeqs before) k
  | (.duplicate, e) => ∀ f k, (passedSeqs before).head? = some (c.seq f) → e.seq = c.seq k → f ≤ k →
      e.seq ∈ passedSeqs before
  | _ => True

def AllJudged (c : Chain) (happened : List (Happened Body)) : Prop :=
  ∀ before h after, happened = before ++ h :: after → Judged c before h

structure Ordered (c : Chain) (l : Link Body) : Prop where
  tracks : l.accepted.Tracks (passedSeqs l.happened)
  chained : ∀ seq ∈ passedSeqs l.happened, ∃ k, seq = c.seq k
  held : ∀ seq entry, l.orderedPark.get? seq = some entry → entry.1.seq = seq ∧ c.Stamped entry.1
  followers : ∀ f, (passedSeqs l.happened).head? = some (c.seq f) →
    ∃ j, f ≤ j ∧ ∀ k, f ≤ k → (c.seq k ∈ passedSeqs l.happened ↔ k ≤ j)
  judged : AllJudged c l.happened

theorem passedSeqs_append (a b : List (Happened Body)) : passedSeqs (a ++ b) = passedSeqs a ++ passedSeqs b := by
  unfold passedSeqs
  rw [filter_append, map_append]

theorem passedSeqs_passed (e : Envelope Body) : passedSeqs [(.passed, e)] = [e.seq] := rfl

theorem passedSeqs_other {outcome : Outcome} (h : outcome ≠ .passed) (e : Envelope Body) :
    passedSeqs [(outcome, e)] = [] := by
  simp [passedSeqs, h]

theorem AllJudged.concat {c : Chain} {happened : List (Happened Body)} (hall : AllJudged c happened)
    {h : Happened Body} (hlast : Judged c happened h) : AllJudged c (happened ++ [h]) := by
  intro before g after heq
  rcases eq_nil_or_concat after with rfl | ⟨rest, last, rfl⟩
  · obtain ⟨rfl, hg⟩ := append_inj' heq rfl
    obtain rfl := List.cons.inj hg |>.1
    exact hlast
  · rw [concat_eq_append, ← cons_append, ← append_assoc] at heq
    obtain ⟨rfl, -⟩ := append_inj' heq rfl
    exact hall before g rest rfl

section

variable {c : Chain} {l : Link Body}

theorem Ordered.head (h : Ordered c l) (hne : passedSeqs l.happened ≠ []) :
    ∃ f, (passedSeqs l.happened).head? = some (c.seq f) := by
  have hhead := head?_eq_some_head hne
  obtain ⟨f, hf⟩ := h.chained _ (head_mem hne)
  exact ⟨f, by rw [hhead, hf]⟩

theorem Ordered.high_mem (h : Ordered c l) (hne : passedSeqs l.happened ≠ []) :
    l.accepted.high ∈ passedSeqs l.happened := by
  obtain ⟨seq, hseq⟩ := exists_mem_of_ne_nil _ hne
  have hpos := h.tracks.positive seq hseq
  have hle := h.tracks.below seq hseq
  exact h.tracks.high.resolve_left (by omega)

theorem Ordered.high_eq (h : Ordered c l) {f j : Nat} (hf : (passedSeqs l.happened).head? = some (c.seq f))
    (hfj : f ≤ j) (hj : ∀ k, f ≤ k → (c.seq k ∈ passedSeqs l.happened ↔ k ≤ j)) :
    l.accepted.high = c.seq j := by
  have hne : passedSeqs l.happened ≠ [] := by
    intro hnil
    rw [hnil] at hf
    cases hf
  have hmem := h.high_mem hne
  obtain ⟨m, hm⟩ := h.chained _ hmem
  apply Nat.le_antisymm
  · rw [hm]
    apply c.increasing.monotone
    by_cases hfm : f ≤ m
    · exact (hj m hfm).mp (hm ▸ hmem)
    · omega
  · exact h.tracks.below _ ((hj j hfj).mpr Nat.le.refl)

theorem Ordered.next (h : Ordered c l) {f k : Nat} {e : Envelope Body}
    (hf : (passedSeqs l.happened).head? = some (c.seq f)) (hk : f ≤ k) (hprev : e.prevSeq = c.prev k)
    (hready : ready l.accepted e = true) (hnew : c.seq k ∉ passedSeqs l.happened) :
    ∃ j, f ≤ j ∧ k = j + 1 ∧ ∀ i, f ≤ i → (c.seq i ∈ passedSeqs l.happened ↔ i ≤ j) := by
  obtain ⟨j, hfj, hj⟩ := h.followers f hf
  have hhigh := h.high_eq hf hfj hj
  have hjk : j < k := by
    rw [hj k hk] at hnew
    omega
  obtain ⟨m, rfl⟩ : ∃ m, k = m + 1 := ⟨k - 1, by omega⟩
  have hpos := c.pos m
  have hprev' : e.prevSeq = c.seq m := hprev
  have haccepted : l.accepted.isAccepted (c.seq m) = true := by
    have hne : c.seq m ≠ 0 := by omega
    simpa [ready, hprev', hne] using hready
  have hmem : c.seq m ∈ passedSeqs l.happened := by
    rcases (h.tracks.isAccepted_iff hpos).mp haccepted with hmem | haged
    · exact hmem
    · -- the predecessor is not below the highest one passed
      have hle : c.seq j ≤ c.seq m := c.increasing.monotone (by omega)
      omega
  have hmj : m ≤ j := (hj m (by omega)).mp hmem
  exact ⟨j, hfj, by omega, hj⟩

theorem Ordered.inTurn (h : Ordered c l) {k : Nat} {e : Envelope Body} (hprev : e.prevSeq = c.prev k)
    (hready : ready l.accepted e = true) (hnew : c.seq k ∉ passedSeqs l.happened)
    (hne : passedSeqs l.happened ≠ []) : InTurn c (passedSeqs l.happened) k := by
  obtain ⟨f, hf⟩ := h.head hne
  by_cases hk : f ≤ k
  · obtain ⟨j, hfj, rfl, hj⟩ := h.next hf hk hprev hready hnew
    exact .inr (.inl ((hj j hfj).mpr Nat.le.refl))
  · cases k with
    | zero => exact .inl rfl
    | succ m =>
      have hpos := c.pos m
      have hprev' : e.prevSeq = c.seq m := hprev
      have haccepted : l.accepted.isAccepted (c.seq m) = true := by
        have hne : c.seq m ≠ 0 := by omega
        simpa [ready, hprev', hne] using hready
      rcases (h.tracks.isAccepted_iff hpos).mp haccepted with hmem | haged
      · exact .inr (.inl hmem)
      · exact .inr (.inr ⟨⟨f, hf, Nat.not_le.mp hk⟩, l.accepted.high, h.high_mem hne, haged⟩)

theorem Ordered.congr {l' : Link Body} (h : Ordered c l) (haccepted : l'.accepted = l.accepted)
    (hpassed : passedSeqs l'.happened = passedSeqs l.happened) (hjudged : AllJudged c l'.happened)
    (hheld : ∀ seq entry, l'.orderedPark.get? seq = some entry → entry.1.seq = seq ∧ c.Stamped entry.1) :
    Ordered c l' where
  tracks := by rw [haccepted, hpassed]; exact h.tracks
  chained := by rw [hpassed]; exact h.chained
  held := hheld
  followers := by rw [hpassed]; exact h.followers
  judged := hjudged

end

section

variable {c : Chain} {l : Link Body} {engine : Engine Body} {source : String} {e : Envelope Body}

def Roomy (engine : Engine Body) : Prop := ∀ happened id who, engine.declineWouldShed happened id who = false

theorem deliverGated_eq (hroom : Roomy engine) (l : Link Body) :
    deliverGated engine source l e =
      ⟨(l.accepted.accept e.seq).2, l.orderedPark, some (l.ackDue.getD (engine.now + ackDebounceSecs)),
        l.happened ++ [(if (l.accepted.accept e.seq).1 then .passed else .duplicate, e)]⟩ := by
  have hshed : (engine.declined e.body).any
      (fun d => d.2 == source && engine.declineWouldShed l.happened d.1 d.2) = false := by
    cases engine.declined e.body with
    | none => rfl
    | some d => simp [hroom l.happened d.1 d.2]
  unfold deliverGated
  rw [if_neg (by simp [hshed])]
  unfold acceptEnvelope
  dsimp only
  split_ifs <;> rfl

variable {k : Nat}

theorem Ordered.pass (h : Ordered c l) (hroom : Roomy engine) (hseq : e.seq = c.seq k)
    (hprev : e.prevSeq = c.prev k) (hready : ready l.accepted e = true ∨ l.accepted.high = 0)
    (hfresh : (l.accepted.accept e.seq).1 = true) : Ordered c (deliverGated engine source l e) := by
  have hpos : 0 < e.seq := hseq ▸ c.pos k
  obtain ⟨hnew, -⟩ := (AcceptedWindow.accept_fresh_iff h.tracks hpos).mp hfresh
  have hready' : passedSeqs l.happened ≠ [] → ready l.accepted e = true := by
    intro hne
    refine hready.resolve_right fun hzero => ?_
    have hlt := h.tracks.positive _ (h.high_mem hne)
    omega
  rw [deliverGated_eq hroom, hfresh]
  have hpassed : passedSeqs (l.happened ++ [(Outcome.passed, e)]) = passedSeqs l.happened ++ [e.seq] := by
    rw [passedSeqs_append, passedSeqs_passed]
  refine ⟨?_, ?_, h.held, ?_, ?_⟩
  · show (l.accepted.accept e.seq).2.Tracks (passedSeqs (l.happened ++ [(Outcome.passed, e)]))
    rw [hpassed]
    exact h.tracks.accept hpos hfresh
  · show ∀ seq ∈ passedSeqs (l.happened ++ [(Outcome.passed, e)]), ∃ k, seq = c.seq k
    rw [hpassed]
    exact forall_mem_append.mpr ⟨h.chained, fun seq hmem => ⟨k, by rw [mem_singleton.mp hmem, hseq]⟩⟩
  · show ∀ f, (passedSeqs (l.happened ++ [(Outcome.passed, e)])).head? = some (c.seq f) → ∃ j, f ≤ j ∧
      ∀ i, f ≤ i → (c.seq i ∈ passedSeqs (l.happened ++ [(Outcome.passed, e)]) ↔ i ≤ j)
    rw [hpassed, hseq]
    rw [hseq] at hnew
    intro f hf
    by_cases hne : passedSeqs l.happened = []
    · rw [hne, nil_append, head?_cons, Option.some.injEq] at hf
      obtain rfl := c.seq_inj hf
      refine ⟨k, Nat.le.refl, fun i hi => ?_⟩
      rw [hne, nil_append, mem_singleton]
      exact ⟨fun heq => Nat.le_of_eq (c.seq_inj heq), fun hle => by rw [Nat.le_antisymm hle hi]⟩
    · rw [head?_append_of_ne_nil _ hne] at hf
      by_cases hk : f ≤ k
      · -- the run of followers grows by one
        obtain ⟨j, hfj, rfl, hj⟩ := h.next hf hk hprev (hready' hne) hnew
        refine ⟨j + 1, by omega, fun i hi => ?_⟩
        rw [mem_append, hj i hi, mem_singleton]
        constructor
        · rintro (hle | heq)
          · omega
          · exact Nat.le_of_eq (c.seq_inj heq)
        · intro hle
          by_cases heq : i = j + 1
          · exact .inr (by rw [heq])
          · exact .inl (by omega)
      · obtain ⟨j, hfj, hj⟩ := h.followers f hf
        refine ⟨j, hfj, fun i hi => ?_⟩
        have hother : c.seq i ≠ c.seq k := fun heq => hk (c.seq_inj heq ▸ hi)
        rw [mem_append, hj i hi, mem_singleton]
        exact or_iff_left hother
  · refine h.judged.concat ⟨hnew, fun i hi hne => ?_⟩
    obtain rfl : k = i := c.seq_inj (hseq.symm.trans hi)
    rw [hseq] at hnew
    exact h.inTurn hprev (hready' hne) hnew hne

theorem Ordered.stale (h : Ordered c l) (hstale : (l.accepted.accept (c.seq k)).1 = false) :
    ∃ f, (passedSeqs l.happened).head? = some (c.seq f) ∧
      (f ≤ k → c.seq k ∈ passedSeqs l.happened) := by
  have hold : c.seq k ∈ passedSeqs l.happened ∨ c.seq k + acceptWindowBits < l.accepted.high := by
    by_contra hnot
    have hfresh := (AcceptedWindow.accept_fresh_iff h.tracks (c.pos k)).mpr (not_or.mp hnot)
    rw [hstale] at hfresh
    cases hfresh
  have hne : passedSeqs l.happened ≠ [] := by
    intro hnil
    rcases hold with hmem | haged
    · rw [hnil] at hmem
      cases hmem
    · have hhigh := h.tracks.high.resolve_right (by rw [hnil]; exact not_mem_nil)
      omega
  obtain ⟨f, hf⟩ := h.head hne
  refine ⟨f, hf, fun hfk => hold.elim id fun haged => ?_⟩
  -- what follows the first one and lies below the highest one was passed
  obtain ⟨j, hfj, hj⟩ := h.followers f hf
  rw [h.high_eq hf hfj hj] at haged
  exact (hj k hfk).mpr (c.le_of_seq_le (by omega))

theorem Ordered.duplicate (h : Ordered c l) (hroom : Roomy engine)
    (hstale : (l.accepted.accept e.seq).1 = false) : Ordered c (deliverGated engine source l e) := by
  rw [deliverGated_eq hroom, hstale]
  refine h.congr (AcceptedWindow.accept_stale hstale) ?_ ?_ h.held
  · show passedSeqs (l.happened ++ [(Outcome.duplicate, e)]) = passedSeqs l.happened
    rw [passedSeqs_append, passedSeqs_other (by decide), append_nil]
  · refine h.judged.concat fun f i hf hi hfi => ?_
    rw [hi] at hstale ⊢
    obtain ⟨f', hf', hpassed⟩ := h.stale hstale
    rw [hf, Option.some.injEq] at hf'
    exact hpassed (c.seq_inj hf' ▸ hfi)

theorem Ordered.deliverGated (h : Ordered c l) (hroom : Roomy engine) (he : c.Stamped e)
    (hready : ready l.accepted e = true ∨ l.accepted.high = 0) : Ordered c (deliverGated engine source l e) := by
  obtain ⟨k, hseq, hprev⟩ := he
  cases hfresh : (l.accepted.accept e.seq).1 with
  | true => exact h.pass hroom hseq hprev hready hfresh
  | false => exact h.duplicate hroom hfresh

/-- The envelope at place `k` is not lost: passed, parked, or from before the first one passed. -/
def Kept (c : Chain) (l : Link Body) (k : Nat) : Prop :=
  c.seq k ∈ passedSeqs l.happened ∨ (∃ entry, l.orderedPark.get? (c.seq k) = some entry) ∨
    ∃ f, (passedSeqs l.happened).head? = some (c.seq f) ∧ k < f

structure Carries (c : Chain) (l later : Link Body) (arrived : Nat → Prop) : Prop where
  ordered : Ordered c later
  kept : ∃ more, later.happened = l.happened ++ more ∧ ∀ k, Kept c l k ∨ arrived k →
    Kept c later k ∨ ∃ x, (.parkShed, x) ∈ more ∧ x.seq = c.seq k

theorem Ordered.carries (h : Ordered c l) : Carries c l l fun _ => False where
  ordered := h
  kept := ⟨[], (append_nil _).symm, fun _ hk => .inl (hk.resolve_right id)⟩

theorem Carries.trans {mid later : Link Body} {arrived : Nat → Prop} (h : Carries c l mid arrived)
    (h' : Carries c mid later fun _ => False) : Carries c l later arrived where
  ordered := h'.ordered
  kept := by
    obtain ⟨more, hmore, hkept⟩ := h.kept
    obtain ⟨more', hmore', hkept'⟩ := h'.kept
    refine ⟨more ++ more', by rw [hmore', hmore, append_assoc], fun k hk => ?_⟩
    rcases hkept k hk with hk | ⟨x, hx, hxk⟩
    · rcases hkept' k (.inl hk) with hk | ⟨x, hx, hxk⟩
      · exact .inl hk
      · exact .inr ⟨x, mem_append_right _ hx, hxk⟩
    · exact .inr ⟨x, mem_append_left _ hx, hxk⟩

theorem head?_passedSeqs_append {a : List (Happened Body)} {seq : Nat} (h : (passedSeqs a).head? = some seq)
    (b : List (Happened Body)) : (passedSeqs (a ++ b)).head? = some seq := by
  rw [passedSeqs_append, head?_append, h]
  rfl

theorem Kept.mono {later : Link Body} (h : Kept c l k) {more : List (Happened Body)}
    (hmore : later.happened = l.happened ++ more)
    (hpark : ∀ entry, l.orderedPark.get? (c.seq k) = some entry → Kept c later k) : Kept c later k := by
  rcases h with hpassed | ⟨entry, hentry⟩ | ⟨f, hf, hkf⟩
  · left
    rw [hmore, passedSeqs_append]
    exact mem_append_left _ hpassed
  · exact hpark entry hentry
  · exact .inr (.inr ⟨f, by rw [hmore]; exact head?_passedSeqs_append hf more, hkf⟩)

theorem Ordered.delivered (h : Ordered c l) (hroom : Roomy engine) (hseq : e.seq = c.seq k) :
    Kept c (Net.deliverGated engine source l e) k := by
  rw [deliverGated_eq hroom]
  cases hfresh : (l.accepted.accept e.seq).1 with
  | true =>
    left
    show c.seq k ∈ passedSeqs (l.happened ++ [(Outcome.passed, e)])
    rw [passedSeqs_append, passedSeqs_passed, ← hseq]
    exact mem_append_right _ (.head _)
  | false =>
    have hpassed : passedSeqs (l.happened ++ [(Outcome.duplicate, e)]) = passedSeqs l.happened := by
      rw [passedSeqs_append, passedSeqs_other (by decide), append_nil]
    rw [hseq] at hfresh
    obtain ⟨f, hf, hfollows⟩ := h.stale hfresh
    by_cases hk : f ≤ k
    · left
      show c.seq k ∈ passedSeqs (l.happened ++ [(Outcome.duplicate, e)])
      rw [hpassed]
      exact hfollows hk
    · right; right
      refine ⟨f, ?_, Nat.not_le.mp hk⟩
      show (passedSeqs (l.happened ++ [(Outcome.duplicate, e)])).head? = some (c.seq f)
      rw [hpassed, hf]

variable {next : Envelope Body} {rest : Link Body}

theorem takeReadyParked_eq_some (h : takeReadyParked l = some (next, rest)) :
    ∃ seq at', l.orderedPark.get? seq = some (next, at') ∧
      ready l.accepted next = true ∧ rest = { l with orderedPark := l.orderedPark.erase seq } := by
  obtain ⟨⟨seq, env, at'⟩, hfind, heq⟩ := map_eq_some_iff.mp h
  cases heq
  refine ⟨seq, at', get?_eq_some.mpr (mem_of_find?_eq_some hfind), ?_, rfl⟩
  have hready := find?_some hfind
  exact hready

theorem takeReadyParked_eq_none : takeReadyParked l = none ↔
    ∀ seq entry, l.orderedPark.get? seq = some entry → ready l.accepted entry.1 = false := by
  unfold takeReadyParked
  rw [map_eq_none_iff, find?_eq_none]
  constructor
  · intro h seq entry hentry
    have hnot := h (seq, entry) (get?_eq_some.mp hentry)
    simpa using hnot
  · intro h entry hentry
    have hnot := h entry.1 entry.2 (get?_eq_some.mpr hentry)
    simpa using hnot

theorem Ordered.taken (h : Ordered c l) (htake : takeReadyParked l = some (next, rest)) :
    Ordered c rest ∧ c.Stamped next ∧ ready rest.accepted next = true ∧ rest.accepted = l.accepted := by
  obtain ⟨seq, at', hget, hready, rfl⟩ := takeReadyParked_eq_some htake
  refine ⟨h.congr rfl rfl h.judged fun s entry hs => ?_, (h.held seq (next, at') hget).2, hready, rfl⟩
  rw [get?_erase] at hs
  split_ifs at hs
  exact h.held s entry hs

theorem Ordered.drainRound (h : Ordered c l) (hroom : Roomy engine)
    (htake : takeReadyParked l = some (next, rest)) :
    Carries c l (Net.deliverGated engine source rest next) fun _ => False := by
  obtain ⟨hrest, hstamped, -, -⟩ := h.taken htake
  obtain ⟨seq, at', hget, hready, rfl⟩ := takeReadyParked_eq_some htake
  have hkey : next.seq = seq := (h.held seq (next, at') hget).1
  have hmore : (Net.deliverGated engine source { l with orderedPark := l.orderedPark.erase seq } next).happened =
      l.happened ++ [(if (l.accepted.accept next.seq).1 then .passed else .duplicate, next)] := by
    rw [deliverGated_eq hroom]
  refine ⟨hrest.deliverGated hroom hstamped (.inl hready), _, hmore, fun k hk => .inl ?_⟩
  refine (hk.resolve_right id).mono hmore fun entry hentry => ?_
  by_cases hs : c.seq k = seq
  · exact hrest.delivered hroom (hkey.trans hs.symm)
  · refine .inr (.inl ⟨entry, ?_⟩)
    rw [deliverGated_eq hroom]
    rw [get?_erase, if_neg hs, hentry]

theorem Ordered.drain (hroom : Roomy engine) (rounds : Nat) (h : Ordered c l) :
    Carries c l (drain engine source rounds l) fun _ => False := by
  induction rounds generalizing l with
  | zero => exact h.carries
  | succ rounds ih =>
    unfold Net.drain
    cases htake : takeReadyParked l with
    | none => exact h.carries
    | some taken =>
      have hround : Carries c l (Net.deliverGated engine source taken.2 taken.1) fun _ => False :=
        h.drainRound hroom htake
      exact hround.trans (ih hround.ordered)

theorem deliverGated_park (l : Link Body) : (Net.deliverGated engine source l e).orderedPark = l.orderedPark := by
  unfold Net.deliverGated acceptEnvelope
  dsimp only
  split_ifs <;> rfl

theorem drain_ends (engine : Engine Body) (source : String) {rounds : Nat} {l : Link Body}
    (h : l.orderedPark.entries.length ≤ rounds) : takeReadyParked (drain engine source rounds l) = none := by
  induction rounds generalizing l with
  | zero =>
    rw [takeReadyParked_eq_none]
    intro seq entry hentry
    have hmem := get?_eq_some.mp hentry
    have hnil : l.orderedPark.entries = [] := eq_nil_of_length_eq_zero (le_zero.mp h)
    have hpark : (Net.drain engine source 0 l).orderedPark = l.orderedPark := rfl
    rw [hpark, hnil] at hmem
    cases hmem
  | succ rounds ih =>
    unfold Net.drain
    cases htake : takeReadyParked l with
    | none => exact htake
    | some taken =>
      obtain ⟨seq, at', hget, -, hrest⟩ := takeReadyParked_eq_some htake
      apply ih
      have hshorter := length_erase_lt hget
      rw [deliverGated_park, hrest]
      show (l.orderedPark.erase seq).entries.length ≤ rounds
      omega

theorem get?_hold (seq : Nat) : (hold engine l e).orderedPark.get? seq =
    if seq = e.seq ∧ l.orderedPark.get? e.seq = none then some (e, engine.now) else l.orderedPark.get? seq := by
  unfold hold Link.note Link.oweAck
  cases hheld : l.orderedPark.get? e.seq with
  | none =>
    rw [if_neg (by simp), get?_insert]
    simp
  | some entry => simp

theorem hold_happened : (hold engine l e).happened = l.happened ++ [(.parked, e)] := rfl

theorem hold_accepted : (hold engine l e).accepted = l.accepted := rfl

theorem Ordered.other (h : Ordered c l) {outcome : Outcome} (hjudged : Judged c l.happened (outcome, e))
    (hother : outcome ≠ .passed) : Ordered c (l.note outcome e) := by
  refine h.congr rfl ?_ (h.judged.concat hjudged) h.held
  show passedSeqs (l.happened ++ [(outcome, e)]) = passedSeqs l.happened
  rw [passedSeqs_append, passedSeqs_other hother, append_nil]

theorem Ordered.hold (h : Ordered c l) (he : c.Stamped e) :
    Carries c l (hold engine l e) fun k => e.seq = c.seq k := by
  refine ⟨?_, _, hold_happened, fun k hk => .inl ?_⟩
  · refine h.congr hold_accepted ?_ (h.judged.concat trivial) fun seq entry hentry => ?_
    · show passedSeqs (l.happened ++ [(Outcome.parked, e)]) = passedSeqs l.happened
      rw [passedSeqs_append, passedSeqs_other (by decide), append_nil]
    · rw [get?_hold] at hentry
      split_ifs at hentry with hnew
      · cases hentry
        exact ⟨hnew.1.symm, he⟩
      · exact h.held seq entry hentry
  · have hparked : ∀ entry, l.orderedPark.get? (c.seq k) = some entry → Kept c (Net.hold engine l e) k := by
      intro entry hentry
      refine .inr (.inl ⟨entry, ?_⟩)
      rw [get?_hold, if_neg, hentry]
      rintro ⟨hk, hnone⟩
      rw [← hk, hentry] at hnone
      cases hnone
    rcases hk with hk | hk
    · exact hk.mono hold_happened hparked
    · cases hheld : l.orderedPark.get? (c.seq k) with
      | some entry => exact hparked entry hheld
      | none => exact .inr (.inl ⟨(e, engine.now), by rw [get?_hold, hk, if_pos ⟨rfl, hheld⟩]⟩)

theorem Ordered.evict (h : Ordered c l) {last at' : Nat} {newest : Envelope Body}
    (hlast : l.orderedPark.get? last = some (newest, at')) :
    Carries c l ({ l with orderedPark := l.orderedPark.erase last }.note .parkShed newest) fun _ => False := by
  obtain ⟨hkey, -⟩ := h.held last _ hlast
  refine ⟨?_, _, rfl, fun k hk => ?_⟩
  · refine h.congr rfl ?_ (h.judged.concat trivial) fun seq entry hentry => ?_
    · show passedSeqs (l.happened ++ [(Outcome.parkShed, newest)]) = passedSeqs l.happened
      rw [passedSeqs_append, passedSeqs_other (by decide), append_nil]
    · have hentry : (l.orderedPark.erase last).get? seq = some entry := hentry
      rw [get?_erase] at hentry
      split_ifs at hentry
      exact h.held seq entry hentry
  · by_cases hk' : c.seq k = last
    · exact .inr ⟨newest, .head _, hkey.trans hk'.symm⟩
    · refine .inl ((hk.resolve_right id).mono rfl fun entry hentry => .inr (.inl ⟨entry, ?_⟩))
      show (l.orderedPark.erase last).get? (c.seq k) = some entry
      rw [get?_erase, if_neg hk', hentry]

theorem Carries.andHold {mid : Link Body} (h : Carries c l mid fun _ => False) (he : c.Stamped e) :
    Carries c l (Net.hold engine mid e) fun k => e.seq = c.seq k := by
  obtain ⟨more, hmore, hkept⟩ := h.kept
  have hhold : Carries c mid (Net.hold engine mid e) fun k => e.seq = c.seq k := h.ordered.hold he
  obtain ⟨more', hmore', hkept'⟩ := hhold.kept
  refine ⟨hhold.ordered, more ++ more', by rw [hmore', hmore, append_assoc], fun k hk => ?_⟩
  have hmid : (Kept c mid k ∨ e.seq = c.seq k) ∨ ∃ x, (Outcome.parkShed, x) ∈ more ∧ x.seq = c.seq k := by
    rcases hk with hk | hk
    · exact (hkept k (.inl hk)).imp_left .inl
    · exact .inl (.inr hk)
  rcases hmid with hk | ⟨x, hx, hxk⟩
  · exact (hkept' k hk).imp_right fun ⟨x, hx, hxk⟩ => ⟨x, mem_append_right _ hx, hxk⟩
  · exact .inr ⟨x, mem_append_left _ hx, hxk⟩

theorem Ordered.parkOrdered (h : Ordered c l) (he : c.Stamped e) :
    Carries c l (parkOrdered engine l e) fun k => e.seq = c.seq k := by
  unfold Net.parkOrdered
  split_ifs with hfull
  · split
    case h_1 => exact h.hold he
    case h_2 last newest at' hlast =>
      have hget : l.orderedPark.get? last = some (newest, at') :=
        get?_eq_some.mpr (mem_of_getLast? hlast)
      split_ifs with hnewest
      · refine ⟨h.other trivial (by decide), _, rfl, fun k hk => ?_⟩
        rcases hk with hk | hk
        · exact .inl (hk.mono rfl fun entry hentry => .inr (.inl ⟨entry, hentry⟩))
        · exact .inr ⟨e, .head _, hk⟩
      · exact (h.evict hget).andHold he
  · exact h.hold he

theorem parkOrdered_accepted : (parkOrdered engine l e).accepted = l.accepted := by
  unfold parkOrdered
  split_ifs
  · split
    · rfl
    · split_ifs <;> rfl
  · rfl

theorem mem_parkOrdered {seq : Nat} {entry : Envelope Body × Nat}
    (h : (parkOrdered engine l e).orderedPark.get? seq = some entry) :
    entry.1 = e ∨ l.orderedPark.get? seq = some entry := by
  have hhold : ∀ mid : Link Body, (Net.hold engine mid e).orderedPark.get? seq = some entry →
      entry.1 = e ∨ mid.orderedPark.get? seq = some entry := by
    intro mid hmid
    rw [get?_hold] at hmid
    split_ifs at hmid
    · exact .inl (congrArg Prod.fst (Option.some.inj hmid)).symm
    · exact .inr hmid
  unfold parkOrdered at h
  split_ifs at h
  · split at h
    case h_1 => exact hhold l h
    case h_2 last newest at' hlast =>
      split_ifs at h
      · exact .inr h
      · refine (hhold _ h).imp_right fun hold => ?_
        have hold : (l.orderedPark.erase last).get? seq = some entry := hold
        rw [get?_erase] at hold
        split_ifs at hold
        exact hold
  · exact hhold l h

theorem parkOrdered_quiet (hquiet : takeReadyParked l = none) (he : ready l.accepted e = false) :
    takeReadyParked (parkOrdered engine l e) = none := by
  rw [takeReadyParked_eq_none] at hquiet ⊢
  intro seq entry hentry
  rw [parkOrdered_accepted]
  rcases mem_parkOrdered hentry with rfl | hold
  · exact he
  · exact hquiet seq entry hold

theorem Ordered.accepted (h : Ordered c l) (hroom : Roomy engine) (he : c.Stamped e)
    (hready : ready l.accepted e = true ∨ l.accepted.high = 0) :
    Carries c l (Net.deliverGated engine source l e) fun k => e.seq = c.seq k := by
  have hmore : (Net.deliverGated engine source l e).happened =
      l.happened ++ [(if (l.accepted.accept e.seq).1 then .passed else .duplicate, e)] := by
    rw [deliverGated_eq hroom]
  refine ⟨h.deliverGated hroom he hready, _, hmore, fun k hk => .inl ?_⟩
  rcases hk with hk | hk
  · refine hk.mono hmore fun entry hentry => .inr (.inl ⟨entry, ?_⟩)
    rw [deliverGated_park, hentry]
  · exact h.delivered hroom hk

theorem Ordered.deliver (h : Ordered c l) (hroom : Roomy engine) (hquiet : takeReadyParked l = none)
    (he : c.Stamped e) : Carries c l (deliver engine source l e) (fun k => e.seq = c.seq k) ∧
      takeReadyParked (deliver engine source l e) = none := by
  unfold Net.deliver
  split_ifs with hwait
  · obtain ⟨hprev, -, hmissing⟩ := hwait
    have hunready : ready l.accepted e = false := by simp [ready, hprev, hmissing]
    exact ⟨h.parkOrdered he, parkOrdered_quiet hquiet hunready⟩
  · have hready : ready l.accepted e = true ∨ l.accepted.high = 0 := by
      by_cases hzero : l.accepted.high = 0
      · exact .inr hzero
      · left
        by_contra hnot
        simp only [ready, Bool.or_eq_true, beq_iff_eq, not_or, Bool.not_eq_true] at hnot
        exact hwait ⟨hnot.1, Nat.pos_iff_ne_zero.mpr hzero, hnot.2⟩
    have haccepted : Carries c l (Net.deliverGated engine source l e) fun k => e.seq = c.seq k :=
      h.accepted hroom he hready
    exact ⟨haccepted.trans (haccepted.ordered.drain hroom _), drain_ends engine source Nat.le.refl⟩

end

section

variable {c : Chain} {sender : String}

/-- The envelopes that arrive from the sender are those of its chain, and no decline is shed. -/
def Honest (c : Chain) (sender : String) (run : List (Engine Body × Arrival Body)) : Prop :=
  ∀ x ∈ run, x.2.source = sender → c.Stamped x.2.envelope ∧ Roomy x.1

theorem deliverAll_append (run more : List (Engine Body × Arrival Body)) : deliverAll (run ++ more) =
    more.foldl (fun links x => cmdNetDelivered x.1 links x.2) (deliverAll run) := by
  unfold deliverAll
  rw [foldl_append]

theorem ordered_empty (c : Chain) : Ordered c (Link.empty : Link Body) where
  tracks := AcceptedWindow.tracks_default
  chained := by simp [passedSeqs, Link.empty]
  held := by simp [Link.empty, get?_empty]
  followers := by simp [passedSeqs, Link.empty]
  judged := by
    intro before h after heq
    simp [Link.empty] at heq

theorem cmdNetDelivered_carries {links : String → Link Body} {x : Engine Body × Arrival Body}
    (hx : x.2.source = sender → c.Stamped x.2.envelope ∧ Roomy x.1) (h : Ordered c (links sender))
    (hquiet : takeReadyParked (links sender) = none) :
    Carries c (links sender) (cmdNetDelivered x.1 links x.2 sender)
      (fun k => x.2.source = sender ∧ admitted x.1 x.2 = true ∧ x.2.envelope.seq = c.seq k) ∧
    takeReadyParked (cmdNetDelivered x.1 links x.2 sender) = none := by
  have hidle : ∀ arrived : Nat → Prop, (∀ k, ¬ arrived k) → Carries c (links sender) (links sender) arrived := by
    intro arrived hnone
    obtain ⟨hordered, more, hmore, hkept⟩ := h.carries
    exact ⟨hordered, more, hmore, fun k hk => hkept k (hk.imp_right (hnone k))⟩
  unfold cmdNetDelivered
  split_ifs with hgates
  · by_cases hsource : x.2.source = sender
    · obtain ⟨hstamped, hroom⟩ := hx hsource
      subst hsource
      rw [update_self]
      obtain ⟨⟨hordered, more, hmore, hkept⟩, hends⟩ := h.deliver hroom hquiet hstamped
      exact ⟨⟨hordered, more, hmore, fun k hk => hkept k (hk.imp_right fun hk => hk.2.2)⟩, hends⟩
    · rw [update_of_ne (Ne.symm hsource)]
      exact ⟨hidle _ fun k hk => hsource hk.1, hquiet⟩
  · exact ⟨hidle _ fun k hk => hgates hk.2.1, hquiet⟩

variable {run : List (Engine Body × Arrival Body)}

theorem run_ordered (h : Honest c sender run) :
    Ordered c (deliverAll run sender) ∧ takeReadyParked (deliverAll run sender) = none := by
  induction run using List.reverseRecOn with
  | nil => exact ⟨ordered_empty c, rfl⟩
  | append_singleton run x ih =>
    obtain ⟨hordered, hquiet⟩ := ih fun y hy => h y (mem_append_left _ hy)
    have hlast := h x (mem_append_right _ (.head _))
    obtain ⟨hcarries, hends⟩ := cmdNetDelivered_carries hlast hordered hquiet
    rw [deliverAll_append]
    exact ⟨hcarries.ordered, hends⟩

theorem run_carries {more : List (Engine Body × Arrival Body)} (h : Honest c sender (run ++ more)) :
    Carries c (deliverAll run sender) (deliverAll (run ++ more) sender) fun _ => False := by
  induction more using List.reverseRecOn with
  | nil =>
    rw [append_nil] at h ⊢
    exact (run_ordered h).1.carries
  | append_singleton more x ih =>
    rw [← append_assoc] at h ⊢
    have hbefore : Honest c sender (run ++ more) := fun y hy => h y (mem_append_left _ hy)
    obtain ⟨hordered, hquiet⟩ := run_ordered hbefore
    have hlast := h x (mem_append_right _ (.head _))
    obtain ⟨⟨hordered, more', hmore, hkept⟩, -⟩ := cmdNetDelivered_carries hlast hordered hquiet
    rw [deliverAll_append (run ++ more)]
    exact (ih hbefore).trans ⟨hordered, more', hmore, fun k hk => hkept k (hk.imp_right False.elim)⟩

/-- An envelope of this seq came through the gates, and the park has shed none of that seq since. -/
def Arrived (run : List (Engine Body × Arrival Body)) (sender : String) (seq : Nat) : Prop :=
  ∃ before x after, run = before ++ x :: after ∧ x.2.source = sender ∧ admitted x.1 x.2 = true ∧
    x.2.envelope.seq = seq ∧
      ∀ e, (.parkShed, e) ∈ (deliverAll run sender).happened.drop (deliverAll before sender).happened.length →
        e.seq ≠ seq

theorem run_kept (h : Honest c sender run) {k : Nat} (harrived : Arrived run sender (c.seq k)) :
    Kept c (deliverAll run sender) k := by
  obtain ⟨before, x, after, rfl, hsource, hgates, hseq, hshed⟩ := harrived
  have hbefore : Honest c sender before := fun y hy => h y (mem_append_left _ hy)
  have hx := h x (mem_append_right _ (.head _))
  obtain ⟨hordered, hquiet⟩ := run_ordered hbefore
  obtain ⟨hcarries, -⟩ := cmdNetDelivered_carries hx hordered hquiet
  have hsplit : before ++ x :: after = (before ++ [x]) ++ after := by simp
  have hstep : deliverAll (before ++ [x]) = cmdNetDelivered x.1 (deliverAll before) x.2 := deliverAll_append ..
  rw [← hstep] at hcarries
  rw [hsplit] at h hshed ⊢
  obtain ⟨-, more, hmore, hkept⟩ := hcarries.trans (run_carries h)
  rcases hkept k (.inr ⟨hsource, hgates, hseq⟩) with hk | ⟨e, he, heq⟩
  · exact hk
  · rw [hmore, drop_left] at hshed
    exact absurd heq (hshed e he)

theorem AllJudged.nodup {happened : List (Happened Body)} (h : AllJudged c happened) :
    (passedSeqs happened).Nodup := by
  induction happened using List.reverseRecOn with
  | nil => exact nodup_nil
  | append_singleton happened x ih =>
    have hbefore : AllJudged c happened := by
      intro before y after heq
      exact h before y (after ++ [x]) (by rw [heq]; simp)
    have hlast := h happened x [] rfl
    obtain ⟨outcome, e⟩ := x
    rw [passedSeqs_append]
    by_cases hpassed : outcome = .passed
    · subst hpassed
      rw [passedSeqs_passed]
      refine nodup_append.mpr ⟨ih hbefore, nodup_singleton _, ?_⟩
      intro a ha b hb heq
      rw [mem_singleton.mp hb] at heq
      exact hlast.1 (heq ▸ ha)
    · rw [passedSeqs_other hpassed, append_nil]
      exact ih hbefore

theorem Ordered.complete {l : Link Body} (h : Ordered c l) (hquiet : takeReadyParked l = none) {f n : Nat}
    (hf : (passedSeqs l.happened).head? = some (c.seq f)) (hkept : ∀ k, f ≤ k → k ≤ n → Kept c l k) :
    ∀ k, f ≤ k → k ≤ n → c.seq k ∈ passedSeqs l.happened := by
  obtain ⟨j, hfj, hj⟩ := h.followers f hf
  have hreach : n ≤ j := by
    by_contra hshort
    have hnew : c.seq (j + 1) ∉ passedSeqs l.happened := by
      rw [hj (j + 1) (by omega)]
      omega
    rcases hkept (j + 1) (by omega) (by omega) with hpassed | ⟨entry, hentry⟩ | ⟨f', hf', hlt⟩
    · exact hnew hpassed
    · obtain ⟨hkey, k, hseq, hprev⟩ := h.held _ _ hentry
      obtain rfl : j + 1 = k := c.seq_inj (hkey.symm.trans hseq)
      have hbefore : c.seq j ∈ passedSeqs l.happened := (hj j hfj).mpr Nat.le.refl
      have haccepted := (h.tracks.isAccepted_iff (c.pos j)).mpr (.inl hbefore)
      have hprev : entry.1.prevSeq = c.seq j := hprev
      have hunready := takeReadyParked_eq_none.mp hquiet _ _ hentry
      simp [ready, hprev, haccepted] at hunready
    · rw [hf, Option.some.injEq] at hf'
      have heq := c.seq_inj hf'
      omega
  intro k hfk hkn
  exact (hj k hfk).mpr (Nat.le_trans hkn hreach)

/-- Delivery from an honest sender, for every run of arrivals from it and from others: a seq is
passed once; one that follows the first passed one only after its stamped predecessor, one from
before it also when its predecessor lies below the window; no follower is dropped as a duplicate
unless it was passed; the drain ends; and followers that all arrived have all been passed. -/
theorem delivery_in_order {run : List (Engine Body × Arrival Body)} (h : Honest c sender run) :
    let l := deliverAll run sender
    (passedSeqs l.happened).Nodup ∧
    (∀ before e after k, l.happened = before ++ (.passed, e) :: after → e.seq = c.seq k →
      passedSeqs before ≠ [] → InTurn c (passedSeqs before) k) ∧
    (∀ before e after f k, l.happened = before ++ (.duplicate, e) :: after →
      (passedSeqs before).head? = some (c.seq f) → e.seq = c.seq k → f ≤ k → e.seq ∈ passedSeqs before) ∧
    (∀ engine : Engine Body, ∀ link : Link Body,
      takeReadyParked (drain engine sender link.orderedPark.entries.length link) = none) ∧
    ∀ f n, (passedSeqs l.happened).head? = some (c.seq f) →
      (∀ k, f ≤ k → k ≤ n → Arrived run sender (c.seq k)) →
        ∀ k, f ≤ k → k ≤ n → c.seq k ∈ passedSeqs l.happened := by
  intro l
  obtain ⟨hordered, hquiet⟩ := run_ordered h
  refine ⟨hordered.judged.nodup, ?_, ?_, fun engine link => drain_ends engine sender Nat.le.refl, ?_⟩
  · intro before e after k heq hseq hne
    exact (hordered.judged before _ after heq).2 k hseq hne
  · intro before e after f k heq hf hseq hfk
    exact hordered.judged before _ after heq f k hf hseq hfk
  · intro f n hf harrived
    exact hordered.complete hquiet hf fun k hfk hkn => run_kept h (harrived k hfk hkn)

end

namespace Sample

def node : Engine Unit := ⟨"alice", ["alice", "bob"], none, fun _ => none, fun _ _ _ => false, 0⟩

def frame (seq prev : Nat) : Engine Unit × Arrival Unit := (node, ⟨"bob", ⟨seq, 0, "bob", (), prev⟩, none⟩)

def dense : Chain where
  seq := Nat.succ
  increasing := fun _ _ h => succ_lt_succ h
  positive := Nat.zero_lt_one

def swapped : List (Engine Unit × Arrival Unit) := [frame 3 2, frame 5 4, frame 4 3, frame 5 4]

theorem swapped_honest : Honest dense "bob" swapped := by
  intro x hx _
  simp only [swapped, mem_cons, not_mem_nil, or_false] at hx
  rcases hx with rfl | rfl | rfl | rfl
  · exact ⟨⟨2, rfl, rfl⟩, fun _ _ _ => rfl⟩
  · exact ⟨⟨4, rfl, rfl⟩, fun _ _ _ => rfl⟩
  · exact ⟨⟨3, rfl, rfl⟩, fun _ _ _ => rfl⟩
  · exact ⟨⟨4, rfl, rfl⟩, fun _ _ _ => rfl⟩

def sparseSeq : Nat → Nat
  | 0 => 1
  | 1 => 1000
  | k + 2 => 1030 + k

def sparse : Chain where
  seq := sparseSeq
  increasing := strictMono_nat_of_lt_succ fun k => by
    rcases k with _ | _ | k
    · decide
    · decide
    · exact lt_succ_self (1030 + k)
  positive := Nat.zero_lt_one

def aged : List (Engine Unit × Arrival Unit) := [frame 1030 1000, frame 1000 1]

end Sample

open Sample in
theorem delivery_in_order_swapped : Honest dense "bob" swapped ∧ Arrived swapped "bob" (dense.seq 3) ∧
    dense.seq 3 ∈ passedSeqs (deliverAll swapped "bob").happened := by
  have hshed : ∀ x ∈ (deliverAll swapped "bob").happened, x.1 ≠ Outcome.parkShed := by decide +kernel
  have hlater : ∀ n seq, ∀ e, (Outcome.parkShed, e) ∈ (deliverAll swapped "bob").happened.drop n → e.seq ≠ seq :=
    fun n seq e he => absurd rfl (hshed _ (List.mem_of_mem_drop he))
  have harrived : ∀ k, 2 ≤ k → k ≤ 4 → Arrived swapped "bob" (dense.seq k) := by
    intro k hlow hhigh
    obtain rfl | rfl | rfl : k = 2 ∨ k = 3 ∨ k = 4 := by omega
    · exact ⟨[], frame 3 2, _, rfl, rfl, by decide, rfl, hlater _ _⟩
    · exact ⟨[frame 3 2, frame 5 4], frame 4 3, _, rfl, rfl, by decide, rfl, hlater _ _⟩
    · exact ⟨[frame 3 2], frame 5 4, _, rfl, rfl, by decide, rfl, hlater _ _⟩
  have hhead : (passedSeqs (deliverAll swapped "bob").happened).head? = some (dense.seq 2) := by decide +kernel
  obtain ⟨-, -, -, -, hall⟩ := delivery_in_order swapped_honest
  exact ⟨swapped_honest, harrived 3 (by decide) (by decide), hall 2 4 hhead harrived 3 (by decide) (by decide)⟩

open Sample in
/-- The predecessor never came, and its successor is not the first one passed. -/
theorem aged_predecessor_counts_as_passed : Honest sparse "bob" aged ∧
    passedSeqs (deliverAll aged "bob").happened = [sparse.seq 2, sparse.seq 1] ∧
      sparse.seq 0 ∉ passedSeqs (deliverAll aged "bob").happened := by
  refine ⟨fun x hx _ => ?_, by decide +kernel, by decide +kernel⟩
  simp only [aged, List.mem_cons, List.not_mem_nil, or_false] at hx
  rcases hx with rfl | rfl
  · exact ⟨⟨2, rfl, rfl⟩, fun _ _ _ => rfl⟩
  · exact ⟨⟨1, rfl, rfl⟩, fun _ _ _ => rfl⟩

end Molt.Net
