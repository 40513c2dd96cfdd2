import Mathlib
import MoltRepublic.Engine.Ballots
import MoltRepublic.Engine.Moves

/-! A withdrawal that outruns its card waits in one slot for each id, and whichever seat
withdraws first has the slot. -/

namespace Molt.Engine
open Molt.Core Json Chain List
open Option hiding or_assoc

def Withdraws (id : UInt64) (seat : String) (t : Env × Input) : Prop :=
  ∃ ts, t.2 = .frame seat (.withdrawn id seat ts)

def Proposes (id : UInt64) (surface : Surface) (payload : Value) (t : Env × Input) : Prop :=
  ∃ source, t.2 = .frame source (.proposed id surface payload)

namespace Node

variable {S : Site} {e : Env} {n m : Node} {id : UInt64}

theorem handle_withdrawn {seat : String} {ts : UInt64} (hhead : n.head.isSome)
    (hseat : seat ∈ n.roster) (hother : seat ≠ S.member) :
    n.handle S e (.frame seat (.withdrawn id seat ts)) = ⟨(n.registerWithdraw id seat ts).1, [], []⟩ := by
  have hgate : ¬ (n.head.isNone ∨ seat ∉ n.roster ∨ seat = S.member) := by
    rintro (h | h | h)
    · simp [isSome_iff_ne_none] at hhead h
      exact hhead h
    · exact h hseat
    · exact hother h
  simp only [handle, if_neg hgate, deliver, ne_eq, not_true, if_false]

variable {source : String} {surface : Surface} {payload : Value}

theorem handle_proposed (hhead : n.head.isSome) (hseat : source ∈ n.roster) (hother : source ≠ S.member) :
    n.handle S e (.frame source (.proposed id surface payload)) =
      ⟨n.deliverProposed S e source id surface payload, [], []⟩ := by
  have hgate : ¬ (n.head.isNone ∨ source ∉ n.roster ∨ source = S.member) := by
    rintro (h | h | h)
    · simp [isSome_iff_ne_none] at hhead h
      exact hhead h
    · exact h hseat
    · exact hother h
  simp only [handle, if_neg hgate, deliver]

theorem handle_proposed_known (source : String) (surface : Surface) (payload : Value)
    (hknown : (n.proposals.lookup id).isSome) :
    ∃ m, n.handle S e (.frame source (.proposed id surface payload)) = ⟨m, [], []⟩ ∧ Alike id n m := by
  unfold handle
  dsimp only
  split_ifs
  · exact ⟨n, rfl, .refl n⟩
  · exact ⟨_, rfl, deliverProposed_known hknown⟩

structure Waits (id : UInt64) (n : Node) (first : Option String) (m : Node) : Prop where
  only : ∃ nextId withdrawals, n.nextId.toNat ≤ nextId.toNat ∧
    m = { n with nextId := nextId, pendingWithdrawals := withdrawals }
  slot : (m.pendingWithdrawals.lookup id).map Prod.fst = first
  untouched : first = none → m.pendingWithdrawals = n.pendingWithdrawals

theorem Waits.refl (hfree : n.pendingWithdrawals.lookup id = none) : Waits id n none n :=
  ⟨⟨n.nextId, n.pendingWithdrawals, le_rfl, rfl⟩, by rw [hfree]; rfl, fun _ => rfl⟩

variable {first : Option String}

theorem Waits.takes (h : Waits id n first m) (ht : Takes e n source id surface payload) :
    Takes e m source id surface payload := by
  obtain ⟨nextId, withdrawals, hle, rfl⟩ := h.only
  refine ⟨?_, ht.notBase, ht.admitted, ht.room, ht.unregistered, ht.unconsumed⟩
  have hwithin := ht.within
  simp only [plausibleWireId, decide_eq_true_eq] at hwithin ⊢
  exact hwithin.trans (Nat.add_le_add_right hle _)

theorem Waits.withdraw (h : Waits id n first m) (hnew : n.proposals.lookup id = none)
    (hwithin : n.plausibleWireId id) (hroom : n.pendingWithdrawals.entries.length < parkedDeclineIdsMax)
    (seat : String) (ts : UInt64) : Waits id n (first.or (some seat)) (m.registerWithdraw id seat ts).1 := by
  obtain ⟨nextId, withdrawals, hle, rfl⟩ := h.only
  have hbump : n.nextId.toNat ≤ (max nextId (saturatingSucc id)).toNat := by
    rw [toNat_max]
    exact hle.trans (le_max_left _ _)
  have hpark : plausibleWireId { n with nextId := nextId, pendingWithdrawals := withdrawals } id := by
    simp only [plausibleWireId, decide_eq_true_eq] at hwithin ⊢
    exact hwithin.trans (Nat.add_le_add_right hle _)
  have hcard : registerWithdraw { n with nextId := nextId, pendingWithdrawals := withdrawals } id seat ts =
      parkWithdraw { n with nextId := nextId, pendingWithdrawals := withdrawals } id seat ts := by
    unfold registerWithdraw
    simp [hnew]
  rw [hcard]
  unfold parkWithdraw
  rw [if_neg (by simp [hpark])]
  dsimp only
  have hslot := h.slot
  cases hheld : withdrawals.lookup id with
  | some held =>
    rw [show (bump { n with nextId := nextId, pendingWithdrawals := withdrawals } id
      ).pendingWithdrawals.lookup id = some held from hheld]
    simp only [hheld, map_some] at hslot
    simp only [← hslot, some_or]
    exact ⟨⟨_, _, hbump, rfl⟩, congrArg (Option.map Prod.fst) hheld, by simp⟩
  | none =>
    rw [show (bump { n with nextId := nextId, pendingWithdrawals := withdrawals } id
      ).pendingWithdrawals.lookup id = none from hheld]
    simp only [hheld, map_none] at hslot
    have hsame : withdrawals = n.pendingWithdrawals := h.untouched hslot.symm
    simp only [← hslot, none_or]
    split_ifs with hfull
    · exact absurd (hsame ▸ hfull) (not_le.mpr hroom)
    · refine ⟨⟨_, _, hbump, rfl⟩, ?_, by simp⟩
      rw [AList.lookup_insert]
      rfl

structure Shows (id : UInt64) (identities : List MemberIdentity) (pulled : Bool) (n : Node) : Prop where
  head : n.head.isSome
  identities_eq : n.identities = identities
  card : ∃ p, n.proposals.lookup id = some p ∧ p.withdrawn = pulled ∧
    (p.state = .proposed ↔ pulled = false)

theorem Shows.alike {identities : List MemberIdentity} {pulled : Bool}
    (h : Shows id identities pulled n) (ha : Alike id n m) : Shows id identities pulled m := by
  obtain ⟨p, hp, hpulled, hstate⟩ := h.card
  obtain ⟨q, hq, hstanding⟩ := ha.known hp
  refine ⟨ha.head ▸ h.head, ha.identities.trans h.identities_eq, q, hq, ?_, ?_⟩
  · exact (congrArg Standing.withdrawn hstanding).trans hpulled
  · rw [show q.state = p.state from congrArg Standing.state hstanding]
    exact hstate

theorem mintingSeat_congr (h : m.identities = n.identities) : m.mintingSeat id = n.mintingSeat id := by
  unfold mintingSeat roster
  rw [h]

theorem Shows.withdraw {pulled : Bool} {identities : List MemberIdentity}
    (h : Shows id identities pulled n) {minter : String} (hminted : n.mintingSeat id = some minter)
    (seat : String) (ts : UInt64) :
    Shows id identities (pulled || seat == minter) (n.registerWithdraw id seat ts).1 := by
  obtain ⟨p, hp, hpulled, hstate⟩ := h.card
  unfold registerWithdraw
  rw [hp]
  dsimp only
  cases pulled with
  | true =>
    rw [if_pos (by simp [hstate])]
    exact ⟨h.head, h.identities_eq, p, hp, hpulled, hstate⟩
  | false =>
    have hopen : p.state = .proposed := hstate.mpr rfl
    rw [if_neg (not_not.mpr hopen), hminted, getD_some, Bool.false_or]
    by_cases hseat : minter = seat
    · subst hseat
      rw [if_neg (not_not.mpr rfl), beq_self_eq_true]
      have hadjust : (n.adjust id (·.pullBack ts)).proposals.lookup id = some (p.pullBack ts) := by
        simp [adjust, hp]
      have hstash : Alike id (n.adjust id (·.pullBack ts)) ((n.adjust id (·.pullBack ts)).stashVoted id) :=
        alike_stashVoted id
      obtain ⟨q, hq, hstanding⟩ := hstash.known hadjust
      have hhead : ((n.adjust id (·.pullBack ts)).stashVoted id).head = n.head :=
        hstash.head.trans (by simp [adjust, hp])
      have hidentities : ((n.adjust id (·.pullBack ts)).stashVoted id).identities = n.identities :=
        hstash.identities.trans (by simp [adjust, hp])
      refine ⟨(congrArg Option.isSome hhead).trans h.head, hidentities.trans h.identities_eq, q, hq,
        congrArg Standing.withdrawn hstanding, ?_⟩
      rw [show q.state = .rejected from congrArg Standing.state hstanding]
      simp
    · rw [if_pos hseat, beq_false_of_ne (Ne.symm hseat)]
      exact ⟨h.head, h.identities_eq, p, hp, hpulled, hstate⟩

theorem registerWithdraw_known {p : ProposalRecord} (hp : n.proposals.lookup id = some p)
    (hdeclines : n.pendingDeclines.lookup id = none) (seat : String) (ts : UInt64) :
    (n.registerWithdraw id seat ts).1.pendingWithdrawals = n.pendingWithdrawals ∧
      (n.registerWithdraw id seat ts).1.pendingDeclines.lookup id = none ∧
      ∃ q, (n.registerWithdraw id seat ts).1.proposals.lookup id = some q ∧ q.payload = p.payload := by
  unfold registerWithdraw
  rw [hp]
  dsimp only
  split_ifs
  · exact ⟨rfl, hdeclines, p, hp, rfl⟩
  · exact ⟨rfl, hdeclines, p, hp, rfl⟩
  · have hadjust : (n.adjust id (·.pullBack ts)).proposals.lookup id = some (p.pullBack ts) := by
      simp only [adjust, hp, AList.lookup_insert]
    have hsame : (n.adjust id (·.pullBack ts)).pendingWithdrawals = n.pendingWithdrawals := by
      simp only [adjust, hp]
    have hstash : Alike id (n.adjust id (·.pullBack ts)) ((n.adjust id (·.pullBack ts)).stashVoted id) :=
      alike_stashVoted id
    obtain ⟨q, hq, hstanding⟩ := hstash.known hadjust
    refine ⟨?_, AList.lookup_erase .., q, hq, congrArg Standing.payload hstanding⟩
    refine Eq.trans ?_ hsame
    unfold stashVoted adjust
    split
    · rfl
    · split <;> rfl

theorem Waits.card (h : Waits id n first m) {minter : String} (hhead : n.head.isSome)
    (hnew : n.proposals.lookup id = none) (hdeclines : n.pendingDeclines.lookup id = none)
    (hminted : n.mintingSeat id = some minter) (ht : Takes e n source id surface payload)
    (hspares : e.Spares id payload) :
    Shows id n.identities (first == some minter)
      (m.deliverProposed S e source id surface payload) := by
  have htakes := h.takes ht
  have hslot := h.slot
  obtain ⟨hmnew, hmhead, hmidentities, hmdeclines⟩ : m.proposals.lookup id = none ∧
      m.head.isSome ∧ m.identities = n.identities ∧ m.pendingDeclines.lookup id = none := by
    obtain ⟨_, _, -, rfl⟩ := h.only
    exact ⟨hnew, hhead, rfl, hdeclines⟩
  rw [deliverProposed_taken hmnew htakes]
  have hopened := opened_spared source surface hmnew hspares
  have hfresh := lookup_opened (p := { surface := surface, payload := payload, proposer := source }) hmnew
  obtain ⟨p, hp, hstanding⟩ := hopened.known hfresh
  generalize m.opened e source id surface payload = k at hopened hp
  have hk : Shows id n.identities false k := by
    refine ⟨?_, ?_, p, hp, congrArg Standing.withdrawn hstanding, ?_⟩
    · rw [hopened.head]
      simpa [openCard, hmnew, bump] using hmhead
    · rw [hopened.identities]
      simpa [openCard, hmnew, bump] using hmidentities
    · rw [show p.state = .proposed from congrArg Standing.state hstanding]
      simp
  have hkd : k.pendingDeclines.lookup id = none := by
    rw [hopened.declines]
    simpa [openCard, hmnew, bump] using hmdeclines
  have hkw : (k.pendingWithdrawals.lookup id).map Prod.fst = first := by
    rw [hopened.withdrawal]
    simpa [openCard, hmnew, bump] using hslot
  have hpayload : p.payload = payload := congrArg Standing.payload hstanding
  obtain ⟨sigs, hverified⟩ : ∃ sigs, k.reverifyPending S id = { k with pendingSigs := sigs } := by
    cases ha : k.pendingSigs.lookup id with
    | none => exact ⟨k.pendingSigs, reverifyPending_none ha⟩
    | some a =>
      obtain ⟨sigs, _, heq, -⟩ := reverifyPending_some (S := S) ha
      exact ⟨sigs, heq⟩
  rw [hverified]
  have hshows : Shows id n.identities false { k with pendingSigs := sigs } :=
    ⟨hk.head, hk.identities_eq, hk.card⟩
  -- the node behind the parked withdrawal
  obtain ⟨k', hk', hshows', hd', hw', q, hq, hqp⟩ : ∃ k', (registerParkedWithdrawal
      { k with pendingSigs := sigs } id).1 = k' ∧ Shows id n.identities (first == some minter) k' ∧
      k'.pendingDeclines.lookup id = none ∧ k'.pendingWithdrawals.lookup id = none ∧
      ∃ q, k'.proposals.lookup id = some q ∧ q.payload = payload := by
    unfold registerParkedWithdrawal
    cases hparked : k.pendingWithdrawals.lookup id with
    | none =>
      simp only [hparked, map_none] at hkw
      subst hkw
      exact ⟨_, rfl, hshows, hkd, hparked, p, hp, hpayload⟩
    | some held =>
      obtain ⟨seat, ts⟩ := held
      simp only [hparked, map_some] at hkw
      subst hkw
      have hbare : Shows id n.identities false { k with
          pendingSigs := sigs, pendingWithdrawals := k.pendingWithdrawals.erase id } :=
        ⟨hk.head, hk.identities_eq, hk.card⟩
      have hmints : mintingSeat { k with
          pendingSigs := sigs, pendingWithdrawals := k.pendingWithdrawals.erase id } id = some minter :=
        (mintingSeat_congr hk.identities_eq).trans hminted
      have hseat := hbare.withdraw hmints seat ts
      obtain ⟨hw, hd, q, hq, hqp⟩ := registerWithdraw_known (n := { k with
          pendingSigs := sigs, pendingWithdrawals := k.pendingWithdrawals.erase id }) hp hkd seat ts
      refine ⟨_, rfl, ?_, hd, ?_, q, hq, hqp.trans hpayload⟩
      · rw [show (some seat == some minter) = (false || seat == minter) by simp]
        exact hseat
      · rw [hw]
        exact AList.lookup_erase ..
  rw [hk']
  have hdrained : k'.registerParkedDeclines S id = k' := by
    unfold registerParkedDeclines
    rw [hd']
  rw [hdrained]
  exact hshows'.alike (settled_spared hq hqp hd' hw' hspares)

end Node

def firstSeat : List (Env × Input) → Option String
  | (_, .frame seat _) :: _ => some seat
  | _ => none

namespace Machine

variable {S : Site} {id : UInt64}

theorem run_append (m : Machine) (before after : List (Env × Input)) :
    run S m (before ++ after) = run S (run S m before) after := foldl_append

theorem run_cons (m : Machine) (t : Env × Input) (turns : List (Env × Input)) :
    run S m (t :: turns) = run S (turn S m t) turns := rfl

theorem run_waits {n : Node} (hhead : n.head.isSome) (hnew : n.proposals.lookup id = none)
    (hwithin : n.plausibleWireId id)
    (hroom : n.pendingWithdrawals.entries.length < parkedDeclineIdsMax) {before : List (Env × Input)}
    (hbefore : ∀ t ∈ before, ∃ seat ∈ n.roster, seat ≠ S.member ∧ Withdraws id seat t)
    {first : Option String} {m : Node} (log : List Entry) (h : Node.Waits id n first m) :
    ∃ m' log', run S ⟨m, [], log⟩ before = ⟨m', [], log'⟩ ∧
      Node.Waits id n (first.or (firstSeat before)) m' := by
  induction before generalizing first m log with
  | nil => exact ⟨m, log, rfl, by simpa [firstSeat] using h⟩
  | cons t before ih =>
    obtain ⟨seat, hseat, hother, ts, hframe⟩ := hbefore t (.head _)
    obtain ⟨hmhead, hmroster⟩ : m.head.isSome ∧ m.roster = n.roster := by
      obtain ⟨_, _, -, rfl⟩ := h.only
      exact ⟨hhead, rfl⟩
    have hturn : turn S ⟨m, [], log⟩ t = ⟨(m.registerWithdraw id seat ts).1, [], log ++ []⟩ := by
      unfold turn
      rw [hframe, Node.handle_withdrawn hmhead (hmroster ▸ hseat) hother]
    obtain ⟨m', log', hrun, hwaits⟩ := ih (fun t ht => hbefore t (.tail _ ht))
      (log ++ []) (h.withdraw hnew hwithin hroom seat ts)
    refine ⟨m', log', ?_, ?_⟩
    · rw [run_cons, hturn, hrun]
    · obtain ⟨env, input⟩ := t
      obtain rfl : input = .frame seat (.withdrawn id seat ts) := hframe
      rwa [Option.or_assoc, some_or] at hwaits

theorem run_shows {identities : List MemberIdentity} {minter : String} {surface : Surface}
    {payload : Value} {after : List (Env × Input)}
    (hafter : ∀ t ∈ after, Proposes id surface payload t ∨
      ∃ seat ∈ identities.map MemberIdentity.member, seat ≠ S.member ∧ Withdraws id seat t)
    (hminted : ∀ n : Node, n.identities = identities → n.mintingSeat id = some minter)
    {pulled : Bool} {m : Node} (log : List Entry) (h : Node.Shows id identities pulled m) :
    ∃ m' log' pulled', run S ⟨m, [], log⟩ after = ⟨m', [], log'⟩ ∧
      Node.Shows id identities pulled' m' ∧
      (pulled' = true ↔ pulled = true ∨ ∃ t ∈ after, Withdraws id minter t) := by
  induction after generalizing pulled m log with
  | nil => exact ⟨m, log, pulled, rfl, h, by simp⟩
  | cons t after ih =>
    have hrest := fun u hu => hafter u (.tail _ hu)
    rcases hafter t (mem_cons_self ..) with ⟨source, hframe⟩ | ⟨seat, hseat, hother, ts, hframe⟩
    · obtain ⟨p, hp, -, -⟩ := h.card
      obtain ⟨m', hhandle, halike⟩ := Node.handle_proposed_known (S := S) (e := t.1) source surface
        payload (isSome_of_eq_some hp)
      have hturn : turn S ⟨m, [], log⟩ t = ⟨m', [], log ++ []⟩ := by
        unfold turn
        rw [hframe, hhandle]
      obtain ⟨k, log', pulled', hrun, hshows, hpulled⟩ := ih hrest (log ++ []) (h.alike halike)
      refine ⟨k, log', pulled', ?_, hshows, hpulled.trans (or_congr_right ?_)⟩
      · rw [run_cons, hturn, hrun]
      · simp [Withdraws, hframe]
    · have hturn : turn S ⟨m, [], log⟩ t = ⟨(m.registerWithdraw id seat ts).1, [], log ++ []⟩ := by
        unfold turn
        rw [hframe, Node.handle_withdrawn h.head ?_ hother]
        rw [Node.roster, h.identities_eq]
        exact hseat
      obtain ⟨k, log', pulled', hrun, hshows, hpulled⟩ := ih hrest (log ++ [])
        (h.withdraw (hminted m h.identities_eq) seat ts)
      refine ⟨k, log', pulled', ?_, hshows, hpulled.trans ?_⟩
      · rw [run_cons, hturn, hrun]
      · have hthis : Withdraws id minter t ↔ seat = minter := by
          constructor
          · rintro ⟨ts', hts⟩
            rw [hframe] at hts
            simp only [Input.frame.injEq] at hts
            exact hts.1
          · rintro rfl
            exact ⟨ts, hframe⟩
        rw [exists_mem_cons_iff, hthis, Bool.or_eq_true, beq_iff_eq, or_assoc]

/-- The proposer's withdrawal stands exactly where it was not only parked behind another
seat's: whenever it arrives after the card, or first of all that were parked. -/
theorem withdrawal_stands_iff (S : Site) (n : Node) (log : List Entry) (id : UInt64)
    (surface : Surface) (payload : Value) (minter source : String) (e : Env)
    (before after : List (Env × Input)) (hhead : n.head.isSome)
    (hnew : n.proposals.lookup id = none) (hwithdrawals : n.pendingWithdrawals.lookup id = none)
    (hdeclines : n.pendingDeclines.lookup id = none) (hminted : n.mintingSeat id = some minter)
    (hroom : n.pendingWithdrawals.entries.length < parkedDeclineIdsMax)
    (hsource : source ∈ n.roster) (hother : source ≠ S.member)
    (htakes : n.Takes e source id surface payload) (hspares : e.Spares id payload)
    (hbefore : ∀ t ∈ before, ∃ seat ∈ n.roster, seat ≠ S.member ∧ Withdraws id seat t)
    (hafter : ∀ t ∈ after, Proposes id surface payload t ∨
      ∃ seat ∈ n.roster, seat ≠ S.member ∧ Withdraws id seat t) :
    ((∃ p, (run S ⟨n, [], log⟩ (before ++ (e, .frame source (.proposed id surface payload)) :: after)
        ).node.proposals.lookup id = some p ∧ p.withdrawn = true) ↔
      ∃ t ∈ before ++ after, Withdraws id minter t) ↔
    ((∃ t ∈ before, Withdraws id minter t) →
      firstSeat before = some minter ∨ ∃ t ∈ after, Withdraws id minter t) := by
  obtain ⟨m, log₁, hrun₁, hwaits⟩ := run_waits hhead hnew htakes.within hroom hbefore log
    (Node.Waits.refl hwithdrawals)
  obtain ⟨hmhead, hmroster⟩ : m.head.isSome ∧ m.roster = n.roster := by
    obtain ⟨_, _, -, rfl⟩ := hwaits.only
    exact ⟨hhead, rfl⟩
  have hcard := hwaits.card (S := S) hhead hnew hdeclines hminted htakes hspares
  have hturn : turn S ⟨m, [], log₁⟩ (e, .frame source (.proposed id surface payload)) =
      ⟨m.deliverProposed S e source id surface payload, [], log₁ ++ []⟩ := by
    unfold turn
    rw [Node.handle_proposed hmhead (hmroster ▸ hsource) hother]
  obtain ⟨k, log₂, pulled, hrun₂, hshows, hpulled⟩ := run_shows hafter
    (fun n' h' => (Node.mintingSeat_congr h').trans hminted) (log₁ ++ []) hcard
  have hnode : (run S ⟨n, [], log⟩ (before ++ (e, .frame source (.proposed id surface payload)) :: after)
      ).node = k := by
    rw [run_append, hrun₁, run_cons, hturn, hrun₂]
  rw [hnode]
  have hwithdrawn : (∃ p, k.proposals.lookup id = some p ∧ p.withdrawn = true) ↔
      firstSeat before = some minter ∨ ∃ t ∈ after, Withdraws id minter t := by
    obtain ⟨p, hp, hp', -⟩ := hshows.card
    rw [Option.none_or, beq_iff_eq] at hpulled
    rw [← hpulled, ← hp']
    constructor
    · rintro ⟨q, hq, hq'⟩
      obtain rfl : p = q := Option.some.inj (hp.symm.trans hq)
      exact hq'
    · exact fun hp' => ⟨p, hp, hp'⟩
  have hfirst : firstSeat before = some minter → ∃ t ∈ before, Withdraws id minter t := by
    intro hfirst
    cases before with
    | nil => simp [firstSeat] at hfirst
    | cons t before =>
      obtain ⟨seat, -, -, ts, hframe⟩ := hbefore t (List.mem_cons_self ..)
      obtain ⟨env, input⟩ := t
      obtain rfl : input = .frame seat (.withdrawn id seat ts) := hframe
      obtain rfl : seat = minter := by simpa [firstSeat] using hfirst
      exact ⟨_, List.mem_cons_self .., ts, rfl⟩
  have happend : (∃ t ∈ before ++ after, Withdraws id minter t) ↔
      (∃ t ∈ before, Withdraws id minter t) ∨ ∃ t ∈ after, Withdraws id minter t := by
    simp only [List.mem_append, or_and_right, exists_or]
  rw [hwithdrawn, happend]
  constructor
  · intro hiff hparked
    exact hiff.mpr (Or.inl hparked)
  · intro hparked
    exact ⟨fun h => h.imp_left hfirst, fun h => h.elim hparked Or.inr⟩

end Machine

namespace Sample

def calKey : String := "0303030303030303030303030303030303030303030303030303030303030303"

def calSigns : RosterAttestation := ⟨"cal", calKey ++ calKey⟩

def trio : Genesis :=
  { name := "C", republicId := "65a6", ruleM := 2, ruleN := 3,
    identities := [⟨"ann", annKey, "", ""⟩, ⟨"ben", benKey, "", ""⟩, ⟨"cal", calKey, "", ""⟩],
    agenda := "", relays := [], features := none }

def trioFounded : List ChainBlock :=
  [⟨0, genesisPrev, .genesis trio, [annSigns, benSigns, calSigns]⟩]

def trioNode : Node := { start.node with
  chain := ⟨none, trioFounded, none, trio.republicId, {}⟩
  head := (verifyChain brief trioFounded).toOption
  identities := trio.identities
  ruleM := 2 }

def benWithdraws : Env × Input := (env, .frame "ben" (.withdrawn 2 "ben" 5))

def calWithdraws : Env × Input := (env, .frame "cal" (.withdrawn 2 "cal" 4))

def benProposes : Env × Input := (env, .frame "ben" (.proposed 2 .organization (rename "D")))

theorem trioNode_takes : trioNode.Takes env "ben" 2 .organization (rename "D") :=
  ⟨by decide +kernel, by decide, rfl, by decide +kernel, by decide +kernel, by decide +kernel⟩

theorem env_spares (id : UInt64) (payload : Value) : env.Spares id payload :=
  ⟨fun _ _ => nofun, fun _ _ _ => nofun, fun _ => rfl, rfl⟩

end Sample

open Sample in
theorem withdrawal_stands_iff_sample :
    ((∃ p, (Machine.run annSite ⟨trioNode, [], []⟩ ([benWithdraws, calWithdraws] ++
        [(env, .frame "ben" (.proposed 2 .organization (rename "D")))])).node.proposals.lookup 2 = some p ∧ p.withdrawn = true) ↔
      ∃ t ∈ [benWithdraws, calWithdraws] ++ [], Withdraws 2 "ben" t) ↔
    ((∃ t ∈ [benWithdraws, calWithdraws], Withdraws 2 "ben" t) →
      firstSeat [benWithdraws, calWithdraws] = some "ben" ∨ ∃ t ∈ [], Withdraws 2 "ben" t) := by
  refine Machine.withdrawal_stands_iff annSite trioNode [] 2 .organization (rename "D") "ben" "ben" env
    [benWithdraws, calWithdraws] [] (by decide +kernel) (by decide +kernel) (by decide +kernel)
    (by decide +kernel) (by decide +kernel) (by decide +kernel) (by decide +kernel) (by decide)
    trioNode_takes (env_spares 2 _) ?_ (by simp)
  intro t ht
  rcases List.mem_pair.mp ht with rfl | rfl
  · exact ⟨"ben", by decide +kernel, by decide, 5, rfl⟩
  · exact ⟨"cal", by decide +kernel, by decide, 4, rfl⟩

open Sample in
/-- "cal" takes the slot of the id that "ben" minted, and the withdrawal of "ben" is lost. -/
theorem withdrawal_crowded_out : trioNode.mintingSeat 2 = some "ben" ∧
    Withdraws 2 "ben" benWithdraws ∧
    ((Machine.run annSite ⟨trioNode, [], []⟩ [calWithdraws, benWithdraws, benProposes]
      ).node.proposals.lookup 2).map (fun p => (p.state, p.withdrawn)) = some (.proposed, false) :=
  ⟨by decide +kernel, ⟨5, rfl⟩, by decide +kernel⟩

end Molt.Engine
