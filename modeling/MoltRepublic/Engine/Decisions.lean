import Mathlib
import MoltRepublic.Engine.Quiet

/-! Whose decision a signature carries: on every run where no id changes its meaning under
the node, it signs a surface proposal only on its operator's standing decision. -/

namespace Molt.Engine
open Molt.Core Json Chain ProposalRecord List

def Stands (log : List Entry) (id : UInt64) (surface : Surface) (payload : Value) : Prop :=
  ∃ before after, log = before ++ .decided id surface payload :: after ∧ .revoked id ∉ after

def Decided (log : List Entry) : Prop :=
  ∀ before id surface payload height after,
    log = before ++ .signed (.applied id surface payload) height :: after →
      Stands before id surface payload

section

variable {log more : List Entry} {id : UInt64} {surface : Surface} {payload : Value}

theorem Stands.append (h : Stands log id surface payload) (hmore : Entry.revoked id ∉ more) :
    Stands (log ++ more) id surface payload := by
  obtain ⟨before, after, rfl, hafter⟩ := h
  exact ⟨before, after ++ more, by simp, by simp [hafter, hmore]⟩

theorem stands_concat : Stands (log ++ [.decided id surface payload]) id surface payload :=
  ⟨log, [], rfl, by simp⟩

theorem Decided.concat (h : Decided log) {entry : Entry}
    (hentry : ∀ id surface payload height, entry = .signed (.applied id surface payload) height →
      Stands log id surface payload) : Decided (log ++ [entry]) := by
  intro before id surface payload height after heq
  rcases eq_nil_or_concat after with rfl | ⟨init, last, rfl⟩
  · obtain ⟨rfl, hlast⟩ := append_inj' heq rfl
    exact hentry id surface payload height (List.cons.inj hlast).1
  · rw [concat_eq_append, ← cons_append, ← append_assoc] at heq
    obtain ⟨hlog, -⟩ := append_inj' heq rfl
    exact h before id surface payload height init hlog

end

/-- An own approval is of a standing decision, unless the id names no vote of the members;
and a registered change is none of a surface. -/
structure Sane (n : Node) (log : List Entry) : Prop where
  own : ∀ {id p}, id ∈ n.ownApprovals → n.proposals.lookup id = some p →
    p.Settled ∨ p.reserved ∨ Stands log id p.surface p.payload
  registered : ∀ {id c}, n.proposalChanges.lookup id = some c →
    (∀ j surface payload, c ≠ .applied j surface payload) ∧
      ∀ {p}, n.proposals.lookup id = some p → p.Settled ∨ p.reserved

namespace Sane

variable {n m : Node} {log : List Entry} {id : UInt64}

theorem quiet (h : Sane n log) (hq : Quiet n m) : Sane m log where
  own {id q} hid hlookup := by
    rcases hq.cards hlookup with hs | ⟨p, hp, hpq⟩
    · exact .inl hs
    rcases h.own (hq.own hid) hp with hs | hr | hstands
    · exact .inl (hpq.settled hs)
    · exact .inr (.inl (hpq.reserved.trans hr))
    · exact .inr (.inr (hpq.surface ▸ hpq.payload ▸ hstands))
  registered {id c} hc := by
    obtain ⟨happlied, hcard⟩ := h.registered (hq.changes hc)
    refine ⟨happlied, fun {q} hlookup => ?_⟩
    rcases hq.cards hlookup with hs | ⟨p, hp, hpq⟩
    · exact .inl hs
    · exact (hcard hp).imp hpq.settled hpq.reserved.trans

theorem append (h : Sane n log) {more : List Entry} (hmore : ∀ id, Entry.revoked id ∉ more) :
    Sane n (log ++ more) where
  own hid hlookup := (h.own hid hlookup).imp_right (·.imp_right (·.append (hmore _)))
  registered := h.registered

theorem revoke (h : Sane n log) (hid : id ∉ n.ownApprovals) : Sane n (log ++ [.revoked id]) where
  own {j p} hj hlookup := by
    have hne : j ≠ id := by
      rintro rfl
      exact hid hj
    exact (h.own hj hlookup).imp_right (·.imp_right (·.append (by simp [hne])))
  registered := h.registered

theorem register (h : Sane n log) {c : ChainChange}
    (happlied : ∀ j surface payload, c ≠ .applied j surface payload)
    (hcard : ∀ p, n.proposals.lookup id = some p → p.Settled ∨ p.reserved) :
    Sane (n.register id c) log where
  own := h.own
  registered {j d} hd := by
    by_cases hj : j = id
    · subst hj
      obtain rfl : c = d := Option.some.inj ((AList.lookup_insert _).symm.trans hd)
      exact ⟨happlied, fun {p} => hcard p⟩
    · exact h.registered ((AList.lookup_insert_ne hj).symm.trans hd)

theorem openCard (h : Sane n log) {p : ProposalRecord}
    (hp : n.proposals.lookup id = none → p.reserved ∨
      ((id ∈ n.ownApprovals → Stands log id p.surface p.payload) ∧
        n.proposalChanges.lookup id = none)) : Sane (n.openCard id p) log := by
  unfold Node.openCard
  cases hn : n.proposals.lookup id with
  | some q => exact h
  | none =>
    have hlookup : ∀ {j q}, (n.proposals.insert id p).lookup j = some q →
        (j = id ∧ q = p) ∨ n.proposals.lookup j = some q := by
      intro j q hq
      by_cases hj : j = id
      · subst hj
        exact .inl ⟨rfl, (Option.some.inj ((AList.lookup_insert _).symm.trans hq)).symm⟩
      · exact .inr ((AList.lookup_insert_ne hj).symm.trans hq)
    refine ⟨fun {j q} hj hq => ?_, fun {j c} hc => ⟨(h.registered hc).1, fun {q} hq => ?_⟩⟩
    · rcases hlookup hq with ⟨rfl, rfl⟩ | hq
      · exact .inr ((hp hn).imp_right fun hstands => hstands.1 hj)
      · exact h.own hj hq
    · rcases hlookup hq with ⟨rfl, rfl⟩ | hq
      · rcases hp hn with hr | ⟨-, hnone⟩
        · exact .inr hr
        · simpa using hnone.symm.trans hc
      · exact (h.registered hc).2 hq

theorem proposalChange_applied (h : Sane n log) {j : UInt64} {surface : Surface} {payload : Value}
    (hc : n.proposalChange id = some (.applied j surface payload)) :
    j = id ∧ n.proposalChanges.lookup id = none ∧ ∃ p, n.proposals.lookup id = some p ∧
      p.reserved = false ∧ surface = p.surface ∧ payload = p.payload := by
  unfold Node.proposalChange at hc
  split at hc
  · rename_i change hchange
    cases hc
    exact absurd rfl ((h.registered hchange).1 j surface payload)
  · rename_i hnone
    split at hc
    · simp at hc
    · rename_i p hp
      split_ifs at hc with hr
      cases hc
      exact ⟨rfl, hnone, p, hp, by simpa using hr, rfl, rfl⟩

end Sane

def Sanctioned (n : Node) (log : List Entry) (id : UInt64) : Prop :=
  ∀ p, n.proposals.lookup id = some p → n.proposalChanges.lookup id = none →
    p.reserved ∨ Stands log id p.surface p.payload

def Queued (S : Site) (n : Node) (log : List Entry) : Task → Prop
  | .signOwn ids => ∀ id ∈ ids, ∃ p, n.proposals.lookup id = some p ∧
      (p.reserved ∨ Stands log id p.surface p.payload)
  | .keepApproved source _ _ _ _ => source ≠ S.member
  | _ => True

def Task.Plain : Task → Prop
  | .signOwn _ | .keepApproved .. => False
  | _ => True

theorem Task.Plain.queued {t : Task} (h : t.Plain) (S : Site) (n : Node) (log : List Entry) :
    Queued S n log t := by
  cases t <;> first | exact h.elim | trivial

theorem Queued.kept {S : Site} {n m : Node} {log more : List Entry} {t : Task} (hk : Kept n m)
    (hmore : ∀ id, Entry.revoked id ∉ more) (h : Queued S n log t) : Queued S m (log ++ more) t := by
  cases t with
  | signOwn ids =>
    intro id hid
    obtain ⟨p, hp, hvote⟩ := h id hid
    obtain ⟨q, hq, hpq⟩ := hk id p hp
    refine ⟨q, hq, hvote.imp hpq.reserved.trans fun hstands => ?_⟩
    rw [hpq.surface, hpq.payload]
    exact hstands.append (hmore id)
  | keepApproved => exact h
  | _ => trivial

namespace Outcome

structure Holds (S : Site) (log : List Entry) (o : Outcome) : Prop where
  sane : Sane o.node (log ++ o.log)
  decided : Decided (log ++ o.log)
  queued : ∀ t ∈ o.calls, Queued S o.node (log ++ o.log) t

structure Steps (S : Site) (n : Node) (log : List Entry) (o : Outcome) : Prop extends
    Holds S log o where
  kept : Kept n o.node
  unrevoked : ∀ id, Entry.revoked id ∉ o.log

theorem Steps.of_kept {S : Site} {n m : Node} {log : List Entry} {o : Outcome} (hk : Kept n m)
    (h : Steps S m log o) : Steps S n log o := { h with kept := hk.trans h.kept }

structure Silent (o : Outcome) : Prop where
  log : o.log = []
  plain : ∀ t ∈ o.calls, t.Plain

variable {S : Site} {n : Node} {log : List Entry} {o : Outcome}

theorem Silent.nil (m : Node) : Silent ⟨m, [], []⟩ := ⟨rfl, by simp⟩

theorem Silent.holds (hsilent : o.Silent) (hs : Sane o.node log) (hd : Decided log) : o.Holds S log := by
  have hlog : log ++ o.log = log := by rw [hsilent.log, append_nil]
  refine ⟨?_, ?_, fun t ht => (hsilent.plain t ht).queued S _ _⟩ <;> rwa [hlog]

theorem Silent.steps (hsilent : o.Silent) (hs : Sane n log) (hd : Decided log)
    (hsteady : Steady n o.node) : o.Steps S n log :=
  ⟨hsilent.holds (hs.quiet hsteady.toQuiet) hd, hsteady.kept, by simp [hsilent.log]⟩

end Outcome

namespace Node

open Outcome

variable {S : Site} {e : Env} {n : Node} {log : List Entry} {id : UInt64}

theorem collectSig_own (height : UInt64) (member sig : String) (verified : Bool) :
    (n.collectSig S id height member sig verified).ownApprovals = n.ownApprovals := by
  unfold collectSig
  split <;> rfl

theorem markVerified_own (member : String) :
    (n.markVerified id member).ownApprovals = n.ownApprovals := by
  unfold markVerified adjustSigs
  split <;> rfl

theorem steady_signed (height : UInt64) (sig : String) :
    Steady { n with ownApprovals := insert id n.ownApprovals }
      (({ n with ownApprovals := insert id n.ownApprovals }.collectSig S id height S.member sig true
        |>.markVerified id S.member).applyApproved S S.member id S.member height sig) := by
  refine ((steady_collectSig ..).trans (steady_markVerified ..)).trans
    (steady_applyApproved (fun _ _ => ?_) height sig)
  rw [markVerified_own, collectSig_own]
  exact Finset.mem_insert_self ..

theorem Sane.sign (hs : Sane n log) (hvote : Sanctioned n log id) :
    Sane { n with ownApprovals := insert id n.ownApprovals } log where
  own {j p} hj hp := by
    rcases Finset.mem_insert.mp hj with rfl | hj
    · cases hc : n.proposalChanges.lookup j with
      | some c => exact ((hs.registered hc).2 hp).imp_right .inl
      | none => exact .inr (hvote p hp hc)
    · exact hs.own hj hp
  registered := hs.registered

theorem chainSign_steps (hs : Sane n log) (hd : Decided log) (hvote : Sanctioned n log id) :
    (n.chainSign S e id).Steps S n log := by
  unfold chainSign
  split
  · rename_i sign head change _ _ hchange
    split_ifs
    · exact (Silent.nil n).steps hs hd (.refl n)
    · have hsteady := @steady_signed S n id (head.height + 1)
        (sign (approvalBytes n.chain.republicId (head.height + 1) change))
      have hkept : Kept n { n with ownApprovals := insert id n.ownApprovals } := Kept.refl n
      refine ⟨⟨?_, ?_, ?_⟩, hkept.trans hsteady.kept, by simp⟩
      · exact ((Sane.sign hs hvote).quiet hsteady.toQuiet).append (by simp)
      · refine hd.concat fun j surface payload height heq => ?_
        obtain ⟨rfl, -⟩ := Entry.signed.inj heq
        obtain ⟨rfl, hnone, p, hp, hr, rfl, rfl⟩ := hs.proposalChange_applied hchange
        exact (hvote p hp hnone).resolve_left (by simp [hr])
      · simp [Queued]
  · exact (Silent.nil n).steps hs hd (.refl n)

theorem sanctioned_of_registered {c : ChainChange} (h : n.proposalChanges.lookup id = some c) :
    Sanctioned n log id := fun _ _ hnone => absurd (hnone.symm.trans h) (by simp)

theorem Sane.sanctioned (hs : Sane n log) (hid : id ∈ n.ownApprovals) (hopen : n.isOpen id) :
    Sanctioned n log id := by
  intro p hp _
  have hstate : p.state = .proposed := by simpa [isOpen, hp] using hopen
  exact (hs.own hid hp).resolve_left fun h => by simp [h.2] at hstate

theorem silent_tryCommit : (n.tryCommit S e id).Silent := by
  unfold tryCommit
  split
  · exact .nil n
  · dsimp only
    split_ifs
    · exact .nil _
    · split
      · exact ⟨rfl, by simp [Task.Plain]⟩
      · exact .nil _

theorem silent_rebase : (n.rebase e).Silent := by
  unfold rebase
  split
  · exact .nil n
  · refine ⟨rfl, fun t ht => ?_⟩
    simp only [mem_append, mem_map, mem_singleton] at ht
    rcases ht with ⟨_, -, rfl⟩ | rfl <;> trivial

theorem silent_sweepRestores : (n.sweepRestores S e).Silent := by
  unfold sweepRestores
  split
  · exact .nil n
  · refine ⟨rfl, fun t ht => ?_⟩
    obtain ⟨_, -, rfl⟩ := mem_map.mp ht
    trivial

theorem silent_afterSeal : (n.afterSeal e id).Silent := by
  refine ⟨rfl, fun t ht => ?_⟩
  unfold afterSeal at ht
  split_ifs at ht <;> simp_all [Task.Plain]

theorem applyNextBlock_plain (block : ChainBlock) :
    ∀ t ∈ (n.applyNextBlock S e block).2, t.Plain := by
  unfold applyNextBlock
  split <;> simp [Task.Plain]

theorem silent_drain : (n.drain S e).Silent := by
  unfold drain
  split
  · exact .nil _
  · split
    · exact .nil _
    · dsimp only
      split
      · exact .nil _
      · rename_i h
        exact ⟨rfl, fun t ht => applyNextBlock_plain _ t (by rw [h]; exact ht)⟩

theorem resign_steps (hs : Sane n log) (hd : Decided log) : (n.resign S e id).Steps S n log := by
  unfold resign
  dsimp only
  have hdrop : Steady n (n.dropSigs id) := steady_dropSigs id
  split_ifs with h
  · have hs' := hs.quiet hdrop.toQuiet
    exact (chainSign_steps hs' hd (Sane.sanctioned hs' h.1 h.2)).of_kept hdrop.kept
  · exact (Silent.nil _).steps hs hd hdrop

theorem autoApprove_steps (hs : Sane n log) (hd : Decided log) :
    (n.autoApprove S e id).Steps S n log := by
  unfold autoApprove
  split
  · rename_i hregistered
    split_ifs
    · exact chainSign_steps hs hd (sanctioned_of_registered hregistered)
    · exact (Silent.nil n).steps hs hd (.refl n)
  · exact (Silent.nil n).steps hs hd (.refl n)

theorem mem_cardsWhere {q : UInt64 → ProposalRecord → Bool} (h : id ∈ n.cardsWhere q) :
    ∃ p, n.proposals.lookup id = some p ∧ q id p := by
  obtain ⟨c, hc, rfl⟩ := mem_map.mp h
  obtain ⟨hmem, hq⟩ := mem_filter.mp hc
  exact ⟨c.2, AList.mem_lookup_iff.mpr hmem, hq⟩

theorem resignAll_steps (hs : Sane n log) (hd : Decided log) : n.resignAll.Steps S n log := by
  have hsteady : Steady n { n with pendingSigs := ∅ } := .of_eq rfl rfl subset_rfl
  refine ⟨⟨?_, ?_, ?_⟩, hsteady.kept, by simp [resignAll]⟩
  · simpa [resignAll] using hs.quiet hsteady.toQuiet
  · simpa [resignAll] using hd
  · intro t ht
    rcases mem_pair.mp ht with rfl | rfl
    · intro id hid
      obtain ⟨hmem, hown⟩ := mem_filter.mp hid
      obtain ⟨p, hp, hopen⟩ := mem_cardsWhere ((mem_insertionSort _).mp hmem)
      have hstate : p.state = .proposed := by simpa using hopen
      have hvote := (hs.own (by simpa using hown) hp).resolve_left fun h => by simp [h.2] at hstate
      exact ⟨p, hp, by simpa [resignAll] using hvote⟩
    · trivial

theorem signOwn_steps {ids : List UInt64} (hs : Sane n log) (hd : Decided log)
    (hq : Queued S n log (.signOwn ids)) : (n.signOwn S e ids).Steps S n log := by
  cases ids with
  | nil => exact (Silent.nil n).steps hs hd (.refl n)
  | cons id ids =>
    have hvote : Sanctioned n log id := by
      intro p hp _
      obtain ⟨q, hq, hvote⟩ := hq id (.head _)
      obtain rfl : p = q := Option.some.inj (hp.symm.trans hq)
      exact hvote
    have hsign := chainSign_steps (S := S) (e := e) hs hd hvote
    refine { hsign with queued := fun t ht => ?_ }
    rcases mem_append.mp ht with ht | ht
    · exact hsign.queued t ht
    · obtain rfl := mem_singleton.mp ht
      exact Queued.kept hsign.kept hsign.unrevoked fun j hj => hq j (.tail _ hj)

def mintsFresh (S : Site) (n : Node) : Bool :=
  (n.mintProposalId S).all fun minted =>
    (n.proposals.lookup minted.1).isNone && (n.proposalChanges.lookup minted.1).isNone

theorem lookup_minted {m : Node} (hfresh : n.mintsFresh S) (h : n.mintProposalId S = some (id, m)) :
    n.proposals.lookup id = none ∧ n.proposalChanges.lookup id = none := by
  simpa [mintsFresh, h] using hfresh

theorem cutChange_ne_applied (kind : CutKind) (upto : UInt64) (hash : String) :
    ∀ j surface payload, cutChange kind upto hash ≠ .applied j surface payload := by
  intro j surface payload
  unfold cutChange
  split_ifs <;> simp

theorem lookup_register (n : Node) (id : UInt64) (c : ChainChange) :
    (n.register id c).proposalChanges.lookup id = some c := AList.lookup_insert _

theorem chainSign_registered {c : ChainChange} (hs : Sane (n.register id c) log) (hd : Decided log) :
    ((n.register id c).chainSign S e id).Steps S n log := by
  have hkept : Kept n (n.register id c) := Kept.refl n
  exact (chainSign_steps hs hd (sanctioned_of_registered (lookup_register ..))).of_kept hkept

theorem proposeCheckpoint_steps (hs : Sane n log) (hd : Decided log) (hfresh : n.mintsFresh S) :
    (n.proposeCheckpoint S e).Steps S n log := by
  have hnil : Steps S n log ⟨n, [], []⟩ := (Silent.nil n).steps hs hd (.refl n)
  unfold proposeCheckpoint
  split
  · exact hnil
  split
  · exact hnil
  split
  · exact hnil
  dsimp only
  split
  · rename_i folded id m _ hmint
    have hsteady : Steady n m := steady_mintProposalId hmint
    obtain ⟨hcards, -⟩ := mintProposalId_lookups hmint
    have hs' : ∀ kind upto hash, Sane (m.register id (cutChange kind upto hash)) log := by
      intro kind upto hash
      refine (hs.quiet hsteady.toQuiet).register (cutChange_ne_applied kind upto hash) fun p hp => ?_
      exact absurd ((lookup_minted hfresh hmint).1.symm.trans (hcards ▸ hp)) (by simp)
    apply Steps.of_kept hsteady.kept
    split_ifs
    · exact chainSign_registered (hs' ..) hd
    · exact ⟨(Silent.nil _).holds (hs' ..) hd, .refl m, by simp⟩
  · exact hnil

theorem autoCheckpoint_steps (hs : Sane n log) (hd : Decided log) (hfresh : n.mintsFresh S) :
    (n.autoCheckpoint S e).Steps S n log := by
  unfold autoCheckpoint
  split
  · exact (Silent.nil n).steps hs hd (.refl n)
  · dsimp only
    split_ifs
    · exact (Silent.nil n).steps hs hd (.refl n)
    · exact proposeCheckpoint_steps hs hd hfresh

end Node

open Node Outcome

variable {S : Site} {e : Env} {n : Node} {log : List Entry}

theorem exec_steps {call : Task} (hs : Sane n log) (hd : Decided log) (hq : Queued S n log call)
    (hfresh : call = .autoCheckpoint → n.mintsFresh S) : (exec S e n call).Steps S n log := by
  cases call with
  | tryCommit id => exact silent_tryCommit.steps hs hd (steady_tryCommit id)
  | sealed block id => exact silent_afterSeal.steps hs hd (steady_forgetVote id)
  | afterBlock block =>
    exact silent_rebase.steps hs hd ((steady_afterChange block).trans steady_rebase)
  | resign id => exact resign_steps hs hd
  | sweepRestores => exact silent_sweepRestores.steps hs hd steady_sweepRestores
  | autoApprove id => exact autoApprove_steps hs hd
  | autoCheckpoint => exact autoCheckpoint_steps hs hd (hfresh rfl)
  | caughtUp height => exact (Silent.nil _).steps hs hd (steady_caughtUp height)
  | requestCatchup height => exact (Silent.nil _).steps hs hd (steady_requestCatchup height)
  | drain => exact silent_drain.steps hs hd steady_drain
  | keepApproved source id member height sig =>
    exact (Silent.nil _).steps hs hd (steady_keepApproved hq id member height sig)
  | resignAll => exact resignAll_steps hs hd
  | signOwn ids => exact signOwn_steps hs hd hq
  | endReorg => exact (Silent.nil _).steps hs hd steady_endReorg

end Molt.Engine
