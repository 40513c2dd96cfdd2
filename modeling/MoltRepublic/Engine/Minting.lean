import Mathlib
import MoltRepublic.Engine.Books

/-! The proposal ids of a republic (`mint_proposal_id`): each seat mints in its own residue
class, by its place in the sorted roster, above every id it has seen. -/

namespace Molt.Engine
open Molt.Core List Function Nat

/-- One call of `mint_proposal_id`: the seat, its counter at the call and the id. -/
structure Minted where
  seat : String
  floor : UInt64
  id : UInt64

inductive MintEvent where
  | mint (seat : String)
  | received (seat : String) (id : UInt64)

def MintEvent.seat : MintEvent → String
  | mint seat => seat
  | received seat _ => seat

structure Mints where
  nodes : String → Node
  minted : List Minted

namespace Mints

def step (S : Site) (g : Mints) : MintEvent → Mints
  | .mint seat =>
    match (g.nodes seat).mintProposalId { S with member := seat } with
    -- the sum overflows: the call aborts
    | none => g
    | some (id, n) =>
      { nodes := Function.update g.nodes seat n
        minted := g.minted ++ [⟨seat, (g.nodes seat).nextId, id⟩] }
  | .received seat id => { g with nodes := Function.update g.nodes seat ((g.nodes seat).bump id) }

def run (S : Site) (g : Mints) (events : List MintEvent) : Mints := events.foldl (step S) g

def Holds (g : Mints) (roster : List String) : Prop :=
  ∀ seat ∈ roster, (g.nodes seat).roster.Perm roster

end Mints

theorem insertionSort_eq_of_perm {l k : List String} (h : l.Perm k) :
    l.insertionSort (· ≤ ·) = k.insertionSort (· ≤ ·) := by
  have hperm := ((perm_insertionSort (· ≤ ·) l).trans h).trans (perm_insertionSort (· ≤ ·) k).symm
  exact hperm.eq_of_pairwise (fun a b _ _ => le_antisymm) (pairwise_insertionSort _ _)
    (pairwise_insertionSort _ _)

theorem round_up_mod {n : Nat} (hn : 0 < n) (floor want : Nat) :
    (floor + (want + n - floor % n) % n) % n = want % n := by
  have hlt := mod_lt floor hn
  have hfloor := div_add_mod floor n
  have hsum : floor + (want + n - floor % n) = want + n * (floor / n + 1) := by
    rw [Nat.mul_add, Nat.mul_one]
    omega
  rw [add_mod_mod, hsum, add_mul_mod_self_left]

theorem class_back {n k : Nat} (hk : k < n) : ((k + 1) % n + n - 1) % n = k := by
  rcases Nat.lt_or_ge (k + 1) n with hlt | hge
  · have hsum : k + 1 + n - 1 = k + n := by omega
    rw [mod_eq_of_lt hlt, hsum, add_mod_right, mod_eq_of_lt hk]
  · have hlast : k + 1 = n := by omega
    rw [hlast, mod_self, Nat.zero_add, mod_eq_of_lt (by omega)]
    omega

namespace Node

variable {S : Site} {n m : Node} {id : UInt64}

theorem mintProposalId_roster (h : n.mintProposalId S = some (id, m)) : m.roster = n.roster := by
  unfold mintProposalId at h
  simp only [Option.ite_none_right_eq_some, Option.some.injEq, Prod.mk.injEq] at h
  obtain ⟨-, -, rfl⟩ := h
  rfl

theorem mintProposalId_eq_some (h : n.mintProposalId S = some (id, m)) (hmember : S.member ∈ n.roster) :
    n.nextId ≤ id ∧ id.toNat < max n.nextId.toNat 1 + n.roster.length ∧
      id.toNat % n.roster.length =
        ((n.roster.insertionSort (· ≤ ·)).idxOf S.member + 1) % n.roster.length ∧
      m.nextId = Chain.saturatingSucc id := by
  have hpos : 0 < n.roster.length := length_pos_of_mem hmember
  unfold mintProposalId at h
  simp only [Option.ite_none_right_eq_some, Option.some.injEq, Prod.mk.injEq, mem_insertionSort,
    length_insertionSort, hmember, if_true, max_eq_left (succ_le_of_lt hpos)] at h
  obtain ⟨hlt, hid, rfl⟩ := h
  have hnat := congrArg UInt64.toNat hid.symm
  rw [UInt64.toNat_ofNat_of_lt' (by simpa [UInt64.size] using hlt)] at hnat
  refine ⟨?_, ?_, ?_, by rw [hid]⟩
  · rw [UInt64.le_iff_toNat_le, hnat]
    exact (le_max_left _ _).trans (Nat.le_add_right _ _)
  · rw [hnat]
    exact Nat.add_lt_add_left (mod_lt _ hpos) _
  · rw [hnat, round_up_mod hpos, mod_mod]

theorem mintingSeat_eq_some {roster : List String} (hroster : n.roster.Perm roster) {seat : String}
    (hseat : seat ∈ roster)
    (hclass : id.toNat % roster.length =
      ((roster.insertionSort (· ≤ ·)).idxOf seat + 1) % roster.length) :
    n.mintingSeat id = some seat := by
  have hsorted := insertionSort_eq_of_perm hroster
  have hmem : seat ∈ roster.insertionSort (· ≤ ·) := (mem_insertionSort _).mpr hseat
  have hk := idxOf_lt_length_of_mem hmem
  have hlength := length_insertionSort (· ≤ ·) roster
  have hpos : roster.length ≠ 0 := by omega
  unfold mintingSeat
  dsimp only
  rw [hsorted, hlength, if_neg hpos, hclass, class_back (hlength ▸ hk), getElem?_eq_getElem hk,
    getElem_idxOf hk]

end Node

namespace Mints

variable {S : Site} {roster : List String} {g : Mints}

variable {seat : String}

theorem Holds.update (h : g.Holds roster) {n : Node} (hsame : n.roster = (g.nodes seat).roster)
    (minted : List Minted) :
    Holds ⟨Function.update g.nodes seat n, minted⟩ roster := by
  intro other hother
  by_cases hseat : other = seat
  · subst hseat
    simpa [hsame] using h other hother
  · simpa [hseat] using h other hother

theorem Holds.step (h : g.Holds roster) (e : MintEvent) : (g.step S e).Holds roster := by
  cases e with
  | received seat id => exact h.update (n := (g.nodes seat).bump id) rfl _
  | mint seat =>
    unfold Mints.step
    dsimp only
    split
    · exact h
    · rename_i hmint
      exact h.update (Node.mintProposalId_roster hmint) _

structure Apart (roster : List String) (g : Mints) : Prop where
  holds : g.Holds roster
  seats : ∀ m ∈ g.minted, m.seat ∈ roster
  floors : ∀ m ∈ g.minted, m.floor ≤ m.id
  classes : ∀ m ∈ g.minted, m.id.toNat % roster.length =
    ((roster.insertionSort (· ≤ ·)).idxOf m.seat + 1) % roster.length
  behind : ∀ m ∈ g.minted, (Chain.saturatingSucc m.id).toNat ≤ (g.nodes m.seat).nextId.toNat
  rising : g.minted.Pairwise fun a b => a.seat = b.seat → a.id < b.id

theorem Apart.start (hholds : g.Holds roster) (hnew : g.minted = []) : Apart roster g where
  holds := hholds
  seats := by simp [hnew]
  floors := by simp [hnew]
  classes := by simp [hnew]
  behind := by simp [hnew]
  rising := by simp [hnew]

theorem Apart.received (h : Apart roster g) (seat : String) (id : UInt64) :
    Apart roster (g.step S (.received seat id)) where
  holds := h.holds.step _
  seats := h.seats
  floors := h.floors
  classes := h.classes
  behind := by
    intro m hm
    refine (h.behind m hm).trans ?_
    by_cases hseat : m.seat = seat
    · simp [step, hseat, Node.bump, toNat_max]
    · simp [step, hseat]
  rising := h.rising

theorem Apart.minting (h : Apart roster g) (hseat : seat ∈ roster)
    (hroom : ∀ m ∈ (g.step S (.mint seat)).minted, m.floor.toNat < 2 ^ 64 - 1) :
    Apart roster (g.step S (.mint seat)) := by
  unfold step at hroom ⊢
  dsimp only at hroom ⊢
  cases hmint : (g.nodes seat).mintProposalId { S with member := seat } with
  | none => exact h
  | some minted =>
    obtain ⟨id, n⟩ := minted
    simp only [hmint] at hroom
    have hroster := h.holds seat hseat
    obtain ⟨hfloor, -, hclass, hnext⟩ :=
      Node.mintProposalId_eq_some hmint (hroster.mem_iff.mpr hseat)
    rw [hroster.length_eq, insertionSort_eq_of_perm hroster] at hclass
    refine
      { holds := h.holds.update (Node.mintProposalId_roster hmint) _
        seats := ?_
        floors := ?_
        classes := ?_
        behind := ?_
        rising := ?_ }
    · exact forall_mem_append.mpr ⟨h.seats, by simpa using hseat⟩
    · exact forall_mem_append.mpr ⟨h.floors, by simpa using hfloor⟩
    · exact forall_mem_append.mpr ⟨h.classes, by simpa using hclass⟩
    · refine forall_mem_append.mpr ⟨fun m hm => ?_, by simp [hnext]⟩
      by_cases hm' : m.seat = seat
      · have hbehind := h.behind m hm
        rw [hm'] at hbehind
        simp only [hm', update_self, hnext]
        exact (hbehind.trans (UInt64.le_iff_toNat_le.mp hfloor)).trans (Node.le_saturatingSucc id)
      · simpa [hm'] using h.behind m hm
    · refine pairwise_append.mpr ⟨h.rising, pairwise_singleton _ _, fun a ha b hb hab => ?_⟩
      obtain rfl := mem_singleton.mp hb
      have hbehind := h.behind a ha
      rw [hab, Node.toNat_saturatingSucc] at hbehind
      rw [UInt64.lt_iff_toNat_lt]
      have hle := UInt64.le_iff_toNat_le.mp hfloor
      have hlt := hroom _ (mem_append_right _ (mem_singleton_self _))
      dsimp only at hbehind hlt ⊢
      omega

theorem minted_run (events : List MintEvent) : ∀ m ∈ g.minted, m ∈ (g.run S events).minted := by
  induction events generalizing g with
  | nil => exact fun m hm => hm
  | cons e events ih =>
    intro m hm
    refine ih m ?_
    cases e with
    | received seat id => exact hm
    | mint seat =>
      unfold step
      dsimp only
      split
      · exact hm
      · exact mem_append_left _ hm

variable {events : List MintEvent}

theorem Apart.run (h : Apart roster g) (hseats : ∀ e ∈ events, e.seat ∈ roster)
    (hroom : ∀ m ∈ (g.run S events).minted, m.floor.toNat < 2 ^ 64 - 1) :
    Apart roster (g.run S events) := by
  induction events generalizing g with
  | nil => exact h
  | cons e events ih =>
    have hrest : ∀ e ∈ events, e.seat ∈ roster := fun d hd => hseats d (.tail _ hd)
    cases e with
    | received seat id => exact ih (h.received seat id) hrest hroom
    | mint seat =>
      refine ih (h.minting (hseats _ (.head _)) fun m hm => ?_) hrest hroom
      exact hroom m (minted_run events m hm)

theorem Apart.nodup (h : Apart roster g) : (g.minted.map Minted.id).Nodup := by
  refine pairwise_map.mpr (List.Pairwise.imp_of_mem (fun {a b} ha hb hab => ?_) h.rising)
  intro hid
  have hback : ∀ m ∈ g.minted, (g.nodes a.seat).mintingSeat m.id = some m.seat := fun m hm =>
    Node.mintingSeat_eq_some (h.holds _ (h.seats a ha)) (h.seats m hm) (h.classes m hm)
  have hseat : some a.seat = some b.seat := by rw [← hback a ha, ← hback b hb, hid]
  exact absurd hid (UInt64.ne_of_lt (hab (Option.some.inj hseat)))

/-- The counters and the floors of a run, `used` above the ids a seat may be sent. -/
structure Counted (used : Nat) (g : Mints) : Prop where
  counters : ∀ seat, (g.nodes seat).nextId.toNat ≤ 2 ^ 63 + used
  floors : ∀ m ∈ g.minted, m.floor.toNat ≤ 2 ^ 63 + used

variable {used : Nat}

theorem Counted.update {n : Nat} (h : Counted used g) {node : Node}
    (hnode : node.nextId.toNat ≤ 2 ^ 63 + (used + n)) {minted : List Minted}
    (hminted : ∀ m ∈ minted, m.floor.toNat ≤ 2 ^ 63 + used) :
    Counted (used + n) ⟨Function.update g.nodes seat node, minted⟩ where
  counters := by
    intro other
    by_cases hseat : other = seat
    · simpa [hseat] using hnode
    · have hother := h.counters other
      simp only [update_of_ne hseat]
      omega
  floors := fun m hm => (hminted m hm).trans (by omega)

theorem Counted.step (h : Counted used g) (hholds : g.Holds roster) {e : MintEvent} (hseat : e.seat ∈ roster)
    (hid : ∀ seat id, e = .received seat id → id.toNat < 2 ^ 63) :
    Counted (used + roster.length) (g.step S e) := by
  cases e with
  | received seat id =>
    refine h.update ?_ h.floors
    have hcounter := h.counters seat
    have hsent := hid seat id rfl
    rw [Node.bump, toNat_max, Node.toNat_saturatingSucc]
    omega
  | mint seat =>
    have hroster := hholds seat hseat
    unfold Mints.step
    dsimp only
    split
    · exact ⟨fun s => (h.counters s).trans (by omega), fun m hm => (h.floors m hm).trans (by omega)⟩
    · rename_i id node hmint
      obtain ⟨-, hstride, -, hnext⟩ := Node.mintProposalId_eq_some hmint (hroster.mem_iff.mpr hseat)
      have hcounter := h.counters seat
      rw [hroster.length_eq] at hstride
      refine h.update ?_ (forall_mem_append.mpr ⟨h.floors, by simpa using hcounter⟩)
      rw [hnext, Node.toNat_saturatingSucc]
      omega

theorem Counted.run (h : Counted used g) (hholds : g.Holds roster) (hseats : ∀ e ∈ events, e.seat ∈ roster)
    (hids : ∀ seat id, .received seat id ∈ events → id.toNat < 2 ^ 63) :
    Counted (used + events.length * roster.length) (g.run S events) := by
  induction events generalizing g used with
  | nil => simpa [Mints.run] using h
  | cons e events ih =>
    have hstep : Counted (used + roster.length) (g.step S e) :=
      h.step hholds (hseats e (.head _))
        fun seat id he => hids seat id (he ▸ .head _)
    have hrest := ih hstep (hholds.step e) (fun d hd => hseats d (.tail _ hd))
      fun seat id hd => hids seat id (.tail _ hd)
    rw [length_cons, Nat.add_mul, Nat.one_mul, Nat.add_comm _ roster.length, ← Nat.add_assoc]
    exact hrest

theorem floors_room (hholds : g.Holds roster) (hnew : g.minted = [])
    (hstart : ∀ seat, (g.nodes seat).nextId.toNat ≤ 2 ^ 63) (hseats : ∀ e ∈ events, e.seat ∈ roster)
    (hids : ∀ seat id, .received seat id ∈ events → id.toNat < 2 ^ 63)
    (hfew : events.length * roster.length < 2 ^ 63 - 1) :
    ∀ m ∈ (g.run S events).minted, m.floor.toNat < 2 ^ 64 - 1 := by
  intro m hm
  have hcounted : Counted 0 g := ⟨by simpa using hstart, by simp [hnew]⟩
  have hfloor := (hcounted.run hholds hseats hids).floors m hm
  omega

end Mints

/-- As long as no seat mints with its counter at the end, which takes more than `2 ^ 63 - 2`
strides, every id of a republic is minted once, above what its seat had seen, and names
its seat. -/
theorem minted_ids_apart {S : Site} {roster : List String} {g : Mints} (hholds : g.Holds roster)
    (hnew : g.minted = []) {events : List MintEvent} (hseats : ∀ e ∈ events, e.seat ∈ roster) :
    ((∀ m ∈ (g.run S events).minted, m.floor.toNat < 2 ^ 64 - 1) →
      ((g.run S events).minted.map Minted.id).Nodup ∧
      (g.run S events).minted.Pairwise (fun a b => a.seat = b.seat → a.id < b.id) ∧
      (∀ m ∈ (g.run S events).minted, m.floor ≤ m.id) ∧
      ∀ m ∈ (g.run S events).minted, ∀ seat ∈ roster,
        ((g.run S events).nodes seat).mintingSeat m.id = some m.seat) ∧
    ((∀ seat, (g.nodes seat).nextId.toNat ≤ 2 ^ 63) →
      (∀ seat id, .received seat id ∈ events → id.toNat < 2 ^ 63) →
      events.length * roster.length < 2 ^ 63 - 1 →
      ∀ m ∈ (g.run S events).minted, m.floor.toNat < 2 ^ 64 - 1) := by
  refine ⟨fun hroom => ?_, fun hstart hids hfew => Mints.floors_room hholds hnew hstart hseats hids hfew⟩
  have hapart := (Mints.Apart.start hholds hnew).run hseats hroom
  exact ⟨hapart.nodup, hapart.rising, hapart.floors, fun m hm seat hseat =>
    Node.mintingSeat_eq_some (hapart.holds seat hseat) (hapart.seats m hm) (hapart.classes m hm)⟩

namespace Sample

def twoSeats : Mints where
  nodes := fun seat =>
    if seat = "ben" then { start.node with identities := start.node.identities.reverse } else start.node
  minted := []

def mintsAcross : List MintEvent :=
  [.mint "ann", .mint "ben", .received "ann" 2, .mint "ann", .received "ben" 3, .mint "ben"]

theorem twoSeats_holds : twoSeats.Holds ["ann", "ben"] := by
  intro seat hseat
  simp only [mem_cons, not_mem_nil, or_false] at hseat
  rcases hseat with rfl | rfl <;> decide

end Sample

open Sample in
theorem minted_ids_apart_sample :
    (twoSeats.run site mintsAcross).minted.map Minted.id = [1, 2, 3, 4] ∧
      (twoSeats.run site mintsAcross).minted.Pairwise (fun a b => a.seat = b.seat → a.id < b.id) := by
  obtain ⟨hapart, hroom⟩ := @minted_ids_apart site _ _ twoSeats_holds rfl mintsAcross (by decide)
  have hids : ∀ seat id, MintEvent.received seat id ∈ mintsAcross → id.toNat < 2 ^ 63 := by
    intro seat id hmem
    simp only [mintsAcross, List.mem_cons, reduceCtorEq, MintEvent.received.injEq, List.not_mem_nil,
      or_false, false_or] at hmem
    rcases hmem with ⟨-, rfl⟩ | ⟨-, rfl⟩ <;> decide
  have hstart : ∀ seat, (twoSeats.nodes seat).nextId.toNat ≤ 2 ^ 63 := by
    intro seat
    simp only [twoSeats]
    split <;> decide
  exact ⟨by decide, (hapart (hroom hstart hids (by decide))).2.1⟩

namespace Sample

def alone : Mints where
  nodes := fun _ => { start.node with identities := [Chain.Sample.seat "ann" 1] }
  minted := []

end Sample

theorem mintProposalId_alone {n : Node} (hone : n.roster = ["ann"]) :
    ∃ id m, n.mintProposalId { Sample.site with member := "ann" } = some (id, m) := by
  have hlt : max n.nextId.toNat 1 < 2 ^ 64 := by
    have hcounter := n.nextId.toNat_lt
    omega
  have hsort : ["ann"].insertionSort (· ≤ ·) = ["ann"] := rfl
  unfold Node.mintProposalId
  simp only [hone, hsort, length_singleton, max_self, mod_one, Nat.add_zero]
  rw [if_pos hlt]
  exact ⟨_, _, rfl⟩

theorem alone_mints {g : Mints} (hone : (g.nodes "ann").roster = ["ann"]) (k : Nat) :
    (g.run Sample.site (List.replicate k (.mint "ann"))).minted.length = g.minted.length + k := by
  induction k generalizing g with
  | zero => rfl
  | succ k ih =>
    obtain ⟨id, n, hmint⟩ := mintProposalId_alone hone
    have hstep : g.step Sample.site (.mint "ann") =
        ⟨Function.update g.nodes "ann" n, g.minted ++ [⟨"ann", (g.nodes "ann").nextId, id⟩]⟩ := by
      unfold Mints.step
      dsimp only
      rw [hmint]
    have hnext : ((g.step Sample.site (.mint "ann")).nodes "ann").roster = ["ann"] := by
      rw [hstep]
      simpa [Node.mintProposalId_roster hmint] using hone
    have hlength : (g.step Sample.site (.mint "ann")).minted.length = g.minted.length + 1 := by
      rw [hstep, length_append, length_singleton]
    have hrun := ih hnext
    exact hrun.trans (by omega)

/-- The counter stays at its end, and there are no more than `2 ^ 64` ids. -/
theorem alone_mints_twice :
    ¬ ((Sample.alone.run Sample.site (List.replicate (2 ^ 64 + 1) (.mint "ann"))).minted.map
      Minted.id).Nodup := by
  intro hnodup
  have hlength := alone_mints (g := Sample.alone) (by decide) (2 ^ 64 + 1)
  generalize (Sample.alone.run Sample.site (List.replicate (2 ^ 64 + 1) (.mint "ann"))).minted = minted at *
  have hnat : ((minted.map Minted.id).map UInt64.toNat).Nodup :=
    hnodup.map fun a b => UInt64.toNat_inj.mp
  have hsub : ((minted.map Minted.id).map UInt64.toNat) ⊆ List.range (2 ^ 64) := by
    intro k hk
    obtain ⟨id, -, rfl⟩ := List.mem_map.mp hk
    exact List.mem_range.mpr id.toNat_lt
  have hle := (hnat.subperm hsub).length_le
  rw [List.length_map, List.length_map, List.length_range, hlength] at hle
  omega

end Molt.Engine
