import Mathlib
import MoltRepublic.Chat.Arrivals

/-! Chat converges: what the verbs make of a message is read off the streams of the senders
one by one, so neither the interleaving nor a repetition shows. -/

namespace Molt.Chat
open Molt.Core List

inductive Repeats {α : Type*} : List α → List α → Prop
  | nil : Repeats [] []
  | cons (a : α) (n : Nat) {l r : List α} : Repeats l r → Repeats (a :: l) (List.replicate (n + 1) a ++ r)

theorem Repeats.mem_iff {α : Type*} {l r : List α} (h : Repeats l r) (x : α) : x ∈ r ↔ x ∈ l := by
  induction h with
  | nil => rfl
  | cons a n _ ih => simp [ih]

theorem Repeats.foldl {α β : Type*} {l r : List α} (h : Repeats l r) {f : β → α → β}
    (hf : ∀ b a, f (f b a) a = f b a) (b : β) : r.foldl f b = l.foldl f b := by
  have hrun : ∀ (a : α) (n : Nat) (b : β), (List.replicate (n + 1) a).foldl f b = f b a := by
    intro a n
    induction n with
    | zero => intro b; rfl
    | succ n ih =>
      intro b
      rw [replicate_succ, foldl_cons, ih, hf]
  induction h generalizing b with
  | nil => rfl
  | cons a n _ ih => rw [foldl_append, hrun, ih, foldl_cons]

structure Delivers (streams : String → List Frame) (arrivals : List Arrival) : Prop where
  order : ∀ σ, Repeats (streams σ) ((arrivals.filter fun a => a.sender == σ).map Arrival.frame)
  admitted : ∀ a ∈ arrivals, ∀ msg, a.frame = .chat msg → a.gate.admits (received a.gate a.sender msg) = true

section

variable {streams : String → List Frame} {arrivals : List Arrival}

theorem Delivers.mem_iff (h : Delivers streams arrivals) (σ : String) (f : Frame) :
    f ∈ streams σ ↔ ∃ a ∈ arrivals, a.sender = σ ∧ a.frame = f := by
  rw [← (h.order σ).mem_iff f]
  simp only [mem_map, mem_filter, beq_iff_eq, and_assoc]

variable {σ : String} {x : MessageId × PendingRef}

theorem refsOf_cases {f : Frame} (h : x ∈ refsOf σ f) :
    (∃ id text emoji op, f = .chatReacted (some id) text op ∧ x = (id, .react σ emoji op)) ∨
    (∃ id, f = .chatDeleted (some id) ∧ x = (id, .delete σ)) ∨
    (∃ id, f = .fileRemoved (some id) ∧ x = (id, .fileRemove σ)) ∨
    ∃ ids id, f = .chatRead ids ∧ x = (id, .read σ) := by
  cases f with
  | chat msg => exact absurd h not_mem_nil
  | chatReacted id text op =>
    cases id with
    | none => exact absurd h not_mem_nil
    | some id =>
      simp only [refsOf] at h
      split at h
      · exact absurd h not_mem_nil
      · exact .inl ⟨id, text, _, op, rfl, mem_singleton.mp h⟩
  | chatDeleted id =>
    cases id with
    | none => exact absurd h not_mem_nil
    | some id => exact .inr (.inl ⟨id, rfl, mem_singleton.mp h⟩)
  | fileRemoved id =>
    cases id with
    | none => exact absurd h not_mem_nil
    | some id => exact .inr (.inr (.inl ⟨id, rfl, mem_singleton.mp h⟩))
  | chatRead ids =>
    obtain ⟨id, -, rfl⟩ := mem_map.mp h
    exact .inr (.inr (.inr ⟨ids, id, rfl, rfl⟩))

variable {id : MessageId}

theorem mem_refsTo {refs : List (MessageId × PendingRef)} {r : PendingRef} :
    r ∈ refsTo id refs ↔ (id, r) ∈ refs := by
  simp [refsTo]

theorem mem_refsIn (h : Delivers streams arrivals) :
    x ∈ refsIn arrivals ↔ ∃ σ, ∃ f ∈ streams σ, x ∈ refsOf σ f := by
  simp only [refsIn, mem_flatMap]
  constructor
  · rintro ⟨a, ha, hx⟩
    exact ⟨a.sender, a.frame, (h.mem_iff _ _).mpr ⟨a, ha, rfl, rfl⟩, hx⟩
  · rintro ⟨σ, f, hf, hx⟩
    obtain ⟨a, ha, rfl, rfl⟩ := (h.mem_iff σ f).mp hf
    exact ⟨a, ha, hx⟩

theorem letIn_eq_some {a : Arrival} {m : ChatMessage} (h : letIn a id = some m) :
    ∃ msg, a.frame = .chat msg ∧ m = received a.gate a.sender msg ∧ msg.id = id ∧ id ≠ nil := by
  unfold letIn at h
  split at h
  · rename_i msg hmsg
    dsimp only at h
    split_ifs at h with hlet
    exact ⟨msg, hmsg, (Option.some.inj h).symm, hlet.1, hlet.2.1⟩
  · cases h

theorem landedIn_eq_some {m : ChatMessage} (h : landedIn arrivals id = some m) :
    ∃ a ∈ arrivals, ∃ msg, a.frame = .chat msg ∧ m = received a.gate a.sender msg ∧ msg.id = id ∧ id ≠ nil := by
  obtain ⟨l, a, r, rfl, hlet, -⟩ := findSome?_eq_some_iff.mp h
  exact ⟨a, by simp, letIn_eq_some hlet⟩

theorem Delivers.landed (h : Delivers streams arrivals) {msg : ChatMessage} (hmsg : .chat msg ∈ streams σ)
    (hnil : msg.id ≠ nil) : ∃ m, landedIn arrivals msg.id = some m := by
  obtain ⟨a, ha, rfl, hframe⟩ := (h.mem_iff σ _).mp hmsg
  cases hl : landedIn arrivals msg.id with
  | some m => exact ⟨m, rfl⟩
  | none =>
    have hnone := findSome?_eq_none_iff.mp hl a ha
    unfold letIn at hnone
    rw [hframe] at hnone
    have hadmits := h.admitted a ha msg hframe
    dsimp only at hnone
    rw [if_pos ⟨rfl, hnil, hadmits⟩] at hnone
    cases hnone

end

section

variable {C : Crypto} {streams : String → List Frame} {arrivals : List Arrival}

variable {σ : String} {f : Frame}

theorem explicit_refsOf (hops : ∀ σ id emoji, Frame.chatReacted id emoji none ∉ streams σ)
    (hf : f ∈ streams σ) {x : MessageId × PendingRef} (hx : x ∈ refsOf σ f) : Explicit x.2 := by
  intro member emoji heq
  obtain ⟨id, text, _, op, rfl, rfl⟩ | ⟨_, -, rfl⟩ | ⟨_, -, rfl⟩ | ⟨_, _, -, rfl⟩ := refsOf_cases hx <;> cases heq
  exact hops σ (some id) text hf

theorem Delivers.holds (h : Delivers streams arrivals)
    (hops : ∀ σ id emoji, Frame.chatReacted id emoji none ∉ streams σ)
    (hcaps : alwaysBelowCaps C Node.fresh arrivals = true) :
    (∀ m ∈ (receiveAll C Node.fresh arrivals).state.chat,
      chatById (receiveAll C Node.fresh arrivals).state m.id = some m) ∧
    (∀ id m, chatById (receiveAll C Node.fresh arrivals).state id = some m →
      m ∈ (receiveAll C Node.fresh arrivals).state.chat ∧ m.id = id ∧
        ∃ g σ msg, .chat msg ∈ streams σ ∧ msg.id = id ∧ id ≠ nil ∧
          Reads (received g σ msg) (refsTo id (refsIn arrivals)) m) ∧
    ∀ σ msg, .chat msg ∈ streams σ → msg.id ≠ nil →
      ∃ m, chatById (receiveAll C Node.fresh arrivals).state msg.id = some m := by
  have hholds := holds_fresh.receiveAll hcaps
  refine ⟨?_, ?_, ?_⟩
  · intro m hm
    obtain ⟨pos, hpos⟩ := mem_iff_getElem?.mp hm
    unfold chatById
    rw [hholds.indexed.found pos m hpos, Option.bind_some, hpos]
  · intro id m hm
    cases hl : landedIn arrivals id with
    | none =>
      rw [(hholds.waiting id hl).1] at hm
      cases hm
    | some m₀ =>
      obtain ⟨a, ha, msg, hframe, rfl, hid, hnil⟩ := landedIn_eq_some hl
      have hread := (hholds.known id _ hl).1
      rw [hm] at hread
      have hexplicit : ∀ r ∈ refsTo id (refsIn arrivals), Explicit r := by
        intro r hr
        obtain ⟨σ, f, hf, hx⟩ := (mem_refsIn h).mp (mem_refsTo.mp hr)
        exact explicit_refsOf hops hf hx
      have hbare : Bare (received a.gate a.sender msg) := ⟨rfl, rfl, rfl⟩
      have hreads := (reads_nil hbare).foldl hexplicit
      rw [nil_append] at hread hreads
      rw [← Option.some.inj hread] at hreads
      obtain ⟨pos, hpos, hat⟩ := Option.bind_eq_some_iff.mp hm
      exact ⟨mem_of_getElem? hat, hreads.id.trans hid, a.gate, a.sender, msg,
        (h.mem_iff _ _).mpr ⟨a, ha, rfl, hframe⟩, hid, hnil, hreads⟩
  · intro σ msg hmsg hnil
    obtain ⟨m₀, hm₀⟩ := h.landed hmsg hnil
    exact ⟨_, (hholds.known msg.id m₀ hm₀).1⟩

end

namespace Sample

def hello : ChatMessage :=
  ⟨"0000000000000000000000000000000a", "ann", "hi", 50, none, none, SortedMap.empty, ∅, none, none⟩

def open₀ : Gate := ⟨100, fun _ => true⟩

def ahead : List Arrival :=
  [⟨open₀, "ben", .chatReacted (some hello.id) "+" (some .add)⟩,
    ⟨open₀, "ben", .chatReacted (some hello.id) "+" (some .add)⟩, ⟨open₀, "ben", .chatRead [hello.id]⟩,
    ⟨open₀, "ann", .chat hello⟩]

end Sample
end Molt.Chat
