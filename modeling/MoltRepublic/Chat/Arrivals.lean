import Mathlib
import MoltRepublic.Chat.Reading

/-! What a node makes of its arrivals: a message is the fold of the verbs it received for it, in
the order they came and as if the message had come first, however many were parked. -/

namespace Molt.Chat
open Molt.Core List SortedMap Function Option

structure Indexed (s : ChatState) : Prop where
  found : ∀ (pos : Nat) (m : ChatMessage), s.chat[pos]? = some m → s.chatPos.get? m.id = some pos
  points : ∀ id pos, s.chatPos.get? id = some pos → ∃ m, s.chat[pos]? = some m ∧ m.id = id

section

variable {C : Crypto} {s : ChatState}

variable {id : MessageId}

theorem Indexed.chatPos_none (h : Indexed s) (hnone : chatById s id = none) :
    s.chatPos.get? id = none := by
  cases hpos : s.chatPos.get? id with
  | none => rfl
  | some pos =>
    obtain ⟨m, hm, -⟩ := h.points id pos hpos
    simp [chatById, hpos, hm] at hnone

theorem chatTarget_id {m : ChatMessage} (hm : chatById s id = some m) (index : UInt64) :
    ∃ pos, chatTarget s (some id) index = some pos ∧ s.chatPos.get? id = some pos ∧
      s.chat[pos]? = some m := by
  obtain ⟨pos, hpos, hat⟩ := bind_eq_some_iff.mp hm
  refine ⟨pos, ?_, hpos, hat⟩
  have hlt := (List.getElem?_eq_some_iff.mp hat).1
  simp [chatTarget, hpos, hlt]

theorem Indexed.modify (h : Indexed s) {f : ChatMessage → ChatMessage} (hf : ∀ m, (f m).id = m.id)
    {m : ChatMessage} (hm : chatById s id = some m) (index : UInt64) :
    Indexed (s.modify (chatTarget s (some id) index) f) ∧
      ∀ j, chatById (s.modify (chatTarget s (some id) index) f) j =
        if j = id then some (f m) else chatById s j := by
  obtain ⟨pos, htarget, hpos, hat⟩ := chatTarget_id hm index
  have hchat : ∀ i : Nat, (s.chat.modify pos f)[i]? = if pos = i then (s.chat[i]?).map f else s.chat[i]? := by
    intro i
    rw [getElem?_modify]
    split_ifs <;> simp
  rw [htarget]
  constructor
  · constructor
    · intro i a ha
      change (s.chat.modify pos f)[i]? = some a at ha
      rw [hchat] at ha
      split_ifs at ha with hi
      · obtain ⟨b, hb, rfl⟩ := map_eq_some_iff.mp ha
        rw [hf b]
        exact h.found i b hb
      · exact h.found i a ha
    · intro j i hj
      obtain ⟨b, hb, hid⟩ := h.points j i hj
      change ∃ a, (s.chat.modify pos f)[i]? = some a ∧ a.id = j
      rw [hchat]
      split_ifs with hi
      · exact ⟨f b, by rw [hb]; rfl, (hf b).trans hid⟩
      · exact ⟨b, hb, hid⟩
  · intro j
    change (s.chatPos.get? j).bind (fun i => (s.chat.modify pos f)[i]?) = _
    split_ifs with hj
    · subst hj
      rw [hpos, bind_some, hchat, if_pos rfl, hat]
      rfl
    · unfold chatById
      cases hjpos : s.chatPos.get? j with
      | none => rfl
      | some i =>
        have hne : pos ≠ i := by
          rintro rfl
          obtain ⟨b, hb, hid⟩ := h.points j pos hjpos
          obtain ⟨c, hc, hid'⟩ := h.points id pos hpos
          rw [hb] at hc
          exact hj (hid.symm.trans ((congrArg ChatMessage.id (Option.some.inj hc)).trans hid'))
        rw [bind_some, bind_some, hchat, if_neg hne]

theorem Indexed.applyChat (h : Indexed s) {msg : ChatMessage} (hid : msg.id ≠ nil) (hquote : msg.quote = none)
    (hnew : s.chatPos.get? msg.id = none) : Indexed (applyChat C s msg) ∧
      ∀ j, chatById (Chat.applyChat C s msg) j = if j = msg.id then some msg else chatById s j := by
  have hsettled : settleChat C s msg = msg := by
    unfold settleChat
    rw [if_neg hid]
    dsimp only
    split_ifs
    · rw [hquote]
    · rfl
  have hstate : Chat.applyChat C s msg =
      { s with chat := s.chat ++ [msg], chatPos := s.chatPos.insert msg.id s.chat.length } := by
    unfold Chat.applyChat
    rw [hsettled]
  have hold : ∀ (i : Nat) (m : ChatMessage), s.chat[i]? = some m → (s.chat ++ [msg])[i]? = some m := by
    intro i m hm
    rw [getElem?_append_left (List.getElem?_eq_some_iff.mp hm).1]
    exact hm
  rw [hstate]
  constructor
  · constructor
    · intro i m hm
      change (s.chatPos.insert msg.id s.chat.length).get? m.id = some i
      change (s.chat ++ [msg])[i]? = some m at hm
      rw [get?_insert]
      by_cases hi : i < s.chat.length
      · rw [getElem?_append_left hi] at hm
        have hfound := h.found i m hm
        have hne : m.id ≠ msg.id := by
          intro heq
          rw [heq, hnew] at hfound
          cases hfound
        rw [if_neg hne]
        exact hfound
      · rw [getElem?_append_right (Nat.not_lt.mp hi)] at hm
        have hlt := (List.getElem?_eq_some_iff.mp hm).1
        have hi : i = s.chat.length := by
          simp at hlt
          omega
        subst hi
        rw [Nat.sub_self] at hm
        obtain rfl := Option.some.inj hm
        rw [if_pos rfl]
    · intro j i hj
      change (s.chatPos.insert msg.id s.chat.length).get? j = some i at hj
      rw [get?_insert] at hj
      split_ifs at hj with heq
      · obtain rfl := Option.some.inj hj
        exact ⟨msg, getElem?_concat_length, heq.symm⟩
      · obtain ⟨m, hm, hmid⟩ := h.points j i hj
        exact ⟨m, hold i m hm, hmid⟩
  · intro j
    change ((s.chatPos.insert msg.id s.chat.length).get? j).bind (fun i => (s.chat ++ [msg])[i]?) = _
    rw [get?_insert]
    split_ifs with hj
    · rw [bind_some]
      exact getElem?_concat_length
    · unfold chatById
      cases hpos : s.chatPos.get? j with
      | none => rfl
      | some i =>
        obtain ⟨m, hm, -⟩ := h.points j i hpos
        rw [bind_some, bind_some, hold i m hm, hm]

end

/-- The caps of the park are not reached when a verb about `id` is parked. -/
def roomy (n : Node) (id : MessageId) : Bool :=
  (chatById n.state id).isSome || match n.parked.refs.get? id with
    | some list => decide (list.length < parkedRefsPerTarget)
    | none => decide (n.parked.order.length < parkedTargetCap)

def parkedAs (refs : List PendingRef) : Option (List PendingRef) := if refs = [] then none else some refs

structure Holds (n : Node) (landed : MessageId → Option ChatMessage)
    (refs : MessageId → List PendingRef) : Prop where
  indexed : Indexed n.state
  known : ∀ id m₀, landed id = some m₀ →
    chatById n.state id = some ((refs id).foldl act m₀) ∧ n.parked.refs.get? id = none
  waiting : ∀ id, landed id = none →
    chatById n.state id = none ∧ n.parked.refs.get? id = parkedAs (refs id)

theorem act_id (m : ChatMessage) (r : PendingRef) : (act m r).id = m.id := by
  cases r with
  | react member emoji op =>
    change (reactOn emoji member op m).id = m.id
    unfold reactOn
    split_ifs
    · rfl
    · dsimp only
      split_ifs <;> rfl
  | delete member =>
    change (if m.sender = member then deleteOn member m else m).id = m.id
    split_ifs <;> rfl
  | fileRemove member =>
    change (if m.sender = member then removeFileOn m else m).id = m.id
    split_ifs <;> rfl
  | read member =>
    change (readOn member m).id = m.id
    unfold readOn
    split_ifs <;> rfl

namespace Holds

variable {C : Crypto} {n : Node} {landed : MessageId → Option ChatMessage}
  {refs : MessageId → List PendingRef}

variable {id : MessageId} {r : PendingRef}

theorem changed (h : Holds n landed refs) {m₀ m : ChatMessage} (hlanded : landed id = some m₀)
    (hm : chatById n.state id = some m) {s : ChatState} (hindexed : Indexed s)
    (hlook : ∀ j, chatById s j = if j = id then some (act m r) else chatById n.state j) :
    Holds { n with state := s } landed (Function.update refs id (refs id ++ [r])) where
  indexed := hindexed
  known := by
    intro j m₁ hj
    obtain ⟨hknown, hparked⟩ := h.known j m₁ hj
    refine ⟨?_, hparked⟩
    rw [hlook]
    split_ifs with heq
    · subst heq
      rw [hlanded] at hj
      cases hj
      rw [update_self, foldl_append]
      rw [hm] at hknown
      rw [Option.some.inj hknown]
      rfl
    · rw [update_of_ne heq]
      exact hknown
  waiting := by
    intro j hj
    have hne : j ≠ id := by
      rintro rfl
      rw [hlanded] at hj
      cases hj
    rw [hlook, if_neg hne, update_of_ne hne]
    exact h.waiting j hj

theorem same (h : Holds n landed refs) {m₀ m : ChatMessage} (hlanded : landed id = some m₀)
    (hm : chatById n.state id = some m) (hsame : act m r = m) :
    Holds n landed (Function.update refs id (refs id ++ [r])) := by
  refine h.changed hlanded hm h.indexed ?_
  intro j
  split_ifs with heq
  · rw [heq, hm, hsame]
  · rfl

theorem parks (h : Holds n landed refs) (hlanded : landed id = none) (hroom : roomy n id = true) :
    Holds (park n id r) landed (Function.update refs id (refs id ++ [r])) := by
  obtain ⟨hunknown, hparked⟩ := h.waiting id hlanded
  have hpark : ∀ j, (n.parked.park id r).refs.get? j =
      if j = id then some (refs id ++ [r]) else n.parked.refs.get? j := by
    intro j
    unfold roomy at hroom
    rw [hunknown, isSome_none, Bool.false_or] at hroom
    unfold ParkedRefs.park
    rw [hparked] at hroom ⊢
    unfold parkedAs at hroom ⊢
    by_cases hempty : refs id = []
    · rw [if_pos hempty] at hroom ⊢
      rw [if_neg (Nat.not_le.mpr (of_decide_eq_true hroom)), get?_insert, hempty]
      rfl
    · rw [if_neg hempty] at hroom ⊢
      dsimp only at hroom ⊢
      rw [if_neg (Nat.not_le.mpr (of_decide_eq_true hroom)), get?_insert]
  refine ⟨h.indexed, ?_, ?_⟩
  · intro j m₀ hj
    have hne : j ≠ id := by
      rintro rfl
      rw [hlanded] at hj
      cases hj
    obtain ⟨hknown, hnone⟩ := h.known j m₀ hj
    rw [update_of_ne hne]
    exact ⟨hknown, by rw [park, hpark, if_neg hne]; exact hnone⟩
  · intro j hj
    obtain ⟨hnone, hrefs⟩ := h.waiting j hj
    refine ⟨hnone, ?_⟩
    rw [park, hpark]
    split_ifs with heq
    · subst heq
      rw [update_self, parkedAs, if_neg (by simp)]
    · rw [update_of_ne heq]
      exact hrefs

theorem wireRef (h : Holds n landed refs) (id : MessageId) (r : PendingRef) (hroom : roomy n id = true) :
    Holds (wireRef C id n r) landed (Function.update refs id (refs id ++ [r])) := by
  cases hlanded : landed id with
  | none =>
    have hunknown := (h.waiting id hlanded).1
    have hparks := h.parks hlanded (r := r) hroom
    cases r with
    | react member emoji op =>
      simp only [Chat.wireRef, wireReact, hunknown]
      exact hparks
    | delete member =>
      simp only [Chat.wireRef, wireDelete, hunknown]
      exact hparks
    | fileRemove member =>
      simp only [Chat.wireRef, wireFileRemove, hunknown]
      exact hparks
    | read member =>
      simp only [Chat.wireRef, wireRead, hunknown]
      exact hparks
  | some m₀ =>
    have hm := (h.known id m₀ hlanded).1
    generalize (refs id).foldl act m₀ = m at hm
    cases r with
    | react member emoji op =>
      simp only [Chat.wireRef, wireReact, hm]
      split_ifs with hdeleted
      · refine h.same hlanded hm ?_
        change reactOn emoji member op m = m
        unfold reactOn
        rw [if_pos hdeleted]
      · obtain ⟨hindexed, hlook⟩ := h.indexed.modify (fun m => act_id m (.react member emoji op)) hm
          (indexOf n.state id)
        exact h.changed hlanded hm hindexed hlook
    | delete member =>
      simp only [Chat.wireRef, wireDelete, hm]
      split_ifs with hother
      · exact h.same hlanded hm (if_neg hother)
      · obtain ⟨hindexed, hlook⟩ := h.indexed.modify (f := deleteOn member) (fun _ => rfl) hm
          (indexOf n.state id)
        refine h.changed hlanded hm hindexed ?_
        intro j
        refine (hlook j).trans ?_
        simp [act, if_pos (not_not.mp hother)]
    | fileRemove member =>
      simp only [Chat.wireRef, wireFileRemove, hm]
      split_ifs with hother
      · refine h.same hlanded hm ?_
        change (if m.sender = member then removeFileOn m else m) = m
        split_ifs with hown
        · have hnone : m.file = none := by
            rcases hother with hother | hnone
            · exact absurd hown hother
            · exact isNone_iff_eq_none.mp hnone
          unfold removeFileOn
          rw [hnone]
          change { m with file := none } = m
          rw [← hnone]
        · rfl
      · obtain ⟨hindexed, hlook⟩ := h.indexed.modify (f := removeFileOn) (fun _ => rfl) hm
          (indexOf n.state id)
        refine h.changed hlanded hm hindexed ?_
        intro j
        refine (hlook j).trans ?_
        have hown : m.sender = member := by
          by_contra hne
          exact hother (.inl hne)
        simp only [act, if_pos hown]
    | read member =>
      simp only [Chat.wireRef, wireRead, hm]
      split_ifs with hskip
      · refine h.same hlanded hm ?_
        change readOn member m = m
        unfold readOn
        rw [if_pos hskip]
      · obtain ⟨hindexed, hlook⟩ := h.indexed.modify (fun m => act_id m (.read member)) hm 0
        exact h.changed hlanded hm hindexed hlook

end Holds

def refsOf (sender : String) : Frame → List (MessageId × PendingRef)
  | .chat _ => []
  | .chatReacted none _ _ => []
  | .chatReacted (some id) emoji op =>
    match sanitizeEmoji emoji with
    | none => []
    | some emoji => [(id, .react sender emoji op)]
  | .chatDeleted none => []
  | .chatDeleted (some id) => [(id, .delete sender)]
  | .fileRemoved none => []
  | .fileRemoved (some id) => [(id, .fileRemove sender)]
  | .chatRead ids => ids.map fun id => (id, .read sender)

def wireAll (C : Crypto) (n : Node) (refs : List (MessageId × PendingRef)) : Node :=
  refs.foldl (fun n r => wireRef C r.1 n r.2) n

def roomyFor (C : Crypto) : Node → List (MessageId × PendingRef) → Bool
  | _, [] => true
  | n, r :: refs => roomy n r.1 && roomyFor C (wireRef C r.1 n r.2) refs

def receiptsFit (n : Node) : Frame → Bool
  | .chatRead ids => decide ((ids.filter fun id => (chatById n.state id).isNone).length ≤ parkedReadsPerFrame)
  | _ => true

def belowCaps (C : Crypto) (n : Node) (a : Arrival) : Bool :=
  roomyFor C n (refsOf a.sender a.frame) && receiptsFit n a.frame

def refsTo (id : MessageId) (refs : List (MessageId × PendingRef)) : List PendingRef :=
  (refs.filter fun r => r.1 == id).map Prod.snd

theorem refsTo_append (id : MessageId) (a b : List (MessageId × PendingRef)) :
    refsTo id (a ++ b) = refsTo id a ++ refsTo id b := by
  unfold refsTo
  rw [filter_append, map_append]

namespace Holds

variable {C : Crypto} {n : Node} {landed : MessageId → Option ChatMessage}
  {refs : MessageId → List PendingRef}

theorem congr_refs (h : Holds n landed refs) {refs' : MessageId → List PendingRef}
    (heq : ∀ id, refs' id = refs id) : Holds n landed refs' :=
  funext heq ▸ h

theorem wireAll (h : Holds n landed refs) {more : List (MessageId × PendingRef)} (hroom : roomyFor C n more = true) :
    Holds (wireAll C n more) landed fun id => refs id ++ refsTo id more := by
  induction more generalizing n refs with
  | nil => exact h.congr_refs fun id => append_nil _
  | cons r more ih =>
    obtain ⟨hfirst, hrest⟩ := Bool.and_eq_true_iff.mp hroom
    refine (ih (h.wireRef r.1 r.2 hfirst) hrest).congr_refs ?_
    intro id
    by_cases hid : id = r.1
    · subst hid
      rw [update_self, append_assoc]
      simp [refsTo]
    · rw [update_of_ne hid]
      simp [refsTo, Ne.symm hid]

theorem drained (h : Holds n landed refs) {id : MessageId} {m₀ : ChatMessage} (hlanded : landed id = some m₀)
    (more : List PendingRef) : Holds (more.foldl (Chat.wireRef C id) n) landed
      (Function.update refs id (refs id ++ more)) := by
  induction more generalizing n refs with
  | nil =>
    rw [append_nil, update_eq_self]
    exact h
  | cons r more ih =>
    have hroom : roomy n id = true := by
      unfold roomy
      rw [(h.known id m₀ hlanded).1]
      rfl
    have hnext := ih (h.wireRef (C := C) id r hroom)
    rwa [update_idem, update_self, append_assoc] at hnext

theorem landWireChat (h : Holds n landed refs) {msg : ChatMessage} (hid : msg.id ≠ nil)
    (hquote : msg.quote = none) (hlanded : landed msg.id = none) :
    Holds (landWireChat C n msg) (Function.update landed msg.id (some msg)) refs := by
  obtain ⟨hunknown, hparked⟩ := h.waiting msg.id hlanded
  obtain ⟨hindexed, hlook⟩ := h.indexed.applyChat (C := C) hid hquote (h.indexed.chatPos_none hunknown)
  have hdrain : (n.parked.drain msg.id).2 = refs msg.id := by
    unfold ParkedRefs.drain
    rw [hparked]
    unfold parkedAs
    split_ifs with hempty
    · exact hempty.symm
    · rfl
  -- the message has landed, nothing is parked for it, and its verbs are still to come
  have hbegun : Holds ⟨Chat.applyChat C n.state msg, (n.parked.drain msg.id).1⟩
      (Function.update landed msg.id (some msg)) (Function.update refs msg.id []) := by
    refine ⟨hindexed, ?_, ?_⟩
    · intro j m₀ hj
      change chatById (Chat.applyChat C n.state msg) j = _ ∧ (n.parked.refs.erase msg.id).get? j = none
      rw [hlook, get?_erase]
      by_cases heq : j = msg.id
      · subst heq
        rw [update_self] at hj ⊢
        rw [if_pos rfl, if_pos rfl, hj]
        exact ⟨rfl, rfl⟩
      · rw [update_of_ne heq] at hj ⊢
        rw [if_neg heq, if_neg heq]
        exact h.known j m₀ hj
    · intro j hj
      have heq : j ≠ msg.id := by
        rintro rfl
        rw [update_self] at hj
        cases hj
      change chatById (Chat.applyChat C n.state msg) j = none ∧ (n.parked.refs.erase msg.id).get? j = _
      rw [hlook, get?_erase, if_neg heq, if_neg heq, update_of_ne heq]
      rw [update_of_ne heq] at hj
      exact h.waiting j hj
  have hdone := hbegun.drained (C := C) (update_self msg.id (some msg) landed) (refs msg.id)
  rw [update_idem, update_self, nil_append, update_eq_self, ← hdrain] at hdone
  exact hdone

end Holds

section

variable {C : Crypto} {s : ChatState} {sender : String}

theorem chatRead_cons (id : MessageId) (known : List MessageId) :
    apply C s (.chatRead (id :: known) sender) =
      apply C (s.modify (chatTarget s (some id) 0) (readOn sender)) (.chatRead known sender) := rfl

theorem Indexed.readAll (h : Indexed s) (known : List MessageId) :
    Indexed (apply C s (.chatRead known sender)) ∧ ∀ id,
      (chatById (apply C s (.chatRead known sender)) id).map (fun m => (m.deletedBy, m.sender)) =
        (chatById s id).map fun m => (m.deletedBy, m.sender) := by
  induction known generalizing s with
  | nil => exact ⟨h, fun id => rfl⟩
  | cons id known ih =>
    rw [chatRead_cons]
    cases hm : chatById s id with
    | none =>
      have htarget : chatTarget s (some id) 0 = none := by
        simp [chatTarget, h.chatPos_none hm]
      rw [htarget]
      exact ih h
    | some m =>
      obtain ⟨hindexed, hlook⟩ := h.modify (f := readOn sender) (fun m => act_id m (.read sender)) hm 0
      obtain ⟨hdone, hkept⟩ := ih hindexed
      refine ⟨hdone, ?_⟩
      intro j
      refine (hkept j).trans ?_
      rw [hlook]
      split_ifs with hj
      · subst hj
        rw [hm]
        unfold readOn
        split_ifs <;> rfl
      · rfl

theorem chatRead_concat (known : List MessageId) (id : MessageId) :
    apply C s (.chatRead (known ++ [id]) sender) =
      apply C (apply C s (.chatRead known sender)) (.chatRead [id] sender) :=
  foldl_append ..

theorem sortRead_wireAll (hs : Indexed s) (ids : List MessageId) (p : ParkedRefs) (known : List MessageId)
    (k : Nat) (hcap : k + (ids.filter fun id => (chatById s id).isNone).length ≤ parkedReadsPerFrame) :
    ∃ p' known' k', ids.foldl (sortRead sender) (⟨s, p⟩, known, k) = (⟨s, p'⟩, known', k') ∧
      wireAll C ⟨apply C s (.chatRead known sender), p⟩ (ids.map fun id => (id, .read sender)) =
        ⟨apply C s (.chatRead known' sender), p'⟩ := by
  induction ids generalizing p known k with
  | nil => exact ⟨p, known, k, rfl, rfl⟩
  | cons id ids ih =>
    have hkept : (chatById (apply C s (.chatRead known sender)) id).map (fun m => (m.deletedBy, m.sender)) =
        (chatById s id).map fun m => (m.deletedBy, m.sender) := (hs.readAll known).2 id
    rw [foldl_cons, map_cons]
    change ∃ p' known' k', _ ∧ wireAll C (wireRead C ⟨apply C s (.chatRead known sender), p⟩ id sender)
      (ids.map fun id => (id, .read sender)) = _
    cases hm : chatById s id with
    | none =>
      rw [hm] at hkept
      have hunknown : chatById (apply C s (.chatRead known sender)) id = none := by
        simpa using hkept
      rw [filter_cons, if_pos (by simp [hm]), length_cons] at hcap
      have hsort : sortRead sender (⟨s, p⟩, known, k) id = (⟨s, p.park id (.read sender)⟩, known, k + 1) := by
        simp only [sortRead, hm]
        rw [if_pos (by omega)]
        rfl
      have hwire : wireRead C ⟨apply C s (.chatRead known sender), p⟩ id sender =
          ⟨apply C s (.chatRead known sender), p.park id (.read sender)⟩ := by
        simp only [wireRead, hunknown]
        rfl
      rw [hsort, hwire]
      exact ih _ known (k + 1) (by omega)
    | some m =>
      rw [hm] at hkept
      obtain ⟨m', hm', hsame⟩ := map_eq_some_iff.mp hkept
      obtain ⟨hdeleted, hsender⟩ := Prod.mk.inj hsame
      rw [filter_cons, if_neg (by simp [hm])] at hcap
      by_cases hskip : (m.deletedBy.isSome || m.sender == sender) = true
      · have hsort : sortRead sender (⟨s, p⟩, known, k) id = (⟨s, p⟩, known, k) := by
          simp only [sortRead, hm]
          cases hd : m.deletedBy <;> simp_all
        have hwire : wireRead C ⟨apply C s (.chatRead known sender), p⟩ id sender =
            ⟨apply C s (.chatRead known sender), p⟩ := by
          simp only [wireRead, hm', hdeleted, hsender]
          rw [if_pos hskip]
        rw [hsort, hwire]
        exact ih p known k hcap
      · have hsort : sortRead sender (⟨s, p⟩, known, k) id = (⟨s, p⟩, known ++ [id], k) := by
          simp only [sortRead, hm]
          cases hd : m.deletedBy <;> simp_all
        have hwire : wireRead C ⟨apply C s (.chatRead known sender), p⟩ id sender =
            ⟨apply C s (.chatRead (known ++ [id]) sender), p⟩ := by
          simp only [wireRead, hm', hdeleted, hsender]
          rw [if_neg hskip, chatRead_concat]
          rfl
        rw [hsort, hwire]
        exact ih p (known ++ [id]) k hcap

theorem deliverRead_eq {n : Node} (hs : Indexed n.state) {ids : List MessageId}
    (hcap : (ids.filter fun id => (chatById n.state id).isNone).length ≤ parkedReadsPerFrame) :
    deliverRead C n sender ids = wireAll C n (ids.map fun id => (id, .read sender)) := by
  have hroom : 0 + (ids.filter fun id => (chatById n.state id).isNone).length ≤ parkedReadsPerFrame := by omega
  obtain ⟨p, known, k, hsorted, hwire⟩ : ∃ p known k, ids.foldl (sortRead sender) (⟨n.state, n.parked⟩, [], 0) =
      (⟨n.state, p⟩, known, k) ∧
      wireAll C ⟨apply C n.state (.chatRead [] sender), n.parked⟩ (ids.map fun id => (id, .read sender)) =
        ⟨apply C n.state (.chatRead known sender), p⟩ := sortRead_wireAll hs ids n.parked [] 0 hroom
  have hstart : (⟨apply C n.state (.chatRead [] sender), n.parked⟩ : Node) = n := rfl
  rw [hstart] at hwire
  rw [hwire]
  unfold deliverRead
  rw [show ids.foldl (sortRead sender) (n, [], 0) = _ from hsorted]
  dsimp only
  split_ifs with hempty
  · rw [List.isEmpty_iff.mp hempty]
    rfl
  · rfl

end

theorem deliver_eq {C : Crypto} {n : Node} (hs : Indexed n.state) {a : Arrival} (hcaps : belowCaps C n a = true)
    (hframe : ∀ msg, a.frame ≠ .chat msg) : receive C n a = wireAll C n (refsOf a.sender a.frame) := by
  obtain ⟨gate, sender, frame⟩ := a
  unfold receive
  cases frame with
  | chat msg => exact absurd rfl (hframe msg)
  | chatReacted id emoji op =>
    cases id with
    | none => rfl
    | some id =>
      simp only [deliver, refsOf]
      cases sanitizeEmoji emoji <;> rfl
  | chatDeleted id | fileRemoved id => cases id <;> rfl
  | chatRead ids => exact deliverRead_eq hs (of_decide_eq_true (Bool.and_eq_true_iff.mp hcaps).2)

def letIn (a : Arrival) (id : MessageId) : Option ChatMessage :=
  match a.frame with
  | .chat msg =>
    let msg := received a.gate a.sender msg
    if msg.id = id ∧ id ≠ nil ∧ a.gate.admits msg then some msg else none
  | _ => none

def landedIn (arrivals : List Arrival) (id : MessageId) : Option ChatMessage :=
  arrivals.findSome? fun a => letIn a id

def refsIn (arrivals : List Arrival) : List (MessageId × PendingRef) :=
  arrivals.flatMap fun a => refsOf a.sender a.frame

def alwaysBelowCaps (C : Crypto) : Node → List Arrival → Bool
  | _, [] => true
  | n, a :: arrivals => belowCaps C n a && alwaysBelowCaps C (receive C n a) arrivals

namespace Holds

variable {C : Crypto} {n : Node} {landed : MessageId → Option ChatMessage}
  {refs : MessageId → List PendingRef}

theorem receive (h : Holds n landed refs) {a : Arrival} (hcaps : belowCaps C n a = true) :
    Holds (receive C n a) (fun id => (landed id).or (letIn a id))
      fun id => refs id ++ refsTo id (refsOf a.sender a.frame) := by
  by_cases hchat : ∃ msg, a.frame = .chat msg
  · obtain ⟨msg, hmsg⟩ := hchat
    have hrefs : refsOf a.sender a.frame = [] := by rw [hmsg]; rfl
    have hlet : ∀ id, letIn a id = if (received a.gate a.sender msg).id = id ∧ id ≠ nil ∧
        a.gate.admits (received a.gate a.sender msg) then some (received a.gate a.sender msg) else none := by
      intro id
      unfold letIn
      rw [hmsg]
    have hstay : (∀ id, landed id = none → letIn a id = none) → Holds n (fun id => (landed id).or (letIn a id))
        fun id => refs id ++ refsTo id (refsOf a.sender a.frame) := by
      intro hnone
      have hsame : (fun id => (landed id).or (letIn a id)) = landed := by
        funext id
        cases hl : landed id with
        | none => rw [hnone id hl]; rfl
        | some m => rfl
      rw [hsame, hrefs]
      exact h.congr_refs fun id => append_nil _
    change Holds (deliver C a.gate n a.sender a.frame) _ _
    rw [hmsg]
    change Holds (deliverChat C a.gate n a.sender msg) _ _
    rw [← hmsg]
    generalize hm : received a.gate a.sender msg = m at hlet
    unfold deliverChat
    rw [hm]
    dsimp only
    split_ifs with hnil hknown hadmits
    · refine hstay fun id _ => ?_
      rw [hlet, if_neg]
      rintro ⟨rfl, hne, -⟩
      exact hne hnil
    · refine hstay fun id hid => ?_
      rw [hlet, if_neg]
      rintro ⟨rfl, -, -⟩
      rw [h.indexed.chatPos_none (h.waiting m.id hid).1] at hknown
      cases hknown
    · have hfree : landed m.id = none := by
        cases hl : landed m.id with
        | none => rfl
        | some m₀ =>
          have hfound := (h.known m.id m₀ hl).1
          obtain ⟨pos, hpos, -⟩ := bind_eq_some_iff.mp hfound
          rw [hpos] at hknown
          exact absurd rfl hknown
      have hquote : m.quote = none := by rw [← hm]; rfl
      have hland := h.landWireChat (C := C) hnil hquote hfree
      have hsame : (fun id => (landed id).or (letIn a id)) = Function.update landed m.id (some m) := by
        funext id
        by_cases heq : id = m.id
        · subst heq
          rw [update_self, hfree, hlet, if_pos ⟨rfl, hnil, hadmits⟩]
          rfl
        · rw [update_of_ne heq, hlet, if_neg fun hc => heq hc.1.symm, or_none]
      rw [hsame, hrefs]
      exact hland.congr_refs fun id => append_nil _
    · refine hstay fun id _ => ?_
      rw [hlet, if_neg]
      exact fun hc => hadmits hc.2.2
  · rw [deliver_eq h.indexed hcaps fun msg hmsg => hchat ⟨msg, hmsg⟩]
    have hsame : (fun id => (landed id).or (letIn a id)) = landed := by
      funext id
      have hnone : letIn a id = none := by
        unfold letIn
        split
        · rename_i msg hmsg
          exact absurd ⟨msg, hmsg⟩ hchat
        · rfl
      rw [hnone, or_none]
    rw [hsame]
    exact h.wireAll (Bool.and_eq_true_iff.mp hcaps).1

theorem receiveAll (h : Holds n landed refs) {arrivals : List Arrival} (hcaps : alwaysBelowCaps C n arrivals = true) :
    Holds (receiveAll C n arrivals) (fun id => (landed id).or (landedIn arrivals id))
      fun id => refs id ++ refsTo id (refsIn arrivals) := by
  induction arrivals generalizing n landed refs with
  | nil =>
    have hsame : (fun id => (landed id).or (landedIn [] id)) = landed := by
      funext id
      exact or_none
    rw [hsame]
    exact h.congr_refs fun id => append_nil _
  | cons a arrivals ih =>
    obtain ⟨hfirst, hrest⟩ := Bool.and_eq_true_iff.mp hcaps
    have hnext := ih (h.receive hfirst) hrest
    have hsame : (fun id => ((landed id).or (letIn a id)).or (landedIn arrivals id)) =
        fun id => (landed id).or (landedIn (a :: arrivals) id) := by
      funext id
      unfold landedIn
      rw [Option.or_assoc, findSome?_cons]
      cases letIn a id <;> rfl
    rw [hsame] at hnext
    refine hnext.congr_refs ?_
    intro id
    rw [refsIn, flatMap_cons, refsTo_append, append_assoc]
    rfl

end Holds

theorem holds_fresh : Holds Node.fresh (fun _ => none) fun _ => [] := by
  refine ⟨⟨?_, ?_⟩, nofun, ?_⟩
  · intro pos m hm
    simp [Node.fresh, ChatState.fresh] at hm
  · intro id pos hpos
    simp [Node.fresh, ChatState.fresh, get?_empty] at hpos
  · intro id _
    exact ⟨rfl, rfl⟩

end Molt.Chat
