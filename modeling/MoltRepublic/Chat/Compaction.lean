import Mathlib
import MoltRepublic.Chat.State

/-! Compaction and the ids of old messages. Beside the chat of a node stands its account: every
message it ever applied, which of them it still holds, and how many had come when a prune first
dropped one. The chat is a function of the account. -/

namespace Molt.Chat
open Molt.Core Text SortedMap
open List hiding modify

inductive Op where
  | event (e : ChatEvent)
  | compact (cutoff : UInt64)
  /-- Closed and opened again from its own dump. -/
  | reopen
  /-- Its own dump taken in over the live state. -/
  | reload

def step (C : Crypto) (s : ChatState) : Op → ChatState
  | .event e => apply C s e
  | .compact cutoff => compactChat s cutoff
  | .reopen => restoreDump C ChatState.fresh (dump s)
  | .reload => restoreDump C s (dump s)

def run (C : Crypto) (s : ChatState) (ops : List Op) : ChatState := ops.foldl (step C) s

def chatOf : Op → Option ChatMessage
  | .event (.chat msg) => some msg
  | _ => none

def chats (ops : List Op) : List ChatMessage := ops.filterMap chatOf

/-- A message as it was applied: how many of its sender and how many in all had come before
it, and the message a position in it pointed at. -/
structure Entry where
  msg : ChatMessage
  nth : Nat
  place : Nat
  target : Option MessageId

def Entry.id (C : Crypto) (e : Entry) : MessageId :=
  if e.msg.id = nil then legacyMessageId C e.nth e.msg.sender e.msg.ts e.msg.body else e.msg.id

structure Account where
  all : List Entry
  held : List Entry
  /-- How many messages had come when a prune first dropped one. -/
  mark : Option Nat

def Account.fresh : Account := ⟨[], [], none⟩

def sentBy (sender : String) (l : List Entry) : Nat := l.countP fun e => e.msg.sender == sender

def Account.enter (C : Crypto) (a : Account) (msg : ChatMessage) : Entry :=
  ⟨msg, sentBy msg.sender a.all, a.all.length, msg.quote.bind fun q => (a.all[q.toNat]?).map (Entry.id C)⟩

def Account.prune (a : Account) (cutoff : UInt64) : Account :=
  let held := a.held.filter fun e => kept cutoff e.msg
  ⟨a.all, held, if held.length < a.held.length then a.mark.or (some a.all.length) else a.mark⟩

def Account.step (C : Crypto) (a : Account) : Op → Account
  | .event (.chat msg) => ⟨a.all ++ [a.enter C msg], a.held ++ [a.enter C msg], a.mark⟩
  | .compact cutoff => a.prune cutoff
  | _ => a

def Account.run (C : Crypto) (a : Account) (ops : List Op) : Account := ops.foldl (Account.step C) a

def Entry.quoted (e : Entry) (mark : Option Nat) : Option MessageId :=
  if mark.any fun n => n ≤ e.place then e.msg.quoteId else e.msg.quoteId.or e.target

structure Shows (C : Crypto) (mark : Option Nat) (e : Entry) (m : ChatMessage) : Prop where
  id : m.id = e.id C
  sender : m.sender = e.msg.sender
  ts : m.ts = e.msg.ts
  quoteId : m.quoteId = e.quoted mark
  quote : mark = none → m.quote = e.msg.quote

structure Tracks (C : Crypto) (a : Account) (s : ChatState) : Prop where
  rows : List.Forall₂ (Shows C a.mark) a.held s.chat
  pruned : s.chatPruned = a.mark.isSome
  counts : ∀ σ, sentBy σ a.held + (s.chatPrunedCounts.get? σ).getD 0 = sentBy σ a.all
  part : a.held.Sublist a.all
  whole : a.mark = none → a.held = a.all
  places : ∀ (i : Nat) (e : Entry), a.all[i]? = some e → e.place = i
  aims : ∀ e ∈ a.all, e.target = none → ∀ q, e.msg.quote = some q → e.place ≤ q.toNat
  marked : ∀ n, a.mark = some n → n ≤ a.all.length

section

variable {C : Crypto} {mark : Option Nat} {held : List Entry} {chat : List ChatMessage}

theorem liveCount_rows (h : List.Forall₂ (Shows C mark) held chat) (σ : String) :
    liveCount σ chat = sentBy σ held := by
  induction h with
  | nil => rfl
  | cons hrow _ ih =>
    unfold liveCount sentBy at ih ⊢
    rw [countP_cons, countP_cons, ih, hrow.sender]

theorem ids_rows (h : List.Forall₂ (Shows C mark) held chat) (i : Nat) :
    (chat[i]?).map ChatMessage.id = (held[i]?).map (Entry.id C) := by
  induction h generalizing i with
  | nil => rfl
  | cons hrow _ ih =>
    cases i with
    | zero => exact congrArg some hrow.id
    | succ i => exact ih i

structure Quiet (f : ChatMessage → ChatMessage) : Prop where
  id : ∀ m, (f m).id = m.id
  sender : ∀ m, (f m).sender = m.sender
  ts : ∀ m, (f m).ts = m.ts
  quoteId : ∀ m, (f m).quoteId = m.quoteId
  quote : ∀ m, (f m).quote = m.quote

theorem Shows.quiet {f : ChatMessage → ChatMessage} (hf : Quiet f) {e : Entry} {m : ChatMessage}
    (h : Shows C mark e m) : Shows C mark e (f m) where
  id := (hf.id m).trans h.id
  sender := (hf.sender m).trans h.sender
  ts := (hf.ts m).trans h.ts
  quoteId := (hf.quoteId m).trans h.quoteId
  quote := fun hm => (hf.quote m).trans (h.quote hm)

theorem rows_modify {f : ChatMessage → ChatMessage} (hf : Quiet f)
    (h : List.Forall₂ (Shows C mark) held chat) (pos : Nat) :
    List.Forall₂ (Shows C mark) held (chat.modify pos f) := by
  induction h generalizing pos with
  | nil =>
    rw [modify_nil]
    exact .nil
  | cons hrow hrest ih =>
    cases pos with
    | zero =>
      rw [modify_zero_cons]
      exact .cons (hrow.quiet hf) hrest
    | succ pos =>
      exact .cons hrow (ih pos)

theorem quiet_reactOn (emoji member : String) (op : Option ReactOp) : Quiet (reactOn emoji member op) := by
  have hsplit : ∀ m, reactOn emoji member op m = m ∨
      ∃ r, reactOn emoji member op m = { m with reactions := r } := by
    intro m
    unfold reactOn
    split_ifs
    · exact .inl rfl
    · dsimp only
      split_ifs
      · exact .inl rfl
      all_goals exact .inr ⟨_, rfl⟩
  constructor <;> intro m <;> rcases hsplit m with h | ⟨r, h⟩ <;> rw [h]

theorem quiet_deleteOn (member : String) : Quiet (deleteOn member) :=
  ⟨fun _ => rfl, fun _ => rfl, fun _ => rfl, fun _ => rfl, fun _ => rfl⟩

theorem quiet_removeFileOn : Quiet removeFileOn :=
  ⟨fun _ => rfl, fun _ => rfl, fun _ => rfl, fun _ => rfl, fun _ => rfl⟩

theorem quiet_readOn (member : String) : Quiet (readOn member) := by
  constructor <;> intro m <;> unfold readOn <;> split_ifs <;> rfl

end

namespace Tracks

variable {C : Crypto} {a : Account} {s : ChatState}

theorem modify (h : Tracks C a s) {f : ChatMessage → ChatMessage} (hf : Quiet f) (pos : Option Nat) :
    Tracks C a (s.modify pos f) := by
  cases pos with
  | none => exact h
  | some pos =>
    exact ⟨rows_modify hf h.rows pos, h.pruned, h.counts, h.part, h.whole, h.places, h.aims, h.marked⟩

theorem chatRead (h : Tracks C a s) (ids : List MessageId) (member : String) :
    Tracks C a (apply C s (.chatRead ids member)) := by
  induction ids generalizing s with
  | nil => exact h
  | cons id ids ih => exact ih (h.modify (quiet_readOn member) _)

theorem ordinal (h : Tracks C a s) (σ : String) :
    senderOrdinal s.chatPrunedCounts σ s.chat = sentBy σ a.all := by
  unfold senderOrdinal
  rw [liveCount_rows h.rows, h.counts]

theorem settled (h : Tracks C a s) (msg : ChatMessage) :
    Shows C a.mark (a.enter C msg) (settleChat C s msg) := by
  have hid : (if msg.id = nil then
      { msg with id := legacyMessageId C (senderOrdinal s.chatPrunedCounts msg.sender s.chat) msg.sender msg.ts msg.body }
      else msg) = { msg with id := (a.enter C msg).id C } := by
    rw [h.ordinal]
    unfold Entry.id Account.enter
    split_ifs with hnil
    all_goals rfl
  have heq : settleChat C s msg =
      { msg with id := (a.enter C msg).id C, quoteId := (a.enter C msg).quoted a.mark } := by
    unfold settleChat
    rw [hid, h.pruned]
    cases hmark : a.mark with
    | some n =>
      have hle : n ≤ (a.enter C msg).place := h.marked n hmark
      have hquoted : (a.enter C msg).quoted (some n) = msg.quoteId := by
        unfold Entry.quoted
        rw [if_pos (by simpa using hle)]
        rfl
      simp [hquoted]
    | none =>
      have hids : ∀ i : Nat, (s.chat[i]?).map ChatMessage.id = (a.all[i]?).map (Entry.id C) := by
        intro i
        rw [ids_rows h.rows, h.whole hmark]
      have hquoted : (a.enter C msg).quoted none = msg.quoteId.or
          (msg.quote.bind fun q => (s.chat[q.toNat]?).map ChatMessage.id) := by
        simp [Entry.quoted, Account.enter, hids]
      rw [hquoted]
      cases hq : msg.quoteId with
      | some q => simp
      | none => cases hpos : msg.quote <;> simp [hids]
  rw [heq]
  exact ⟨rfl, rfl, rfl, rfl, fun _ => rfl⟩

theorem applyChat (h : Tracks C a s) (msg : ChatMessage) :
    Tracks C (a.step C (.event (.chat msg))) (applyChat C s msg) where
  rows := rel_append h.rows (.cons (h.settled msg) .nil)
  pruned := h.pruned
  counts := by
    intro σ
    have hcounts := h.counts σ
    change sentBy σ (a.held ++ [_]) + _ = sentBy σ (a.all ++ [_])
    unfold sentBy at hcounts ⊢
    rw [countP_append, countP_append]
    change _ + _ + (s.chatPrunedCounts.get? σ).getD 0 = _
    omega
  part := h.part.append (List.Sublist.refl _)
  whole := fun hmark => congrArg (· ++ [a.enter C msg]) (h.whole hmark)
  places := by
    intro i e he
    change (a.all ++ [a.enter C msg])[i]? = some e at he
    rcases lt_trichotomy i a.all.length with hlt | rfl | hgt
    · exact h.places i e (by rwa [getElem?_append_left hlt] at he)
    · rw [getElem?_concat_length] at he
      rw [← Option.some.inj he]
      rfl
    · rw [getElem?_eq_none (by simp; omega)] at he
      cases he
  aims := by
    intro e he htarget q hq
    rcases mem_append.mp he with he | he
    · exact h.aims e he htarget q hq
    · obtain rfl := mem_singleton.mp he
      have hnone : (a.all[q.toNat]?).map (Entry.id C) = none := by
        have hbind : (msg.quote.bind fun q => (a.all[q.toNat]?).map (Entry.id C)) = none := htarget
        rwa [show msg.quote = some q from hq] at hbind
      exact List.getElem?_eq_none_iff.mp (Option.map_eq_none_iff.mp hnone)
  marked := by
    intro n hn
    have := h.marked n hn
    change n ≤ (a.all ++ [_]).length
    rw [length_append]
    omega

theorem not_nil (h : Tracks C a s) (hlegacy : ∀ n σ t b, legacyMessageId C n σ t b ≠ nil)
    {m : ChatMessage} (hm : m ∈ s.chat) : m.id ≠ nil := by
  obtain ⟨i, hi⟩ := mem_iff_getElem?.mp hm
  have hid := ids_rows h.rows i
  rw [hi] at hid
  cases he : a.held[i]? with
  | none => simp [he] at hid
  | some e =>
    rw [he] at hid
    rw [Option.some.inj hid]
    unfold Entry.id
    split_ifs with hnil
    · exact hlegacy _ _ _ _
    · exact hnil

end Tracks

theorem get?_countDropped (cutoff : UInt64) (counts : SortedMap String Nat) (chat : List ChatMessage)
    (σ : String) : ((chat.foldl (countDropped cutoff) counts).get? σ).getD 0 =
      (counts.get? σ).getD 0 + chat.countP fun m => m.sender == σ && !kept cutoff m := by
  induction chat generalizing counts with
  | nil => rfl
  | cons m chat ih =>
    rw [foldl_cons, ih, countP_cons]
    unfold countDropped
    by_cases hkept : kept cutoff m = true
    · rw [if_pos hkept]
      simp [hkept]
    · rw [if_neg hkept, get?_insert]
      by_cases hσ : m.sender = σ
      · subst hσ
        simp [hkept]
        omega
      · simp [hσ, Ne.symm hσ]

theorem countP_split (σ : String) (cutoff : UInt64) (held : List Entry) :
    sentBy σ (held.filter fun e => kept cutoff e.msg) +
      held.countP (fun e => e.msg.sender == σ && !kept cutoff e.msg) = sentBy σ held := by
  unfold sentBy
  induction held with
  | nil => rfl
  | cons e held ih =>
    rw [filter_cons, countP_cons, countP_cons]
    by_cases hkept : kept cutoff e.msg = true
    · rw [if_pos hkept, countP_cons]
      simp only [hkept]
      simp
      omega
    · rw [if_neg hkept]
      simp only [hkept]
      simp
      omega

theorem kept_congr {m m' : ChatMessage} (h : m.ts = m'.ts) (cutoff : UInt64) : kept cutoff m = kept cutoff m' := by
  unfold kept
  rw [h]

variable {C : Crypto} {mark : Option Nat} {held : List Entry} {chat : List ChatMessage}

theorem countP_rows (h : List.Forall₂ (Shows C mark) held chat) (σ : String) (cutoff : UInt64) :
    (chat.countP fun m => m.sender == σ && !kept cutoff m) =
      held.countP fun e => e.msg.sender == σ && !kept cutoff e.msg := by
  induction h with
  | nil => rfl
  | cons hrow _ ih =>
    rw [countP_cons, countP_cons, ih, hrow.sender, kept_congr hrow.ts]

theorem rows_filter (h : List.Forall₂ (Shows C mark) held chat) (cutoff : UInt64) :
    List.Forall₂ (Shows C mark) (held.filter fun e => kept cutoff e.msg) (chat.filter (kept cutoff)) := by
  refine rel_filter ?_ h
  intro e m hrow
  exact iff_of_eq (congrArg (· = true) (kept_congr hrow.ts.symm cutoff))

theorem Shows.marked {n : Nat} {e : Entry} {m : ChatMessage} (h : Shows C mark e m) (hplace : e.place < n) :
    Shows C (mark.or (some n)) e { m with quote := none } where
  id := h.id
  sender := h.sender
  ts := h.ts
  quoteId := by
    cases hmark : mark with
    | some k =>
      rw [hmark] at h
      exact h.quoteId
    | none =>
      rw [hmark] at h
      have hquoted : e.quoted (some n) = e.quoted none := by
        unfold Entry.quoted
        rw [if_neg (by simpa using hplace), if_neg (by simp)]
      exact h.quoteId.trans hquoted.symm
  quote := by
    intro hmark
    cases mark <;> cases hmark

namespace Tracks

variable {C : Crypto} {a : Account} {s : ChatState}

theorem place_lt (h : Tracks C a s) {e : Entry} (he : e ∈ a.held) : e.place < a.all.length := by
  obtain ⟨i, hi⟩ := mem_iff_getElem?.mp (h.part.subset he)
  rw [h.places i e hi]
  exact (List.getElem?_eq_some_iff.mp hi).1

theorem compact (h : Tracks C a s) (hlegacy : ∀ n σ t b, legacyMessageId C n σ t b ≠ nil)
    (cutoff : UInt64) : Tracks C (a.prune cutoff) (compactChat s cutoff) := by
  have hids : (s.chat.any fun m => m.id == nil) = false := by
    rw [any_eq_false]
    intro m hm
    simpa using h.not_nil hlegacy hm
  have hrows := rows_filter h.rows cutoff
  have hlength := h.rows.length_eq
  have hfiltered := hrows.length_eq
  have hle := length_filter_le (kept cutoff) s.chat
  have hpruned : pruneChatBefore (dump s) cutoff =
      (⟨if 0 < s.chat.length - (s.chat.filter (kept cutoff)).length
          then (s.chat.filter (kept cutoff)).map fun m => { m with quote := none }
          else s.chat.filter (kept cutoff),
        s.chatPruned || decide (0 < s.chat.length - (s.chat.filter (kept cutoff)).length),
        s.chat.foldl (countDropped cutoff) s.chatPrunedCounts⟩,
        s.chat.length - (s.chat.filter (kept cutoff)).length) := by
    unfold pruneChatBefore dump
    rw [hids]
    rfl
  unfold compactChat Account.prune
  rw [hpruned]
  dsimp only
  by_cases hdropped : s.chat.length - (s.chat.filter (kept cutoff)).length = 0
  · -- nothing went, on either side
    have hsame : (a.held.filter fun e => kept cutoff e.msg) = a.held := by
      apply filter_sublist.eq_of_length
      omega
    rw [if_pos hdropped, hsame, if_neg (lt_irrefl _)]
    exact h
  · have hsome : 0 < s.chat.length - (s.chat.filter (kept cutoff)).length := Nat.pos_of_ne_zero hdropped
    have hfewer : (a.held.filter fun e => kept cutoff e.msg).length < a.held.length := by omega
    rw [if_neg hdropped, if_pos hsome, if_pos hfewer]
    refine ⟨?_, ?_, ?_, ?_, ?_, h.places, h.aims, ?_⟩
    · rw [forall₂_map_right_iff]
      have hplaces : ∀ e ∈ a.held.filter fun e => kept cutoff e.msg, e.place < a.all.length :=
        fun e he => h.place_lt (mem_of_mem_filter he)
      refine List.Forall₂.imp ?_ ((forall₂_and_left _ _).mpr ⟨hplaces, hrows⟩)
      rintro e m ⟨hplace, hrow⟩
      exact hrow.marked hplace
    · simp [hsome]
    · intro σ
      have hcounts := h.counts σ
      have hsplit := countP_split σ cutoff a.held
      change sentBy σ (a.held.filter fun e => kept cutoff e.msg) +
        ((s.chat.foldl (countDropped cutoff) s.chatPrunedCounts).get? σ).getD 0 = sentBy σ a.all
      rw [get?_countDropped, countP_rows h.rows]
      omega
    · exact filter_sublist.trans h.part
    · intro hmark
      cases hm : a.mark <;> rw [hm] at hmark <;> cases hmark
    · intro n hn
      cases hm : a.mark with
      | none =>
        rw [hm] at hn
        rw [← Option.some.inj hn]
      | some k =>
        rw [hm] at hn
        exact h.marked n (hm.trans hn)

end Tracks

section

variable {C : Crypto} {a : Account} {s : ChatState}

theorem get?_mergeCounts (counts more : SortedMap String Nat) (σ : String) :
    ((mergeCounts counts more).get? σ).getD 0 =
      max ((counts.get? σ).getD 0) ((more.get? σ).getD 0) := by
  have hfold : ∀ (l : List (String × Nat)) (m : SortedMap String Nat), (l.map Prod.fst).Nodup →
      ((l.foldl (fun m e => m.insert e.1 (max ((m.get? e.1).getD 0) e.2)) m).get? σ).getD 0 =
        max ((m.get? σ).getD 0) ((l.lookup σ).getD 0) := by
    intro l
    induction l with
    | nil =>
      simp
    | cons e l ih =>
      intro m hnodup
      rw [map_cons, nodup_cons] at hnodup
      rw [foldl_cons, ih _ hnodup.2, get?_insert]
      by_cases hσ : σ = e.1
      · subst hσ
        have hnone : l.lookup e.1 = none := by
          rw [lookup_eq_none_iff]
          intro f hf
          simp only [bne_iff_ne, ne_eq]
          intro heq
          exact hnodup.1 (heq ▸ mem_map_of_mem hf)
        simp [hnone, List.lookup]
      · have hbeq : (σ == e.1) = false := by simpa using hσ
        simp [hσ, List.lookup, hbeq]
  exact hfold more.entries counts more.keys_nodup

theorem restore_chat (pruned : Bool) (counts : SortedMap String Nat) (chat : List ChatMessage)
    (hids : ∀ m ∈ chat, m.id ≠ nil)
    (hquotes : pruned = false → ∀ (i : Nat) m, chat[i]? = some m → m.quoteId = none →
      ∀ q, m.quote = some q → i ≤ q.toNat) :
    chat.foldl (fun before m => before ++ [restoreMessage C pruned counts before m]) [] = chat := by
  have hgo : ∀ rest before : List ChatMessage, before ++ rest = chat →
      rest.foldl (fun before m => before ++ [restoreMessage C pruned counts before m]) before = chat := by
    intro rest
    induction rest with
    | nil =>
      intro before hsplit
      rwa [append_nil] at hsplit
    | cons m rest ih =>
      intro before hsplit
      have hm : m ∈ chat := hsplit ▸ mem_append_right _ (.head _)
      have hat : chat[before.length]? = some m := by
        rw [← hsplit, getElem?_append_right (le_refl _), Nat.sub_self]
        rfl
      have hsame : restoreMessage C pruned counts before m = m := by
        unfold restoreMessage
        rw [if_neg (hids m hm)]
        dsimp only
        split_ifs with hopen
        · simp only [Bool.and_eq_true, Bool.not_eq_true', Option.isNone_iff_eq_none] at hopen
          split
          · rename_i q hq
            -- the position it points at had not been reached when it was applied
            have hle := hquotes hopen.1 _ m hat hopen.2 q hq
            have hnone : before[q.toNat]? = none := getElem?_eq_none hle
            rw [hnone]
            change { m with quoteId := none } = m
            rw [← hopen.2]
          · rfl
        · rfl
      rw [foldl_cons, hsame]
      refine ih (before ++ [m]) ?_
      rw [append_assoc]
      exact hsplit
  exact hgo chat [] rfl

theorem Tracks.restore (h : Tracks C a s) (hlegacy : ∀ n σ t b, legacyMessageId C n σ t b ≠ nil)
    {t : ChatState} (hpruned : (t.chatPruned || s.chatPruned) = s.chatPruned)
    (hcounts : ∀ σ, (t.chatPrunedCounts.get? σ).getD 0 ≤ (s.chatPrunedCounts.get? σ).getD 0) :
    Tracks C a (restoreDump C t (dump s)) := by
  have hquotes : s.chatPruned = false → ∀ (i : Nat) m, s.chat[i]? = some m → m.quoteId = none →
      ∀ q, m.quote = some q → i ≤ q.toNat := by
    intro hwhole i m hm hnone q hq
    have hmark : a.mark = none := by
      rw [h.pruned] at hwhole
      simpa using hwhole
    have hrows := h.rows
    rw [h.whole hmark, hmark] at hrows
    have hlength := hrows.length_eq
    have hi := (List.getElem?_eq_some_iff.mp hm).1
    obtain ⟨e, he⟩ : ∃ e, a.all[i]? = some e := ⟨_, getElem?_eq_getElem (by omega)⟩
    have hrow : Shows C none e m := by
      obtain ⟨h₁, rfl⟩ := List.getElem?_eq_some_iff.mp he
      obtain ⟨h₂, rfl⟩ := List.getElem?_eq_some_iff.mp hm
      exact hrows.get h₁ h₂
    have htarget : e.target = none := by
      have hquoted := hrow.quoteId.symm.trans hnone
      unfold Entry.quoted at hquoted
      rw [if_neg (by simp), Option.or_eq_none_iff] at hquoted
      exact hquoted.2
    have haim := h.aims e (mem_of_getElem? he) htarget q ((hrow.quote rfl).symm.trans hq)
    rwa [h.places i e he] at haim
  have hchat : (restoreDump C t (dump s)).chat = s.chat := restore_chat (C := C) (t.chatPruned || s.chatPruned)
    (mergeCounts t.chatPrunedCounts s.chatPrunedCounts) s.chat (fun m hm => h.not_nil hlegacy hm)
    (by rw [hpruned]; exact hquotes)
  refine ⟨?_, ?_, ?_, h.part, h.whole, h.places, h.aims, h.marked⟩
  · rw [hchat]
    exact h.rows
  · change (t.chatPruned || s.chatPruned) = a.mark.isSome
    rw [hpruned]
    exact h.pruned
  · intro σ
    have hle := hcounts σ
    have hsum := h.counts σ
    change sentBy σ a.held + ((mergeCounts t.chatPrunedCounts s.chatPrunedCounts).get? σ).getD 0 = _
    rw [get?_mergeCounts]
    omega

end

section

variable {C : Crypto} {a : Account} {s : ChatState}

theorem Tracks.step (h : Tracks C a s) (hlegacy : ∀ n σ t b, legacyMessageId C n σ t b ≠ nil) (op : Op) :
    Tracks C (a.step C op) (step C s op) := by
  cases op with
  | event e =>
    cases e with
    | chat msg => exact h.applyChat msg
    | chatReacted index id emoji member op => exact h.modify (quiet_reactOn emoji member op) _
    | chatDeleted index id member => exact h.modify (quiet_deleteOn member) _
    | fileRemoved index id member => exact h.modify quiet_removeFileOn _
    | chatRead ids member => exact h.chatRead ids member
  | compact cutoff => exact h.compact hlegacy cutoff
  | reopen =>
    refine h.restore hlegacy rfl ?_
    intro σ
    exact Nat.zero_le _
  | reload => exact h.restore hlegacy (Bool.or_self _) fun σ => le_refl _

theorem Tracks.run (h : Tracks C a s) (hlegacy : ∀ n σ t b, legacyMessageId C n σ t b ≠ nil) (ops : List Op) :
    Tracks C (a.run C ops) (run C s ops) := by
  induction ops generalizing a s with
  | nil => exact h
  | cons op ops ih => exact ih (h.step hlegacy op)

/-- The account carries the messages of the run, and each knows its number among those of its
sender. -/
structure Numbered (a : Account) (applied : List ChatMessage) : Prop where
  all : a.all.map Entry.msg = applied
  nth : ∀ e ∈ a.all, (applied.filter fun m => m.sender == e.msg.sender)[e.nth]? = some e.msg
  onto : ∀ (σ : String) (k : Nat) (m : ChatMessage),
    (applied.filter fun m => m.sender == σ)[k]? = some m → ∃ e ∈ a.all, e.msg = m ∧ e.nth = k
  timeless : ∀ e ∈ a.all, e.msg.ts = 0 → e ∈ a.held

theorem Numbered.step {applied : List ChatMessage} (h : Numbered a applied) (op : Op) :
    Numbered (a.step C op) (applied ++ (chatOf op).toList) := by
  have hsame : chatOf op = none → (∀ cutoff, op ≠ .compact cutoff) → a.step C op = a := by
    intro hnone hcompact
    cases op with
    | event e => cases e <;> first | rfl | cases hnone
    | compact cutoff => exact absurd rfl (hcompact cutoff)
    | reopen | reload => rfl
  by_cases hchat : ∃ msg, op = .event (.chat msg)
  · obtain ⟨msg, rfl⟩ := hchat
    have hcount : (applied.filter fun m => m.sender == msg.sender).length = sentBy msg.sender a.all := by
      rw [← countP_eq_length_filter, ← h.all, countP_map]
      rfl
    refine ⟨?_, ?_, ?_, ?_⟩
    · change (a.all ++ [a.enter C msg]).map Entry.msg = applied ++ [msg]
      rw [map_append, h.all]
      rfl
    · intro e he
      rw [filter_append]
      rcases mem_append.mp he with he | he
      · have hold := h.nth e he
        rw [getElem?_append_left (List.getElem?_eq_some_iff.mp hold).1]
        exact hold
      · obtain rfl := mem_singleton.mp he
        change (List.filter (fun m => m.sender == msg.sender) applied ++
          List.filter (fun m => m.sender == msg.sender) [msg])[sentBy msg.sender a.all]? = some msg
        rw [← hcount, getElem?_append_right (le_refl _), Nat.sub_self]
        simp
    · intro σ k m hm
      change (List.filter _ (applied ++ [msg]))[k]? = some m at hm
      rw [filter_append] at hm
      by_cases hk : k < (applied.filter fun m => m.sender == σ).length
      · rw [getElem?_append_left hk] at hm
        obtain ⟨e, he, hrest⟩ := h.onto σ k m hm
        exact ⟨e, mem_append_left _ he, hrest⟩
      · -- the one message that came now
        rw [getElem?_append_right (Nat.not_lt.mp hk)] at hm
        have hmem := mem_filter.mp (mem_of_getElem? hm)
        obtain rfl := mem_singleton.mp hmem.1
        obtain rfl : m.sender = σ := by simpa using hmem.2
        have hzero : k - (applied.filter fun n => n.sender == m.sender).length = 0 := by
          have hlt := (List.getElem?_eq_some_iff.mp hm).1
          simp at hlt
          omega
        refine ⟨a.enter C m, mem_append_right _ (.head _), rfl, ?_⟩
        change sentBy m.sender a.all = k
        omega
    · intro e he hts
      rcases mem_append.mp he with he | he
      · exact mem_append_left _ (h.timeless e he hts)
      · exact mem_append_right _ he
  · have hnone : chatOf op = none := by
      cases op with
      | event e => cases e <;> first | rfl | exact absurd ⟨_, rfl⟩ hchat
      | compact cutoff | reopen | reload => rfl
    rw [hnone, Option.toList_none, append_nil]
    by_cases hcompact : ∃ cutoff, op = .compact cutoff
    · obtain ⟨cutoff, rfl⟩ := hcompact
      refine ⟨h.all, h.nth, h.onto, ?_⟩
      intro e he hts
      refine mem_filter.mpr ⟨h.timeless e he hts, ?_⟩
      simp [kept, hts]
    · rw [hsame hnone fun cutoff hc => hcompact ⟨cutoff, hc⟩]
      exact h

theorem Numbered.run {applied : List ChatMessage} (h : Numbered a applied) (ops : List Op) :
    Numbered (a.run C ops) (applied ++ chats ops) := by
  induction ops generalizing a applied with
  | nil =>
    rw [chats, filterMap_nil, append_nil]
    exact h
  | cons op ops ih =>
    have hsplit : applied ++ chats (op :: ops) = (applied ++ (chatOf op).toList) ++ chats ops := by
      unfold chats
      cases hop : chatOf op with
      | none => rw [filterMap_cons_none hop, Option.toList_none, append_nil]
      | some msg => rw [filterMap_cons_some hop, Option.toList_some, append_assoc]; rfl
    rw [hsplit]
    exact ih (h.step op)

end

namespace Sample

def old (body : String) (ts : UInt64) : ChatMessage :=
  ⟨nil, "ann", body, ts, none, none, SortedMap.empty, ∅, none, none⟩

def pruned : List Op :=
  [.event (.chat (old "hi" 5)), .compact 10, .reopen, .event (.chat (old "hi" 50))]

end Sample
end Molt.Chat
