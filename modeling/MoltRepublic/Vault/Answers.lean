import Mathlib
import MoltRepublic.Vault.Grants

/-! No grant is answered twice unasked: what the registers of a holder remember of its
answers, over reorgs, cuts and reopens. -/

namespace Molt.Vault
open Molt.Core Json Chain List SortedMap

def unasked (g : String) (log : List Answer) : Nat := log.countP fun a => a.grantId == g && !a.asked

def Commits (e : UInt64 × Value) (g : String) : Prop :=
  ∃ grant, VaultOp.fromValue e.2 = some (.grant grant) ∧ grant.grantId = g

def Binds (C : Crypto) (g : String) (id : UInt64) : Prop :=
  ∃ secret reader, StrFits secret ∧ StrFits reader ∧ grantId C secret reader id = g

theorem Binds.unique {C : Crypto} (hsha : Function.Injective C.sha256) {g : String} {i j : UInt64}
    (hi : Binds C g i) (hj : Binds C g j) : i = j := by
  obtain ⟨s, r, hs, hr, rfl⟩ := hi
  obtain ⟨s', r', hs', hr', heq⟩ := hj
  exact proposalId_of_grantId hsha hs hs' hr hr' heq.symm

def Traced (V : Site) (h : Holder) (g : String) : Prop :=
  (∃ e ∈ h.entries, Commits e g) ∨ g ∈ h.rt.displaced.map VaultDisplacedGrant.grantId ∨
    ∃ i ∈ h.consumed, Binds V.C g i

structure Sound (V : Site) (loaded : List String) (h : Holder) (log : List Answer) : Prop where
  verified : V.verifies h.consumed h.entries = true
  audited : ∀ g ∈ loaded, g ∈ h.rt.displaced.map VaultDisplacedGrant.grantId
  queued : h.rt.queued.Nodup
  labelled : ∀ g line, h.rt.seen.get? g = some line → line.grantId = g
  once : ∀ g, unasked g log ≤ 1
  known : ∀ g, unasked g log ≠ 0 → g ∈ h.rt.answered ∨ g ∈ loaded ∨ ∃ i ∈ h.consumed, Binds V.C g i
  fresh : ∀ g ∈ h.rt.waiting, unasked g log = 0
  traced : ∀ g, unasked g log ≠ 0 ∨ g ∈ h.rt.waiting → Traced V h g

section

variable {V : Site} {m : Moment} {h : Holder} {loaded : List String} {log : List Answer} {g : String}

variable {e : UInt64 × Value}

theorem accepts_iff : V.accepts e = true ↔
    Accepted V.C V.republicId V.founding e ∧ (toVec e.2).length < 2 ^ 32 := by
  unfold Site.accepts Accepted
  rw [Bool.and_eq_true, decide_eq_true_iff]
  refine and_congr_left fun _ => ?_
  cases checkVaultOp V.C V.republicId e.1 e.2 V.founding with
  | error e | ok op => simp [Except.isOk, Except.toBool]

theorem verifies_iff {consumed : List UInt64} {entries : List (UInt64 × Value)} :
    V.verifies consumed entries = true ↔ (∀ e ∈ entries, V.accepts e = true) ∧
      (entries.map Prod.fst).Nodup ∧ ∀ e ∈ entries, e.1 ∉ consumed := by
  simp [Site.verifies, and_assoc]

theorem binds_of_accepts (h : V.accepts e = true) (hg : Commits e g) :
    Binds V.C g e.1 := by
  obtain ⟨⟨op, hop⟩, hframed⟩ := accepts_iff.mp h
  obtain ⟨grant, hfrom, rfl⟩ := hg
  obtain ⟨hfrom', -, ⟨d, rfl, -⟩ | ⟨grant', rfl, -, -, hid⟩⟩ := checkVaultOp_eq_ok hop
  · rw [hfrom] at hfrom'
    simp at hfrom'
  · obtain rfl := VaultOp.grant.inj (Option.some.inj (hfrom.symm.trans hfrom'))
    obtain ⟨hsecret, hreader⟩ := grantFits_of_framed hframed hfrom
    exact ⟨_, _, hsecret, hreader, hid⟩

theorem unasked_append (g : String) (log out : List Answer) :
    unasked g (log ++ out) = unasked g log + unasked g out := countP_append

theorem flush_cases (h : Holder) : h.vaultFlushQueued V m = (h, []) ∧ h.vaultBasePending V = true ∨
    h.vaultBasePending V = false ∧ ∃ due : List String, due.Sublist h.rt.queued ∧
      h.vaultFlushQueued V m = (h.withRt { h.rt with
        queued := [], waiting := ∅, answered := h.rt.answered ∪ due.toFinset },
          due.map fun g => h.answer V g (!decide (g ∈ h.rt.waiting))) := by
  by_cases hpending : h.vaultBasePending V = true
  · exact .inl ⟨if_pos hpending, hpending⟩
  · exact .inr ⟨Bool.eq_false_iff.mpr hpending, _, filter_sublist, if_neg hpending⟩

theorem unasked_due {due : List String} (hdue : due.Nodup) (g : String) :
    unasked g (due.map fun g => h.answer V g (!decide (g ∈ h.rt.waiting))) =
      if g ∈ due ∧ g ∈ h.rt.waiting then 1 else 0 := by
  unfold unasked
  rw [countP_map]
  have hpred : ((fun a : Answer => a.grantId == g && !a.asked) ∘
      fun g => h.answer V g (!decide (g ∈ h.rt.waiting))) =
        fun x => x == g && decide (g ∈ h.rt.waiting) := by
    funext x
    by_cases hx : x = g
    · simp [Holder.answer, hx]
    · have hne : (x == g) = false := beq_eq_false_iff_ne.mpr hx
      simp [Holder.answer, hne]
  rw [hpred]
  by_cases hwaiting : g ∈ h.rt.waiting
  · simp only [hwaiting, decide_true, Bool.and_true, and_true]
    split_ifs with hg
    · exact count_eq_one_of_mem hdue hg
    · exact count_eq_zero_of_not_mem hg
  · simp [hwaiting]

theorem Traced.withRt {rt : GrantRuntime} (ht : Traced V h g) (hrt : rt.displaced = h.rt.displaced) :
    Traced V (h.withRt rt) g := by
  unfold Traced Holder.withRt
  rw [hrt]
  exact ht

theorem Sound.flush (hs : Sound V loaded h log) :
    Sound V loaded (h.vaultFlushQueued V m).1 (log ++ (h.vaultFlushQueued V m).2) := by
  rcases flush_cases (V := V) (m := m) h with ⟨heq, -⟩ | ⟨-, due, hdue, heq⟩
  · rw [heq, append_nil]
    exact hs
  · rw [heq]
    have hcount : ∀ g, unasked g (log ++ due.map fun g => h.answer V g (!decide (g ∈ h.rt.waiting))) =
        unasked g log + if g ∈ due ∧ g ∈ h.rt.waiting then 1 else 0 := by
      intro g
      rw [unasked_append, unasked_due (hs.queued.sublist hdue)]
    refine ⟨hs.verified, hs.audited, nodup_nil, hs.labelled, ?_, ?_, by simp [Holder.withRt], ?_⟩
    · intro g
      rw [hcount]
      split_ifs with hg
      · rw [hs.fresh g hg.2]
      · exact hs.once g
    · intro g hg
      rw [hcount] at hg
      by_cases hlog : unasked g log = 0
      · have hnew : g ∈ due ∧ g ∈ h.rt.waiting := by
          by_contra hnot
          rw [if_neg hnot] at hg
          exact hg (by simpa using hlog)
        exact .inl (Finset.mem_union_right _ (mem_toFinset.mpr hnew.1))
      · rcases hs.known g hlog with hknown | hknown
        · exact .inl (Finset.mem_union_left _ hknown)
        · exact .inr hknown
    · intro g hg
      refine Traced.withRt (hs.traced g ?_) rfl
      rcases hg with hg | hg
      · rw [hcount] at hg
        by_cases hnew : g ∈ due ∧ g ∈ h.rt.waiting
        · exact .inr hnew.2
        · rw [if_neg hnew] at hg
          exact .inl hg
      · simp [Holder.withRt] at hg

structure Frame (h h' : Holder) : Prop where
  entries : h'.entries = h.entries
  consumed : h'.consumed = h.consumed
  displaced : h'.rt.displaced = h.rt.displaced
  answered : h.rt.answered ⊆ h'.rt.answered

theorem flush_frame (h : Holder) : Frame h (h.vaultFlushQueued V m).1 ∧
    (h.vaultFlushQueued V m).1.rt.seen = h.rt.seen := by
  rcases flush_cases (V := V) (m := m) h with ⟨heq, -⟩ | ⟨-, due, -, heq⟩
  · rw [heq]
    exact ⟨⟨rfl, rfl, rfl, subset_rfl⟩, rfl⟩
  · rw [heq]
    exact ⟨⟨rfl, rfl, rfl, Finset.subset_union_left⟩, rfl⟩

theorem flush_idle (h : Holder) (hhere : (h.vaultFlushQueued V m).1.vaultBasePending V = false) :
    (h.vaultFlushQueued V m).1.rt.waiting = ∅ := by
  rcases flush_cases (V := V) (m := m) h with ⟨heq, hpending⟩ | ⟨-, due, -, heq⟩
  · rw [heq] at hhere
    exact absurd hhere (by simp [hpending])
  · rw [heq]
    rfl

theorem Sound.unknown (hsha : Function.Injective V.C.sha256) (hs : Sound V loaded h log) (he : e ∈ h.entries)
    (hg : Commits e g) (hcalm : g ∈ loaded → (h.rt.seen.get? g).isSome → g ∈ h.rt.answered)
    (hanswered : g ∉ h.rt.answered)
    (hearlier : (h.rt.seen.get? g).isSome ∨ ∀ d ∈ h.rt.displaced, d.grantId ≠ g) : unasked g log = 0 := by
  obtain ⟨haccepts, -, hfree⟩ := verifies_iff.mp hs.verified
  by_contra hne
  rcases hs.known g hne with hknown | hloaded | ⟨i, hi, hbinds⟩
  · exact hanswered hknown
  · rcases hearlier with hseen | hdisplaced
    · exact hanswered (hcalm hloaded hseen)
    · obtain ⟨d, hd, heq⟩ := mem_map.mp (hs.audited g hloaded)
      exact hdisplaced d hd heq
  · have hsame : i = e.1 := hbinds.unique hsha (binds_of_accepts (haccepts e he) hg)
    exact hfree e he (hsame ▸ hi)

theorem queue_nodup {queued : List String} (h : queued.Nodup) (g : String) : (Holder.queue g queued).Nodup := by
  unfold Holder.queue
  split_ifs with hg
  · exact h
  · exact (perm_orderedInsert _ g queued).nodup_iff.mpr (nodup_cons.mpr ⟨hg, h⟩)

theorem onCommit_frame (h : Holder) (g : String) : Frame h (h.onCommit V m g).1 ∧
    ∀ x, ((h.onCommit V m g).1.rt.seen.get? x).isSome → (h.rt.seen.get? x).isSome ∨ x = g := by
  obtain ⟨hframe, hseen⟩ := flush_frame (V := V) (m := m) h
  rcases onCommit_cases (V := V) (m := m) h g with heq | ⟨f, out, live, line, hflush, -, -, hcase⟩
  · rw [heq, hseen]
    exact ⟨hframe, fun x hx => .inl hx⟩
  · rw [hflush] at hframe hseen
    have hnoted : ∀ x, ((f.rt.seen.insert g line).get? x).isSome → (h.rt.seen.get? x).isSome ∨ x = g := by
      intro x hx
      rw [get?_insert] at hx
      split_ifs at hx with hxg
      · exact .inr hxg
      · exact .inl (hseen ▸ hx)
    rcases hcase with heq | ⟨-, -, heq | ⟨-, -, heq⟩⟩
    · rw [heq]
      exact ⟨⟨hframe.entries, hframe.consumed, hframe.displaced, hframe.answered⟩, hnoted⟩
    · rw [heq]
      exact ⟨⟨hframe.entries, hframe.consumed, hframe.displaced, hframe.answered⟩, hnoted⟩
    · rw [heq]
      exact ⟨⟨hframe.entries, hframe.consumed, hframe.displaced,
        hframe.answered.trans (Finset.subset_insert _ _)⟩, hnoted⟩

theorem Sound.onCommit (hsha : Function.Injective V.C.sha256) (hs : Sound V loaded h log) (he : e ∈ h.entries)
    (hg : Commits e g) (hcalm : g ∈ loaded → (h.rt.seen.get? g).isSome → g ∈ h.rt.answered) :
    Sound V loaded (h.onCommit V m g).1 (log ++ (h.onCommit V m g).2) := by
  have hflushed := hs.flush (m := m)
  obtain ⟨hframe, hseen⟩ := flush_frame (V := V) (m := m) h
  have hidle := flush_idle (V := V) (m := m) h
  rcases onCommit_cases (V := V) (m := m) h g with
    heq | ⟨f, out, live, line, hflush, -, hline, hcase⟩
  · rw [heq]
    exact hflushed
  · rw [hflush] at hflushed hframe hseen hidle
    have hhere : e ∈ f.entries := hframe.entries ▸ he
    have hlabelled : ∀ x l, (f.rt.seen.insert g line).get? x = some l → l.grantId = x := by
      intro x l hl
      rw [get?_insert] at hl
      split_ifs at hl with hxg
      · rw [← Option.some.inj hl, hline, hxg]
      · exact hflushed.labelled x l hl
    have hunknown : g ∉ f.rt.answered →
        ((f.rt.seen.get? g).isSome ∨ ∀ d ∈ f.rt.displaced, d.grantId ≠ g) → unasked g (log ++ out) = 0 :=
      hflushed.unknown hsha hhere hg fun hloaded hsome => hframe.answered (hcalm hloaded (hseen ▸ hsome))
    rcases hcase with heq | ⟨hanswered, hearlier, heq | ⟨hpresent, -, heq⟩⟩
    · rw [heq]
      exact ⟨hflushed.verified, hflushed.audited, hflushed.queued, hlabelled, hflushed.once, hflushed.known,
        hflushed.fresh, fun x hx => (hflushed.traced x hx).withRt rfl⟩
    · rw [heq]
      have hzero := hunknown hanswered hearlier
      refine ⟨hflushed.verified, hflushed.audited, queue_nodup hflushed.queued g, hlabelled,
        hflushed.once, hflushed.known, ?_, ?_⟩
      · intro x hx
        rcases Finset.mem_insert.mp hx with rfl | hx
        · exact hzero
        · exact hflushed.fresh x hx
      · intro x hx
        by_cases hxg : x = g
        · exact .inl ⟨e, hhere, hxg ▸ hg⟩
        · refine Traced.withRt (hflushed.traced x (hx.imp_right fun hx => ?_)) rfl
          exact (Finset.mem_insert.mp hx).resolve_left hxg
    · rw [heq]
      have hzero := hunknown hanswered hearlier
      have hcount : ∀ x, unasked x (log ++ (out ++ [f.answer V g false])) =
          unasked x (log ++ out) + if x = g then 1 else 0 := by
        intro x
        rw [← append_assoc, unasked_append]
        congr 1
        by_cases hxg : x = g
        · simp [unasked, Holder.answer, hxg]
        · simp [unasked, Holder.answer, hxg, Ne.symm hxg]
      have hnone : f.rt.waiting = ∅ := hidle hpresent
      refine ⟨hflushed.verified, hflushed.audited, hflushed.queued, hlabelled, ?_, ?_, ?_, ?_⟩
      · intro x
        rw [hcount]
        split_ifs with hxg
        · rw [hxg, hzero]
        · exact hflushed.once x
      · intro x hx
        rw [hcount] at hx
        by_cases hxg : x = g
        · exact .inl (hxg ▸ Finset.mem_insert_self _ _)
        · rw [if_neg hxg] at hx
          exact (hflushed.known x hx).imp_left fun hx => Finset.mem_insert_of_mem hx
      · intro x hx
        simp [Holder.withRt, hnone] at hx
      · intro x hx
        by_cases hxg : x = g
        · exact .inl ⟨e, hhere, hxg ▸ hg⟩
        · refine Traced.withRt (hflushed.traced x (.inl ?_)) rfl
          rcases hx with hx | hx
          · rw [hcount, if_neg hxg] at hx
            exact hx
          · simp [Holder.withRt, hnone] at hx

theorem cut_cases (h : Holder) (k : Nat) : h.cut V k = h ∨ ∃ anchor held, h.cut V k =
    ⟨anchor, h.consumed ++ (h.entries.take k).map Prod.fst, h.entries.drop k, held, h.rt⟩ := by
  unfold Holder.cut
  split
  · exact .inl rfl
  · exact .inr ⟨_, _, rfl⟩

theorem Sound.cut (hs : Sound V loaded h log) (k : Nat) : Sound V loaded (h.cut V k) log := by
  rcases cut_cases (V := V) h k with heq | ⟨anchor, held, heq⟩
  · rw [heq]
    exact hs
  · rw [heq]
    obtain ⟨haccepts, hnodup, hfree⟩ := verifies_iff.mp hs.verified
    refine ⟨?_, hs.audited, hs.queued, hs.labelled, hs.once, ?_, hs.fresh, ?_⟩
    · refine verifies_iff.mpr ⟨fun e he => haccepts e (mem_of_mem_drop he),
        hnodup.sublist ((drop_sublist k _).map _), fun e he hmem => ?_⟩
      rcases mem_append.mp hmem with hmem | hmem
      · exact hfree e (mem_of_mem_drop he) hmem
      · rw [← take_append_drop k h.entries, map_append, nodup_append] at hnodup
        exact hnodup.2.2 _ hmem _ (mem_map_of_mem he) rfl
    · intro g hg
      refine (hs.known g hg).imp_right fun hknown => hknown.imp_right ?_
      rintro ⟨i, hi, hbinds⟩
      exact ⟨i, mem_append_left _ hi, hbinds⟩
    · intro g hg
      rcases hs.traced g hg with ⟨e, he, hcommits⟩ | hdisplaced | ⟨i, hi, hbinds⟩
      · rw [← take_append_drop k h.entries] at he
        rcases mem_append.mp he with he | he
        · refine .inr (.inr ⟨e.1, mem_append_right _ (mem_map_of_mem he), ?_⟩)
          exact binds_of_accepts (haccepts e (mem_of_mem_take he)) hcommits
        · exact .inl ⟨e, he, hcommits⟩
      · exact .inr (.inl hdisplaced)
      · exact .inr (.inr ⟨i, mem_append_left _ hi, hbinds⟩)

/-- The commits of the suffix that is still to be settled: none of them is of a grant that
this incarnation found displaced, has committed since and has not answered. -/
def Calm (loaded : List String) (h : Holder) (e : UInt64 × Value) : Prop :=
  ∀ g, Commits e g → g ∈ loaded → (h.rt.seen.get? g).isSome → g ∈ h.rt.answered

theorem afterVaultApplied_cases (h : Holder) (e : UInt64 × Value) :
    h.afterVaultApplied V m e.2 = (h, []) ∨
      ∃ g, Commits e g ∧ h.afterVaultApplied V m e.2 = h.onCommit V m g := by
  unfold Holder.afterVaultApplied
  split
  · rename_i grant hop
    exact .inr ⟨_, ⟨grant, hop, rfl⟩, rfl⟩
  · exact .inl rfl

theorem Sound.settle (hsha : Function.Injective V.C.sha256) (items : List Item) (h : Holder)
    (out : List Answer) (hs : Sound V loaded h (log ++ out)) (before : List (UInt64 × Value))
    (hsuffix : h.entries = before ++ itemEntries items)
    (hcalm : ∀ e ∈ itemEntries items, Calm loaded h e) :
    Sound V loaded (Holder.settle V m items (h, out)).1 (log ++ (Holder.settle V m items (h, out)).2) := by
  induction items generalizing h out before with
  | nil => exact hs
  | cons item items ih =>
    cases item with
    | entry e =>
      have hitems : itemEntries (.entry e :: items) = e :: itemEntries items := rfl
      rw [hitems] at hsuffix hcalm
      have he : e ∈ h.entries := by simp [hsuffix]
      rw [Holder.settle]
      rcases afterVaultApplied_cases (V := V) (m := m) h e with heq | ⟨g, hg, heq⟩
      · rw [heq]
        refine ih h (out ++ []) (by simpa using hs) (before ++ [e]) (by simpa using hsuffix)
          fun x hx => hcalm x (mem_cons_of_mem _ hx)
      · rw [heq]
        have hnext := hs.onCommit (m := m) hsha he hg (hcalm e (.head _) g hg)
        obtain ⟨hframe, hseen⟩ := onCommit_frame (V := V) (m := m) h g
        rw [append_assoc] at hnext
        have hentries : (h.onCommit V m g).1.entries = (before ++ [e]) ++ itemEntries items := by
          rw [hframe.entries, hsuffix]
          simp
        refine ih (h.onCommit V m g).1 (out ++ (h.onCommit V m g).2) hnext (before ++ [e]) hentries ?_
        intro x hx y hy hloaded hsome
        rcases hseen y hsome with hsome | rfl
        · exact hframe.answered (hcalm x (.tail _ hx) y hy hloaded hsome)
        · -- the suffix commits no grant twice: the ids bind the proposals
          obtain ⟨haccepts, hnodup, -⟩ := verifies_iff.mp hs.verified
          have hxe : x ∈ h.entries := by simp [hsuffix, hx]
          have hids : x.1 = e.1 :=
            (binds_of_accepts (haccepts x hxe) hy).unique hsha (binds_of_accepts (haccepts e he) hg)
          rw [hsuffix, map_append, nodup_append, map_cons, nodup_cons] at hnodup
          exact absurd (hids ▸ mem_map_of_mem hx) hnodup.2.1.1
    | cut =>
      have hitems : itemEntries (.cut :: items) = itemEntries items := rfl
      rw [hitems] at hsuffix hcalm
      rw [Holder.settle]
      have hlength : h.entries.length - (itemEntries items).length = before.length := by
        rw [hsuffix, length_append, Nat.add_sub_cancel]
      have hnext := hs.cut (h.entries.length - (itemEntries items).length)
      rcases cut_cases (V := V) h (h.entries.length - (itemEntries items).length) with
        heq | ⟨anchor, held, heq⟩
      · rw [heq] at hnext ⊢
        exact ih h out hnext before hsuffix hcalm
      · rw [heq] at hnext ⊢
        refine ih _ out hnext [] ?_ hcalm
        rw [hlength, hsuffix, drop_left, nil_append]

/-- A grant whose displacement finds a line for the audit: its commit was noted in this
incarnation, or a card still carries it. -/
def Noted (m : Moment) (h : Holder) (g : String) : Prop :=
  (h.rt.seen.get? g).isSome ∨ ∃ payload ∈ m.cards, Commits (0, payload) g

theorem displacedLine_of_noted (hlabelled : ∀ g line, h.rt.seen.get? g = some line → line.grantId = g)
    (hn : Noted m h g) : ∃ line, h.displacedLine V m g = some line ∧ line.grantId = g := by
  unfold Holder.displacedLine
  cases hseen : h.rt.seen.get? g with
  | some line => exact ⟨line, rfl, hlabelled g line hseen⟩
  | none =>
    obtain ⟨payload, hmem, grant, hop, hid⟩ := hn.resolve_left (by simp [hseen])
    cases hfind : m.cards.findSome? (h.cardLine V g) with
    | none =>
      have hnone := findSome?_eq_none_iff.mp hfind payload hmem
      simp [Holder.cardLine, hop, hid] at hnone
    | some line =>
      refine ⟨line, rfl, ?_⟩
      obtain ⟨card, -, hcard⟩ := exists_of_findSome?_eq_some hfind
      unfold Holder.cardLine at hcard
      split at hcard
      · split_ifs at hcard with hcardId
        rw [← Option.some.inj hcard]
      · simp at hcard

theorem onDisplaced_cases (hlabelled : ∀ g line, h.rt.seen.get? g = some line → line.grantId = g) (g : String) :
    ∃ lines, h.onDisplaced V m g = h.withRt { h.rt with displaced := h.rt.displaced ++ lines } ∧
      (Noted m h g → g ∈ (h.rt.displaced ++ lines).map VaultDisplacedGrant.grantId) := by
  have hsame : h = h.withRt { h.rt with displaced := h.rt.displaced ++ [] } := by
    rw [append_nil]
    rfl
  unfold Holder.onDisplaced
  cases hline : h.displacedLine V m g with
  | none =>
    refine ⟨[], hsame, fun hn => ?_⟩
    obtain ⟨line, heq, -⟩ := displacedLine_of_noted (V := V) hlabelled hn
    simp [hline] at heq
  | some line =>
    by_cases hknown : (h.rt.displaced.any fun d => d.grantId == g) = true
    · refine ⟨[], (if_pos hknown).trans hsame, fun _ => ?_⟩
      obtain ⟨d, hd, hid⟩ := any_eq_true.mp hknown
      exact mem_map.mpr ⟨d, mem_append_left _ hd, beq_iff_eq.mp hid⟩
    · refine ⟨[line], if_neg hknown, fun hn => ?_⟩
      obtain ⟨line', heq, hid⟩ := displacedLine_of_noted (V := V) hlabelled hn
      cases hline.symm.trans heq
      exact mem_map.mpr ⟨line, mem_append_right _ (mem_singleton.mpr rfl), hid⟩

theorem vaultDisplaced_spec (dropped : List (UInt64 × Value)) (kept : List UInt64) (h : Holder)
    (hlabelled : ∀ g line, h.rt.seen.get? g = some line → line.grantId = g) :
    ∃ lines, h.vaultDisplaced V m dropped kept = h.withRt { h.rt with displaced := h.rt.displaced ++ lines } ∧
      ∀ e ∈ dropped, e.1 ∉ kept → ∀ g, Commits e g → Noted m h g →
        g ∈ (h.rt.displaced ++ lines).map VaultDisplacedGrant.grantId := by
  induction dropped generalizing h with
  | nil =>
    refine ⟨[], ?_, by simp⟩
    rw [append_nil]
    rfl
  | cons e dropped ih =>
    have hstep : ∃ lines, h.entryDisplaced V m kept e =
        h.withRt { h.rt with displaced := h.rt.displaced ++ lines } ∧
          (e.1 ∉ kept → ∀ g, Commits e g → Noted m h g →
            g ∈ (h.rt.displaced ++ lines).map VaultDisplacedGrant.grantId) := by
      have hsame : h = h.withRt { h.rt with displaced := h.rt.displaced ++ [] } := by
        rw [append_nil]
        rfl
      unfold Holder.entryDisplaced
      split_ifs with hkept
      · exact ⟨[], hsame, fun hnot => absurd hkept hnot⟩
      · split
        · rename_i grant hop
          obtain ⟨lines, heq, hnoted⟩ := onDisplaced_cases (V := V) (m := m) hlabelled grant.grantId
          refine ⟨lines, heq, fun _ g hg hn => ?_⟩
          obtain ⟨grant', hop', rfl⟩ := hg
          obtain rfl := VaultOp.grant.inj (Option.some.inj (hop.symm.trans hop'))
          exact hnoted hn
        · rename_i hother
          refine ⟨[], hsame, fun _ g hg => ?_⟩
          obtain ⟨grant, hop, -⟩ := hg
          exact absurd hop (hother grant)
    obtain ⟨lines, heq, hfirst⟩ := hstep
    obtain ⟨more, hmore, hrest⟩ := ih (h.withRt { h.rt with displaced := h.rt.displaced ++ lines }) hlabelled
    refine ⟨lines ++ more, ?_, ?_⟩
    · unfold Holder.vaultDisplaced at hmore ⊢
      rw [foldl_cons, heq, hmore, ← append_assoc]
      rfl
    · intro x hx hkept g hg hn
      rw [← append_assoc]
      rcases mem_cons.mp hx with rfl | hx
      · rw [map_append]
        exact mem_append_left _ (hfirst hkept g hg hn)
      · exact hrest x hx hkept g hg hn

/-- A chain move that loses no answered grant: it commits calmly, and every grant it drops
comes back with the suffix, or gets its line in the audit. -/
def CalmMove (m : Moment) (loaded : List String) (h : Holder) (keep : Nat) (suffix : List Item)
    (others : List UInt64) : Prop :=
  (∀ e ∈ itemEntries suffix, Calm loaded h e) ∧
    ∀ e ∈ h.entries.drop keep, e ∉ itemEntries suffix → ∀ g, Commits e g →
      e.1 ∉ (itemEntries suffix).map Prod.fst ++ others ∧ Noted m h g

def CalmAnchor (loaded : List String) (h : Holder) (consumed : List UInt64)
    (suffix : List (UInt64 × Value)) : Prop :=
  (∀ e ∈ suffix, Calm loaded h e) ∧ (∀ e ∈ h.entries, e ∈ suffix ∨ e.1 ∈ consumed) ∧
    ∀ i ∈ h.consumed, i ∈ consumed

theorem itemEntries_map (l : List (UInt64 × Value)) : itemEntries (l.map Item.entry) = l := by
  unfold itemEntries
  rw [filterMap_map]
  exact filterMap_some

theorem Sound.adopt (hsha : Function.Injective V.C.sha256) (hs : Sound V loaded h log) (keep : Nat)
    (suffix : List Item) (others : List UInt64) (hcalm : CalmMove m loaded h keep suffix others) :
    Sound V loaded (h.adopt V m keep suffix others).1 (log ++ (h.adopt V m keep suffix others).2) := by
  unfold Holder.adopt
  dsimp only
  split_ifs with hverifies
  · obtain ⟨lines, heq, hnoted⟩ := vaultDisplaced_spec (V := V) (m := m) (h.entries.drop keep)
      ((itemEntries suffix).map Prod.fst ++ others) { h with entries := h.entries.take keep ++ itemEntries suffix }
      hs.labelled
    rw [heq]
    refine Sound.settle hsha suffix _ [] ?_ (h.entries.take keep) rfl hcalm.1
    rw [append_nil]
    refine ⟨hverifies, fun g hg => ?_, hs.queued, hs.labelled, hs.once, hs.known, hs.fresh, fun g hg => ?_⟩
    · exact mem_map.mpr ((mem_map.mp (hs.audited g hg)).imp fun d hd =>
        ⟨mem_append_left _ hd.1, hd.2⟩)
    · rcases hs.traced g hg with ⟨e, he, hcommits⟩ | hdisplaced | hconsumed
      · rw [← take_append_drop keep h.entries] at he
        rcases mem_append.mp he with he | he
        · exact .inl ⟨e, mem_append_left _ he, hcommits⟩
        · by_cases hback : e ∈ itemEntries suffix
          · exact .inl ⟨e, mem_append_right _ hback, hcommits⟩
          · obtain ⟨hkept, hn⟩ := hcalm.2 e he hback g hcommits
            exact .inr (.inl (hnoted e he hkept g hcommits hn))
      · refine .inr (.inl ?_)
        exact mem_map.mpr ((mem_map.mp hdisplaced).imp fun d hd =>
          ⟨mem_append_left _ hd.1, hd.2⟩)
      · exact .inr (.inr hconsumed)
  · rw [append_nil]
    exact hs

theorem dropStale_eq (h : Holder) : ∃ held, h.dropStaleVaultBase V = { h with held := held } := by
  unfold Holder.dropStaleVaultBase
  split_ifs
  · exact ⟨h.held, rfl⟩
  · exact ⟨none, rfl⟩

theorem Sound.withHeld (hs : Sound V loaded h log) (held : Option VaultBase) :
    Sound V loaded { h with held := held } log :=
  ⟨hs.verified, hs.audited, hs.queued, hs.labelled, hs.once, hs.known, hs.fresh, hs.traced⟩

theorem Sound.reanchor (hsha : Function.Injective V.C.sha256) (hs : Sound V loaded h log)
    (anchor : Option VaultPayloadRef) (consumed : List UInt64) (suffix : List (UInt64 × Value))
    (hcalm : CalmAnchor loaded h consumed suffix) :
    Sound V loaded (h.reanchor V m anchor consumed suffix).1
      (log ++ (h.reanchor V m anchor consumed suffix).2) := by
  obtain ⟨hcommits, hentries, hconsumed⟩ := hcalm
  unfold Holder.reanchor
  split_ifs with hverifies
  · obtain ⟨held, heq⟩ := dropStale_eq (V := V) { h with
      anchor := anchor
      consumed := consumed
      entries := suffix }
    rw [heq]
    refine Sound.settle hsha (suffix.map .entry) _ [] ?_ [] ?_ ?_
    · rw [append_nil]
      refine ⟨hverifies, hs.audited, hs.queued, hs.labelled, hs.once, fun g hg => ?_, hs.fresh, fun g hg => ?_⟩
      · refine (hs.known g hg).imp_right fun hknown => hknown.imp_right ?_
        rintro ⟨i, hi, hbinds⟩
        exact ⟨i, hconsumed i hi, hbinds⟩
      · rcases hs.traced g hg with ⟨e, he, hcommit⟩ | hdisplaced | ⟨i, hi, hbinds⟩
        · rcases hentries e he with hback | hbelow
          · exact .inl ⟨e, hback, hcommit⟩
          · obtain ⟨haccepts, -, -⟩ := verifies_iff.mp hs.verified
            exact .inr (.inr ⟨e.1, hbelow, binds_of_accepts (haccepts e he) hcommit⟩)
        · exact .inr (.inl hdisplaced)
        · exact .inr (.inr ⟨i, hconsumed i hi, hbinds⟩)
    · rw [itemEntries_map]
      rfl
    · rw [itemEntries_map]
      exact hcommits
  · rw [append_nil]
    exact hs

theorem adoptVaultBase_eq (h : Holder) (base : VaultBase) :
    ∃ held, (h.adoptVaultBase V base).1 = { h with held := held } := by
  unfold Holder.adoptVaultBase
  split
  · exact ⟨none, rfl⟩
  · split_ifs
    · exact ⟨some base, rfl⟩
    · exact dropStale_eq h

theorem Sound.baseArrives (hs : Sound V loaded h log) (base : VaultBase) :
    Sound V loaded (h.baseArrives V m base).1 (log ++ (h.baseArrives V m base).2) := by
  obtain ⟨held, heq⟩ := adoptVaultBase_eq (V := V) h base
  have hheld := hs.withHeld held
  rw [← heq] at hheld
  unfold Holder.baseArrives
  split
  · rename_i h' hadopt
    rw [hadopt] at hheld
    exact hheld.flush
  · rename_i h' hadopt
    rw [hadopt] at hheld
    rw [append_nil]
    exact hheld

theorem Sound.netVaultAsk (hs : Sound V loaded h log) (sender g : String) :
    Sound V loaded (h.netVaultAsk V m sender g).1 (log ++ (h.netVaultAsk V m sender g).2) := by
  have hflushed := hs.flush (m := m)
  obtain ⟨f, out, asked, hflush, hcase⟩ := netVaultAsk_cases (V := V) (m := m) h sender g
  rw [hflush] at hflushed
  rcases hcase with heq | heq | ⟨live, -, -, heq⟩
  · rw [heq]
    exact ⟨hflushed.verified, hflushed.audited, hflushed.queued, hflushed.labelled, hflushed.once,
      hflushed.known, hflushed.fresh, fun x hx => (hflushed.traced x hx).withRt rfl⟩
  · rw [heq]
    exact ⟨hflushed.verified, hflushed.audited, queue_nodup hflushed.queued g, hflushed.labelled,
      hflushed.once, hflushed.known, hflushed.fresh, fun x hx => (hflushed.traced x hx).withRt rfl⟩
  · rw [heq]
    have hcount : ∀ x, unasked x (log ++ (out ++ [f.answer V g true])) = unasked x (log ++ out) := by
      intro x
      simp [unasked, Holder.answer]
    refine ⟨hflushed.verified, hflushed.audited, hflushed.queued, hflushed.labelled, ?_, ?_, ?_, ?_⟩
    · intro x
      rw [hcount]
      exact hflushed.once x
    · intro x hx
      rw [hcount] at hx
      exact hflushed.known x hx
    · intro x hx
      rw [hcount]
      exact hflushed.fresh x hx
    · intro x hx
      rw [hcount] at hx
      exact (hflushed.traced x hx).withRt rfl

section

variable {C : Crypto} {republicId : String} {base : Option VaultBase}

theorem seedDeposits_grants (l : List VaultBaseDeposit) (st : VaultState) {a : VaultAppliedGrant}
    (ha : a ∈ st.grants) : a ∈ (l.foldl (VaultState.seedDeposit C republicId) st).grants := by
  induction l generalizing st with
  | nil => exact ha
  | cons d l ih => exact ih _ (mem_append_left _ ha)

theorem applyPayload_grants {st : VaultState} {a : VaultAppliedGrant} (ha : a ∈ st.grants) (payload : Value) :
    ∃ b ∈ (st.applyPayload C republicId base payload).grants, b.grant = a.grant := by
  unfold VaultState.applyPayload
  split_ifs
  · exact ⟨a, seedDeposits_grants _ st ha, rfl⟩
  · split
    · rename_i op _
      cases op with
      | deposit d =>
        rw [VaultState.applyOp]
        split_ifs
        · exact ⟨a, ha, rfl⟩
        · refine ⟨_, mem_map_of_mem ha, ?_⟩
          split_ifs <;> rfl
      | grant g => exact ⟨a, mem_append_left _ ha, rfl⟩
      | vaultBase r => exact ⟨a, ha, rfl⟩
    · exact ⟨a, ha, rfl⟩

theorem vaultState_grants {payloads : List Value} {payload : Value} (hmem : payload ∈ payloads)
    (hfree : baseCommitmentOf payload = none) {grant : VaultGrant}
    (hop : VaultOp.fromValue payload = some (.grant grant)) :
    ∃ a ∈ (vaultState C republicId base payloads).grants, a.grant = grant := by
  have hkeep : ∀ (l : List Value) (st : VaultState), (∃ a ∈ st.grants, a.grant = grant) →
      ∃ a ∈ (l.foldl (VaultState.applyPayload C republicId base) st).grants, a.grant = grant := by
    intro l
    induction l with
    | nil => exact fun _ h => h
    | cons p l ih =>
      rintro st ⟨a, ha, rfl⟩
      exact ih _ (applyPayload_grants ha p)
  obtain ⟨before, after, rfl⟩ := append_of_mem hmem
  unfold vaultState
  rw [foldl_append, foldl_cons]
  refine hkeep after _ ?_
  unfold VaultState.applyPayload
  rw [hfree, hop]
  exact ⟨_, mem_append_right _ (mem_singleton.mpr rfl), rfl⟩

end

theorem Sound.reopen (hs : Sound V loaded h log) (stored : Option VaultBase) :
    Sound V (h.rt.displaced.map VaultDisplacedGrant.grantId) (h.reopen V stored) log := by
  obtain ⟨held, answered, heq, hanswered⟩ : ∃ held answered, h.reopen V stored =
      ⟨h.anchor, h.consumed, h.entries, held, { displaced := h.rt.displaced, answered := answered }⟩ ∧
        ∀ e ∈ h.entries, ∀ g, Commits e g → g ∈ answered := by
    obtain ⟨held, hheld⟩ : ∃ held, (stored.map fun b => (Holder.adoptVaultBase V
        { h with held := none, rt := {} } b).1).getD { h with held := none, rt := {} } =
          { h with held := held, rt := {} } := by
      cases stored with
      | none => exact ⟨none, rfl⟩
      | some b => exact adoptVaultBase_eq _ b
    refine ⟨held, ((Holder.vaultState V { h with held := held, rt := {} }).grants.map
      fun g => g.grant.grantId).toFinset, ?_, ?_⟩
    · unfold Holder.reopen
      dsimp only
      rw [hheld]
    · rintro e he g ⟨grant, hop, rfl⟩
      obtain ⟨haccepts, -, -⟩ := verifies_iff.mp hs.verified
      have hfree := (accepts_iff.mp (haccepts e he)).1.free
      have hmem : e.2 ∈ Holder.appliedPayloads { h with held := held, rt := {} } :=
        mem_map_of_mem (mem_append_right _ he)
      obtain ⟨a, ha, hgrant⟩ : ∃ a ∈ (Holder.vaultState V { h with held := held, rt := {} }).grants,
          a.grant = grant := vaultState_grants hmem hfree hop
      exact mem_toFinset.mpr (mem_map.mpr ⟨a, ha, congrArg VaultGrant.grantId hgrant⟩)
  rw [heq]
  refine ⟨hs.verified, fun _ hg => hg, nodup_nil, nofun, hs.once, fun g hg => ?_, by simp, fun g hg => ?_⟩
  · rcases hs.traced g (.inl hg) with ⟨e, he, hcommits⟩ | hdisplaced | hconsumed
    · exact .inl (hanswered e he g hcommits)
    · exact .inr (.inl hdisplaced)
    · exact .inr (.inr hconsumed)
  · have hlog : unasked g log ≠ 0 := by simpa using hg
    exact hs.traced g (.inl hlog)

end

def Course.Calm (m : Moment) (c : Course) : Act → Prop
  | .adopt keep suffix others => CalmMove m c.loaded c.node keep suffix others
  | .reanchor _ consumed suffix => CalmAnchor c.loaded c.node consumed suffix
  | _ => True

def Course.CalmRun (V : Site) : Course → List (Moment × Act) → Prop
  | _, [] => True
  | c, a :: acts => c.Calm a.1 a.2 ∧ CalmRun V (c.step V a.1 a.2) acts

structure Course.Opened (V : Site) (c : Course) : Prop where
  verified : V.verifies c.node.consumed c.node.entries = true
  loaded : c.loaded = c.node.rt.displaced.map VaultDisplacedGrant.grantId
  runtime : c.node.rt = { displaced := c.node.rt.displaced, answered := c.node.rt.answered }
  log : c.log = []

theorem Course.Opened.sound {V : Site} {c : Course} (h : c.Opened V) : Sound V c.loaded c.node c.log := by
  rw [h.log]
  have hempty : ∀ g, unasked g [] = 0 := fun _ => rfl
  refine ⟨h.verified, fun g hg => h.loaded ▸ hg, ?_, ?_, fun g => Nat.zero_le _, fun g hg => absurd rfl hg,
    fun g _ => hempty g, fun g hg => ?_⟩
  · rw [h.runtime]
    exact nodup_nil
  · rw [h.runtime]
    nofun
  · rw [h.runtime] at hg
    simp [hempty] at hg

theorem Sound.step {V : Site} {m : Moment} {c : Course} (hsha : Function.Injective V.C.sha256)
    (hs : Sound V c.loaded c.node c.log) (act : Act) (hcalm : c.Calm m act) :
    Sound V (c.step V m act).loaded (c.step V m act).node (c.step V m act).log := by
  cases act with
  | adopt keep suffix others => exact hs.adopt hsha keep suffix others hcalm
  | reanchor anchor consumed suffix => exact hs.reanchor hsha anchor consumed suffix hcalm
  | baseArrives base => exact hs.baseArrives base
  | ask sender g => exact hs.netVaultAsk sender g
  | reopen stored => exact hs.reopen stored

/-- Over any course of appends, reorgs, cuts, other anchors, late bases, asks and reopens:
an answer goes out only on a live grant of the version then current, by one of its holders
and never by its reader; and where no step forgets what was answered, no grant is answered
twice unasked. -/
theorem Course.answers_once {V : Site} (hsha : Function.Injective V.C.sha256) {c : Course}
    (hopened : c.Opened V) (acts : List (Moment × Act)) :
    (∀ a ∈ (c.run V acts).log, Rightful V a) ∧
      (c.CalmRun V acts → ∀ g, unasked g (c.run V acts).log ≤ 1) := by
  have hrightful : ∀ (acts : List (Moment × Act)) (c : Course), (∀ a ∈ c.log, Rightful V a) →
      ∀ a ∈ (c.run V acts).log, Rightful V a := by
    intro acts
    induction acts with
    | nil => exact fun _ hc => hc
    | cons act acts ih => exact fun c hc => ih _ (c.step_rightful hc act.2)
  have hsound : ∀ (acts : List (Moment × Act)) (c : Course), Sound V c.loaded c.node c.log →
      c.CalmRun V acts → Sound V (c.run V acts).loaded (c.run V acts).node (c.run V acts).log := by
    intro acts
    induction acts with
    | nil => exact fun _ hs _ => hs
    | cons act acts ih => exact fun c hs hcalm => ih _ (hs.step hsha act.2 hcalm.1) hcalm.2
  refine ⟨hrightful acts c (by simp [hopened.log]), fun hcalm g => ?_⟩
  exact (hsound acts c hopened.sound hcalm).once g

namespace Sample
open Chain.Sample

/-- The seat of cal in the republic of `vaulted`. -/
def calSite : Site :=
  ⟨sealing, "00", ⟨2, vaulted.identities.map fun i => (i.member, i.identityPk, i.vaultPk)⟩, "cal"⟩

def ready : Moment := ⟨true, true, fun _ => true, fun _ => true, [], 0⟩

def fresh : Course := ⟨⟨none, [], [], none, {}⟩, [], []⟩

def depositEntry : UInt64 × Value := (1, VaultOp.toValue (.deposit sampleDeposit))

def grantEntry : UInt64 × Value := (2, VaultOp.toValue (.grant sampleGrant))

def recommitted : List (Moment × Act) :=
  [(ready, .adopt 0 [.entry depositEntry] []), (ready, .adopt 1 [.entry grantEntry] []),
    (ready, .adopt 1 [] [9]), (ready, .reopen none), (ready, .adopt 1 [.entry grantEntry] [])]

def recommittedAgain : List (Moment × Act) :=
  recommitted ++ [(ready, .adopt 1 [] [10]), (ready, .adopt 1 [.entry grantEntry] [])]

theorem fresh_opened : fresh.Opened calSite := ⟨by decide, rfl, rfl, rfl⟩

theorem commits_grantEntry {g : String} (h : Commits grantEntry g) : g = "0000000000" := by
  obtain ⟨grant, hop, rfl⟩ := h
  have hgrant : VaultOp.fromValue grantEntry.2 = some (.grant sampleGrant) := by decide +kernel
  obtain rfl := VaultOp.grant.inj (Option.some.inj (hop.symm.trans hgrant))
  rfl

theorem recommitted_calm : fresh.CalmRun calSite recommitted := by
  -- nothing is loaded until the reopen, and nothing noted right behind it
  have hstep : ∀ (c : Course) (keep : Nat) (suffix : List Item) (others : List UInt64),
      (c.loaded = [] ∨ c.node.rt.seen.entries = []) →
      (c.node.entries.drop keep = [] ∨ suffix = [] ∧ others = [9] ∧ c.node.entries.drop keep = [grantEntry] ∧
        (c.node.rt.seen.get? "0000000000").isSome) →
      c.Calm ready (.adopt keep suffix others) := by
    intro c keep suffix others hquiet hdrop
    refine ⟨fun e _ g _ hloaded hsome => ?_, fun e he _ g hg => ?_⟩
    · rcases hquiet with hnone | hnone
      · rw [hnone] at hloaded
        exact absurd hloaded not_mem_nil
      · rw [SortedMap.get?, hnone] at hsome
        exact absurd hsome (by simp)
    · rcases hdrop with hnone | ⟨rfl, rfl, hone, hnoted⟩
      · rw [hnone] at he
        exact absurd he not_mem_nil
      · rw [hone] at he
        obtain rfl := mem_singleton.mp he
        exact ⟨by decide, Or.inl (commits_grantEntry hg ▸ hnoted)⟩
  refine ⟨hstep _ _ _ _ ?_ ?_, hstep _ _ _ _ ?_ ?_, hstep _ _ _ _ ?_ ?_, trivial,
    hstep _ _ _ _ ?_ ?_, trivial⟩
  all_goals decide +kernel

end Sample

open Sample in
theorem Course.answers_once_sample : unasked "0000000000" (fresh.run calSite recommitted).log = 1 ∧
    (∀ a ∈ (fresh.run calSite recommitted).log, Rightful calSite a) ∧
    ∀ g, unasked g (fresh.run calSite recommitted).log ≤ 1 := by
  have honce := Course.answers_once (Chain.Sample.coded_injective _) fresh_opened recommitted
  exact ⟨by decide +kernel, honce.1, honce.2 recommitted_calm⟩

open Sample in
theorem Course.answered_twice : Function.Injective calSite.C.sha256 ∧ fresh.Opened calSite ∧
    unasked "0000000000" (fresh.run calSite recommittedAgain).log = 2 ∧
    ¬ ∀ g, unasked g (fresh.run calSite recommittedAgain).log ≤ 1 := by
  have htwice : unasked "0000000000" (fresh.run calSite recommittedAgain).log = 2 := by decide +kernel
  refine ⟨Chain.Sample.coded_injective _, fresh_opened, htwice, fun h => ?_⟩
  have hle := h "0000000000"
  omega

end Molt.Vault
