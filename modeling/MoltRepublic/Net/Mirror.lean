import Mathlib
import MoltRepublic.Core.Text
import MoltRepublic.Lib.Assembly
import MoltRepublic.Lib.Check

/-! The mirror status (`mirror_gossip`, `cmd_net_mirror_status`): a seat says what it holds in the
pages of one generation, and a receiver keeps the list once every page of it has come. -/

namespace Molt.Net.Mirror
open Text Assembly Check List SortedMap Option

def mirrorV : Nat := 1

def mirrorStatusMaxHolds : Nat := 500

def mirrorStatusLegacyMaxHolds : Nat := 4096

def mirrorStatusMaxPages : Nat := 64

def pagesStaleSecs : Nat := 600

structure MessageId where
  bytes : List UInt8
  size : bytes.length = 16
  deriving DecidableEq

def MessageId.toString (id : MessageId) : String := hexEncode id.bytes

def MessageId.fromStr (s : String) : Option MessageId :=
  if (utf8 s).length ≠ 32 || !(utf8 s).all isLowerHexdigit then none
  else match hexDecode s with
    | none => none
    | some bytes => if h : bytes.length = 16 then some ⟨bytes, h⟩ else none

structure MirrorHold where
  id : MessageId
  held : UInt32
  of_ : UInt32
  deriving DecidableEq

abbrev WireHold := String × UInt32 × UInt32

def MirrorHold.wire (h : MirrorHold) : WireHold := (h.id.toString, h.held, h.of_)

structure MirrorStatusFrame where
  v : Nat
  by_ : String
  holds : List WireHold
  gen : Nat
  page : Nat
  pages : Nat

inductive MirrorFrameError where
  | malformed
  | unknownVersion (v : Nat)

/-- `u16::try_from(n).unwrap_or(u16::MAX)`. -/
def u16OrMax (n : Nat) : Nat := if n < 2 ^ 16 then n else 2 ^ 16 - 1

/-- `MirrorStatusFrame::pages`: an empty list is one empty page. -/
def pagesOf (by_ : String) (holds : List WireHold) (gen : Nat) : List MirrorStatusFrame :=
  let pieces := if holds.isEmpty then [[]] else chunks mirrorStatusMaxHolds holds
  pieces.mapIdx fun page piece => ⟨mirrorV, by_, piece, gen, u16OrMax page, u16OrMax pieces.length⟩

/-- `from_frame`, behind the tag and the JSON reader. -/
def MirrorStatusFrame.fromFrame (me : MirrorStatusFrame) : Except MirrorFrameError MirrorStatusFrame :=
  let most := if me.pages = 1 then mirrorStatusLegacyMaxHolds else mirrorStatusMaxHolds
  if me.v ≠ mirrorV then .error (.unknownVersion me.v)
  else if most < me.holds.length ∨ (me.holds.any fun h => h.2.2 < h.2.1) ∨ me.pages = 0 ∨
      mirrorStatusMaxPages < me.pages ∨ me.pages ≤ me.page then .error .malformed
  else .ok me

structure MirrorPages where
  gen : Nat
  pages : Nat
  since : Nat
  collected : SortedMap ℕ (List MirrorHold)

structure MirrorPlane where
  member : String
  roster : List String
  mirrorPages : SortedMap String MirrorPages
  status : SortedMap String (List MirrorHold)

def MirrorPages.insertPage (entry : MirrorPages) (page : Nat) (holds : List MirrorHold) :
    Option MirrorPages × Option (List MirrorHold) :=
  let collected := entry.collected.insert page holds
  if collected.entries.length = entry.pages then (none, some collected.values.flatten)
  else (some { entry with collected := collected }, none)

/-- One page before a member's collector: the collector behind it, and the list it completed. -/
def takePage (entry : Option MirrorPages) (now : Nat) (holds : List MirrorHold) (gen page pages : Nat) :
    Option MirrorPages × Option (List MirrorHold) :=
  if pages = 1 then (none, some holds)
  else
    let fresh : MirrorPages := ⟨gen, pages, now, SortedMap.empty⟩
    match entry with
    | none => fresh.insertPage page holds
    | some entry =>
      -- a straggler of an older generation
      if gen < entry.gen then (some entry, none)
      else if entry.gen < gen ∨ entry.pages ≠ pages then fresh.insertPage page holds
      else entry.insertPage page holds

namespace MirrorPlane

def Ignored (s : MirrorPlane) (from_ : String) (page pages : Nat) : Prop :=
  from_ = s.member ∨ from_ ∉ s.roster ∨ pages = 0 ∨ pages ≤ page

instance (s : MirrorPlane) (from_ : String) (page pages : Nat) : Decidable (s.Ignored from_ page pages) :=
  inferInstanceAs (Decidable (_ ∨ _ ∨ _ ∨ _))

def setPages (s : MirrorPlane) (from_ : String) (entry : Option MirrorPages) : MirrorPlane :=
  match entry with
  | some e => { s with mirrorPages := s.mirrorPages.insert from_ e }
  | none => { s with mirrorPages := s.mirrorPages.erase from_ }

def cmdNetMirrorStatus (s : MirrorPlane) (now : Nat) (from_ : String) (holds : List MirrorHold)
    (gen page pages : Nat) : MirrorPlane :=
  if s.Ignored from_ page pages then s
  else
    let (entry, complete) := takePage (s.mirrorPages.get? from_) now holds gen page pages
    let s := s.setPages from_ entry
    match complete with
    | some holds => { s with status := s.status.insert from_ holds }
    | none => s

def sweep (s : MirrorPlane) (now : Nat) : MirrorPlane :=
  { s with mirrorPages := ⟨s.mirrorPages.entries.filter fun e => now - e.2.since < pagesStaleSecs,
      s.mirrorPages.ascending.filter _⟩ }

end MirrorPlane

/-- `NetSink::mirror_status`: ids that do not parse are left out. -/
def decodeHolds (holds : List WireHold) : List MirrorHold :=
  holds.filterMap fun h => (MessageId.fromStr h.1).map fun id => ⟨id, h.2.1, h.2.2⟩

inductive Event where
  | status (now : Nat) (from_ : String) (frame : MirrorStatusFrame)
  | tick (now : Nat)
  | roster (members : List String)

def heardFrom (from_ : String) (frame : MirrorStatusFrame) : Option MirrorStatusFrame :=
  match frame.fromFrame with
  | .ok me => if me.by_ = from_ then some me else none
  | .error _ => none

def MirrorPlane.step (s : MirrorPlane) : Event → MirrorPlane
  | .status now from_ frame =>
    match heardFrom from_ frame with
    | some me => s.cmdNetMirrorStatus now from_ (decodeHolds me.holds) me.gen me.page me.pages
    | none => s
  | .tick now => s.sweep now
  | .roster members => { s with roster := members }

def pageCount (holds : List MirrorHold) : Nat :=
  max 1 ((holds.length + mirrorStatusMaxHolds - 1) / mirrorStatusMaxHolds)

theorem fromStr_toString (id : MessageId) : MessageId.fromStr id.toString = some id := by
  obtain ⟨bytes, size⟩ := id
  have hlen : (utf8 (hexEncode bytes)).length = 32 := by
    rw [hexDecodeBytes_length (hexDecode_hexEncode bytes), size]
  unfold MessageId.fromStr MessageId.toString
  simp only [hlen, hexEncode_all_lower, hexDecode_hexEncode, size]
  rfl

theorem decodeHolds_wire (holds : List MirrorHold) : decodeHolds (holds.map MirrorHold.wire) = holds := by
  unfold decodeHolds
  rw [filterMap_map]
  refine (filterMap_congr fun h _ => ?_).trans (filterMap_some (l := holds))
  simp [Function.comp, MirrorHold.wire, fromStr_toString]

theorem block_map {α β : Type*} (f : α → β) (k : Nat) (l : List α) (i : Nat) :
    block k (l.map f) i = (block k l i).map f := by
  simp [block]

theorem mem_pagesOf {by_ : String} {holds : List MirrorHold} {gen : Nat} {frame : MirrorStatusFrame}
    (h : frame ∈ pagesOf by_ (holds.map MirrorHold.wire) gen) : ∃ p < pageCount holds,
      frame = ⟨mirrorV, by_, (block mirrorStatusMaxHolds holds p).map MirrorHold.wire, gen, u16OrMax p,
        u16OrMax (pageCount holds)⟩ := by
  obtain ⟨p, hp, rfl⟩ := mem_mapIdx.mp h
  cases holds with
  | nil =>
    have hp : p = 0 := by simpa using hp
    subst hp
    exact ⟨0, by decide, rfl⟩
  | cons x holds =>
    have hcount : (chunks mirrorStatusMaxHolds ((x :: holds).map MirrorHold.wire)).length =
        pageCount (x :: holds) := by
      rw [length_chunks, length_map, pageCount, Nat.max_eq_right]
      exact (Nat.le_div_iff_mul_le (by decide)).mpr (by simp [mirrorStatusMaxHolds])
    have hpieces : (if ((x :: holds).map MirrorHold.wire).isEmpty then [[]]
        else chunks mirrorStatusMaxHolds ((x :: holds).map MirrorHold.wire)) =
        chunks mirrorStatusMaxHolds ((x :: holds).map MirrorHold.wire) := rfl
    simp only [hpieces] at hp ⊢
    refine ⟨p, hcount ▸ hp, ?_⟩
    rw [hcount]
    simp only [chunks, getElem_map, getElem_range, block_map]

theorem heardFrom_eq_some {from_ : String} {frame me : MirrorStatusFrame} (h : heardFrom from_ frame = some me) :
    me = frame ∧ frame.pages ≤ mirrorStatusMaxPages := by
  unfold heardFrom at h
  split at h
  · rename_i m hframe
    unfold MirrorStatusFrame.fromFrame at hframe
    dsimp only at hframe
    generalize (if frame.pages = 1 then mirrorStatusLegacyMaxHolds else mirrorStatusMaxHolds) = most at hframe
    split_ifs at hframe with hv hbad
    cases hframe
    split_ifs at h with hby
    exact ⟨(Option.some.inj h).symm, by
      by_contra hpages
      exact hbad (.inr (.inr (.inr (.inl (by omega)))))⟩
  · cases h

theorem heardFrom_page {who : String} {holds : List MirrorHold} {gen : Nat} {frame me : MirrorStatusFrame}
    (h : frame ∈ pagesOf who (holds.map MirrorHold.wire) gen) (hme : heardFrom who frame = some me) :
    me.gen = gen ∧ me.pages = pageCount holds ∧ me.page < pageCount holds ∧
      decodeHolds me.holds = block mirrorStatusMaxHolds holds me.page := by
  obtain ⟨p, hp, rfl⟩ := mem_pagesOf h
  obtain ⟨rfl, hmost⟩ := heardFrom_eq_some hme
  have hcount : u16OrMax (pageCount holds) = pageCount holds := by
    unfold u16OrMax at hmost ⊢
    split
    · rfl
    · rename_i hbig
      dsimp only at hmost
      rw [if_neg hbig] at hmost
      exact absurd hmost (by decide)
  have hpage : u16OrMax p = p := by
    rw [hcount] at hmost
    have : pageCount holds ≤ 64 := hmost
    rw [u16OrMax, if_pos (by omega)]
  rw [hcount, hpage]
  exact ⟨rfl, rfl, hp, decodeHolds_wire _⟩

section

variable {sent : Nat → Option (List MirrorHold)}

structure Collecting (sent : Nat → Option (List MirrorHold)) (c : MirrorPages) : Prop where
  of_generation : ∃ holds, sent c.gen = some holds ∧ c.pages = pageCount holds ∧
    ∀ p piece, c.collected.get? p = some piece → p < c.pages ∧ piece = block mirrorStatusMaxHolds holds p

variable {c : MirrorPages}

theorem Collecting.lt (h : Collecting sent c) {p : Nat} (hp : (c.collected.get? p).isSome) :
    p < c.pages := by
  obtain ⟨holds, -, -, hpieces⟩ := h.of_generation
  obtain ⟨piece, hpiece⟩ := isSome_iff_exists.mp hp
  exact (hpieces p piece hpiece).1

theorem Collecting.flatten (h : Collecting sent c) (hfull : c.collected.entries.length = c.pages) :
    sent c.gen = some c.collected.values.flatten := by
  obtain ⟨holds, hsent, hcount, hpieces⟩ := h.of_generation
  rw [hsent, values_of_full hpieces hfull, flatten_map_block, take_of_length_le]
  rw [hcount, pageCount]
  exact (length_le_chunks (by decide)).trans (Nat.mul_le_mul_left _ (Nat.le_max_right ..))

structure PageOf (sent : Nat → Option (List MirrorHold)) (piece : List MirrorHold) (gen page pages : Nat) : Prop where
  of_generation : ∃ holds, sent gen = some holds ∧ pages = pageCount holds ∧
    piece = block mirrorStatusMaxHolds holds page
  lt : page < pages

def Completes (entry : Option MirrorPages) (gen page pages : Nat) : Prop :=
  pages = 1 ∨ ∃ c, entry = some c ∧ c.gen = gen ∧ c.pages = pages ∧
    ∀ p < pages, p ≠ page → (c.collected.get? p).isSome

theorem insertPage_spec (hc : Collecting sent c) {piece : List MirrorHold} {page : Nat}
    (hpage : PageOf sent piece c.gen page c.pages) :
    (∀ d, (c.insertPage page piece).1 = some d → Collecting sent d) ∧
    (∀ holds, (c.insertPage page piece).2 = some holds → sent c.gen = some holds) ∧
    ((c.insertPage page piece).2.isSome ↔ ∀ p < c.pages, p ≠ page → (c.collected.get? p).isSome) := by
  obtain ⟨⟨list, hsent, hcount, hpiece⟩, hlt⟩ := hpage
  have hinto : Collecting sent { c with collected := c.collected.insert page piece } := by
    obtain ⟨holds, hholds, hpages, hpieces⟩ := hc
    refine ⟨holds, hholds, hpages, fun p q hq => ?_⟩
    rw [get?_insert] at hq
    split_ifs at hq with hp
    · cases hq
      obtain rfl : list = holds := Option.some.inj (hsent.symm.trans hholds)
      subst hp
      exact ⟨hlt, hpiece⟩
    · exact hpieces p q hq
  have hfill : (c.collected.insert page piece).entries.length = c.pages ↔
      ∀ p < c.pages, p ≠ page → (c.collected.get? p).isSome := by
    rw [full_iff fun k hk => hinto.lt hk]
    refine forall₂_congr fun p hp => ?_
    rw [get?_insert]
    split_ifs with h <;> simp [h]
  rw [← hfill]
  unfold MirrorPages.insertPage
  dsimp only
  split_ifs with hfull
  · refine ⟨fun d hd => (by cases hd), fun holds hholds => ?_, ⟨fun _ => hfull, fun _ => rfl⟩⟩
    cases hholds
    exact hinto.flatten hfull
  · refine ⟨fun d hd => Option.some.inj hd ▸ hinto, fun holds hholds => (by cases hholds), ?_⟩
    exact ⟨fun h => (by cases h), fun h => absurd h hfull⟩

theorem takePage_spec {entry : Option MirrorPages} (hentry : ∀ c, entry = some c → Collecting sent c) (now : Nat)
    {piece : List MirrorHold} {gen page pages : Nat} (hpage : PageOf sent piece gen page pages) :
    (∀ c, (takePage entry now piece gen page pages).1 = some c → Collecting sent c) ∧
    (∀ holds, (takePage entry now piece gen page pages).2 = some holds → sent gen = some holds) ∧
    ((takePage entry now piece gen page pages).2.isSome ↔ Completes entry gen page pages) := by
  unfold takePage Completes
  by_cases hone : pages = 1
  · obtain ⟨⟨list, hsent, hcount, hpiece⟩, hlt⟩ := hpage
    rw [if_pos hone]
    refine ⟨fun c hc => (by cases hc), fun holds hholds => ?_, ⟨fun _ => .inl hone, fun _ => rfl⟩⟩
    -- the one page of a short list is the list
    cases hholds
    rw [hsent, hpiece, show page = 0 by omega, block, Nat.mul_zero, drop_zero, take_of_length_le]
    have hle := (length_le_chunks (k := mirrorStatusMaxHolds) (n := list.length) (by decide)).trans
      (Nat.mul_le_mul_left _ (Nat.le_max_right 1 _))
    rwa [← pageCount, ← hcount, hone, Nat.mul_one] at hle
  have hfresh : Collecting sent ⟨gen, pages, now, SortedMap.empty⟩ := by
    obtain ⟨list, hsent, hcount, -⟩ := hpage.of_generation
    exact ⟨list, hsent, hcount, fun p q hq => by cases hq⟩
  obtain ⟨hkept, hwhole, hfill⟩ := insertPage_spec hfresh hpage
  have hnever : ¬∀ p < pages, p ≠ page → ((SortedMap.empty : SortedMap ℕ (List MirrorHold)).get? p).isSome := by
    intro h
    -- another page is missing from an empty collector
    have hlt := hpage.lt
    have := h (if page = 0 then 1 else 0) (by split_ifs <;> omega) (by split_ifs <;> omega)
    cases this
  rw [if_neg hone]
  dsimp only
  cases entry with
  | none =>
    refine ⟨hkept, hwhole, hfill.trans (iff_of_false hnever ?_)⟩
    rintro (h | ⟨c, hc, -⟩)
    · exact hone h
    · cases hc
  | some c =>
    have hc := hentry c rfl
    dsimp only
    split_ifs with hold hother
    · refine ⟨fun d hd => Option.some.inj hd ▸ hc, fun holds hholds => (by cases hholds),
        iff_of_false (by simp) ?_⟩
      rintro (h | ⟨d, hd, hgen, -⟩)
      · exact hone h
      · obtain rfl := Option.some.inj hd
        omega
    · refine ⟨hkept, hwhole, hfill.trans (iff_of_false hnever ?_)⟩
      rintro (h | ⟨d, hd, hgen, hpages, -⟩)
      · exact hone h
      · obtain rfl := Option.some.inj hd
        rcases hother with hlt | hne
        · omega
        · exact hne hpages
    · have hgen : c.gen = gen := by
        by_contra hne
        exact hother (.inl (by omega))
      have hpages : c.pages = pages := not_not.mp fun hne => hother (.inr hne)
      subst hgen hpages
      obtain ⟨hkept, hwhole, hfill⟩ := insertPage_spec hc hpage
      refine ⟨hkept, hwhole, hfill.trans ⟨fun h => .inr ⟨c, rfl, rfl, rfl, h⟩, ?_⟩⟩
      rintro (h | ⟨d, hd, -, -, hall⟩)
      · exact absurd h hone
      · cases hd
        exact hall

end

section

variable {who : String} {sent : Nat → Option (List MirrorHold)} {s : MirrorPlane} {e : Event} {events : List Event}

def FromSender (who : String) (sent : Nat → Option (List MirrorHold)) : Event → Prop
  | .status _ from_ frame => from_ = who → ∃ gen holds, sent gen = some holds ∧
      frame ∈ pagesOf who (holds.map MirrorHold.wire) gen
  | _ => True

def taken (who : String) (s : MirrorPlane) : Event → Option (Nat × MirrorStatusFrame)
  | .status now from_ frame =>
    if from_ = who then
      ((heardFrom from_ frame).filter fun me => ¬s.Ignored from_ me.page me.pages).map fun me => (now, me)
    else none
  | _ => none

def MirrorPlane.taking (s : MirrorPlane) (who : String) (now : Nat) (me : MirrorStatusFrame) :
    Option MirrorPages × Option (List MirrorHold) :=
  takePage (s.mirrorPages.get? who) now (decodeHolds me.holds) me.gen me.page me.pages

def storedBy (who : String) (s : MirrorPlane) (e : Event) : Option Nat :=
  (taken who s e).bind fun t => if (s.taking who t.1 t.2).2.isSome then some t.2.gen else none

def generations (who : String) : MirrorPlane → List Event → List Nat
  | _, [] => []
  | s, e :: es => (storedBy who s e).toList ++ generations who (s.step e) es

def Overdue (who : String) (s : MirrorPlane) (stored : Option Nat) (e : Event) : Prop :=
  ∃ now me, taken who s e = some (now, me) ∧ (∃ g, stored = some g ∧ me.gen < g) ∧
    Completes (s.mirrorPages.get? who) me.gen me.page me.pages

theorem step_untaken (h : taken who s e = none) : (s.step e).status.get? who = s.status.get? who ∧
    ∀ c, (s.step e).mirrorPages.get? who = some c → s.mirrorPages.get? who = some c := by
  cases e with
  | tick now =>
    refine ⟨rfl, fun c hc => get?_eq_some.mpr ?_⟩
    exact (mem_filter.mp (get?_eq_some.mp hc)).1
  | roster members => exact ⟨rfl, fun c hc => hc⟩
  | status now from_ frame =>
    unfold taken at h
    dsimp only at h
    unfold MirrorPlane.step
    dsimp only
    cases hheard : heardFrom from_ frame with
    | none => exact ⟨rfl, fun c hc => hc⟩
    | some me =>
      dsimp only
      rw [hheard] at h
      unfold MirrorPlane.cmdNetMirrorStatus
      by_cases hig : s.Ignored from_ me.page me.pages
      · rw [if_pos hig]
        exact ⟨rfl, fun c hc => hc⟩
      · rw [if_neg hig]
        have hne : who ≠ from_ := by
          rintro rfl
          simp [Option.filter, hig] at h
        have hpages : ∀ entry, ((s.setPages from_ entry).mirrorPages.get? who = s.mirrorPages.get? who) ∧
            (s.setPages from_ entry).status = s.status := by
          intro entry
          cases entry with
          | none => exact ⟨by rw [MirrorPlane.setPages, get?_erase, if_neg hne], rfl⟩
          | some c => exact ⟨by rw [MirrorPlane.setPages, get?_insert, if_neg hne], rfl⟩
        dsimp only
        split
        · rename_i holds hcomplete
          refine ⟨?_, fun c hc => (hpages _).1 ▸ hc⟩
          rw [get?_insert, if_neg hne, (hpages _).2]
        · exact ⟨by rw [(hpages _).2], fun c hc => (hpages _).1 ▸ hc⟩

theorem step_taken {now : Nat} {me : MirrorStatusFrame} (h : taken who s e = some (now, me)) :
    (s.step e).mirrorPages.get? who = (s.taking who now me).1 ∧
    (s.step e).status.get? who = (s.taking who now me).2.or (s.status.get? who) := by
  cases e with
  | tick now | roster members => cases h
  | status now' from_ frame =>
    unfold taken at h
    dsimp only at h
    split_ifs at h with hwho
    subst hwho
    obtain ⟨m, hm, heq⟩ := map_eq_some_iff.mp h
    obtain ⟨rfl, rfl⟩ := Prod.mk.inj heq
    obtain ⟨hheard, hig⟩ := filter_eq_some_iff.mp hm
    have hig : ¬s.Ignored from_ m.page m.pages := by simpa using hig
    have hpages : ∀ entry, ((s.setPages from_ entry).mirrorPages.get? from_ = entry) ∧
        (s.setPages from_ entry).status = s.status := by
      intro entry
      cases entry with
      | none => exact ⟨by rw [MirrorPlane.setPages, get?_erase, if_pos rfl], rfl⟩
      | some c => exact ⟨by rw [MirrorPlane.setPages, get?_insert, if_pos rfl], rfl⟩
    unfold MirrorPlane.step
    dsimp only
    rw [hheard]
    unfold MirrorPlane.cmdNetMirrorStatus
    dsimp only
    rw [if_neg hig]
    change _ ∧ _
    unfold MirrorPlane.taking
    split
    · rename_i holds hcomplete
      rw [hcomplete]
      exact ⟨(hpages _).1, by rw [get?_insert, if_pos rfl]; rfl⟩
    · rename_i hcomplete
      rw [hcomplete]
      exact ⟨(hpages _).1, by rw [(hpages _).2]; rfl⟩

theorem taken_page (hsent : FromSender who sent e) {now : Nat} {me : MirrorStatusFrame}
    (h : taken who s e = some (now, me)) : PageOf sent (decodeHolds me.holds) me.gen me.page me.pages := by
  cases e with
  | tick now | roster members => cases h
  | status now' from_ frame =>
    unfold taken at h
    dsimp only at h
    split_ifs at h with hwho
    subst hwho
    obtain ⟨m, hm, heq⟩ := map_eq_some_iff.mp h
    obtain ⟨rfl, rfl⟩ := Prod.mk.inj heq
    obtain ⟨gen, holds, hgen, hframe⟩ := hsent rfl
    obtain ⟨rfl, hpages, hpage, hpiece⟩ := heardFrom_page hframe (filter_eq_some_iff.mp hm).1
    exact ⟨⟨holds, hgen, hpages, hpiece⟩, hpages ▸ hpage⟩

theorem step_spec (hsent : FromSender who sent e)
    (hcol : ∀ c, s.mirrorPages.get? who = some c → Collecting sent c) :
    (∀ c, (s.step e).mirrorPages.get? who = some c → Collecting sent c) ∧
    (storedBy who s e = none → (s.step e).status.get? who = s.status.get? who) ∧
    (∀ g, storedBy who s e = some g → (s.step e).status.get? who = sent g ∧ (sent g).isSome) ∧
    ∀ stored, Overdue who s stored e ↔ ∃ g g', storedBy who s e = some g ∧ stored = some g' ∧ g < g' := by
  cases htaken : taken who s e with
  | none =>
    obtain ⟨hstatus, hpages⟩ := step_untaken htaken
    refine ⟨fun c hc => hcol c (hpages c hc), fun _ => hstatus, fun g hg => ?_, fun stored => iff_of_false ?_ ?_⟩
    · simp [storedBy, htaken] at hg
    · rintro ⟨now, me, hme, -⟩
      cases htaken.symm.trans hme
    · rintro ⟨g, g', hg, -⟩
      simp [storedBy, htaken] at hg
  | some t =>
    obtain ⟨now, me⟩ := t
    obtain ⟨hpages, hstatus⟩ := step_taken htaken
    obtain ⟨hkept, hwhole, hcompletes⟩ := takePage_spec hcol now (taken_page hsent htaken)
    have hstored : storedBy who s e = if (s.taking who now me).2.isSome then some me.gen else none := by
      rw [storedBy, htaken, bind_some]
    refine ⟨fun c hc => hkept c (hpages ▸ hc), fun hnone => ?_, fun g hg => ?_, fun stored => ?_⟩
    · rw [hstored] at hnone
      split_ifs at hnone with hsome
      rw [hstatus, not_isSome_iff_eq_none.mp hsome, none_or]
    · rw [hstored] at hg
      split_ifs at hg with hsome
      cases hg
      obtain ⟨holds, hholds⟩ := isSome_iff_exists.mp hsome
      have hsent := hwhole holds hholds
      rw [hstatus, hholds, hsent]
      exact ⟨rfl, rfl⟩
    · rw [hstored]
      constructor
      · rintro ⟨now', me', hme, ⟨g, rfl, hlt⟩, hfull⟩
        obtain ⟨rfl, rfl⟩ := Prod.mk.inj (Option.some.inj (htaken.symm.trans hme))
        exact ⟨me.gen, g, if_pos (hcompletes.mpr hfull), rfl, hlt⟩
      · rintro ⟨g, g', hg, rfl, hlt⟩
        split_ifs at hg with hsome
        cases hg
        exact ⟨now, me, htaken, ⟨g', rfl, hlt⟩, hcompletes.mp hsome⟩

theorem generations_concat (s : MirrorPlane) (events : List Event) (e : Event) :
    generations who s (events ++ [e]) =
      generations who s events ++ (storedBy who (events.foldl MirrorPlane.step s) e).toList := by
  induction events generalizing s with
  | nil => simp [generations]
  | cons d events ih => rw [cons_append, generations, ih, generations, append_assoc, foldl_cons]

theorem forall_split_concat {α : Type*} {P : List α → α → Prop} (l : List α) (x : α) :
    (∀ before y after, l ++ [x] = before ++ y :: after → P before y) ↔
      (∀ before y after, l = before ++ y :: after → P before y) ∧ P l x := by
  constructor
  · intro h
    refine ⟨fun before y after heq => h before y (after ++ [x]) ?_, h l x [] rfl⟩
    rw [heq, append_assoc, cons_append]
  · rintro ⟨hfront, hlast⟩ before y after heq
    rcases eq_nil_or_concat after with rfl | ⟨rest, z, rfl⟩
    · obtain ⟨rfl, hx⟩ := append_inj' heq rfl
      obtain rfl := singleton_inj.mp hx
      exact hlast
    · rw [concat_eq_append, ← cons_append, ← append_assoc] at heq
      exact hfront before y rest (append_inj' heq rfl).1

theorem pairwise_concat {l : List Nat} (h : l.Pairwise (· ≤ ·)) (x : Nat) :
    (l ++ [x]).Pairwise (· ≤ ·) ↔ ∀ g, l.getLast? = some g → g ≤ x := by
  rw [pairwise_append]
  constructor
  · rintro ⟨-, -, hle⟩ g hg
    exact hle g (mem_of_getLast? hg) x (mem_singleton_self x)
  · intro hle
    refine ⟨h, pairwise_singleton _ _, fun y hy z hz => ?_⟩
    obtain rfl := mem_singleton.mp hz
    obtain ⟨front, g, rfl⟩ := eq_nil_or_concat l |>.resolve_left (ne_nil_of_mem hy)
    rw [concat_eq_append] at *
    have hg := hle g (by simp)
    rcases mem_append.mp hy with hy | hy
    · exact ((pairwise_append.mp h).2.2 y hy g (mem_singleton_self g)).trans hg
    · exact (mem_singleton.mp hy).trans_le hg

/-- What is stored of a sender is at all times the whole list of one generation it sent, and the
stored generations never go back exactly when no event completes one older than the stored one. -/
theorem status_run (hnew : s.status.get? who = none) (hidle : s.mirrorPages.get? who = none)
    (hsent : ∀ e ∈ events, FromSender who sent e) :
    (events.foldl MirrorPlane.step s).status.get? who = (generations who s events).getLast?.bind sent ∧
    (∀ g ∈ generations who s events, (sent g).isSome) ∧
    ((generations who s events).Pairwise (· ≤ ·) ↔ ∀ before e after, events = before ++ e :: after →
      ¬Overdue who (before.foldl MirrorPlane.step s) (generations who s before).getLast? e) := by
  have key : (events.foldl MirrorPlane.step s).status.get? who = (generations who s events).getLast?.bind sent ∧
      (∀ g ∈ generations who s events, (sent g).isSome) ∧
      (∀ c, (events.foldl MirrorPlane.step s).mirrorPages.get? who = some c → Collecting sent c) ∧
      ((generations who s events).Pairwise (· ≤ ·) ↔ ∀ before e after, events = before ++ e :: after →
        ¬Overdue who (before.foldl MirrorPlane.step s) (generations who s before).getLast? e) := by
    induction events using List.reverseRecOn with
    | nil =>
      refine ⟨hnew, fun g hg => absurd hg List.not_mem_nil, fun c hc => ?_, ?_⟩
      · cases hidle.symm.trans hc
      · exact iff_of_true List.Pairwise.nil fun before e after h => absurd h (by simp)
    | append_singleton events e ih =>
      obtain ⟨hstatus, hsome, hcol, hforward⟩ := ih fun d hd => hsent d (List.mem_append_left _ hd)
      obtain ⟨hcol', hkeep, hput, hoverdue⟩ := step_spec (hsent e (by simp)) hcol
      rw [List.foldl_append, List.foldl_cons, List.foldl_nil, generations_concat, forall_split_concat, ← hforward]
      cases hby : storedBy who (events.foldl MirrorPlane.step s) e with
      | none =>
        rw [Option.toList_none, List.append_nil]
        refine ⟨(hkeep hby).trans hstatus, hsome, hcol', (and_iff_left ?_).symm⟩
        rw [hoverdue]
        rintro ⟨g, g', hg, -⟩
        cases hby.symm.trans hg
      | some g =>
        obtain ⟨hat, hg⟩ := hput g hby
        rw [Option.toList_some]
        refine ⟨by rw [hat, List.getLast?_append, List.getLast?_singleton]; rfl, fun x hx => ?_, hcol', ?_⟩
        · rcases List.mem_append.mp hx with hx | hx
          · exact hsome x hx
          · exact List.mem_singleton.mp hx ▸ hg
        · constructor
          · intro h
            have hfront := (List.pairwise_append.mp h).1
            refine ⟨hfront, fun hlate => ?_⟩
            obtain ⟨x, g', hx, hlast, hlt⟩ := (hoverdue _).mp hlate
            obtain rfl := Option.some.inj (hby.symm.trans hx)
            exact absurd ((pairwise_concat hfront g).mp h g' hlast) (Nat.not_le.mpr hlt)
          · rintro ⟨hfront, hlate⟩
            refine (pairwise_concat hfront g).mpr fun g' hlast => ?_
            by_contra hlt
            exact hlate ((hoverdue _).mpr ⟨g, g', hby, hlast, Nat.not_le.mp hlt⟩)
  exact ⟨key.1, key.2.1, key.2.2.2⟩

end

namespace Sample

def hold (n : UInt8) : MirrorHold := ⟨⟨List.replicate 16 n, rfl⟩, 2, 2⟩

def sent : Nat → Option (List MirrorHold)
  | 1 => some [hold 1]
  | 2 => some [hold 2]
  | _ => none

def page (gen : Nat) (n : UInt8) : Event := .status 0 "petra" ⟨mirrorV, "petra", [(hold n).wire], gen, 0, 1⟩

def start : MirrorPlane := ⟨"anna", ["anna", "petra"], SortedMap.empty, SortedMap.empty⟩

theorem page_sent {gen : Nat} {n : UInt8} (h : sent gen = some [hold n]) : FromSender "petra" sent (page gen n) := by
  intro _
  exact ⟨gen, _, h, by simp [pagesOf, chunks, block, u16OrMax, mirrorStatusMaxHolds, MirrorHold.wire]⟩

end Sample

open Sample in
/-- The two generations arrive as they were sent. -/
theorem status_run_sample :
    ([page 1 1, page 2 2].foldl MirrorPlane.step start).status.get? "petra" = some [hold 2] ∧
      generations "petra" start [page 1 1, page 2 2] = [1, 2] ∧
      ∀ before e after, [page 1 1, page 2 2] = before ++ e :: after →
        ¬Overdue "petra" (before.foldl MirrorPlane.step start) (generations "petra" start before).getLast? e := by
  have hgens : generations "petra" start [page 1 1, page 2 2] = [1, 2] := by decide +kernel
  obtain ⟨hstatus, -, hforward⟩ := @status_run "petra" sent start [page 1 1, page 2 2] rfl rfl
    (by simp [page_sent, sent])
  rw [hgens] at hstatus hforward
  exact ⟨hstatus, hgens, hforward.mp (by decide)⟩

open Sample in
/-- The page of an older generation that comes late is stored in the place of the newer one. -/
theorem late_page_stored :
    (∀ e ∈ [page 2 2, page 1 1], FromSender "petra" sent e) ∧
      ([page 2 2].foldl MirrorPlane.step start).status.get? "petra" = sent 2 ∧
      ([page 2 2, page 1 1].foldl MirrorPlane.step start).status.get? "petra" = sent 1 := by
  refine ⟨by simp [page_sent, sent], ?_, ?_⟩ <;> decide +kernel

end Molt.Net.Mirror
