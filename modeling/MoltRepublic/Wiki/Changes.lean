import Mathlib
import MoltRepublic.Lib.Check
import MoltRepublic.Wiki.Fold

/-! What the documents did since a revision (`coalesce_wiki_changes`): the touches of the
patches above it, coalesced to one entry a path. -/

namespace Molt.Wiki
open Molt.Core Check List SortedMap

inductive TouchKind where
  | added
  | modified
  | deleted
  | renamed
  deriving DecidableEq

/-- `WikiTouch`: one file of one applied patch. -/
structure Touch where
  path : String
  kind : TouchKind
  from_ : Option String
  deriving DecidableEq

/-- `WikiRevChanges`: what one applied revision touched. -/
structure RevChanges where
  rev : Nat
  proposal : Option UInt64
  items : List Touch
  deriving DecidableEq

/-- `WikiChange`: one line of the answer. -/
structure Change where
  path : String
  kind : TouchKind
  rev : Nat
  from_ : Option String
  deriving DecidableEq

def PatchFile.displayPath (f : PatchFile) : String := if f.deleted then f.oldPath else f.newPath

def wikiTouchOf (f : PatchFile) : Touch :=
  let renamed := f.renamed && !f.deleted
  { path := f.displayPath
    kind :=
      if f.deleted then .deleted else if renamed then .renamed else if f.added then .added
      else .modified
    from_ := if renamed then some f.oldPath else none }

abbrev Seen := SortedMap String (TouchKind × Change)

def takeOld (seen : Seen) (item : Touch) : TouchKind × Option String × Seen :=
  match item.from_ with
  | none => (item.kind, none, seen)
  | some old =>
    match seen.get? old with
    | some (was, prev) => (was, prev.from_.or (some old), seen.erase old)
    | none => (item.kind, some old, seen)

def coalesceItem (rev : Nat) (seen : Seen) (item : Touch) : Seen :=
  let (first, from_, seen) := takeOld seen item
  match seen.get? item.path with
  | some (was, prev) => seen.insert item.path (was, ⟨item.path, item.kind, rev, from_.or prev.from_⟩)
  | none => seen.insert item.path (first, ⟨item.path, item.kind, rev, from_⟩)

def coalesceRev (seen : Seen) (entry : RevChanges) : Seen :=
  entry.items.foldl (coalesceItem entry.rev) seen

/-- What the answer says of an entry: a document the window added is new at its final
path, and one it deleted again is nothing to a caller that never saw it. -/
def report (e : TouchKind × Change) : Option Change :=
  if e.1 ≠ .added then some e.2
  else if e.2.kind = .deleted then none
  else some { e.2 with kind := .added, from_ := none }

def coalesceWikiChanges (history : List RevChanges) (sinceRev : Nat) : List Change :=
  let seen := (history.filter fun e => e.rev > sinceRev).foldl coalesceRev SortedMap.empty
  seen.values.filterMap report

/-- The claim of an untruncated list `changes` between the trees `before` and `now`. -/
structure Complete (before now : Tree) (changes : List Change) : Prop where
  /-- What was there and is gone or reads otherwise is named, by its path or as a source. -/
  lost : ∀ p x, before.get? p = some x → now.get? p ≠ some x →
    ∃ c ∈ changes, c.path = p ∨ c.from_ = some p
  /-- What is new is named by its path. -/
  gained : ∀ p x, now.get? p = some x → before.get? p = none → ∃ c ∈ changes, c.path = p
  /-- What is listed and not there is listed as deleted. -/
  gone : ∀ c ∈ changes, now.get? c.path = none → c.kind = .deleted
  once : (changes.map Change.path).Nodup

section

/-- Some entry that is not told as new names `p` as where its document came from. -/
def Moved (seen : Seen) (p : String) : Prop :=
  ∃ q e, seen.get? q = some e ∧ e.1 ≠ .added ∧ e.2.from_ = some p

/-- The entries `seen` of a window that took the tree `before` to `now`; `freed` are the
paths whose last change in the window was a deletion. -/
structure Trail (before now : Tree) (freed : List String) (seen : Seen) : Prop where
  path : ∀ p e, seen.get? p = some e → e.2.path = p
  deleted : ∀ p e, seen.get? p = some e → (e.2.kind = .deleted ↔ now.get? p = none)
  freed : ∀ p e, seen.get? p = some e → now.get? p = none → p ∈ freed
  still : ∀ p x, seen.get? p = none → now.get? p = some x → before.get? p = some x
  left : ∀ p, seen.get? p = none → now.get? p = none → before.get? p = none ∨ Moved seen p
  settled : ∀ p e, seen.get? p = some e → e.1 = .added ∨ e.2.from_ ≠ none →
    before.get? p = none ∨ Moved seen p

theorem Trail.start (tree : Tree) : Trail tree tree [] SortedMap.empty := by
  refine ⟨?_, ?_, ?_, fun p x _ h => h, fun p _ h => .inl h, ?_⟩
  all_goals
    intro p e h
    rw [get?_empty] at h
    exact absurd h (by simp)

theorem Trail.complete {before now : Tree} {freed : List String} {seen : Seen}
    (h : Trail before now freed seen) : Complete before now (seen.values.filterMap report) := by
  have hmoved : ∀ p, Moved seen p → ∃ c ∈ seen.values.filterMap report, c.path = p ∨ c.from_ = some p := by
    rintro p ⟨q, e, he, hfirst, hfrom⟩
    refine ⟨e.2, mem_filterMap.mpr ⟨e, mem_values.mpr ⟨q, he⟩, ?_⟩, .inr hfrom⟩
    exact if_pos hfirst
  have hlisted : ∀ p e, seen.get? p = some e → now.get? p ≠ none →
      ∃ c ∈ seen.values.filterMap report, c.path = p := by
    intro p e he hnow
    have hkind : e.2.kind ≠ .deleted := fun hk => hnow ((h.deleted p e he).mp hk)
    have hmem : e ∈ seen.values := mem_values.mpr ⟨p, he⟩
    by_cases hfirst : e.1 = .added
    · refine ⟨{ e.2 with kind := .added, from_ := none }, mem_filterMap.mpr ⟨e, hmem, ?_⟩, h.path p e he⟩
      simp [report, hfirst, hkind]
    · refine ⟨e.2, mem_filterMap.mpr ⟨e, hmem, ?_⟩, h.path p e he⟩
      simp [report, hfirst]
  refine ⟨?_, ?_, ?_, ?_⟩
  · intro p x hbefore hnow
    cases hseen : seen.get? p with
    | none =>
      cases hp : now.get? p with
      | none =>
        rcases h.left p hseen hp with hnone | hmov
        · rw [hbefore] at hnone
          simp at hnone
        · exact hmoved p hmov
      | some y =>
        have hstill := h.still p y hseen hp
        rw [hbefore] at hstill
        exact absurd (hp.trans hstill.symm) hnow
    | some e =>
      by_cases hfirst : e.1 = .added
      · rcases h.settled p e hseen (.inl hfirst) with hnone | hmov
        · rw [hbefore] at hnone
          simp at hnone
        · exact hmoved p hmov
      · refine ⟨e.2, mem_filterMap.mpr ⟨e, mem_values.mpr ⟨p, hseen⟩, ?_⟩,
          .inl (h.path p e hseen)⟩
        simp [report, hfirst]
  · intro p x hnow hbefore
    cases hseen : seen.get? p with
    | none =>
      have hstill := h.still p x hseen hnow
      rw [hbefore] at hstill
      simp at hstill
    | some e => exact hlisted p e hseen (by rw [hnow]; simp)
  · intro c hc hnow
    obtain ⟨e, he, hreport⟩ := mem_filterMap.mp hc
    obtain ⟨p, hp⟩ := mem_values.mp he
    unfold report at hreport
    split_ifs at hreport with hfirst hkind
    · cases hreport
      rw [h.path p e hp] at hnow
      exact (h.deleted p e hp).mpr hnow
    · cases hreport
      rw [h.path p e hp] at hnow
      exact absurd ((h.deleted p e hp).mpr hnow) hkind
  · have hpath : ∀ e ∈ seen.entries, e.2.2.path = e.1 := fun e he => h.path e.1 e.2 (get?_eq_some.mpr he)
    have hsub : ((seen.values.filterMap report).map Change.path).Sublist (seen.entries.map Prod.fst) := by
      unfold SortedMap.values
      generalize seen.entries = l at hpath
      induction l with
      | nil => exact List.Sublist.refl _
      | cons e l ih =>
        have hrest := ih fun a ha => hpath a (.tail _ ha)
        have hhead := hpath e (mem_cons_self ..)
        simp only [map_cons, filterMap_cons]
        cases hr : report e.2 with
        | none => exact hrest.trans (sublist_cons_self ..)
        | some c =>
          have hc : c.path = e.1 := by
            unfold report at hr
            split_ifs at hr
            · rw [← Option.some.inj hr, hhead]
            · rw [← Option.some.inj hr]
              exact hhead
          simp only [map_cons, hc]
          exact hrest.cons_cons _
    exact hsub.nodup seen.keys_nodup

theorem Moved.insert {seen : Seen} {p q : String} {e : TouchKind × Change} (h : Moved seen q)
    (hsame : ∀ d, seen.get? p = some d → d.1 ≠ .added → e.1 = d.1 ∧ e.2.from_ = d.2.from_) :
    Moved (seen.insert p e) q := by
  obtain ⟨r, d, hd, hfirst, hfrom⟩ := h
  by_cases hr : r = p
  · rw [hr] at hd
    obtain ⟨hfirst', hfrom'⟩ := hsame d hd hfirst
    refine ⟨p, e, ?_, by rw [hfirst']; exact hfirst, by rw [hfrom']; exact hfrom⟩
    rw [get?_insert, if_pos rfl]
  · refine ⟨r, d, ?_, hfirst, hfrom⟩
    rw [get?_insert, if_neg hr]
    exact hd

theorem coalesceItem_write (rev : Nat) (seen : Seen) (p : String) (k : TouchKind) :
    ∃ e, coalesceItem rev seen ⟨p, k, none⟩ = seen.insert p e ∧ e.2.path = p ∧ e.2.kind = k ∧
      (∀ d, seen.get? p = some d → e.1 = d.1 ∧ e.2.from_ = d.2.from_) ∧
      (seen.get? p = none → e.1 = k ∧ e.2.from_ = none) := by
  unfold coalesceItem takeOld
  dsimp only
  cases hseen : seen.get? p with
  | none => exact ⟨_, rfl, rfl, rfl, by simp, fun _ => ⟨rfl, rfl⟩⟩
  | some d =>
    refine ⟨_, rfl, rfl, rfl, ?_, by simp⟩
    intro d' hd'
    cases hd'
    exact ⟨rfl, rfl⟩

variable {before now next : Tree} {freed freed' : List String} {seen : Seen}

theorem Trail.write (h : Trail before now freed seen) (rev : Nat) {p : String} {k : TouchKind}
    (hothers : ∀ q, q ≠ p → next.get? q = now.get? q)
    (hafter : k = .deleted ↔ next.get? p = none) (hadd : k = .added ↔ now.get? p = none)
    (hfreed : ∀ q, q ≠ p → q ∈ freed → q ∈ freed') (hdeleted : k = .deleted → p ∈ freed') :
    Trail before next freed' (coalesceItem rev seen ⟨p, k, none⟩) := by
  obtain ⟨e, heq, hpath, hkind, hold, hnew⟩ := coalesceItem_write rev seen p k
  rw [heq]
  have hmoved : ∀ {q}, Moved seen q → Moved (seen.insert p e) q := fun hq =>
    hq.insert fun d hd _ => hold d hd
  have hget : ∀ q, (seen.insert p e).get? q = if q = p then some e else seen.get? q :=
    seen.get?_insert p e
  refine ⟨?_, ?_, ?_, ?_, ?_, ?_⟩
  · intro q d hd
    rw [hget] at hd
    split_ifs at hd with hq
    · rw [hq, ← Option.some.inj hd, hpath]
    · exact h.path q d hd
  · intro q d hd
    rw [hget] at hd
    split_ifs at hd with hq
    · rw [hq, ← Option.some.inj hd, hkind]
      exact hafter
    · rw [hothers q hq]
      exact h.deleted q d hd
  · intro q d hd hgone
    rw [hget] at hd
    split_ifs at hd with hq
    · rw [hq] at hgone ⊢
      exact hdeleted (hafter.mpr hgone)
    · rw [hothers q hq] at hgone
      exact hfreed q hq (h.freed q d hd hgone)
  · intro q x hd hx
    rw [hget] at hd
    split_ifs at hd with hq
    rw [hothers q hq] at hx
    exact h.still q x hd hx
  · intro q hd hgone
    rw [hget] at hd
    split_ifs at hd with hq
    rw [hothers q hq] at hgone
    exact (h.left q hd hgone).imp_right hmoved
  · intro q d hd hsettled
    rw [hget] at hd
    split_ifs at hd with hq
    · rw [hq]
      cases hd
      cases hseen : seen.get? p with
      | none =>
        obtain ⟨hfirst, hfrom⟩ := hnew hseen
        rcases hsettled with hadded | hcame
        · -- created where nothing stood: the path was free, or its document moved away
          rw [hfirst] at hadded
          exact (h.left p hseen (hadd.mp hadded)).imp_right hmoved
        · exact absurd hfrom hcame
      | some d =>
        obtain ⟨hfirst, hfrom⟩ := hold d hseen
        rw [hfirst, hfrom] at hsettled
        exact (h.settled p d hseen hsettled).imp_right hmoved
    · exact (h.settled q d hd hsettled).imp_right hmoved

theorem coalesceItem_move (rev : Nat) {seen : Seen} {o p : String}
    (hclear : p ≠ o → seen.get? p = none) :
    ∃ e, coalesceItem rev seen ⟨p, .renamed, some o⟩ = (seen.erase o).insert p e ∧ e.2.path = p ∧
      e.2.kind = .renamed ∧
      (∀ d, seen.get? o = some d → e.1 = d.1 ∧ e.2.from_ = d.2.from_.or (some o)) ∧
      (seen.get? o = none → e.1 = .renamed ∧ e.2.from_ = some o) := by
  have hfree : (seen.erase o).get? p = none := by
    rw [get?_erase]
    split_ifs with hp
    · rfl
    · exact hclear hp
  unfold coalesceItem takeOld
  dsimp only
  cases hseen : seen.get? o with
  | none =>
    have herase : seen.erase o = seen := by
      apply SortedMap.ext
      refine filter_eq_self.mpr fun d hd => ?_
      have hne : d.1 ≠ o := by
        intro heq
        have hsome := get?_eq_some.mpr hd
        rw [heq, hseen] at hsome
        simp at hsome
      simpa using hne
    rw [herase] at hfree ⊢
    simp only [hfree]
    exact ⟨_, rfl, rfl, rfl, by simp, fun _ => ⟨rfl, rfl⟩⟩
  | some d =>
    simp only [hfree]
    refine ⟨_, rfl, rfl, rfl, ?_, by simp⟩
    intro d' hd'
    cases hd'
    exact ⟨rfl, rfl⟩

theorem Trail.move (h : Trail before now freed seen) (rev : Nat) {o p : String}
    (hothers : ∀ q, q ≠ o → q ≠ p → next.get? q = now.get? q)
    (hsource : now.get? o ≠ none) (hleft : p ≠ o → next.get? o = none)
    (htarget : p ≠ o → now.get? p = none) (hlands : next.get? p ≠ none)
    (hclear : p ≠ o → p ∉ freed) (hfreed : ∀ q, q ≠ o → q ≠ p → q ∈ freed → q ∈ freed') :
    Trail before next freed' (coalesceItem rev seen ⟨p, .renamed, some o⟩) := by
  have hnoentry : p ≠ o → seen.get? p = none := by
    intro hp
    cases hseen : seen.get? p with
    | none => rfl
    | some d => exact absurd (h.freed p d hseen (htarget hp)) (hclear hp)
  obtain ⟨e, heq, hpath, hkind, hold, hnew⟩ := coalesceItem_move rev hnoentry
  rw [heq]
  have hget : ∀ q, ((seen.erase o).insert p e).get? q =
      if q = p then some e else if q = o then none else seen.get? q := by
    intro q
    rw [get?_insert, get?_erase]
  have hself : ((seen.erase o).insert p e).get? p = some e := by rw [hget, if_pos rfl]
  -- the entry of the source goes along and still names where its document came from
  have hmoved : ∀ {q}, Moved seen q → Moved ((seen.erase o).insert p e) q := by
    rintro q ⟨r, d, hd, hfirst, hfrom⟩
    by_cases hr : r = o
    · rw [hr] at hd
      obtain ⟨hfirst', hfrom'⟩ := hold d hd
      refine ⟨p, e, hself, by rw [hfirst']; exact hfirst, ?_⟩
      rw [hfrom', hfrom]
      rfl
    · have hrp : r ≠ p := by
        rintro rfl
        rw [hnoentry hr] at hd
        simp at hd
      refine ⟨r, d, ?_, hfirst, hfrom⟩
      rw [hget, if_neg hrp, if_neg hr]
      exact hd
  -- the source itself is accounted for: it is named now, or it was before
  have hsourceLeft : before.get? o = none ∨ Moved ((seen.erase o).insert p e) o := by
    cases hseen : seen.get? o with
    | none =>
      obtain ⟨hfirst, hfrom⟩ := hnew hseen
      exact .inr ⟨p, e, hself, by rw [hfirst]; decide, hfrom⟩
    | some d =>
      obtain ⟨hfirst, hfrom⟩ := hold d hseen
      by_cases hadded : d.1 = .added
      · exact (h.settled o d hseen (.inl hadded)).imp_right hmoved
      · cases hcame : d.2.from_ with
        | none =>
          rw [hcame] at hfrom
          exact .inr ⟨p, e, hself, by rw [hfirst]; exact hadded, hfrom⟩
        | some s =>
          have hset := h.settled o d hseen (.inr (by rw [hcame]; simp))
          exact hset.imp_right hmoved
  refine ⟨?_, ?_, ?_, ?_, ?_, ?_⟩
  · intro q d hd
    rw [hget] at hd
    split_ifs at hd with hq hqo
    · rw [hq, ← Option.some.inj hd, hpath]
    · exact h.path q d hd
  · intro q d hd
    rw [hget] at hd
    split_ifs at hd with hq hqo
    · rw [hq, ← Option.some.inj hd, hkind]
      exact ⟨fun hk => absurd hk (by decide), fun hgone => absurd hgone hlands⟩
    · rw [hothers q hqo hq]
      exact h.deleted q d hd
  · intro q d hd hgone
    rw [hget] at hd
    split_ifs at hd with hq hqo
    · rw [hq] at hgone
      exact absurd hgone hlands
    · rw [hothers q hqo hq] at hgone
      exact hfreed q hqo hq (h.freed q d hd hgone)
  · intro q x hd hx
    rw [hget] at hd
    split_ifs at hd with hq hqo
    · rw [hqo, hleft (by rintro rfl; exact hq hqo)] at hx
      simp at hx
    · rw [hothers q hqo hq] at hx
      exact h.still q x hd hx
  · intro q hd hgone
    rw [hget] at hd
    split_ifs at hd with hq hqo
    · rw [hqo]
      exact hsourceLeft
    · rw [hothers q hqo hq] at hgone
      exact (h.left q hd hgone).imp_right hmoved
  · intro q d hd hsettled
    rw [hget] at hd
    split_ifs at hd with hq hqo
    · rw [hq]
      by_cases hpo : p = o
      · rw [hpo] at hsourceLeft ⊢
        exact hsourceLeft
      · exact (h.left p (hnoentry hpo) (htarget hpo)).imp_right hmoved
    · exact (h.settled q d hd hsettled).imp_right hmoved

end

/-- The header lines of a file section agree with each other: a file that is neither new
nor deleted nor renamed stays where it is. -/
def PatchFile.Plain (f : PatchFile) : Prop :=
  (f.added = true → f.deleted = false ∧ f.renamed = false) ∧
    (f.added = false → f.deleted = false → f.renamed = false → f.newPath = f.oldPath)

instance (f : PatchFile) : Decidable f.Plain := inferInstanceAs (Decidable (_ ∧ _))

def PatchFile.moves (f : PatchFile) : Bool := f.renamed && !f.deleted

def freedBy (freed : List String) (f : PatchFile) : List String :=
  if f.deleted then f.oldPath :: freed else freed.filter (· ≠ f.newPath)

def Clear : List String → List PatchFile → Prop
  | _, [] => True
  | freed, f :: fs =>
    f.Plain ∧ (f.moves = true → f.newPath ∉ freed) ∧ Clear (freedBy freed f) fs

instance decidableClear : ∀ freed fs, Decidable (Clear freed fs)
  | _, [] => isTrue trivial
  | freed, f :: fs =>
    have := decidableClear (freedBy freed f) fs
    inferInstanceAs (Decidable (_ ∧ _ ∧ _))

section

variable {before now next : Tree} {freed : List String} {seen : Seen}

theorem passes {α : Type} {c : Prop} [Decidable c] {e : String} {f : PUnit → Except String α}
    {x : Except String α} {b : α} (h : (if c then (throw e >>= f) else x) = .ok b) : ¬c ∧ x = .ok b := by
  split_ifs at h with hc
  · exact absurd h (by simp [throw, throwThe, MonadExceptOf.throw, Bind.bind, Except.bind])
  · exact ⟨hc, h⟩

theorem applyFile_cases {f : PatchFile} (h : applyFile now f = .ok next) :
    (f.added = true ∧ now.get? f.newPath = none ∧ ∃ content, next = now.insert f.newPath content) ∨
    (f.added = false ∧ now.get? f.oldPath ≠ none ∧
      ((f.deleted = true ∧ next = now.erase f.oldPath) ∨
      (f.deleted = false ∧ (f.renamed = true → (now.erase f.oldPath).get? f.newPath = none) ∧
        ∃ content, next = (now.erase f.oldPath).insert f.newPath content))) := by
  unfold applyFile at h
  obtain ⟨-, h⟩ := passes h
  obtain ⟨-, h⟩ := passes h
  by_cases hadded : f.added = true
  · left
    rw [if_pos hadded] at h
    obtain ⟨hfree, h⟩ := passes h
    obtain ⟨content, -, h⟩ := bind_eq_ok.mp h
    exact ⟨hadded, by simpa using hfree, content, (pure_eq_ok.mp h).symm⟩
  · right
    rw [if_neg hadded] at h
    refine ⟨by simpa using hadded, ?_⟩
    cases hold : now.get? f.oldPath with
    | none =>
      rw [hold] at h
      exact absurd h (by simp [throw, throwThe, MonadExceptOf.throw])
    | some old =>
      rw [hold] at h
      dsimp only at h
      refine ⟨by simp, ?_⟩
      by_cases hdel : f.deleted = true
      · left
        rw [if_pos hdel] at h
        obtain ⟨left, -, h⟩ := bind_eq_ok.mp h
        exact ⟨hdel, (pure_eq_ok.mp (passes h).2).symm⟩
      · right
        rw [if_neg hdel] at h
        obtain ⟨hren, h⟩ := passes h
        obtain ⟨content, -, h⟩ := bind_eq_ok.mp h
        refine ⟨by simpa using hdel, ?_, content, (pure_eq_ok.mp h).symm⟩
        intro hr
        simpa [hr] using hren

theorem Trail.file (h : Trail before now freed seen) (rev : Nat) {f : PatchFile}
    (hf : applyFile now f = .ok next) (hplain : f.Plain) (hclear : f.moves = true → f.newPath ∉ freed) :
    Trail before next (freedBy freed f) (coalesceItem rev seen (wikiTouchOf f)) := by
  have hkept : f.deleted = false → ∀ q, q ≠ f.newPath → q ∈ freed → q ∈ freedBy freed f := by
    intro hdel q hq hmem
    simp only [freedBy, hdel]
    exact mem_filter.mpr ⟨hmem, by simpa using hq⟩
  rcases applyFile_cases hf with ⟨hadded, hfree, content, rfl⟩ | ⟨hadded, hthere, hcase⟩
  · obtain ⟨hdel, hren⟩ := hplain.1 hadded
    have htouch : wikiTouchOf f = ⟨f.newPath, .added, none⟩ := by
      simp [wikiTouchOf, PatchFile.displayPath, hadded, hdel, hren]
    rw [htouch]
    refine h.write rev ?_ ?_ ⟨fun _ => hfree, fun _ => rfl⟩ (hkept hdel) (fun hk => absurd hk (by decide))
    · intro q hq
      rw [get?_insert, if_neg hq]
    · rw [get?_insert, if_pos rfl]
      simp
  · rcases hcase with ⟨hdel, rfl⟩ | ⟨hdel, htarget, content, rfl⟩
    · have htouch : wikiTouchOf f = ⟨f.oldPath, .deleted, none⟩ := by
        simp [wikiTouchOf, PatchFile.displayPath, hdel]
      have hfreed : freedBy freed f = f.oldPath :: freed := by simp [freedBy, hdel]
      rw [htouch, hfreed]
      refine h.write rev ?_ ?_ ⟨fun hk => absurd hk (by decide), fun hgone => absurd hgone hthere⟩
        (fun q _ hq => .tail _ hq) (fun _ => .head _)
      · intro q hq
        rw [get?_erase, if_neg hq]
      · rw [get?_erase, if_pos rfl]
        simp
    · have hnext : ∀ q, ((now.erase f.oldPath).insert f.newPath content).get? q =
          if q = f.newPath then some content else if q = f.oldPath then none else now.get? q := by
        intro q
        rw [get?_insert, get?_erase]
      cases hren : f.renamed with
      | true =>
        have htouch : wikiTouchOf f = ⟨f.newPath, .renamed, some f.oldPath⟩ := by
          simp [wikiTouchOf, PatchFile.displayPath, hdel, hren]
        have hmoves : f.moves = true := by simp [PatchFile.moves, hdel, hren]
        rw [htouch]
        refine h.move rev ?_ hthere ?_ ?_ ?_ (fun _ => hclear hmoves) (fun q _ hq => hkept hdel q hq)
        · intro q hqo hqp
          rw [hnext, if_neg hqp, if_neg hqo]
        · intro hne
          rw [hnext, if_neg (Ne.symm hne), if_pos rfl]
        · intro hne
          have hgone := htarget hren
          rwa [get?_erase, if_neg hne] at hgone
        · rw [hnext, if_pos rfl]
          simp
      | false =>
        have hsame := hplain.2 hadded hdel hren
        have htouch : wikiTouchOf f = ⟨f.newPath, .modified, none⟩ := by
          simp [wikiTouchOf, PatchFile.displayPath, hdel, hren, hadded]
        rw [htouch]
        refine h.write rev ?_ ?_ ⟨fun hk => absurd hk (by decide), fun hgone => ?_⟩ (hkept hdel)
          (fun hk => absurd hk (by decide))
        · intro q hq
          rw [hnext, if_neg hq, if_neg (by rw [← hsame]; exact hq)]
        · rw [hnext, if_pos rfl]
          simp
        · rw [hsame] at hgone
          exact absurd hgone hthere

def freedAfter (freed : List String) (files : List PatchFile) : List String := files.foldl freedBy freed

theorem clear_append {files rest : List PatchFile} :
    Clear freed (files ++ rest) ↔ Clear freed files ∧ Clear (freedAfter freed files) rest := by
  induction files generalizing freed with
  | nil => simp [Clear, freedAfter]
  | cons f files ih =>
    simp [Clear, ih, freedAfter, and_assoc]

theorem Trail.files (h : Trail before now freed seen) (rev : Nat) {files : List PatchFile}
    (hfiles : files.foldlM applyFile now = .ok next) (hclear : Clear freed files) :
    Trail before next (freedAfter freed files) ((files.map wikiTouchOf).foldl (coalesceItem rev) seen) := by
  induction files generalizing now freed seen with
  | nil =>
    obtain rfl := pure_eq_ok.mp hfiles
    exact h
  | cons f files ih =>
    obtain ⟨mid, hmid, hrest⟩ := bind_eq_ok.mp hfiles
    obtain ⟨hplain, hlands, hclear⟩ := hclear
    exact ih (h.file rev hmid hplain hlands) hrest hclear

structure Revision where
  rev : Nat
  proposal : Option UInt64
  files : List PatchFile

def Revision.changes (r : Revision) : RevChanges := ⟨r.rev, r.proposal, r.files.map wikiTouchOf⟩

def replay (tree : Tree) (revisions : List Revision) : Except String Tree :=
  revisions.foldlM (fun t r => applyPatch t r.files) tree

theorem applyPatch_files {tree next : Tree} {files : List PatchFile} (h : applyPatch tree files = .ok next) :
    files.foldlM applyFile tree = .ok next := by
  unfold applyPatch at h
  split_ifs at h
  · exact absurd h (by simp [throw, throwThe, MonadExceptOf.throw, Bind.bind, Except.bind])
  · obtain ⟨-, -, hfiles⟩ := bind_eq_ok.mp h
    exact hfiles

theorem Trail.replay (h : Trail before now freed seen) {revisions : List Revision}
    (hreplay : replay now revisions = .ok next)
    (hclear : Clear freed (revisions.flatMap Revision.files)) :
    ∃ freed', Trail before next freed' ((revisions.map Revision.changes).foldl coalesceRev seen) := by
  induction revisions generalizing now freed seen with
  | nil =>
    obtain rfl := pure_eq_ok.mp hreplay
    exact ⟨freed, h⟩
  | cons r revisions ih =>
    unfold Wiki.replay at hreplay
    obtain ⟨mid, hmid, hrest⟩ := bind_eq_ok.mp hreplay
    rw [flatMap_cons, clear_append] at hclear
    exact ih (h.files r.rev (applyPatch_files hmid) hclear.1) hrest hclear.2

theorem complete_of_replay {revisions : List Revision} (hreplay : Wiki.replay before revisions = .ok now)
    (hclear : Clear [] (revisions.flatMap Revision.files)) :
    Complete before now
      (((revisions.map Revision.changes).foldl coalesceRev SortedMap.empty).values.filterMap report) := by
  obtain ⟨freed, htrail⟩ := (Trail.start before).replay hreplay hclear
  exact htrail.complete

end

end Molt.Wiki
