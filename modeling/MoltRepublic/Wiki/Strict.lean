import Mathlib
import MoltRepublic.Wiki.Edited

/-! What a strict patch leaves alone: its hunks against the page they rewrite, each section
against the two paths it names, and the whole patch against the rest of the tree. -/

namespace Molt.Wiki
open Molt.Core Text Json Check List SortedMap

def shownSide (ls : List HunkLine) : List String := (ls.filter fun l => l.op != '+').map lineElement

def writtenSide (ls : List HunkLine) : List String := (ls.filter fun l => l.op != '-').map lineElement

def Hunk.start (h : Hunk) : Nat := if h.oldCount = 0 then h.oldStart else h.oldStart - 1

/-- The hunk's old side stands in the page where its header says, behind `cursor`. -/
structure Hunk.Stands (old : List String) (cursor : Nat) (h : Hunk) : Prop where
  legal : ∀ l ∈ h.lines, l.op = ' ' ∨ l.op = '-' ∨ l.op = '+'
  numbered : h.oldCount ≠ 0 → h.oldStart ≠ 0
  forward : cursor ≤ h.start
  inside : h.start ≤ old.length
  counted : (shownSide h.lines).length = h.oldCount
  shown : (old.drop h.start).take h.oldCount = shownSide h.lines

def Matched (old : List String) : Nat → List Hunk → Prop
  | _, [] => True
  | cursor, h :: hs => h.Stands old cursor ∧ Matched old (h.start + h.oldCount) hs

def rebuilt (old : List String) : Nat → List Hunk → List String
  | cursor, [] => old.drop cursor
  | cursor, h :: hs => (old.drop cursor).take (h.start - cursor) ++ writtenSide h.lines ++
      rebuilt old (h.start + h.oldCount) hs

section

variable {old : List String}

theorem applyLine_shown {c d : HunkCursor} {l : HunkLine} (hop : l.op = ' ' ∨ l.op = '-')
    (h : applyLine old c l = .ok d) : old[c.cursor]? = some (lineElement l) ∧
      d = ⟨c.cursor + 1, c.consumed + 1, if l.op = ' ' then c.out ++ [lineElement l] else c.out⟩ := by
  unfold applyLine at h
  rw [if_pos (by simpa using hop)] at h
  split at h
  · simp at h
  · rename_i hat
    exact ⟨not_not.mp hat, (Except.ok.inj h).symm⟩

theorem applyLine_added {c d : HunkCursor} {l : HunkLine} (hop : ¬(l.op = ' ' ∨ l.op = '-'))
    (h : applyLine old c l = .ok d) : l.op = '+' ∧ d = { c with out := c.out ++ [lineElement l] } := by
  unfold applyLine at h
  rw [if_neg (by simpa using hop)] at h
  split_ifs at h with hat
  exact ⟨hat, (Except.ok.inj h).symm⟩

theorem applyLines_eq_ok {ls : List HunkLine} {c d : HunkCursor} (h : ls.foldlM (applyLine old) c = .ok d) :
    (∀ l ∈ ls, l.op = ' ' ∨ l.op = '-' ∨ l.op = '+') ∧
      (old.drop c.cursor).take (shownSide ls).length = shownSide ls ∧
      d = ⟨c.cursor + (shownSide ls).length, c.consumed + (shownSide ls).length, c.out ++ writtenSide ls⟩ := by
  induction ls generalizing c with
  | nil =>
    obtain rfl := foldlM_nil_eq_ok.mp h
    simp [shownSide, writtenSide]
  | cons l ls ih =>
    obtain ⟨m, hone, hall⟩ := foldlM_cons_eq_ok.mp h
    obtain ⟨hlegal, hshown, hd⟩ := ih hall
    by_cases hop : l.op = ' ' ∨ l.op = '-'
    · obtain ⟨hat, rfl⟩ := applyLine_shown hop hone
      obtain ⟨hk, hget⟩ := List.getElem?_eq_some_iff.mp hat
      have hnot : l.op ≠ '+' := by rcases hop with hop | hop <;> rw [hop] <;> decide
      have hside : shownSide (l :: ls) = lineElement l :: shownSide ls := by
        simp [shownSide, hnot]
      refine ⟨?_, ?_, ?_⟩
      · exact forall_mem_cons.mpr ⟨hop.imp_right .inl, hlegal⟩
      · rw [hside, length_cons, drop_eq_getElem_cons hk, take_succ_cons, hshown, hget]
      · have hwritten : (if l.op = ' ' then c.out ++ [lineElement l] else c.out) ++ writtenSide ls =
            c.out ++ writtenSide (l :: ls) := by
          rcases hop with hop | hop <;> simp [writtenSide, hop]
        rw [hd, hside, length_cons, HunkCursor.mk.injEq]
        exact ⟨by dsimp only; omega, by dsimp only; omega, hwritten⟩
    · obtain ⟨hplus, rfl⟩ := applyLine_added hop hone
      have hside : shownSide (l :: ls) = shownSide ls := by simp [shownSide, hplus]
      refine ⟨?_, ?_, ?_⟩
      · exact forall_mem_cons.mpr ⟨.inr (.inr hplus), hlegal⟩
      · rw [hside]
        exact hshown
      · rw [hd, hside]
        simp [writtenSide, hplus]

theorem applyHunk_eq_ok {cursor cursor' : Nat} {out out' : List String} {h : Hunk}
    (hok : applyHunk old (cursor, out) h = .ok (cursor', out')) : h.Stands old cursor ∧
      cursor' = h.start + h.oldCount ∧
      out' = out ++ (old.drop cursor).take (h.start - cursor) ++ writtenSide h.lines := by
  unfold applyHunk at hok
  dsimp only at hok
  obtain ⟨hnum, hok⟩ := passes hok
  obtain ⟨hback, hok⟩ := passes hok
  obtain ⟨hbeyond, hok⟩ := passes hok
  obtain ⟨c, hlines, hok⟩ := bind_eq_ok.mp hok
  obtain ⟨hcount, hok⟩ := passes hok
  obtain ⟨hlegal, hshown, rfl⟩ := applyLines_eq_ok hlines
  dsimp only at hok hcount hshown
  rw [Nat.zero_add, not_not] at hcount
  obtain ⟨rfl, rfl⟩ := Prod.mk.inj (pure_eq_ok.mp hok)
  refine ⟨⟨hlegal, fun hne hz => hnum ⟨hne, hz⟩, Nat.not_lt.mp hback, Nat.not_lt.mp hbeyond, hcount, ?_⟩, ?_, rfl⟩
  · rw [← hcount]
    exact hshown
  · rw [hcount]
    rfl

theorem applyHunks_from {hunks : List Hunk} {cursor cursor' : Nat} {out out' : List String}
    (h : hunks.foldlM (applyHunk old) (cursor, out) = .ok (cursor', out')) :
    Matched old cursor hunks ∧ out' ++ old.drop cursor' = out ++ rebuilt old cursor hunks := by
  induction hunks generalizing cursor out with
  | nil =>
    cases foldlM_nil_eq_ok.mp h
    exact ⟨trivial, rfl⟩
  | cons k hunks ih =>
    obtain ⟨⟨c, o⟩, hone, hall⟩ := foldlM_cons_eq_ok.mp h
    obtain ⟨hstands, rfl, rfl⟩ := applyHunk_eq_ok hone
    obtain ⟨hmatched, hout⟩ := ih hall
    refine ⟨⟨hstands, hmatched⟩, ?_⟩
    rw [hout]
    simp [rebuilt]

theorem applyHunks_eq_ok {content next : String} {hunks : List Hunk} (h : applyHunks content hunks = .ok next) :
    Matched (toElements content) 0 hunks ∧ next = String.join (rebuilt (toElements content) 0 hunks) := by
  obtain ⟨⟨c, out⟩, hfold, h⟩ := bind_eq_ok.mp h
  obtain ⟨hmatched, hout⟩ := applyHunks_from hfold
  refine ⟨hmatched, ?_⟩
  rw [← pure_eq_ok.mp h, hout, nil_append]

end

namespace PatchFile

variable {f : PatchFile} {work work' next : Tree}

inductive Effect where
  | create (content : String)
  | drop
  | write (content : String)

def plan (f : PatchFile) (old new : Option String) : Except String Effect := do
  if !validPath f.newPath && !f.deleted then throw s!"invalid path: {f.newPath}"
  if !validPath f.oldPath then throw s!"invalid path: {f.oldPath}"
  if f.added then
    if new.isSome then throw s!"already exists: {f.newPath}"
    let content ← applyHunks "" f.hunks
    return .create content
  match old with
  | none => throw s!"missing: {f.oldPath}"
  | some old =>
    if f.deleted then
      let left ← applyHunks old f.hunks
      if left ≠ "" then throw s!"deletion leaves content: {f.oldPath}"
      return .drop
    if f.renamed && (f.newPath ≠ f.oldPath && new.isSome) then throw s!"rename target exists: {f.newPath}"
    let content ← applyHunks old f.hunks
    return .write content

def perform (f : PatchFile) (work : Tree) : Effect → Tree
  | .create content => work.insert f.newPath content
  | .drop => work.erase f.oldPath
  | .write content => (work.erase f.oldPath).insert f.newPath content

def Names (f : PatchFile) (p : String) : Prop := p ≠ "" ∧ (p = f.oldPath ∨ p = f.newPath)

theorem applyFile_eq_plan (work : Tree) (f : PatchFile) :
    applyFile work f = (f.plan (work.get? f.oldPath) (work.get? f.newPath)).map (f.perform work) := by
  unfold applyFile plan
  dsimp only
  split
  · rfl
  split
  · rfl
  split
  · split
    · rfl
    · cases applyHunks "" f.hunks <;> rfl
  cases hold : work.get? f.oldPath with
  | none => rfl
  | some old =>
    dsimp only
    split
    · cases happlied : applyHunks old f.hunks with
      | error e => rfl
      | ok left =>
        by_cases hleft : left = ""
        · subst hleft
          rfl
        · simp only [Bind.bind, Except.bind, if_pos hleft, ne_eq]
          rfl
    · have htaken : ((work.erase f.oldPath).get? f.newPath).isSome =
          (decide (f.newPath ≠ f.oldPath) && (work.get? f.newPath).isSome) := by
        rw [get?_erase]
        split_ifs with h <;> simp [h]
      rw [htaken]
      split
      · rfl
      · cases applyHunks old f.hunks <;> rfl

inductive Accepted (f : PatchFile) (new : Option String) : Option String → Effect → Prop where
  | create {old : Option String} {content : String} (hadded : f.added = true) (hfree : new = none)
      (hhunks : applyHunks "" f.hunks = .ok content) : Accepted f new old (.create content)
  | drop {old : String} (hadded : f.added = false) (hdeleted : f.deleted = true)
      (hhunks : applyHunks old f.hunks = .ok "") : Accepted f new (some old) .drop
  | write {old content : String} (hadded : f.added = false) (hdeleted : f.deleted = false)
      (hfree : f.renamed = true → f.newPath ≠ f.oldPath → new = none)
      (hhunks : applyHunks old f.hunks = .ok content) : Accepted f new (some old) (.write content)

theorem plan_eq_ok {old new : Option String} {e : Effect} (h : f.plan old new = .ok e) :
    (f.deleted = false → validPath f.newPath = true) ∧ validPath f.oldPath = true ∧ f.Accepted new old e := by
  unfold plan at h
  obtain ⟨hnew, h⟩ := passes h
  obtain ⟨hold, h⟩ := passes h
  refine ⟨fun hdel => by simpa [hdel] using hnew, by simpa using hold, ?_⟩
  by_cases hadded : f.added = true
  · rw [if_pos hadded] at h
    obtain ⟨hfree, h⟩ := passes h
    obtain ⟨content, hhunks, h⟩ := bind_eq_ok.mp h
    obtain rfl := pure_eq_ok.mp h
    exact .create hadded (by simpa using hfree) hhunks
  rw [if_neg hadded] at h
  cases old with
  | none => exact absurd h (by simp [throw, throwThe, MonadExceptOf.throw])
  | some page =>
    dsimp only at h
    by_cases hdel : f.deleted = true
    · rw [if_pos hdel] at h
      obtain ⟨left, hhunks, h⟩ := bind_eq_ok.mp h
      obtain ⟨hleft, h⟩ := passes h
      obtain rfl := pure_eq_ok.mp h
      obtain rfl := not_not.mp hleft
      exact .drop (by simpa using hadded) hdel hhunks
    · rw [if_neg hdel] at h
      obtain ⟨hfree, h⟩ := passes h
      obtain ⟨content, hhunks, h⟩ := bind_eq_ok.mp h
      obtain rfl := pure_eq_ok.mp h
      refine .write (by simpa using hadded) (by simpa using hdel) (fun hren hne => ?_) hhunks
      simpa [hren, hne] using hfree

theorem applyFile_eq_ok (h : applyFile work f = .ok next) :
    ∃ e, f.plan (work.get? f.oldPath) (work.get? f.newPath) = .ok e ∧ next = f.perform work e := by
  rw [applyFile_eq_plan] at h
  obtain ⟨e, he, rfl⟩ := map_eq_ok.mp h
  exact ⟨e, he, rfl⟩

theorem get?_perform_of_ne {e : Effect} {p : String} (hold : p ≠ f.oldPath) (hnew : p ≠ f.newPath) :
    (f.perform work e).get? p = work.get? p := by
  cases e with
  | create content => rw [perform, get?_insert, if_neg hnew]
  | drop => rw [perform, get?_erase, if_neg hold]
  | write content => rw [perform, get?_insert, if_neg hnew, get?_erase, if_neg hold]

theorem applyFile_empty {content : String} (h : applyFile work f = .ok next)
    (hat : work.get? "" = some content) : next.get? "" = some content := by
  obtain ⟨e, he, rfl⟩ := applyFile_eq_ok h
  obtain ⟨hnew, hold, hacc⟩ := plan_eq_ok he
  have hold := (validPath_ne_empty hold).symm
  generalize work.get? f.oldPath = page at hacc
  cases hacc with
  | create hadded hfree hhunks =>
    rw [perform, get?_insert, if_neg, hat]
    intro hempty
    rw [← hempty, hat] at hfree
    exact absurd hfree (by simp)
  | drop hadded hdeleted hhunks => rw [perform, get?_erase, if_neg hold, hat]
  | write hadded hdeleted hfree hhunks =>
    rw [get?_perform_of_ne hold (validPath_ne_empty (hnew hdeleted)).symm, hat]

theorem applyFile_unnamed {p : String} (hp : p ≠ "") (hnamed : ¬f.Names p) (h : applyFile work f = .ok next) :
    next.get? p = work.get? p := by
  obtain ⟨e, he, rfl⟩ := applyFile_eq_ok h
  exact get?_perform_of_ne (fun heq => hnamed ⟨hp, .inl heq⟩) (fun heq => hnamed ⟨hp, .inr heq⟩)

end PatchFile

def Voices (files : List PatchFile) : Prop := files.Pairwise fun f g => ∀ p, f.Names p → ¬g.Names p

section

variable {touched t : List String}

theorem touch_names {p : String} (h : touch touched p = .ok t) :
    (p ≠ "" → p ∉ touched) ∧ ∀ q, q ∈ touched ∨ (q ≠ "" ∧ q = p) → q ∈ t := by
  unfold touch at h
  split_ifs at h with hp hmem
  · cases h
    exact ⟨absurd hp, fun q hq => hq.elim id fun hq => absurd (hq.2.trans hp) hq.1⟩
  · cases h
    refine ⟨fun _ hin => hmem (contains_iff_mem.mpr hin), fun q hq => ?_⟩
    exact hq.elim (mem_cons_of_mem _) fun hq => hq.2 ▸ mem_cons_self ..

theorem touchFile_names {f : PatchFile} (h : touchFile touched f = .ok t) :
    ∀ q, (f.Names q → q ∉ touched) ∧ (q ∈ touched ∨ f.Names q → q ∈ t) := by
  obtain ⟨r, hold, h⟩ := bind_eq_ok.mp h
  obtain ⟨hfresh, hkept⟩ := touch_names hold
  intro q
  by_cases hsame : f.newPath = f.oldPath
  · rw [if_pos hsame] at h
    obtain rfl := pure_eq_ok.mp h
    refine ⟨fun hq => ?_, fun hq => hkept q (hq.imp_right fun hq => ⟨hq.1, ?_⟩)⟩
    · obtain rfl : q = f.oldPath := hq.2.elim id fun heq => heq.trans hsame
      exact hfresh hq.1
    · exact hq.2.elim id fun heq => heq.trans hsame
  · rw [if_neg hsame] at h
    obtain ⟨hfresh', hkept'⟩ := touch_names h
    refine ⟨fun hq hin => ?_, fun hq => hkept' q ?_⟩
    · rcases hq.2 with rfl | rfl
      · exact hfresh hq.1 hin
      · exact hfresh' hq.1 (hkept _ (.inl hin))
    · rcases hq with hq | ⟨hne, rfl | rfl⟩
      · exact .inl (hkept q (.inl hq))
      · exact .inl (hkept _ (.inr ⟨hne, rfl⟩))
      · exact .inr ⟨hne, rfl⟩

theorem touchFiles_voices {files : List PatchFile} (h : files.foldlM touchFile touched = .ok t) :
    Voices files ∧ ∀ f ∈ files, ∀ q, f.Names q → q ∉ touched := by
  induction files generalizing touched with
  | nil => exact ⟨List.Pairwise.nil, fun f hf => absurd hf not_mem_nil⟩
  | cons f files ih =>
    obtain ⟨r, hone, hall⟩ := foldlM_cons_eq_ok.mp h
    obtain ⟨hvoices, hfresh⟩ := ih hall
    have hf := touchFile_names hone
    refine ⟨pairwise_cons.mpr ⟨fun g hg p hp hgp => hfresh g hg p hgp ((hf p).2 (.inr hp)), hvoices⟩, ?_⟩
    intro g hg q hq hin
    rcases mem_cons.mp hg with rfl | hg
    · exact (hf q).1 hq hin
    · exact hfresh g hg q hq ((hf q).2 (.inl hin))

end

section

variable {files before after : List PatchFile} {f : PatchFile} {tree work next : Tree} {p : String}

theorem applyFiles_empty {content : String} (h : files.foldlM applyFile work = .ok next)
    (hat : work.get? "" = some content) : next.get? "" = some content :=
  foldlM_invariant (P := fun T : Tree => T.get? "" = some content)
    (fun _ _ _ _ hs hstep => PatchFile.applyFile_empty hstep hs) hat h

theorem applyFiles_unnamed (hp : p ≠ "") (hnamed : ∀ f ∈ files, ¬f.Names p)
    (h : files.foldlM applyFile work = .ok next) : next.get? p = work.get? p :=
  foldlM_invariant (P := fun T : Tree => T.get? p = work.get? p)
    (fun _ _ _ hf hs hstep => (PatchFile.applyFile_unnamed hp (hnamed _ hf) hstep).trans hs) rfl h

theorem applyPatch_parts (h : applyPatch tree files = .ok next) :
    Voices files ∧ files.foldlM applyFile tree = .ok next := by
  obtain ⟨-, h⟩ := passes h
  obtain ⟨t, htouch, h⟩ := bind_eq_ok.mp h
  exact ⟨(touchFiles_voices htouch).1, h⟩

theorem applyFiles_at (hvoices : Voices (before ++ f :: after))
    (h : (before ++ f :: after).foldlM applyFile tree = .ok next) :
    ∃ w w', applyFile w f = .ok w' ∧ before.foldlM applyFile tree = .ok w ∧
      after.foldlM applyFile w' = .ok next ∧
      (∀ q, f.Names q → w.get? q = tree.get? q) ∧ ∀ q, f.Names q → next.get? q = w'.get? q := by
  obtain ⟨w, hbefore, h⟩ := foldlM_append_eq_ok.mp h
  obtain ⟨w', hone, hafter⟩ := foldlM_cons_eq_ok.mp h
  obtain ⟨-, hrest, hcross⟩ := pairwise_append.mp hvoices
  have hrest := (pairwise_cons.mp hrest).1
  refine ⟨w, w', hone, hbefore, hafter, fun q hq => ?_, fun q hq => ?_⟩
  · exact applyFiles_unnamed hq.1 (fun g hg hgq => hcross g hg f (.head _) q hgq hq) hbefore
  · exact applyFiles_unnamed hq.1 (fun g hg hgq => hrest g hg q hq hgq) hafter

end

/-- The section rewrote, moved or dropped the page that held `content`, every line it shows matched
against it. -/
structure Accounts (next : Tree) (content : String) (f : PatchFile) : Prop where
  matched : Matched (toElements content) 0 f.hunks
  dropped : f.deleted = true → String.join (rebuilt (toElements content) 0 f.hunks) = ""
  written : f.deleted = false →
    next.get? f.newPath = some (String.join (rebuilt (toElements content) 0 f.hunks))

structure Harmless (tree : Tree) (files : List PatchFile) (next : Tree) : Prop where
  kept : ∀ p content, tree.get? p = some content → (∀ f ∈ files, f.added = false → f.oldPath ≠ p) →
    next.get? p = some content
  accounted : ∀ p content, tree.get? p = some content → next.get? p ≠ some content →
    ∃ f ∈ files, f.added = false ∧ f.oldPath = p ∧ Accounts next content f

def PatchFile.Strays (f : PatchFile) : Prop :=
  f.added = false ∧ f.deleted = false ∧ f.renamed = false ∧ f.newPath ≠ f.oldPath

variable {files : List PatchFile} {f : PatchFile}

theorem valid_of_mem {tree next : Tree} (h : applyPatch tree files = .ok next) (hf : f ∈ files) :
    (f.deleted = false → validPath f.newPath = true) ∧ validPath f.oldPath = true := by
  obtain ⟨hvoices, hfold⟩ := applyPatch_parts h
  obtain ⟨before, after, rfl⟩ := append_of_mem hf
  obtain ⟨w, w', hone, -⟩ := applyFiles_at hvoices hfold
  obtain ⟨e, he, -⟩ := PatchFile.applyFile_eq_ok hone
  obtain ⟨hnew, hold, -⟩ := PatchFile.plan_eq_ok he
  exact ⟨hnew, hold⟩

theorem Voices.unique (h : Voices files) {g : PatchFile} (hf : f ∈ files) (hg : g ∈ files) {p : String}
    (hfp : f.Names p) (hgp : g.Names p) : f = g := by
  by_contra hne
  have : Std.Symm fun f g : PatchFile => ∀ p, f.Names p → ¬g.Names p := ⟨fun _ _ hfg p hg hf => hfg p hf hg⟩
  exact h.forall hf hg hne p hfp hgp

theorem accounts_of_mem {tree next : Tree} (h : applyPatch tree files = .ok next) (hf : f ∈ files)
    (hadded : f.added = false) {content : String} (hat : tree.get? f.oldPath = some content) :
    Accounts next content f := by
  obtain ⟨hvoices, hfold⟩ := applyPatch_parts h
  obtain ⟨before, after, rfl⟩ := append_of_mem hf
  obtain ⟨w, w', hone, -, -, hw, hw'⟩ := applyFiles_at hvoices hfold
  obtain ⟨e, he, rfl⟩ := PatchFile.applyFile_eq_ok hone
  obtain ⟨hnew, hold, hacc⟩ := PatchFile.plan_eq_ok he
  rw [hw _ ⟨validPath_ne_empty hold, .inl rfl⟩, hat] at hacc
  cases hacc with
  | create hadded' hfree hhunks => exact absurd hadded' (by simp [hadded])
  | drop hadded hdeleted hhunks =>
    obtain ⟨hmatched, hleft⟩ := applyHunks_eq_ok hhunks
    exact ⟨hmatched, fun _ => hleft.symm, fun hdel => absurd hdel (by simp [hdeleted])⟩
  | write hadded hdeleted hfree hhunks =>
    obtain ⟨hmatched, rfl⟩ := applyHunks_eq_ok hhunks
    refine ⟨hmatched, fun hdel => absurd hdel (by simp [hdeleted]), fun hdel => ?_⟩
    rw [hw' _ ⟨validPath_ne_empty (hnew hdel), .inr rfl⟩, PatchFile.perform, get?_insert, if_pos rfl]

theorem kept_of_unnamed {tree next : Tree} (h : applyPatch tree files = .ok next) {p content : String}
    (hat : tree.get? p = some content) (hold : ∀ f ∈ files, f.added = false → f.oldPath ≠ p)
    (hstray : ∀ f ∈ files, f.Strays → f.newPath = p → ∀ old, tree.get? f.oldPath = some old → String.join (rebuilt (toElements old) 0 f.hunks) = content) :
    next.get? p = some content := by
  obtain ⟨hvoices, hfold⟩ := applyPatch_parts h
  by_cases hp : p = ""
  · subst hp
    exact applyFiles_empty hfold hat
  by_cases hnamed : ∃ f ∈ files, f.Names p
  swap
  · rw [applyFiles_unnamed hp (fun f hf hn => hnamed ⟨f, hf, hn⟩) hfold, hat]
  obtain ⟨f, hf, hn⟩ := hnamed
  have hnotold := hold f hf
  have hstrays := hstray f hf
  obtain ⟨before, after, rfl⟩ := append_of_mem hf
  obtain ⟨w, w', hone, -, -, hw, hw'⟩ := applyFiles_at hvoices hfold
  rw [hw' p hn]
  obtain ⟨e, he, rfl⟩ := PatchFile.applyFile_eq_ok hone
  obtain ⟨hnew, hvalid, hacc⟩ := PatchFile.plan_eq_ok he
  have hpage := hw _ ⟨validPath_ne_empty hvalid, .inl rfl⟩
  generalize hpage' : w.get? f.oldPath = page at hacc
  cases hacc with
  | create hadded hfree hhunks =>
    have hne : p ≠ f.newPath := by
      rintro rfl
      rw [hw _ hn, hat] at hfree
      simp at hfree
    rw [PatchFile.perform, get?_insert, if_neg hne, hw p hn, hat]
  | drop hadded hdeleted hhunks =>
    rw [PatchFile.perform, get?_erase, if_neg (hnotold hadded).symm, hw p hn, hat]
  | write hadded hdeleted hfree hhunks =>
    have hnewp : p = f.newPath := hn.2.resolve_left (hnotold hadded).symm
    have hne : f.newPath ≠ f.oldPath := hnewp ▸ (hnotold hadded).symm
    have hrenamed : f.renamed = false := by
      by_contra hren
      have hfree := hfree (by simpa using hren) hne
      rw [← hnewp, hw p hn, hat] at hfree
      simp at hfree
    have hsame := hstrays ⟨hadded, hdeleted, hrenamed, hne⟩ hnewp.symm _ (hpage.symm.trans hpage')
    obtain ⟨-, rfl⟩ := applyHunks_eq_ok hhunks
    rw [PatchFile.perform, get?_insert, if_pos hnewp, hsame]

/-- An accepted patch destroys nothing but what it names as an old side, exactly when no section
that names two paths without a rename meets another text at its new path. -/
theorem applyPatch_harmless {tree next : Tree} {files : List PatchFile} (h : applyPatch tree files = .ok next) :
    Harmless tree files next ↔ ∀ f ∈ files, f.Strays → ∀ old taken, tree.get? f.oldPath = some old →
      tree.get? f.newPath = some taken → String.join (rebuilt (toElements old) 0 f.hunks) = taken := by
  constructor
  · intro hharmless f hf hstray old taken hold htaken
    have haccounts := accounts_of_mem h hf hstray.1 hold
    obtain ⟨hvoices, hfold⟩ := applyPatch_parts h
    have hkept : next.get? f.newPath = some taken := by
      refine hharmless.kept _ _ htaken fun g hg hgadded hgold => ?_
      have hne := validPath_ne_empty ((valid_of_mem h hf).1 hstray.2.1)
      obtain rfl := hvoices.unique hf hg ⟨hne, .inr rfl⟩ ⟨hne, .inl hgold.symm⟩
      exact hstray.2.2.2 hgold.symm
    exact Option.some.inj ((haccounts.written hstray.2.1).symm.trans hkept)
  · intro hcond
    have hkept : ∀ p content, tree.get? p = some content → (∀ f ∈ files, f.added = false → f.oldPath ≠ p) →
        next.get? p = some content := by
      intro p content hat hold
      refine kept_of_unnamed h hat hold fun f hf hstray hnew old hpage => ?_
      exact hcond f hf hstray old content hpage (hnew ▸ hat)
    refine ⟨hkept, fun p content hat hchanged => ?_⟩
    by_contra hnone
    refine hchanged (hkept p content hat fun f hf hadded hp => hnone ⟨f, hf, hadded, hp, ?_⟩)
    exact accounts_of_mem h hf hadded (hp ▸ hat)

/-- A page is edited in place beside another one. -/
theorem applyPatch_harmless_edit :
    let tree : Tree := (SortedMap.empty.insert "x" "a\n").insert "y" "b\n"
    let files := parsePatch "diff --git a/x b/x\n@@ -1 +1 @@\n-a\n+c\n"
    ∃ next, applyPatch tree files = .ok next ∧ Harmless tree files next := by
  intro tree files
  have hrun : applyPatch tree files = .ok ((SortedMap.empty.insert "x" "c\n").insert "y" "b\n") := by
    decide +kernel
  refine ⟨_, hrun, (applyPatch_harmless hrun).mpr fun f hf hstray => ?_⟩
  have hplain : ∀ f ∈ files, f.newPath = f.oldPath := by decide +kernel
  exact absurd (hplain f hf) hstray.2.2.2

/-- A section with two paths and no rename lines writes over the page at the second one. -/
theorem unnamed_page_overwritten :
    let tree : Tree := (SortedMap.empty.insert "x" "a\n").insert "y" "b\n"
    let files := parsePatch "diff --git a/x b/y\n"
    ∃ next, applyPatch tree files = .ok next ∧ next.get? "y" = some "a\n" ∧ ¬Harmless tree files next := by
  intro tree files
  have hrun : applyPatch tree files = .ok (SortedMap.empty.insert "y" "a\n") := by decide +kernel
  refine ⟨_, hrun, by decide +kernel, fun hharmless => ?_⟩
  have hkept := hharmless.kept "y" "b\n" (by decide +kernel) (by decide +kernel)
  exact absurd hkept (by decide +kernel)

def PatchFile.Proper (f : PatchFile) : Prop := f.added = true → f.newPath ≠ ""

instance (f : PatchFile) : Decidable f.Proper := inferInstanceAs (Decidable (_ → _))

section

open EditDesk

variable {tree part whole : Tree} {touched : List String} {f : PatchFile}

theorem EditDesk.Mirrors.perform (h : Mirrors tree touched part whole) (hproper : f.Proper)
    (hnamed : ∀ p, f.Names p → p ∈ touched) {old new : Option String} {e : PatchFile.Effect}
    (he : f.plan old new = .ok e) : Mirrors tree touched (f.perform part e) (f.perform whole e) := by
  obtain ⟨hnew, hold, hacc⟩ := PatchFile.plan_eq_ok he
  have hold := hnamed _ ⟨validPath_ne_empty hold, .inl rfl⟩
  cases hacc with
  | create hadded hfree hhunks => exact h.insert (hnamed _ ⟨hproper hadded, .inr rfl⟩) _
  | drop hadded hdeleted hhunks => exact h.erase hold
  | write hadded hdeleted hfree hhunks =>
    exact (h.erase hold).insert (hnamed _ ⟨validPath_ne_empty (hnew hdeleted), .inr rfl⟩) _

variable {files : List PatchFile}

theorem mem_touchedPaths {p : String} :
    p ∈ touchedPaths files ↔ ∃ f ∈ files, f.Names p := by
  unfold touchedPaths PatchFile.Names
  simp only [mem_flatMap, mem_filter, mem_cons, not_mem_nil, or_false, decide_eq_true_eq]
  exact exists_congr fun f => and_congr_right fun _ => and_comm

end

end Molt.Wiki
