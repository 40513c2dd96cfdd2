import Mathlib
import MoltRepublic.Wiki.Fold

/-! The links of a document that name a path, written again onto another path
(`graph::rewrite_link_target`). The markdown parse is a parameter; positions count characters. -/

namespace Molt.Wiki
open Text List Option

/-- `str::find`. -/
def findChars (pat : List Char) : List Char → Option Nat
  | [] => if pat.isEmpty then some 0 else none
  | c :: cs => if (stripPrefixChars pat (c :: cs)).isSome then some 0 else (findChars pat cs).map (· + 1)

/-- `str::rfind`. -/
def rfindChars (pat : List Char) : List Char → Option Nat
  | [] => if pat.isEmpty then some 0 else none
  | c :: cs =>
    match rfindChars pat cs with
    | some i => some (i + 1)
    | none => if (stripPrefixChars pat (c :: cs)).isSome then some 0 else none

/-- `str::split_once` at a text. -/
def splitOnceAt (pat cs : List Char) : Option (List Char × List Char) :=
  (findChars pat cs).map fun i => (cs.take i, cs.drop (i + pat.length))

/-- `front_matter::key_ok`. -/
def keyOk (key : String) : Bool :=
  !key.isEmpty && (utf8 key).length ≤ 64 &&
    (key.toList.head?.any fun c => c.isAlpha || c = '_') &&
    key.toList.all fun c => c.isAlphanum || c = '_' || c = '-'

structure LinkParts where
  predicate : Option String
  name : String
  display : Option String
  deriving DecidableEq

/-- `graph::link_parts`: the predicate, the name and the shown text inside `[[…]]`. -/
def linkParts (inner : List Char) : LinkParts :=
  let split := (splitOnceAt ['\\', '|'] inner).or (splitOnceAt ['|'] inner)
  let left := trim (String.ofList ((split.map Prod.fst).getD inner))
  let display := (split.map fun s => trim (String.ofList s.2)).filter fun d => !d.isEmpty
  match splitOnceAt [':', ':'] left.toList with
  | some (pred, name) =>
    if keyOk (trim (String.ofList pred)) && !(trim (String.ofList name)).isEmpty then
      ⟨some (trim (String.ofList pred)), trim (String.ofList name), display⟩
    else ⟨none, left, display⟩
  | none => ⟨none, left, display⟩

abbrev Span := Nat × Nat

def slice (cs : List Char) (span : Span) : List Char := (cs.drop span.1).take (span.2 - span.1)

structure Marks where
  dests : List (Span × String)
  code : List Span

abbrev Scanner := String → Marks

def masked (code : List Span) (i : Nat) : Bool := code.any fun s => s.1 ≤ i && i < s.2

/-- `i` is the position of the text read; `skip` characters of it lie in the last link. -/
def bracketSpansFrom (code : List Span) : List Char → Nat → Nat → List Span
  | [], _, _ => []
  | _ :: cs, i, skip + 1 => bracketSpansFrom code cs (i + 1) skip
  | c :: cs, i, 0 =>
    match (if masked code i then none else stripPrefixChars ['[', '['] (c :: cs)).bind (findChars [']', ']']) with
    | some stop => (i + 2, i + 2 + stop) :: bracketSpansFrom code cs (i + 1) (stop + 3)
    | none => bracketSpansFrom code cs (i + 1) 0

/-- `graph::bracket_spans`: the inside of every `[[…]]`, code masked out. -/
def bracketSpans (markdown : List Char) (code : List Span) : List Span := bracketSpansFrom code markdown 0 0

/-- Where the links that name `target` write it. -/
def targetSpans (marks : Marks) (markdown target : List Char) : List Span :=
  (marks.dests.filterMap fun d =>
    if d.2.toList = target then
      (rfindChars target (slice markdown d.1)).map fun i => (d.1.1 + i, d.1.1 + i + target.length)
    else none) ++
  (bracketSpans markdown marks.code).filterMap fun s =>
    if (linkParts (slice markdown s)).name.toList = target then
      (findChars target (slice markdown s)).map fun i => (s.1 + i, s.1 + i + target.length)
    else none

/-- The text from `start` on, with `to_` in place of each span; of overlapping spans the first
one wins. -/
def splice (to_ : List Char) : List Span → Nat → List Char → List Char
  | [], _, rest => rest
  | s :: spans, start, rest =>
    if s.1 < start then splice to_ spans start rest
    else rest.take (s.1 - start) ++ (to_ ++ splice to_ spans s.2 (rest.drop (s.2 - start)))

def rewriteLinkTarget (scan : Scanner) (markdown from_ to_ : String) : Option String :=
  if (findChars from_.toList markdown.toList).isNone then none
  else
    let spans := targetSpans (scan markdown) markdown.toList from_.toList
    if spans.isEmpty then none
    else
      let sorted := (spans.mergeSort fun a b => a.1 ≤ b.1).destutter (· ≠ ·)
      some (String.ofList (splice to_.toList sorted 0 markdown.toList))

/-- A link of the document that names `target` writes it at `i`. -/
def IsLinkTarget (marks : Marks) (markdown target : List Char) (i : Nat) : Prop :=
  ∃ span : Span, ((∃ dest, (span, dest) ∈ marks.dests ∧ dest.toList = target) ∨
    (span ∈ bracketSpans markdown marks.code ∧ (linkParts (slice markdown span)).name.toList = target)) ∧
    ∃ a, i = span.1 + a ∧ a + target.length ≤ (slice markdown span).length

/-- The second text is the first one with `to_` in place of `target` at some of the places; both
begin at position `i`. -/
inductive Retargeted (place : Nat → Prop) (target to_ : List Char) : Nat → List Char → List Char → Prop
  | done (i : Nat) (rest : List Char) : Retargeted place target to_ i rest rest
  | keep {i : Nat} {c : Char} {old new : List Char} (h : Retargeted place target to_ (i + 1) old new) :
    Retargeted place target to_ i (c :: old) (c :: new)
  | swap {i : Nat} {old new : List Char} (hplace : place i)
    (h : Retargeted place target to_ (i + target.length) old new) :
    Retargeted place target to_ i (target ++ old) (to_ ++ new)

/-- The document with some of the links to `from_` written onto `to_`. -/
def Relinks (scan : Scanner) (from_ to_ old new : String) : Prop :=
  Retargeted (IsLinkTarget (scan old) old.toList from_.toList) from_.toList to_.toList 0 old.toList new.toList

variable {i : Nat}

theorem findChars_spec {pat cs : List Char} (h : findChars pat cs = some i) :
    ∃ rest, cs.drop i = pat ++ rest ∧ i + pat.length ≤ cs.length := by
  induction cs generalizing i with
  | nil =>
    rw [findChars] at h
    split at h
    · rename_i hempty
      cases h
      exact ⟨[], by simp [List.isEmpty_iff.mp hempty], by simp [List.isEmpty_iff.mp hempty]⟩
    · cases h
  | cons c cs ih =>
    rw [findChars] at h
    split at h
    · rename_i hsome
      cases h
      obtain ⟨rest, hrest⟩ := isSome_iff_exists.mp hsome
      have hcs := stripPrefixChars_eq_some.mp hrest
      refine ⟨rest, by rw [drop_zero, hcs], ?_⟩
      rw [hcs, length_append]
      omega
    · obtain ⟨j, hj, rfl⟩ := map_eq_some_iff.mp h
      obtain ⟨rest, hdrop, hlen⟩ := ih hj
      refine ⟨rest, by rw [drop_succ_cons, hdrop], ?_⟩
      rw [length_cons]
      omega

theorem rfindChars_spec {pat cs : List Char} (h : rfindChars pat cs = some i) :
    ∃ rest, cs.drop i = pat ++ rest ∧ i + pat.length ≤ cs.length := by
  induction cs generalizing i with
  | nil =>
    rw [rfindChars] at h
    split at h
    · rename_i hempty
      cases h
      exact ⟨[], by simp [List.isEmpty_iff.mp hempty], by simp [List.isEmpty_iff.mp hempty]⟩
    · cases h
  | cons c cs ih =>
    rw [rfindChars] at h
    split at h
    · rename_i j hj
      cases h
      obtain ⟨rest, hdrop, hlen⟩ := ih hj
      refine ⟨rest, by rw [drop_succ_cons, hdrop], ?_⟩
      rw [length_cons]
      omega
    · split at h
      · rename_i hsome
        cases h
        obtain ⟨rest, hrest⟩ := isSome_iff_exists.mp hsome
        have hcs := stripPrefixChars_eq_some.mp hrest
        refine ⟨rest, by rw [drop_zero, hcs], ?_⟩
        rw [hcs, length_append]
        omega
      · cases h

theorem drop_slice {cs pat rest : List Char} {span : Span} (h : (slice cs span).drop i = pat ++ rest) :
    ∃ rest', cs.drop (span.1 + i) = pat ++ rest' := by
  refine ⟨(cs.drop (span.1 + i)).drop pat.length, ?_⟩
  have htake : (cs.drop (span.1 + i)).take (span.2 - span.1 - i) = pat ++ rest := by
    rw [← h, slice, drop_take, drop_drop]
  have hpat : (cs.drop (span.1 + i)).take pat.length = pat := by
    have hle : pat.length ≤ span.2 - span.1 - i := by
      have hlen := congrArg List.length htake
      simp only [length_take, length_append] at hlen
      omega
    have hboth := congrArg (List.take pat.length) htake
    rwa [take_take, Nat.min_eq_left hle, take_left] at hboth
  conv_lhs => rw [← take_append_drop pat.length (cs.drop (span.1 + i)), hpat]

theorem targetSpans_spec {marks : Marks} {markdown target : List Char} {s : Span}
    (hs : s ∈ targetSpans marks markdown target) : s.2 = s.1 + target.length ∧
      IsLinkTarget marks markdown target s.1 ∧ ∃ rest, markdown.drop s.1 = target ++ rest := by
  rcases mem_append.mp hs with hs | hs
  · obtain ⟨d, hd, heq⟩ := mem_filterMap.mp hs
    split at heq
    · rename_i hdest
      obtain ⟨i, hi, rfl⟩ := map_eq_some_iff.mp heq
      obtain ⟨rest, hdrop, hlen⟩ := rfindChars_spec hi
      exact ⟨rfl, ⟨d.1, .inl ⟨d.2, hd, hdest⟩, i, rfl, hlen⟩, drop_slice hdrop⟩
    · cases heq
  · obtain ⟨span, hspan, heq⟩ := mem_filterMap.mp hs
    split at heq
    · rename_i hname
      obtain ⟨i, hi, rfl⟩ := map_eq_some_iff.mp heq
      obtain ⟨rest, hdrop, hlen⟩ := findChars_spec hi
      exact ⟨rfl, ⟨span, .inr ⟨hspan, hname⟩, i, rfl, hlen⟩, drop_slice hdrop⟩
    · cases heq

theorem Retargeted.skip {place : Nat → Prop} {target to_ : List Char} (kept : List Char) {old new : List Char}
    (h : Retargeted place target to_ (i + kept.length) old new) :
    Retargeted place target to_ i (kept ++ old) (kept ++ new) := by
  induction kept generalizing i with
  | nil => exact h
  | cons c kept ih =>
    refine .keep (ih ?_)
    rwa [length_cons, Nat.add_comm kept.length, ← Nat.add_assoc] at h

theorem splice_retargeted {place : Nat → Prop} {markdown target to_ : List Char} (htarget : target ≠ [])
    {spans : List Span}
    (hspans : ∀ s ∈ spans, s.2 = s.1 + target.length ∧ place s.1 ∧ ∃ rest, markdown.drop s.1 = target ++ rest)
    (start : Nat) : Retargeted place target to_ start (markdown.drop start)
      (splice to_ spans start (markdown.drop start)) := by
  induction spans generalizing start with
  | nil => exact .done start _
  | cons s spans ih =>
    have hrest := ih fun t ht => hspans t (.tail _ ht)
    rw [splice]
    split
    · exact hrest start
    · rename_i hlt
      obtain ⟨hstop, hplace, rest, hdrop⟩ := hspans s (.head _)
      have hle : start ≤ s.1 := Nat.le_of_not_lt hlt
      have hsplit : markdown.drop start = (markdown.drop start).take (s.1 - start) ++ markdown.drop s.1 := by
        have hdd : (markdown.drop start).drop (s.1 - start) = markdown.drop s.1 := by
          rw [drop_drop, Nat.add_sub_cancel' hle]
        rw [← hdd, take_append_drop]
      have hafter : (markdown.drop start).drop (s.2 - start) = rest := by
        have hto : start + (s.2 - start) = s.1 + target.length := by omega
        rw [drop_drop, hto, ← drop_drop, hdrop, drop_left]
      have hrest2 : markdown.drop s.2 = rest := by
        rw [hstop, ← drop_drop, hdrop, drop_left]
      have hnext := hrest s.2
      rw [hrest2] at hnext
      have hlen : s.1 < markdown.length := by
        by_contra hge
        rw [drop_eq_nil_of_le (Nat.le_of_not_lt hge)] at hdrop
        exact htarget (append_eq_nil_iff.mp hdrop.symm).1
      have hcount : start + ((markdown.drop start).take (s.1 - start)).length = s.1 := by
        rw [length_take, length_drop]
        omega
      have hswap : Retargeted place target to_ s.1 (target ++ rest) (to_ ++ splice to_ spans s.2 rest) :=
        .swap hplace (hstop ▸ hnext)
      have hall : Retargeted place target to_ start ((markdown.drop start).take (s.1 - start) ++ (target ++ rest))
          ((markdown.drop start).take (s.1 - start) ++ (to_ ++ splice to_ spans s.2 rest)) :=
        .skip _ (hcount.symm ▸ hswap)
      rw [← hdrop, ← hsplit] at hall
      rw [hafter]
      exact hall

theorem rewriteLinkTarget_relinks {scan : Scanner} {markdown from_ to_ out : String} (hfrom : from_ ≠ "")
    (h : rewriteLinkTarget scan markdown from_ to_ = some out) : Relinks scan from_ to_ markdown out := by
  have htarget : from_.toList ≠ [] := fun hnil => hfrom (String.toList_eq_nil_iff.mp hnil)
  unfold rewriteLinkTarget at h
  dsimp only at h
  split at h
  · cases h
  split at h
  · cases h
  cases h
  have hspans : ∀ s ∈ ((targetSpans (scan markdown) markdown.toList from_.toList).mergeSort
      fun a b => a.1 ≤ b.1).destutter (· ≠ ·), s.2 = s.1 + from_.toList.length ∧
      IsLinkTarget (scan markdown) markdown.toList from_.toList s.1 ∧
        ∃ rest, markdown.toList.drop s.1 = from_.toList ++ rest := fun s hs =>
    targetSpans_spec (mem_mergeSort.mp ((destutter_sublist _ _).subset hs))
  have hall := @splice_retargeted _ _ _ to_.toList htarget _ hspans 0
  unfold Relinks
  rwa [String.toList_ofList]

end Molt.Wiki
