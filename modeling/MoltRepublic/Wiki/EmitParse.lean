import Mathlib
import MoltRepublic.Lib.Check
import MoltRepublic.Wiki.Emit

/-! What the reader of patches makes of an emitted patch: the sections the emitter meant, as long
as no line that is shown carries a carriage return and no path breaks its line. -/

namespace Molt.Wiki
open Molt.Core Text LineDiff Check List Option

theorem elementsFrom_line {x : List Char} (h : '\n' ∉ x) (rest acc : List Char) :
    elementsFrom (x ++ '\n' :: rest) acc = (acc.reverse ++ x ++ ['\n']) :: elementsFrom rest [] := by
  induction x generalizing acc with
  | nil => simp [elementsFrom]
  | cons c x ih =>
    have hc : c ≠ '\n' := fun he => h (he ▸ .head _)
    rw [cons_append, elementsFrom, if_neg hc, ih fun hm => h (.tail _ hm)]
    simp

theorem elementsFrom_last {x : List Char} (h : '\n' ∉ x) (acc : List Char) (hne : acc.reverse ++ x ≠ []) :
    elementsFrom x acc = [acc.reverse ++ x] := by
  induction x generalizing acc with
  | nil =>
    unfold elementsFrom
    rw [if_neg, append_nil]
    intro hacc
    exact hne (by rw [List.isEmpty_iff.mp hacc]; rfl)
  | cons c x ih =>
    have hc : c ≠ '\n' := fun he => h (he ▸ .head _)
    rw [elementsFrom, if_neg hc, ih (fun hm => h (.tail _ hm)) _ (by simp)]
    simp

def terminated (ls : List (List Char)) : List Char := ls.flatMap fun l => l ++ ['\n']

def Whole (l : List Char) : Prop := '\n' ∉ l ∧ l.getLast? ≠ some '\r'

variable {l : List Char}

theorem stripLineEnd_line (h : l.getLast? ≠ some '\r') : stripLineEnd (l ++ ['\n']) = l := by
  unfold stripLineEnd
  rw [reverse_append]
  cases hr : l.reverse with
  | nil => simp [reverse_eq_nil_iff.mp hr]
  | cons c r =>
    have hlast : l.getLast? = some c := by rw [← head?_reverse, hr]; rfl
    have hc : c ≠ '\r' := fun he => h (he ▸ hlast)
    have hl : l = r.reverse ++ [c] := by rw [← reverse_reverse l, hr, reverse_cons]
    simp only [reverse_cons, reverse_nil, nil_append, singleton_append]
    split
    · rename_i heq
      exact absurd (List.cons.inj (List.cons.inj heq).2).1 hc
    · rename_i heq
      rw [← (List.cons.inj heq).2, reverse_cons, hl]
    · rename_i hother
      exact absurd rfl (hother _)

variable {s : String}

theorem lines_terminated {ls : List (List Char)} (h : ∀ l ∈ ls, Whole l) (hs : s.toList = terminated ls) :
    lines s = ls := by
  unfold lines
  rw [hs]
  clear hs
  induction ls with
  | nil => rfl
  | cons l ls ih =>
    obtain ⟨hnl, hcr⟩ := h l (.head _)
    unfold terminated
    rw [flatMap_cons, append_assoc, singleton_append, elementsFrom_line hnl, map_cons]
    rw [reverse_nil, nil_append, stripLineEnd_line hcr]
    exact congrArg _ (ih fun k hk => h k (.tail _ hk))

inductive Elements : List String → Prop where
  | nil : Elements []
  | last {x : List Char} (h : '\n' ∉ x) (hne : x ≠ []) : Elements [String.ofList x]
  | line {x : List Char} {rest : List String} (h : '\n' ∉ x) (hrest : Elements rest) :
      Elements (String.ofList (x ++ ['\n']) :: rest)

theorem splitLinesFrom_eq {cs : List Char} (h : '\r' ∉ cs) (acc : List Char) :
    splitLinesFrom cs acc = elementsFrom cs acc := by
  induction cs generalizing acc with
  | nil => rfl
  | cons c cs ih =>
    have hc : c ≠ '\r' := fun he => h (he ▸ .head _)
    have hrest := ih fun hm => h (.tail _ hm)
    rw [splitLinesFrom.eq_def, elementsFrom]
    split
    · rename_i heq
      exact absurd heq (cons_ne_nil _ _)
    · rename_i heq
      exact absurd (List.cons.inj heq).1 hc
    · rename_i heq
      obtain ⟨rfl, rfl⟩ := List.cons.inj heq
      by_cases hnl : c = '\n'
      · simp [hnl, hrest]
      · simp [hc, hnl, hrest]

theorem splitLines_eq (h : '\r' ∉ s.toList) : splitLines s = toElements s := by
  unfold splitLines toElements
  rw [splitLinesFrom_eq h]

theorem cut_line (cs : List Char) : '\n' ∉ cs ∨ ∃ x rest, '\n' ∉ x ∧ cs = x ++ '\n' :: rest := by
  by_cases h : '\n' ∈ cs
  · obtain ⟨x, rest, hcs, hx⟩ := eq_append_cons_of_mem h
    exact .inr ⟨x, rest, hx, hcs⟩
  · exact .inl h

theorem elements_elementsFrom (cs : List Char) : Elements ((elementsFrom cs []).map String.ofList) := by
  induction hlen : cs.length using Nat.strongRecOn generalizing cs with
  | ind n ih =>
    rcases cut_line cs with hnl | ⟨x, rest, hx, rfl⟩
    · by_cases hne : cs = []
      · rw [hne]
        exact Elements.nil
      · rw [elementsFrom_last hnl [] (by simpa using hne)]
        exact Elements.last hnl hne
    · rw [elementsFrom_line hx, map_cons, reverse_nil, nil_append]
      refine Elements.line hx (ih rest.length ?_ rest rfl)
      rw [← hlen, length_append, length_cons]
      omega

theorem toElements_elements (s : String) : Elements (toElements s) := elements_elementsFrom s.toList

theorem join_elementsFrom (cs acc : List Char) :
    (elementsFrom cs acc).flatten = acc.reverse ++ cs := by
  induction cs generalizing acc with
  | nil =>
    unfold elementsFrom
    split
    · rename_i hacc
      rw [List.isEmpty_iff.mp hacc]
      rfl
    · simp
  | cons c cs ih =>
    rw [elementsFrom]
    split
    · rename_i hc
      rw [flatten_cons, ih, hc]
      simp
    · rw [ih]
      simp

theorem join_toElements (s : String) : String.join (toElements s) = s := by
  apply String.toList_injective
  unfold toElements
  rw [String.toList_join, flatMap_map]
  simp only [String.toList_ofList]
  rw [flatMap_id', join_elementsFrom]
  rfl

theorem elementsFrom_length (cs acc : List Char) : (elementsFrom cs acc).length ≤ acc.length + cs.length := by
  induction cs generalizing acc with
  | nil =>
    unfold elementsFrom
    split
    · exact Nat.zero_le _
    · rename_i hacc
      cases acc with
      | nil => exact absurd rfl hacc
      | cons c acc => simp
  | cons c cs ih =>
    rw [elementsFrom]
    split
    · have := ih []
      simp only [length_cons, length_nil] at this ⊢
      omega
    · have := ih (c :: acc)
      simp only [length_cons] at this ⊢
      omega

theorem toElements_length (s : String) : (toElements s).length ≤ s.toList.length := by
  unfold toElements
  rw [length_map]
  exact (elementsFrom_length s.toList []).trans (by simp)

def Plain (e : String) : Prop :=
  ∃ x : List Char, '\n' ∉ x ∧ '\r' ∉ x ∧ (e.toList = x ++ ['\n'] ∨ e.toList = x ∧ x ≠ [])

theorem Elements.plain {l : List String} (h : Elements l) {e : String} (he : e ∈ l) (hcr : '\r' ∉ e.toList) :
    Plain e := by
  induction h with
  | nil => exact absurd he (not_mem_nil)
  | @last x hx hne =>
    rw [mem_singleton.mp he, String.toList_ofList] at hcr
    rw [mem_singleton.mp he]
    exact ⟨x, hx, hcr, .inr ⟨String.toList_ofList, hne⟩⟩
  | @line x rest hx _ ih =>
    rcases mem_cons.mp he with rfl | he
    · rw [String.toList_ofList] at hcr
      exact ⟨x, hx, fun hm => hcr (mem_append_left _ hm), .inl String.toList_ofList⟩
    · exact ih he

def elemText (e : String) : List Char := if endsWithNewline e then e.toList.dropLast else e.toList

def toHunkLine (e : Tag × String) : HunkLine :=
  ⟨match e.1 with | .equal => ' ' | .delete => '-' | .insert => '+', String.ofList (elemText e.2),
    endsWithNewline e.2⟩

theorem Plain.cases {e : String} (h : Plain e) : '\n' ∉ elemText e ∧ '\r' ∉ elemText e ∧
    e.toList = elemText e ++ if endsWithNewline e then ['\n'] else [] := by
  obtain ⟨x, hx, hcr, he | ⟨he, hne⟩⟩ := h
  · have hend : endsWithNewline e = true := by
      unfold endsWithNewline
      rw [he]
      simp
    unfold elemText
    rw [hend, if_pos rfl, if_pos rfl, he, dropLast_concat]
    exact ⟨hx, hcr, rfl⟩
  · have hend : endsWithNewline e = false := by
      unfold endsWithNewline
      rw [he]
      cases hl : x.getLast? with
      | none => rfl
      | some c =>
        have hmem := mem_of_getLast? hl
        have hnl : c ≠ '\n' := fun h => hx (h ▸ hmem)
        have hncr : c ≠ '\r' := fun h => hcr (h ▸ hmem)
        simp [hnl, hncr]
    unfold elemText
    rw [hend, if_neg Bool.false_ne_true, if_neg Bool.false_ne_true, he, append_nil]
    exact ⟨hx, hcr, rfl⟩

variable {e : Tag × String}

theorem lineElement_toHunkLine (h : Plain e.2) : lineElement (toHunkLine e) = e.2 := by
  obtain ⟨-, -, he⟩ := h.cases
  apply String.toList_injective
  unfold lineElement toHunkLine
  dsimp only
  split
  · rename_i hend
    rw [String.toList_append, String.toList_ofList, he, hend]
    rfl
  · rename_i hend
    rw [String.toList_ofList, he, if_neg hend, append_nil]

def toHunk (h : DiffHunk String) : Hunk :=
  ⟨if (oldSide h.lines).length = 0 then h.oldStart else h.oldStart + 1, (oldSide h.lines).length,
    h.lines.map toHunkLine⟩

theorem oldSide_cons (e : Tag × String) (l : List (Tag × String)) :
    oldSide (e :: l) = if e.1 = .insert then oldSide l else e.2 :: oldSide l := by
  unfold oldSide
  rw [filterMap_cons]
  split_ifs <;> rfl

theorem newSide_cons (e : Tag × String) (l : List (Tag × String)) :
    newSide (e :: l) = if e.1 = .delete then newSide l else e.2 :: newSide l := by
  unfold newSide
  rw [filterMap_cons]
  split_ifs <;> rfl

theorem getElem?_length {pre post : List String} (e : String) : (pre ++ e :: post)[pre.length]? = some e := by
  rw [getElem?_append_right (Nat.le_refl _), Nat.sub_self]
  rfl

theorem applyLine_lines {ls : List (Tag × String)} (h : ∀ e ∈ ls, Plain e.2) (pre post out : List String) (k : Nat) :
    (ls.map toHunkLine).foldlM (applyLine (pre ++ (oldSide ls ++ post))) ⟨pre.length, k, out⟩ =
      .ok ⟨pre.length + (oldSide ls).length, k + (oldSide ls).length, out ++ newSide ls⟩ := by
  induction ls generalizing pre k out with
  | nil => simp [oldSide, newSide, pure, Except.pure]
  | cons e ls ih =>
    have he := lineElement_toHunkLine (h e (.head _))
    have hrest := fun pre out k => ih (fun a ha => h a (.tail _ ha)) pre out k
    obtain ⟨tag, text⟩ := e
    rw [map_cons, foldlM_cons, oldSide_cons, newSide_cons]
    cases tag with
    | insert =>
      have hline : applyLine (pre ++ (oldSide ls ++ post)) ⟨pre.length, k, out⟩ (toHunkLine (.insert, text)) =
          .ok ⟨pre.length, k, out ++ [text]⟩ := by
        unfold applyLine
        rw [he]
        rfl
      simp [reduceCtorEq, hline, Bind.bind, Except.bind, hrest]
    | delete =>
      have hline : applyLine (pre ++ (text :: oldSide ls ++ post)) ⟨pre.length, k, out⟩
          (toHunkLine (.delete, text)) = .ok ⟨pre.length + 1, k + 1, out⟩ := by
        unfold applyLine
        rw [he, cons_append, getElem?_length]
        simp [toHunkLine]
      have hshift : pre ++ (text :: oldSide ls ++ post) = (pre ++ [text]) ++ (oldSide ls ++ post) := by simp
      have hnext := hrest (pre ++ [text]) out (k + 1)
      rw [length_append, length_singleton, ← hshift] at hnext
      simp only [reduceCtorEq, if_true, if_false, hline, Bind.bind, Except.bind, hnext, length_cons]
      congr 2 <;> omega
    | equal =>
      have hline : applyLine (pre ++ (text :: oldSide ls ++ post)) ⟨pre.length, k, out⟩
          (toHunkLine (.equal, text)) = .ok ⟨pre.length + 1, k + 1, out ++ [text]⟩ := by
        unfold applyLine
        rw [he, cons_append, getElem?_length]
        simp [toHunkLine]
      have hshift : pre ++ (text :: oldSide ls ++ post) = (pre ++ [text]) ++ (oldSide ls ++ post) := by simp
      have hnext := hrest (pre ++ [text]) (out ++ [text]) (k + 1)
      rw [length_append, length_singleton, ← hshift] at hnext
      simp only [reduceCtorEq, if_false, hline, Bind.bind, Except.bind, hnext, length_cons,
        append_assoc, singleton_append]
      congr 2 <;> omega

variable {h : DiffHunk String}

theorem applyHunk_toHunk (hplain : ∀ e ∈ h.lines, Plain e.2) {pre gap post : List String}
    (hstart : h.oldStart = pre.length + gap.length) (out : List String) :
    applyHunk (pre ++ (gap ++ (oldSide h.lines ++ post))) (pre.length, out) (toHunk h) =
      .ok (pre.length + gap.length + (oldSide h.lines).length, out ++ gap ++ newSide h.lines) := by
  have hpos : (if (toHunk h).oldCount = 0 then (toHunk h).oldStart else (toHunk h).oldStart - 1) =
      pre.length + gap.length := by
    unfold toHunk
    dsimp only
    split_ifs <;> omega
  have hzero : ¬ ((toHunk h).oldCount ≠ 0 ∧ (toHunk h).oldStart = 0) := by
    rintro ⟨hcount, hzero⟩
    have hstart : (toHunk h).oldStart = h.oldStart + 1 := if_neg hcount
    exact absurd (hstart.symm.trans hzero) (Nat.succ_ne_zero _)
  have hgap : ((pre ++ (gap ++ (oldSide h.lines ++ post))).drop pre.length).take
      (pre.length + gap.length - pre.length) = gap := by
    rw [drop_left, Nat.add_sub_cancel_left, take_left]
  have hlines := applyLine_lines hplain (pre ++ gap) post (out ++ gap) 0
  rw [length_append, append_assoc, Nat.zero_add] at hlines
  have hlen : ¬ pre.length + gap.length > (pre ++ (gap ++ (oldSide h.lines ++ post))).length := by
    rw [length_append, length_append]
    omega
  unfold applyHunk
  dsimp only
  rw [if_neg hzero, hpos, if_neg (Nat.not_lt.mpr (Nat.le_add_right _ _)), if_neg hlen, hgap]
  simp only [toHunk, hlines, Bind.bind, Except.bind, pure, Except.pure, ne_eq, not_true_eq_false, if_false]

theorem applyHunks_leads {at_ : Nat} {old new : List String} {hs : List (DiffHunk String)}
    (h : Leads at_ old new hs) (hplain : ∀ k ∈ hs, ∀ e ∈ k.lines, Plain e.2) {pre : List String}
    (hpre : pre.length = at_) (out : List String) :
    ∃ c out', (hs.map toHunk).foldlM (applyHunk (pre ++ old)) (at_, out) = .ok (c, out') ∧
      out' ++ (pre ++ old).drop c = out ++ new := by
  induction h generalizing pre out with
  | done at_ rest =>
    refine ⟨at_, out, rfl, ?_⟩
    rw [← hpre, drop_left]
  | @hunk at_ gap old new h hs start _ _ ih =>
    subst hpre
    have hone := @applyHunk_toHunk h (hplain h (.head _)) pre gap old start out
    obtain ⟨c, out', hrun, hout⟩ := ih (fun k hk => hplain k (.tail _ hk))
      (by rw [length_append, length_append] :
        (pre ++ gap ++ oldSide h.lines).length = pre.length + gap.length + (oldSide h.lines).length)
      (out ++ gap ++ newSide h.lines)
    have hsame : pre ++ gap ++ oldSide h.lines ++ old = pre ++ (gap ++ (oldSide h.lines ++ old)) := by
      simp
    rw [hsame] at hrun hout
    refine ⟨c, out', ?_, by rw [hout]; simp only [append_assoc]⟩
    rw [map_cons, foldlM_cons, hone]
    exact hrun

/-- A text whose lines the emitter and the applier count alike, of a size a machine word holds. -/
structure CleanText (s : String) : Prop where
  lined : splitLines s = toElements s
  size : s.toList.length < 2 ^ 64

/-- The difference of two texts is one a patch can carry: no line it shows has a carriage return. -/
structure CleanDiff (diff : Differ) (old new : String) : Prop where
  before : CleanText old
  behind : CleanText new
  shown : ∀ h ∈ diff (splitLines old) (splitLines new), ∀ e ∈ h.lines, '\r' ∉ e.2.toList

theorem cleanText_plain (h : '\r' ∉ s.toList) (hsize : s.toList.length < 2 ^ 64) : CleanText s :=
  ⟨splitLines_eq h, hsize⟩

theorem Elements.mem_plain {e : String} (h : '\r' ∉ s.toList) (he : e ∈ toElements s) : '\r' ∉ e.toList := by
  intro hm
  apply h
  rw [← join_toElements s, String.toList_join]
  exact mem_flatMap.mpr ⟨e, he, hm⟩

variable {diff : Differ}

theorem cleanDiff_plain (hdiff : Faithful diff) {old new : String} (hold : '\r' ∉ old.toList)
    (hnew : '\r' ∉ new.toList) (hsold : old.toList.length < 2 ^ 64) (hsnew : new.toList.length < 2 ^ 64) :
    CleanDiff diff old new := by
  refine ⟨cleanText_plain hold hsold, cleanText_plain hnew hsnew, fun h hh e he => ?_⟩
  have hleads := hdiff (splitLines old) (splitLines new)
  rw [splitLines_eq hold, splitLines_eq hnew] at hleads hh
  exact (hleads.mem h hh e he).elim (Elements.mem_plain hold) (Elements.mem_plain hnew)

theorem CleanDiff.plain {diff : Differ} (hdiff : Faithful diff) {old new : String} (h : CleanDiff diff old new) :
    ∀ k ∈ diff (splitLines old) (splitLines new), ∀ e ∈ k.lines, Plain e.2 := by
  intro k hk e he
  have hcr := h.shown k hk e he
  rcases (hdiff (splitLines old) (splitLines new)).mem k hk e he with hmem | hmem
  · exact (toElements_elements old).plain (h.before.lined ▸ hmem) hcr
  · exact (toElements_elements new).plain (h.behind.lined ▸ hmem) hcr

theorem applyHunks_diff (hdiff : Faithful diff) {old new : String} (h : CleanDiff diff old new) :
    applyHunks old ((diff (splitLines old) (splitLines new)).map toHunk) = .ok new := by
  have hleads := hdiff (splitLines old) (splitLines new)
  have hplain := h.plain hdiff
  rw [h.before.lined, h.behind.lined] at hleads hplain ⊢
  obtain ⟨c, out, hrun, hout⟩ := applyHunks_leads hleads hplain (rfl : ([] : List String).length = 0) []
  rw [nil_append] at hrun hout
  rw [nil_append] at hout
  unfold applyHunks
  simp only [hrun, Bind.bind, Except.bind, pure, Except.pure, hout, join_toElements]

theorem toList_toString (n : Nat) : (toString n).toList = Nat.toDigits 10 n := Nat.toList_repr

variable {n : Nat}

theorem isDigit_of_mem {c : Char} (h : c ∈ Nat.toDigits 10 n) : c.isDigit = true :=
  Nat.isDigit_of_mem_toDigits (by decide) (by decide) h

theorem not_mem_toDigits {c : Char} (h : c.isDigit = false) : c ∉ Nat.toDigits 10 n := fun hm =>
  Bool.false_ne_true (h.symm.trans (isDigit_of_mem hm))

theorem parseUsize_toDigits (h : n < 2 ^ 64) : parseUsize (Nat.toDigits 10 n) = n := by
  have hparse : parseU64 (String.ofList (Nat.toDigits 10 n)) = some (UInt64.ofNat n) := by
    rw [parseU64_digits Nat.toDigits_ne_nil fun c hc => isDigit_of_mem hc, Nat.ofDigitChars_ten_toDigits]
    exact if_pos h
  unfold parseUsize
  rw [hparse, map_some, getD_some, UInt64.toNat_ofNat_of_lt' h]

def rangeChars (start len : Nat) : List Char :=
  if len = 1 then Nat.toDigits 10 (start + 1)
  else Nat.toDigits 10 (if len = 0 then start else start + 1) ++ ',' :: Nat.toDigits 10 len

theorem toList_renderRange (start len : Nat) : (renderRange start len).toList = rangeChars start len := by
  unfold renderRange rangeChars
  split
  · exact toList_toString _
  · rw [String.toList_append, String.toList_append, toList_toString, toList_toString, append_assoc]
    rfl

theorem rangeChars_plain {start len : Nat} {c : Char} (h : c.isDigit = false) (hc : c ≠ ',') :
    c ∉ rangeChars start len := by
  unfold rangeChars
  split
  · exact not_mem_toDigits h
  · intro hm
    rcases mem_append.mp hm with hm | hm
    · exact not_mem_toDigits h hm
    · rcases mem_cons.mp hm with rfl | hm
      · exact hc rfl
      · exact not_mem_toDigits h hm

theorem splitOnceChars_none {d : Char} (h : d ∉ l) : splitOnceChars d l = none := by
  induction l with
  | nil => rfl
  | cons c l ih =>
    have hc : c ≠ d := fun he => h (he ▸ .head _)
    rw [splitOnceChars, if_neg hc, ih fun hm => h (.tail _ hm)]
    rfl

theorem takeWhile_space {rest : List Char} (h : ' ' ∉ l) : (l ++ ' ' :: rest).takeWhile (· != ' ') = l := by
  rw [takeWhile_append_of_pos fun c hc => by
    have : c ≠ ' ' := fun he => h (he ▸ hc)
    simpa using this]
  simp

theorem parseHunkOld_range {start len : Nat} (hstart : (if len = 0 then start else start + 1) < 2 ^ 64)
    (hlen : len < 2 ^ 64) (rest : List Char) : parseHunkOld ('-' :: (rangeChars start len ++ ' ' :: rest)) =
      (if len = 0 then start else start + 1, len) := by
  have hspace : ' ' ∉ '-' :: rangeChars start len := by
    intro hm
    rcases mem_cons.mp hm with he | hm
    · exact absurd he (by decide)
    · exact rangeChars_plain (by decide) (by decide) hm
  unfold parseHunkOld
  rw [← cons_append, takeWhile_space hspace]
  have hstrip : stripPrefixChars ['-'] ('-' :: rangeChars start len) = some (rangeChars start len) := rfl
  rw [hstrip]
  dsimp only
  unfold rangeChars
  by_cases hone : len = 1
  · rw [hone] at hstart ⊢
    rw [if_pos rfl, splitOnceChars_none (not_mem_toDigits (by decide))]
    exact Prod.ext (parseUsize_toDigits hstart) rfl
  · rw [if_neg hone, splitOnceChars_append (not_mem_toDigits (by decide))]
    exact Prod.ext (parseUsize_toDigits hstart) (parseUsize_toDigits hlen)

def lineChars (e : Tag × String) : List (List Char) :=
  ((toHunkLine e).op :: elemText e.2) ::
    if endsWithNewline e.2 then [] else ["\\ No newline at end of file".toList]

def hunkHeader (h : DiffHunk String) : List Char :=
  "@@ ".toList ++ ('-' :: (rangeChars h.oldStart (oldSide h.lines).length ++ ' ' ::
    ('+' :: (rangeChars h.newStart (newSide h.lines).length ++ " @@".toList))))

def hunkLines (h : DiffHunk String) : List (List Char) := hunkHeader h :: h.lines.flatMap lineChars

theorem terminated_cons (l : List Char) (ls : List (List Char)) :
    terminated (l :: ls) = l ++ '\n' :: terminated ls := by
  unfold terminated
  rw [flatMap_cons, append_assoc]
  rfl

theorem terminated_append (ls ms : List (List Char)) :
    terminated (ls ++ ms) = terminated ls ++ terminated ms := flatMap_append

theorem toList_renderLine (h : Plain e.2) :
    (renderLine e).toList = terminated (lineChars e) := by
  obtain ⟨-, -, he⟩ := h.cases
  have htag : (tagChar e.1).toList = [(toHunkLine e).op] := by
    unfold tagChar toHunkLine
    cases e.1 <;> rfl
  unfold renderLine lineChars
  rw [String.toList_append, String.toList_append, htag, terminated_cons, he]
  split_ifs
  · simp [terminated]
  · rw [append_nil]
    simp [terminated]

theorem toList_renderHunk (hne : h.lines ≠ []) (hplain : ∀ e ∈ h.lines, Plain e.2) :
    (renderHunk h).toList = terminated (hunkLines h) := by
  have hlines : (String.join (h.lines.map renderLine)).toList = terminated (h.lines.flatMap lineChars) := by
    rw [String.toList_join, flatMap_map]
    generalize h.lines = ls at hplain ⊢
    induction ls with
    | nil => rfl
    | cons e ls ih =>
      rw [flatMap_cons, flatMap_cons, terminated_append,
        toList_renderLine (hplain e (.head _)), ih fun a ha => hplain a (.tail _ ha)]
  unfold renderHunk hunkLines
  rw [if_neg (by simpa using hne), terminated_cons, ← hlines]
  simp only [String.toList_append, toList_renderRange, hunkHeader]
  simp

theorem modifyLast_concat {α : Type*} (f : α → α) (l : List α) (x : α) :
    modifyLast f (l ++ [x]) = l ++ [f x] := by
  induction l with
  | nil => rfl
  | cons y l ih =>
    cases l with
    | nil => rfl
    | cons z l => exact congrArg (y :: ·) ih

theorem stripPrefixChars_ne {c d : Char} (h : c ≠ d) (p cs : List Char) :
    stripPrefixChars (c :: p) (d :: cs) = none := if_neg h

theorem startsWith_ne {c d : Char} {p cs : List Char} (hs : s.toList = c :: p) (h : c ≠ d) :
    startsWith (d :: cs) s = false := by
  unfold startsWith
  rw [hs, stripPrefixChars_ne h]
  rfl

theorem parseLine_last {line : List Char} (h : stripPrefixChars "diff --git a/".toList line = none)
    (files : List PatchFile) (f : PatchFile) : parseLine (files ++ [f]) line = files ++ [parseFileLine f line] := by
  unfold parseLine
  rw [h]
  exact modifyLast_concat _ _ _

theorem op_cases (e : Tag × String) :
    (toHunkLine e).op = '+' ∨ (toHunkLine e).op = '-' ∨ (toHunkLine e).op = ' ' := by
  unfold toHunkLine
  cases e.1 <;> simp

variable {f : PatchFile}

theorem parseFileLine_content {op : Char} (hop : op = '+' ∨ op = '-' ∨ op = ' ') (text : List Char)
    (hf : f.hunks ≠ []) : parseFileLine f (op :: text) =
      { f with hunks := modifyLast (Hunk.push op text) f.hunks } := by
  have hempty : f.hunks.isEmpty = false := by rwa [isEmpty_eq_false_iff]
  have hn : 'n' ≠ op := by rcases hop with rfl | rfl | rfl <;> decide
  have hd : 'd' ≠ op := by rcases hop with rfl | rfl | rfl <;> decide
  have hr : 'r' ≠ op := by rcases hop with rfl | rfl | rfl <;> decide
  have hat : '@' ≠ op := by rcases hop with rfl | rfl | rfl <;> decide
  have hback : '\\' ≠ op := by rcases hop with rfl | rfl | rfl <;> decide
  unfold parseFileLine
  rw [startsWith_ne (s := "new file mode") rfl hn, startsWith_ne (s := "deleted file mode") rfl hd]
  have hfrom : stripPrefixChars "rename from ".toList (op :: text) = none := stripPrefixChars_ne hr _ _
  have hto : stripPrefixChars "rename to ".toList (op :: text) = none := stripPrefixChars_ne hr _ _
  have hhunk : stripPrefixChars "@@ ".toList (op :: text) = none := stripPrefixChars_ne hat _ _
  rw [hfrom]
  rw [hto]
  dsimp only
  rw [hhunk]
  rw [startsWith_ne (s := "\\") rfl hback, hempty]
  simp only [Bool.false_eq_true, if_false, Bool.false_and]
  rw [if_pos]
  rcases hop with rfl | rfl | rfl <;> decide

theorem parseFileLine_hint (f : PatchFile) :
    parseFileLine f "\\ No newline at end of file".toList =
      { f with hunks := modifyLast Hunk.markUnterminated f.hunks } := by
  rfl

theorem parseFileLine_hunk (f : PatchFile) (head : List Char) :
    parseFileLine f ("@@ ".toList ++ head) =
      { f with hunks := f.hunks ++ [⟨(parseHunkOld head).1, (parseHunkOld head).2, []⟩] } := by
  rfl

theorem parse_line (files : List PatchFile) (f : PatchFile) (hs : List Hunk) (h : Hunk) :
    (lineChars e).foldl parseLine (files ++ [{ f with hunks := hs ++ [h] }]) =
      files ++ [{ f with hunks := hs ++ [{ h with lines := h.lines ++ [toHunkLine e] }] }] := by
  have hd : 'd' ≠ (toHunkLine e).op := by rcases op_cases e with he | he | he <;> rw [he] <;> decide
  have hcontent := parseFileLine_content (op_cases e) (elemText e.2) (f := { f with hunks := hs ++ [h] })
    (append_ne_nil_of_right_ne_nil _ (cons_ne_nil _ _))
  dsimp only at hcontent
  rw [modifyLast_concat] at hcontent
  unfold lineChars
  rw [foldl_cons, parseLine_last (stripPrefixChars_ne hd _ _), hcontent]
  cases hend : endsWithNewline e.2 with
  | true =>
    rw [if_pos rfl, foldl_nil]
    unfold Hunk.push toHunkLine
    rw [hend]
  | false =>
    have hhint := parseFileLine_hint
      { f with hunks := hs ++ [Hunk.push (toHunkLine e).op (elemText e.2) h] }
    rw [modifyLast_concat] at hhint
    rw [if_neg Bool.false_ne_true, foldl_cons, foldl_nil, parseLine_last rfl, hhint]
    unfold Hunk.markUnterminated Hunk.push toHunkLine
    rw [modifyLast_concat, hend]

theorem parse_lines (files : List PatchFile) (f : PatchFile) (hs : List Hunk) (h : Hunk)
    (ls : List (Tag × String)) :
    (ls.flatMap lineChars).foldl parseLine (files ++ [{ f with hunks := hs ++ [h] }]) =
      files ++ [{ f with hunks := hs ++ [{ h with lines := h.lines ++ ls.map toHunkLine }] }] := by
  induction ls generalizing h with
  | nil => simp
  | cons e ls ih =>
    rw [flatMap_cons, foldl_append, parse_line, ih]
    simp

def Fits (h : DiffHunk String) : Prop := h.oldStart + (oldSide h.lines).length < 2 ^ 64

theorem parse_hunk (hfits : Fits h) (files : List PatchFile) (f : PatchFile) :
    (hunkLines h).foldl parseLine (files ++ [f]) = files ++ [{ f with hunks := f.hunks ++ [toHunk h] }] := by
  unfold Fits at hfits
  have hrange := @parseHunkOld_range h.oldStart (oldSide h.lines).length
    (by split <;> omega) (by omega) ('+' :: (rangeChars h.newStart (newSide h.lines).length ++ " @@".toList))
  unfold hunkLines hunkHeader
  rw [foldl_cons, parseLine_last rfl, parseFileLine_hunk, hrange, parse_lines]
  rfl

theorem parse_hunks {hs : List (DiffHunk String)} (hfits : ∀ h ∈ hs, Fits h) (files : List PatchFile)
    (f : PatchFile) : (hs.flatMap hunkLines).foldl parseLine (files ++ [f]) =
      files ++ [{ f with hunks := f.hunks ++ hs.map toHunk }] := by
  induction hs generalizing f with
  | nil => simp
  | cons h hs ih =>
    rw [flatMap_cons, foldl_append, parse_hunk (hfits h (.head _)),
      ih fun k hk => hfits k (.tail _ hk)]
    simp

structure CleanPath (p : String) : Prop where
  line : '\n' ∉ p.toList
  tail : p.toList.getLast? ≠ some '\r'

def OneSided (p : String) : Prop := rsplitAt " b/".toList p.toList = none

theorem diff_plain (hdiff : Faithful diff) {old new : String} (h : CleanDiff diff old new) :
    ∀ k ∈ diff (splitLines old) (splitLines new), k.lines ≠ [] ∧ (∀ e ∈ k.lines, Plain e.2) ∧ Fits k := by
  have hleads := hdiff (splitLines old) (splitLines new)
  intro k hk
  refine ⟨hleads.lines k hk, h.plain hdiff k hk, ?_⟩
  have hle := hleads.fits k hk
  rw [Nat.zero_add, h.before.lined] at hle
  exact Nat.lt_of_le_of_lt (hle.trans (toElements_length old)) h.before.size

def unifiedLines (diff : Differ) (old new a b : String) : List (List Char) :=
  let hunks := diff (splitLines old) (splitLines new)
  if hunks.isEmpty then []
  else ("--- ".toList ++ a.toList) :: ("+++ ".toList ++ b.toList) :: hunks.flatMap hunkLines

theorem toList_unified (hdiff : Faithful diff) {old new : String} (h : CleanDiff diff old new) (a b : String) :
    (unified diff old new a b).toList = terminated (unifiedLines diff old new a b) := by
  have hplain := diff_plain hdiff h
  unfold unified unifiedLines
  dsimp only
  split
  · rfl
  · have hhunks : (String.join ((diff (splitLines old) (splitLines new)).map renderHunk)).toList =
        terminated ((diff (splitLines old) (splitLines new)).flatMap hunkLines) := by
      generalize diff (splitLines old) (splitLines new) = hs at hplain
      rw [String.toList_join, flatMap_map]
      induction hs with
      | nil => rfl
      | cons h hs ih =>
        obtain ⟨hne, hlines, -⟩ := hplain h (.head _)
        rw [flatMap_cons, flatMap_cons, terminated_append, toList_renderHunk hne hlines,
          ih fun k hk => hplain k (.tail _ hk)]
    rw [terminated_cons, terminated_cons, ← hhunks]
    simp

theorem parse_unified {diff : Differ} (hdiff : Faithful diff) {old new : String} (h : CleanDiff diff old new)
    (a b : String) (files : List PatchFile) {f : PatchFile} (hf : f.hunks = []) :
    (unifiedLines diff old new a b).foldl parseLine (files ++ [f]) =
      files ++ [{ f with hunks := (diff (splitLines old) (splitLines new)).map toHunk }] := by
  have hplain := diff_plain hdiff h
  unfold unifiedLines
  dsimp only
  split
  · rename_i hnil
    rw [List.isEmpty_iff.mp hnil, map_nil, foldl_nil, ← hf]
  · have hskip : ∀ (c : Char) (rest : List Char), c = '-' ∨ c = '+' →
        parseFileLine f (c :: c :: c :: ' ' :: rest) = f := by
      intro c rest hc
      rcases hc with rfl | rfl <;> (unfold parseFileLine; rw [hf]; rfl)
    have hold' : parseFileLine f ("--- ".toList ++ a.toList) = f := hskip '-' _ (.inl rfl)
    have hnew' : parseFileLine f ("+++ ".toList ++ b.toList) = f := hskip '+' _ (.inr rfl)
    rw [foldl_cons, foldl_cons, parseLine_last rfl, hold', parseLine_last rfl, hnew',
      parse_hunks fun h hh => (hplain h hh).2.2, hf, nil_append]

def fileOf (diff : Differ) : NetChange → PatchFile
  | .added path content =>
    { oldPath := path, newPath := path, added := true,
      hunks := (diff (splitLines "") (splitLines content)).map toHunk }
  | .deleted path content =>
    { oldPath := path, newPath := path, deleted := true,
      hunks := (diff (splitLines content) (splitLines "")).map toHunk }
  | .edited oldPath newPath before content =>
    { oldPath := oldPath, newPath := newPath, renamed := oldPath ≠ newPath,
      hunks := if before ≠ content then (diff (splitLines before) (splitLines content)).map toHunk else [] }

def CleanChange (diff : Differ) : NetChange → Prop
  | .added path content => (CleanPath path ∧ OneSided path) ∧ CleanDiff diff "" content
  | .deleted path content => (CleanPath path ∧ OneSided path) ∧ CleanDiff diff content ""
  | .edited oldPath newPath before content =>
    (CleanPath oldPath ∧ CleanPath newPath) ∧ (oldPath = newPath → OneSided newPath) ∧
      (before ≠ content → CleanDiff diff before content)

def sectionLine (oldPath newPath : String) : List Char :=
  "diff --git a/".toList ++ (oldPath.toList ++ (" b/".toList ++ newPath.toList))

def changeLines (diff : Differ) : NetChange → List (List Char)
  | .added path content => sectionLine path path :: "new file mode 100644".toList ::
      unifiedLines diff "" content "/dev/null" ("b/" ++ path)
  | .deleted path content => sectionLine path path :: "deleted file mode 100644".toList ::
      unifiedLines diff content "" ("a/" ++ path) "/dev/null"
  | .edited oldPath newPath before content => sectionLine oldPath newPath ::
    ((if oldPath ≠ newPath then
      (if before = content then ["similarity index 100%".toList] else []) ++
        ["rename from ".toList ++ oldPath.toList, "rename to ".toList ++ newPath.toList]
    else []) ++
    if before ≠ content then unifiedLines diff before content ("a/" ++ oldPath) ("b/" ++ newPath) else [])

theorem toList_mode {path body C : String} {mode : List Char} (hC : C.toList = '\n' :: (mode ++ ['\n'])) :
    ("diff --git a/" ++ path ++ " b/" ++ path ++ C ++ body).toList =
      sectionLine path path ++ '\n' :: (mode ++ '\n' :: body.toList) := by
  unfold sectionLine
  generalize "diff --git a/" = A
  generalize " b/" = B
  simp [hC]

variable {c : NetChange}

theorem toList_renderChange (hdiff : Faithful diff) (h : CleanChange diff c) :
    (renderChange diff c).toList = terminated (changeLines diff c) := by
  cases c with
  | added path content =>
    have hunified := toList_unified hdiff h.2 "/dev/null" ("b/" ++ path)
    unfold renderChange changeLines
    rw [terminated_cons, terminated_cons, ← hunified]
    exact toList_mode rfl
  | deleted path content =>
    have hunified := toList_unified hdiff h.2 ("a/" ++ path) "/dev/null"
    unfold renderChange changeLines
    rw [terminated_cons, terminated_cons, ← hunified]
    exact toList_mode rfl
  | edited oldPath newPath before content =>
    have hunified := fun hne => toList_unified hdiff (h.2.2 hne) ("a/" ++ oldPath) ("b/" ++ newPath)
    have hnl : "\n".toList = ['\n'] := rfl
    have hsame : "similarity index 100%\n".toList = "similarity index 100%".toList ++ ['\n'] := rfl
    have hto : "\nrename to ".toList = '\n' :: "rename to ".toList := rfl
    unfold renderChange changeLines sectionLine
    dsimp only
    generalize unified diff before content ("a/" ++ oldPath) ("b/" ++ newPath) = body at hunified ⊢
    generalize unifiedLines diff before content ("a/" ++ oldPath) ("b/" ++ newPath) = ls at hunified ⊢
    generalize "diff --git a/" = A
    generalize " b/" = B
    generalize "\n" = N at hnl ⊢
    generalize "similarity index 100%\n" = S at hsame ⊢
    generalize "\nrename to " = T at hto ⊢
    generalize "rename from " = F
    generalize "similarity index 100%".toList = S' at hsame ⊢
    generalize "rename to ".toList = T' at hto ⊢
    by_cases hpath : oldPath = newPath
    · by_cases htext : before = content
      · simp [hpath, htext, terminated, hnl]
      · simp [hpath, htext, hunified htext, terminated, hnl]
    · by_cases htext : before = content
      · simp [hpath, htext, terminated, hnl, hsame, hto]
      · simp [hpath, htext, hunified htext, terminated, hnl, hto]

theorem rsplitAt_side {p : List Char} (h : rsplitAt " b/".toList p = none) (old : List Char) :
    rsplitAt " b/".toList (old ++ (" b/".toList ++ p)) = some (old, p) := by
  induction old with
  | nil =>
    -- no later mark: neither in the path nor across its start
    have hslash : rsplitAt " b/".toList ('/' :: p) = none := by
      unfold rsplitAt
      rw [h]
      rfl
    have hb : rsplitAt " b/".toList ('b' :: '/' :: p) = none := by
      unfold rsplitAt
      rw [hslash]
      rfl
    have hmark : rsplitAt " b/".toList (' ' :: 'b' :: '/' :: p) = some ([], p) := by
      rw [rsplitAt, hb]
      have hstrip : stripPrefixChars " b/".toList (' ' :: 'b' :: '/' :: p) = some p :=
        stripPrefixChars_append " b/".toList p
      rfl
    exact hmark
  | cons c old ih =>
    rw [cons_append, rsplitAt, ih]

theorem parseLine_section {newPath : String} (h : OneSided newPath) (oldPath : String) (files : List PatchFile) :
    parseLine files (sectionLine oldPath newPath) = files ++ [{ oldPath := oldPath, newPath := newPath }] := by
  unfold parseLine sectionLine
  rw [stripPrefixChars_append]
  dsimp only
  rw [rsplitAt_side h]
  simp

theorem parseLine_section_opens (oldPath newPath : String) (files : List PatchFile) :
    ∃ o n, parseLine files (sectionLine oldPath newPath) = files ++ [{ oldPath := o, newPath := n }] := by
  unfold parseLine sectionLine
  rw [stripPrefixChars_append]
  dsimp only
  split
  · exact ⟨_, _, rfl⟩
  · exact ⟨"", "", rfl⟩

theorem parseFileLine_renameFrom (f : PatchFile) (p : String) :
    parseFileLine f ("rename from ".toList ++ p.toList) = { f with renamed := true, oldPath := p } := by
  have hstrip := stripPrefixChars_append "rename from ".toList p.toList
  unfold parseFileLine
  rw [hstrip]
  simp only [String.ofList_toList]
  rfl

theorem parseFileLine_renameTo (f : PatchFile) (p : String) :
    parseFileLine f ("rename to ".toList ++ p.toList) = { f with renamed := true, newPath := p } := by
  have hstrip := stripPrefixChars_append "rename to ".toList p.toList
  have hfrom : stripPrefixChars "rename from ".toList ("rename to ".toList ++ p.toList) = none := rfl
  unfold parseFileLine
  rw [hfrom, hstrip]
  simp only [String.ofList_toList]
  rfl

theorem parse_moved (oldPath newPath : String) (files : List PatchFile) (f : PatchFile) :
    ["rename from ".toList ++ oldPath.toList, "rename to ".toList ++ newPath.toList].foldl parseLine
      (files ++ [f]) = files ++ [{ f with renamed := true, oldPath := oldPath, newPath := newPath }] := by
  rw [foldl_cons, parseLine_last rfl, parseFileLine_renameFrom, foldl_cons, parseLine_last rfl,
    parseFileLine_renameTo, foldl_nil]

theorem parseFileLine_similarity (hf : f.hunks = []) :
    parseFileLine f "similarity index 100%".toList = f := by
  unfold parseFileLine
  rw [hf]
  rfl

theorem parse_similarity (files : List PatchFile) (hf : f.hunks = []) :
    ["similarity index 100%".toList].foldl parseLine (files ++ [f]) = files ++ [f] := by
  rw [foldl_cons, parseLine_last rfl, parseFileLine_similarity hf, foldl_nil]

theorem parse_change (hdiff : Faithful diff) (h : CleanChange diff c) (files : List PatchFile) :
    (changeLines diff c).foldl parseLine files = files ++ [fileOf diff c] := by
  cases c with
  | added path content =>
    obtain ⟨⟨-, hside⟩, htext⟩ : (CleanPath path ∧ OneSided path) ∧ CleanDiff diff "" content := h
    unfold changeLines
    rw [foldl_cons, parseLine_section hside, foldl_cons, parseLine_last rfl,
      parse_unified hdiff htext _ _ _ rfl]
    rfl
  | deleted path content =>
    obtain ⟨⟨-, hside⟩, htext⟩ : (CleanPath path ∧ OneSided path) ∧ CleanDiff diff content "" := h
    unfold changeLines
    rw [foldl_cons, parseLine_section hside, foldl_cons, parseLine_last rfl,
      parse_unified hdiff htext _ _ _ rfl]
    rfl
  | edited oldPath newPath before content =>
    obtain ⟨-, hside, htext⟩ : (CleanPath oldPath ∧ CleanPath newPath) ∧ (oldPath = newPath → OneSided newPath) ∧
      (before ≠ content → CleanDiff diff before content) := h
    have hunified := fun hne f hf =>
      @parse_unified diff hdiff before content (htext hne) ("a/" ++ oldPath) ("b/" ++ newPath) files f hf
    unfold changeLines fileOf
    dsimp only
    by_cases hpath : oldPath = newPath
    · rw [foldl_cons, parseLine_section (hside hpath), foldl_append, if_neg (not_not.mpr hpath),
        foldl_nil, decide_eq_false (not_not.mpr hpath)]
      by_cases hsame : before = content
      · rw [if_neg (not_not.mpr hsame), if_neg (not_not.mpr hsame), foldl_nil]
      · rw [if_pos hsame, if_pos hsame, hunified hsame _ rfl]
    · -- the lines of the rename name the two paths again
      obtain ⟨o, n, hopen⟩ := parseLine_section_opens oldPath newPath files
      rw [foldl_cons, hopen, foldl_append, if_pos hpath, foldl_append, decide_eq_true hpath]
      by_cases hsame : before = content
      · rw [if_pos hsame, parse_similarity files rfl, parse_moved, if_neg (not_not.mpr hsame),
          if_neg (not_not.mpr hsame), foldl_nil]
      · rw [if_neg hsame, foldl_nil, parse_moved, if_pos hsame, if_pos hsame, hunified hsame _ rfl]

theorem whole_append {m : List Char} (hl : '\n' ∉ l) (hm : Whole m) (hne : m ≠ []) : Whole (l ++ m) := by
  refine ⟨fun h => (mem_append.mp h).elim hl hm.1, ?_⟩
  rw [getLast?_append]
  cases h : m.getLast? with
  | none => exact absurd (getLast?_eq_none_iff.mp h) hne
  | some c =>
    intro he
    exact hm.2 (h.trans he)

theorem whole_path (hl : '\n' ∉ l) (htail : l.getLast? ≠ some '\r') {p : String} (hp : CleanPath p) :
    Whole (l ++ p.toList) := by
  refine ⟨fun h => (mem_append.mp h).elim hl hp.line, ?_⟩
  rw [getLast?_append]
  cases h : p.toList.getLast? with
  | none => simpa using htail
  | some c =>
    intro he
    exact hp.tail (h.trans he)

theorem whole_lineChars (h : Plain e.2) : ∀ l ∈ lineChars e, Whole l := by
  obtain ⟨hnl, hcr, -⟩ := h.cases
  have hop : (toHunkLine e).op ≠ '\n' ∧ (toHunkLine e).op ≠ '\r' := by
    rcases op_cases e with he | he | he <;> rw [he] <;> decide
  intro l hl
  rcases mem_cons.mp hl with rfl | hl
  · refine ⟨fun hm => ?_, fun hlast => ?_⟩
    · rcases mem_cons.mp hm with he | hm
      · exact hop.1 he.symm
      · exact hnl hm
    · rcases mem_cons.mp (mem_of_getLast? hlast) with he | hm
      · exact hop.2 he.symm
      · exact hcr hm
  · split at hl
    · exact absurd hl (not_mem_nil)
    · rw [mem_singleton.mp hl]
      exact ⟨by decide, by decide⟩

theorem whole_hunkHeader (h : DiffHunk String) : Whole (hunkHeader h) := by
  have hrange : ∀ start len, '\n' ∉ rangeChars start len := fun start len =>
    rangeChars_plain (by decide) (by decide)
  have hend : Whole " @@".toList := ⟨by decide, by decide⟩
  have hnew := whole_append (hrange h.newStart (newSide h.lines).length) hend (by decide)
  have hplus := whole_append (l := ['+']) (by decide) hnew (by simp)
  have hspace := whole_append (l := [' ']) (by decide) hplus (by simp)
  have hold := whole_append (hrange h.oldStart (oldSide h.lines).length) hspace (by simp)
  have hminus := whole_append (l := ['-']) (by decide) hold (by simp)
  exact whole_append (l := "@@ ".toList) (by decide) hminus (by simp)

theorem whole_unifiedLines (hdiff : Faithful diff) {old new : String} (h : CleanDiff diff old new)
    {a b : String} (ha : Whole ("--- ".toList ++ a.toList)) (hb : Whole ("+++ ".toList ++ b.toList)) :
    ∀ l ∈ unifiedLines diff old new a b, Whole l := by
  have hplain := diff_plain hdiff h
  intro l hl
  unfold unifiedLines at hl
  dsimp only at hl
  split at hl
  · exact absurd hl (not_mem_nil)
  · rcases mem_cons.mp hl with rfl | hl
    · exact ha
    rcases mem_cons.mp hl with rfl | hl
    · exact hb
    obtain ⟨k, hk, hl⟩ := mem_flatMap.mp hl
    unfold hunkLines at hl
    rcases mem_cons.mp hl with rfl | hl
    · exact whole_hunkHeader k
    · obtain ⟨e, he, hl⟩ := mem_flatMap.mp hl
      exact whole_lineChars ((hplain k hk).2.1 e he) l hl

theorem whole_section {oldPath newPath : String} (hold : CleanPath oldPath) (hnew : CleanPath newPath) :
    Whole (sectionLine oldPath newPath) := by
  have hside := whole_path (l := " b/".toList) (by decide) (by decide) hnew
  have hrest := whole_append hold.line hside (append_ne_nil_of_left_ne_nil (by decide) _)
  refine whole_append (by decide) hrest ?_
  exact append_ne_nil_of_right_ne_nil _ (append_ne_nil_of_left_ne_nil (by decide) _)

theorem whole_name {mark side : String} (hmark : '\n' ∉ mark.toList) (hside : '\n' ∉ side.toList)
    (htail : (mark.toList ++ side.toList).getLast? ≠ some '\r') {p : String} (hp : CleanPath p) :
    Whole (mark.toList ++ (side ++ p).toList) := by
  rw [String.toList_append, ← append_assoc]
  exact whole_path (fun h => (mem_append.mp h).elim hmark hside) htail hp

theorem whole_changeLines (hdiff : Faithful diff) (h : CleanChange diff c) :
    ∀ l ∈ changeLines diff c, Whole l := by
  have hnull : Whole ("--- ".toList ++ "/dev/null".toList) := ⟨by decide, by decide⟩
  have hnull' : Whole ("+++ ".toList ++ "/dev/null".toList) := ⟨by decide, by decide⟩
  have hnames : ∀ {p : String}, CleanPath p →
      Whole ("--- ".toList ++ ("a/" ++ p).toList) ∧ Whole ("+++ ".toList ++ ("b/" ++ p).toList) := fun hp =>
    ⟨whole_name (by decide) (by decide) (by decide) hp, whole_name (by decide) (by decide) (by decide) hp⟩
  intro l hl
  cases c with
  | added path content =>
    obtain ⟨⟨hpath, -⟩, htext⟩ : (CleanPath path ∧ OneSided path) ∧ CleanDiff diff "" content := h
    rcases mem_cons.mp hl with rfl | hl
    · exact whole_section hpath hpath
    rcases mem_cons.mp hl with rfl | hl
    · exact ⟨by decide, by decide⟩
    exact whole_unifiedLines hdiff htext hnull (hnames hpath).2 l hl
  | deleted path content =>
    obtain ⟨⟨hpath, -⟩, htext⟩ : (CleanPath path ∧ OneSided path) ∧ CleanDiff diff content "" := h
    rcases mem_cons.mp hl with rfl | hl
    · exact whole_section hpath hpath
    rcases mem_cons.mp hl with rfl | hl
    · exact ⟨by decide, by decide⟩
    exact whole_unifiedLines hdiff htext (hnames hpath).1 hnull' l hl
  | edited oldPath newPath before content =>
    obtain ⟨⟨hold, hnew⟩, -, htext⟩ : (CleanPath oldPath ∧ CleanPath newPath) ∧
      (oldPath = newPath → OneSided newPath) ∧ (before ≠ content → CleanDiff diff before content) := h
    rcases mem_cons.mp hl with rfl | hl
    · exact whole_section hold hnew
    rcases mem_append.mp hl with hl | hl
    · split at hl
      · rcases mem_append.mp hl with hl | hl
        · split at hl
          · rw [mem_singleton.mp hl]
            exact ⟨by decide, by decide⟩
          · exact absurd hl (not_mem_nil)
        · rcases mem_cons.mp hl with rfl | hl
          · exact whole_path (by decide) (by decide) hold
          · rw [mem_singleton.mp hl]
            exact whole_path (by decide) (by decide) hnew
      · exact absurd hl (not_mem_nil)
    · split at hl
      · rename_i hne
        exact whole_unifiedLines hdiff (htext hne) (hnames hold).1 (hnames hnew).2 l hl
      · exact absurd hl (not_mem_nil)

theorem parsePatch_emitted (hdiff : Faithful diff) {cs : List NetChange} (h : ∀ c ∈ cs, CleanChange diff c) :
    parsePatch (String.join (cs.map (renderChange diff))) = cs.map (fileOf diff) := by
  have htext : (String.join (cs.map (renderChange diff))).toList = terminated (cs.flatMap (changeLines diff)) := by
    rw [String.toList_join, flatMap_map]
    induction cs with
    | nil => rfl
    | cons c cs ih =>
      rw [flatMap_cons, flatMap_cons, terminated_append,
        toList_renderChange hdiff (h c (.head _)), ih fun d hd => h d (.tail _ hd)]
  have hwhole : ∀ l ∈ cs.flatMap (changeLines diff), Whole l := by
    intro l hl
    obtain ⟨c, hc, hl⟩ := mem_flatMap.mp hl
    exact whole_changeLines hdiff (h c hc) l hl
  unfold parsePatch
  rw [lines_terminated hwhole htext]
  clear htext hwhole
  have hfold : ∀ files, (cs.flatMap (changeLines diff)).foldl parseLine files = files ++ cs.map (fileOf diff) := by
    induction cs with
    | nil => intro files; simp
    | cons c cs ih =>
      intro files
      rw [flatMap_cons, foldl_append, parse_change hdiff (h c (.head _)),
        ih fun d hd => h d (.tail _ hd)]
      simp
  exact hfold []

end Molt.Wiki
