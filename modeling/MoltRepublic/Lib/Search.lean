import Mathlib
import MoltRepublic.Lib.SortedMap

/-! A depth-first search for a cycle, with an explicit stack. What it leaves behind without
finding one is accessible: every descent from there ends. -/

namespace Molt.Search
open List SortedMap Option

inductive Color
  | path
  | done
  deriving DecidableEq

variable {α : Type*} [LinearOrder α] (links : α → List α) (here : α → Bool)

/-- One search from the stack: a node met on its own path, or the colors at the end.
Nothing where the fuel runs out. -/
def visit : Nat → SortedMap α Color → List (α × Nat) → Option (α ⊕ SortedMap α Color)
  | 0, _, _ => none
  | _ + 1, color, [] => some (.inr color)
  | fuel + 1, color, (node, i) :: stack =>
    match (links node)[i]? with
    | some next =>
      match color.get? next with
      | some .path => some (.inl next)
      | some .done => visit fuel color ((node, i + 1) :: stack)
      | none =>
        if here next then visit fuel (color.insert next .path) ((next, 0) :: (node, i + 1) :: stack)
        else visit fuel color ((node, i + 1) :: stack)
    | none => visit fuel (color.insert node .done) stack

def visitAll (fuel : Nat) : List α → SortedMap α Color → Option (α ⊕ SortedMap α Color)
  | [], color => some (.inr color)
  | root :: roots, color =>
    if (color.get? root).isSome || !here root then visitAll fuel roots color
    else match visit links here fuel (color.insert root .path) [(root, 0)] with
      | some (.inr color) => visitAll fuel roots color
      | other => other

def fuelOf (nodes : List α) : Nat := (nodes.map fun n => (links n).length + 1).sum + 1

def Follows (m n : α) : Prop := here m = true ∧ m ∈ links n

def Passed (color : SortedMap α Color) : Option α → List (α × Nat) → Prop
  | _, [] => True
  | above, (n, i) :: below =>
    (∀ m ∈ (links n).take i, here m = true → color.get? m = some .done ∨ above = some m) ∧
      Passed color (some n) below

structure Searching (color : SortedMap α Color) (stack : List (α × Nat)) : Prop where
  done : ∀ n, color.get? n = some .done → Acc (Follows links here) n
  path : ∀ n, color.get? n = some .path → n ∈ stack.map Prod.fst
  passed : Passed links here color none stack

def ahead (nodes : Finset α) (color : SortedMap α Color) (stack : List (α × Nat)) : Nat :=
  (∑ n ∈ nodes with color.get? n = none, ((links n).length + 1)) +
    (stack.map fun e => (links e.1).length - e.2 + 1).sum

section

variable {links here} {color : SortedMap α Color} {stack : List (α × Nat)} {node next : α} {i : Nat}

theorem Passed.mono {color' : SortedMap α Color}
    (hdone : ∀ m, color.get? m = some .done → color'.get? m = some .done) {above : Option α}
    (h : Passed links here color above stack) : Passed links here color' above stack := by
  induction stack generalizing above with
  | nil => trivial
  | cons e stack ih =>
    refine ⟨fun m hm hhere => ?_, ih h.2⟩
    exact (h.1 m hm hhere).imp_left (hdone m)

theorem Passed.lower {color' : SortedMap α Color}
    (hdone : ∀ m, color.get? m = some .done → color'.get? m = some .done)
    (hnode : color'.get? node = some .done) (h : Passed links here color (some node) stack) :
    Passed links here color' none stack := by
  cases stack with
  | nil => trivial
  | cons e stack =>
    refine ⟨fun m hm hhere => .inl ?_, h.2.mono hdone⟩
    rcases h.1 m hm hhere with hm | hm
    · exact hdone m hm
    · rw [← Option.some.inj hm]
      exact hnode

omit [LinearOrder α] in
theorem take_succ_of_getElem? {l : List α} (h : l[i]? = some next) : l.take (i + 1) = l.take i ++ [next] := by
  rw [take_add_one, h]
  rfl

theorem Searching.skip (h : Searching links here color ((node, i) :: stack))
    (hnext : (links node)[i]? = some next)
    (hpassed : here next = true → color.get? next = some .done) :
    Searching links here color ((node, i + 1) :: stack) := by
  refine ⟨h.done, h.path, ?_, h.passed.2⟩
  rw [take_succ_of_getElem? hnext]
  intro m hm hhere
  rcases mem_append.mp hm with hm | hm
  · exact h.passed.1 m hm hhere
  · obtain rfl := mem_singleton.mp hm
    exact .inl (hpassed hhere)

theorem Searching.descend (h : Searching links here color ((node, i) :: stack))
    (hnext : (links node)[i]? = some next) (hfree : color.get? next = none) :
    Searching links here (color.insert next .path) ((next, 0) :: (node, i + 1) :: stack) := by
  have hdone : ∀ m, color.get? m = some .done → (color.insert next .path).get? m = some .done := by
    intro m hm
    have hne : m ≠ next := by
      rintro rfl
      rw [hfree] at hm
      simp at hm
    rw [get?_insert, if_neg hne]
    exact hm
  refine ⟨fun n hn => ?_, fun n hn => ?_, ?_, ?_, ?_⟩
  · rw [get?_insert] at hn
    split_ifs at hn
    · simp at hn
    · exact h.done n hn
  · rw [get?_insert] at hn
    split_ifs at hn with heq
    · exact heq ▸ .head _
    · exact .tail _ (h.path n hn)
  · simp
  · rw [take_succ_of_getElem? hnext]
    intro m hm hhere
    rcases mem_append.mp hm with hm | hm
    · refine .inl (hdone m ?_)
      exact (h.passed.1 m hm hhere).resolve_right (by simp)
    · obtain rfl := mem_singleton.mp hm
      exact .inr rfl
  · exact h.passed.2.mono hdone

theorem Searching.finish (h : Searching links here color ((node, i) :: stack))
    (hend : (links node)[i]? = none) :
    Searching links here (color.insert node .done) stack := by
  have hall : (links node).take i = links node := take_of_length_le (List.getElem?_eq_none_iff.mp hend)
  have hacc : Acc (Follows links here) node := by
    refine Acc.intro node fun m hm => h.done m ?_
    have hmem : m ∈ (links node).take i := by
      rw [hall]
      exact hm.2
    exact (h.passed.1 m hmem hm.1).resolve_right (by simp)
  have hdone : ∀ m, color.get? m = some .done → (color.insert node .done).get? m = some .done := by
    intro m hm
    rw [get?_insert]
    split_ifs
    · rfl
    · exact hm
  refine ⟨fun n hn => ?_, fun n hn => ?_, h.passed.2.lower hdone ?_⟩
  · rw [get?_insert] at hn
    split_ifs at hn with heq
    · exact heq ▸ hacc
    · exact h.done n hn
  · rw [get?_insert] at hn
    split_ifs at hn with heq
    · simp at hn
    · exact (mem_cons.mp (h.path n hn)).resolve_left heq
  · rw [get?_insert, if_pos rfl]

variable {nodes : Finset α}

theorem ahead_skip (hnext : (links node)[i]? = some next) :
    ahead links nodes color ((node, i + 1) :: stack) < ahead links nodes color ((node, i) :: stack) := by
  have hlt : i < (links node).length := (List.getElem?_eq_some_iff.mp hnext).1
  simp only [ahead, map_cons, sum_cons]
  omega

theorem filter_insert (links : α → List α) (hmem : next ∈ nodes) (hfree : color.get? next = none) (c : Color) :
    (∑ n ∈ nodes with color.get? n = none, ((links n).length + 1)) =
      (∑ n ∈ nodes with (color.insert next c).get? n = none, ((links n).length + 1)) +
        ((links next).length + 1) := by
  have hsplit : nodes.filter (fun n => color.get? n = none) =
      insert next (nodes.filter fun n => (color.insert next c).get? n = none) := by
    ext n
    rw [Finset.mem_insert, Finset.mem_filter, Finset.mem_filter, get?_insert]
    by_cases hn : n = next
    · simp [hn, hmem, hfree]
    · simp [hn]
  rw [hsplit, Finset.sum_insert, add_comm]
  simp [get?_insert]

theorem ahead_descend (hnext : (links node)[i]? = some next) (hmem : next ∈ nodes)
    (hfree : color.get? next = none) :
    ahead links nodes (color.insert next .path) ((next, 0) :: (node, i + 1) :: stack) <
      ahead links nodes color ((node, i) :: stack) := by
  have hlt : i < (links node).length := (List.getElem?_eq_some_iff.mp hnext).1
  have hsum := filter_insert links hmem hfree .path
  simp only [ahead, map_cons, sum_cons]
  omega

theorem ahead_finish (nodes : Finset α) :
    ahead links nodes (color.insert node .done) stack < ahead links nodes color ((node, i) :: stack) := by
  have hle : (∑ n ∈ nodes with (color.insert node .done).get? n = none, ((links n).length + 1)) ≤
      ∑ n ∈ nodes with color.get? n = none, ((links n).length + 1) := by
    refine Finset.sum_le_sum_of_subset fun n hn => ?_
    rw [Finset.mem_filter, get?_insert] at hn
    rw [Finset.mem_filter]
    refine ⟨hn.1, ?_⟩
    by_contra hne
    split_ifs at hn
    · simp at hn
    · exact hne hn.2
  simp only [ahead, map_cons, sum_cons]
  omega

end

section

variable {links here} {nodes : Finset α}

theorem visit_spec (hnodes : ∀ n, here n = true → n ∈ nodes) (fuel : Nat) (color : SortedMap α Color)
    (stack : List (α × Nat)) (h : Searching links here color stack)
    (hfuel : ahead links nodes color stack < fuel) :
    (∃ a, visit links here fuel color stack = some (.inl a)) ∨
      ∃ color', visit links here fuel color stack = some (.inr color') ∧ Searching links here color' [] ∧
        ∀ n, (color.get? n).isSome → (color'.get? n).isSome := by
  induction fuel generalizing color stack with
  | zero => exact absurd hfuel (Nat.not_lt_zero _)
  | succ fuel ih =>
    cases stack with
    | nil => exact .inr ⟨color, rfl, h, fun _ hn => hn⟩
    | cons e stack =>
      obtain ⟨node, i⟩ := e
      have hstep : ∀ (color₁ : SortedMap α Color) (stack₁ : List (α × Nat)),
          Searching links here color₁ stack₁ →
          ahead links nodes color₁ stack₁ < ahead links nodes color ((node, i) :: stack) →
          (∀ n, (color.get? n).isSome → (color₁.get? n).isSome) →
          (∃ a, visit links here fuel color₁ stack₁ = some (.inl a)) ∨
            ∃ color', visit links here fuel color₁ stack₁ = some (.inr color') ∧
              Searching links here color' [] ∧ ∀ n, (color.get? n).isSome → (color'.get? n).isSome := by
        intro color₁ stack₁ h₁ hlt hkeeps
        refine (ih color₁ stack₁ h₁ (by omega)).imp_right ?_
        rintro ⟨color', heq, hend, hcolored⟩
        exact ⟨color', heq, hend, fun n hn => hcolored n (hkeeps n hn)⟩
      have hinsert : ∀ (a : α) (c : Color) (n : α), (color.get? n).isSome →
          ((color.insert a c).get? n).isSome := by
        intro a c n hn
        rw [get?_insert]
        split_ifs
        · rfl
        · exact hn
      unfold visit
      cases hnext : (links node)[i]? with
      | none => exact hstep _ _ (h.finish hnext) (ahead_finish nodes) (hinsert _ _)
      | some next =>
        dsimp only
        cases hcolor : color.get? next with
        | none =>
          split_ifs with hhere
          · exact hstep _ _ (h.descend hnext hcolor) (ahead_descend hnext (hnodes next hhere) hcolor)
              (hinsert _ _)
          · exact hstep _ _ (h.skip hnext fun ht => absurd ht hhere) (ahead_skip hnext) fun _ hn => hn
        | some c =>
          cases c with
          | path => exact .inl ⟨next, rfl⟩
          | done => exact hstep _ _ (h.skip hnext fun _ => hcolor) (ahead_skip hnext) fun _ hn => hn

variable {color : SortedMap α Color}

theorem Searching.start (h : Searching links here color []) (root : α) :
    Searching links here (color.insert root .path) [(root, 0)] := by
  refine ⟨fun n hn => ?_, fun n hn => ?_, by simp, trivial⟩
  · rw [get?_insert] at hn
    split_ifs at hn
    · simp at hn
    · exact h.done n hn
  · rw [get?_insert] at hn
    split_ifs at hn with heq
    · simp [heq]
    · exact absurd (h.path n hn) (by simp)

theorem Searching.acc {n : α} (h : Searching links here color []) (hn : (color.get? n).isSome) :
    Acc (Follows links here) n := by
  obtain ⟨c, hc⟩ := isSome_iff_exists.mp hn
  cases c with
  | path => simpa using h.path n hc
  | done => exact h.done n hc

theorem ahead_start_le {root : α} (hmem : root ∈ nodes) (hfree : color.get? root = none) :
    ahead links nodes (color.insert root .path) [(root, 0)] ≤
      ∑ n ∈ nodes, ((links n).length + 1) := by
  have hsum := filter_insert links hmem hfree .path
  have hle : (∑ n ∈ nodes with color.get? n = none, ((links n).length + 1)) ≤
      ∑ n ∈ nodes, ((links n).length + 1) := Finset.sum_le_sum_of_subset (Finset.filter_subset ..)
  simp only [ahead, map_cons, map_nil, sum_cons, sum_nil]
  omega

theorem visitAll_spec (hnodes : ∀ n, here n = true → n ∈ nodes) {fuel : Nat}
    (hfuel : ∑ n ∈ nodes, ((links n).length + 1) < fuel) (roots : List α) (color : SortedMap α Color)
    (h : Searching links here color []) :
    (∃ a, visitAll links here fuel roots color = some (.inl a)) ∨
      ∃ color', visitAll links here fuel roots color = some (.inr color') ∧
        ∀ r ∈ roots, here r = true → Acc (Follows links here) r := by
  induction roots generalizing color with
  | nil => exact .inr ⟨color, rfl, by simp⟩
  | cons root roots ih =>
    unfold visitAll
    by_cases hskip : ((color.get? root).isSome || !here root) = true
    · rw [if_pos hskip]
      refine (ih color h).imp_right ?_
      rintro ⟨color', heq, hacc⟩
      refine ⟨color', heq, fun r hr hhere => ?_⟩
      rcases mem_cons.mp hr with rfl | hr
      · rw [hhere, Bool.not_true, Bool.or_false] at hskip
        exact h.acc hskip
      · exact hacc r hr hhere
    · rw [if_neg hskip]
      have hfree : color.get? root = none := by
        by_contra hne
        exact hskip (by simp [isSome_iff_ne_none.mpr hne])
      have hhere : here root = true := by
        by_contra hne
        exact hskip (by simp [hne])
      have hrun := visit_spec hnodes fuel _ _ (h.start root)
        (lt_of_le_of_lt (ahead_start_le (hnodes root hhere) hfree) hfuel)
      rcases hrun with ⟨a, heq⟩ | ⟨color₁, heq, hend, hcolored⟩
      · rw [heq]
        exact .inl ⟨a, rfl⟩
      · rw [heq]
        refine (ih color₁ hend).imp_right ?_
        rintro ⟨color', heq', hacc⟩
        refine ⟨color', heq', fun r hr hr' => ?_⟩
        rcases mem_cons.mp hr with rfl | hr
        · exact hend.acc (hcolored r (by simp [get?_insert]))
        · exact hacc r hr hr'

theorem searching_empty : Searching links here SortedMap.empty [] :=
  ⟨nofun, nofun, trivial⟩

end

section

variable {links here} {root a : α}

def Stacked (links : α → List α) (here : α → Bool) (root : α) : List α → Prop
  | [] => True
  | [n] => n = root
  | m :: n :: below => Follows links here m n ∧ Stacked links here root (n :: below)

omit [LinearOrder α] in
theorem Stacked.reaches {m n : α} {below : List α} (h : Stacked links here root (n :: below)) (hm : m ∈ n :: below) :
    Relation.ReflTransGen (Follows links here) n m ∧ Relation.ReflTransGen (Follows links here) m root := by
  induction below generalizing n m with
  | nil =>
    obtain rfl : n = root := h
    obtain rfl := mem_singleton.mp hm
    exact ⟨.refl, .refl⟩
  | cons k below ih =>
    rcases mem_cons.mp hm with rfl | hm
    · exact ⟨.refl, .head h.1 (ih h.2 (.head _)).2⟩
    · obtain ⟨hup, hdown⟩ := ih h.2 hm
      exact ⟨.head h.1 hup, hdown⟩

omit [LinearOrder α] in
theorem Stacked.here_of_mem {stack : List α} (h : Stacked links here root stack) (hroot : here root = true)
    {m : α} (hm : m ∈ stack) : here m = true := by
  cases stack with
  | nil => exact absurd hm not_mem_nil
  | cons n below =>
    rcases Relation.ReflTransGen.cases_head (h.reaches hm).2 with heq | ⟨k, hk, -⟩
    · exact heq ▸ hroot
    · exact hk.1

theorem visit_found (hroot : here root = true) {fuel : Nat} {color : SortedMap α Color} {stack : List (α × Nat)}
    (h : Searching links here color stack) (hs : Stacked links here root (stack.map Prod.fst))
    (hfound : visit links here fuel color stack = some (.inl a)) :
    Relation.TransGen (Follows links here) a a ∧ Relation.ReflTransGen (Follows links here) a root := by
  induction fuel generalizing color stack with
  | zero => cases hfound
  | succ fuel ih =>
    cases stack with
    | nil => cases hfound
    | cons e stack =>
      obtain ⟨node, i⟩ := e
      unfold visit at hfound
      cases hnext : (links node)[i]? with
      | none =>
        rw [hnext] at hfound
        refine ih (h.finish hnext) ?_ hfound
        cases hbelow : stack.map Prod.fst with
        | nil => trivial
        | cons n below =>
          rw [map_cons, hbelow] at hs
          exact hs.2
      | some next =>
        rw [hnext] at hfound
        dsimp only at hfound
        cases hcolor : color.get? next with
        | none =>
          rw [hcolor] at hfound
          split_ifs at hfound with hhere
          · exact ih (h.descend hnext hcolor) ⟨⟨hhere, mem_of_getElem? hnext⟩, hs⟩ hfound
          · exact ih (h.skip hnext fun ht => absurd ht hhere) hs hfound
        | some c =>
          rw [hcolor] at hfound
          cases c with
          | path =>
            obtain rfl : next = a := Sum.inl.inj (Option.some.inj hfound)
            have hmem := h.path next hcolor
            obtain ⟨hup, hdown⟩ := hs.reaches hmem
            have hlink : Follows links here next node := ⟨hs.here_of_mem hroot hmem, mem_of_getElem? hnext⟩
            exact ⟨Relation.TransGen.head' hlink hup, hdown⟩
          | done => exact ih (h.skip hnext fun _ => hcolor) hs hfound

theorem visitAll_found {nodes : Finset α} (hnodes : ∀ n, here n = true → n ∈ nodes) {fuel : Nat}
    (hfuel : ∑ n ∈ nodes, ((links n).length + 1) < fuel) {roots : List α} {color : SortedMap α Color}
    (h : Searching links here color []) (hfound : visitAll links here fuel roots color = some (.inl a)) :
    Relation.TransGen (Follows links here) a a ∧
      ∃ root ∈ roots, here root = true ∧ Relation.ReflTransGen (Follows links here) a root := by
  induction roots generalizing color with
  | nil => cases hfound
  | cons root roots ih =>
    have hrest : ∀ {color' : SortedMap α Color}, Searching links here color' [] →
        visitAll links here fuel roots color' = some (.inl a) → Relation.TransGen (Follows links here) a a ∧
          ∃ root' ∈ root :: roots, here root' = true ∧ Relation.ReflTransGen (Follows links here) a root' := by
      intro color' h' hfound'
      obtain ⟨hcycle, r, hr, hreach⟩ := ih h' hfound'
      exact ⟨hcycle, r, .tail _ hr, hreach⟩
    unfold visitAll at hfound
    split_ifs at hfound with hskip
    · exact hrest h hfound
    · have hfree : color.get? root = none := by
        by_contra hne
        exact hskip (by simp [isSome_iff_ne_none.mpr hne])
      have hhere : here root = true := by
        by_contra hne
        exact hskip (by simp [hne])
      rcases visit_spec hnodes fuel _ _ (h.start root)
        (lt_of_le_of_lt (ahead_start_le (hnodes root hhere) hfree) hfuel) with ⟨b, heq⟩ | ⟨color₁, heq, hend, -⟩
      · rw [heq] at hfound
        obtain rfl : b = a := Sum.inl.inj (Option.some.inj hfound)
        obtain ⟨hcycle, hreach⟩ := visit_found hhere (h.start root) rfl heq
        exact ⟨hcycle, root, .head _, hhere, hreach⟩
      · rw [heq] at hfound
        exact hrest hend hfound

end

theorem not_transGen_self {β : Type*} {r : β → β → Prop} {a : β} (h : Acc r a) : ¬ Relation.TransGen r a a := by
  have hacc : Acc (Relation.TransGen r) a := h.transGen
  induction hacc with
  | intro a _ ih => exact fun hcycle => ih a hcycle (h.inv_of_transGen hcycle) hcycle

end Molt.Search
