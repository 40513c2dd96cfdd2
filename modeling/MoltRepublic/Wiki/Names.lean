import Mathlib
import MoltRepublic.Wiki.Graph

/-! What a wiki name means, and the edges resolved by it: a name binds to the one document that
carries it, unless that document states it as an alias twice. -/

namespace Molt.Wiki
open Molt.Core Text List SortedMap
open Option hiding filter_map mem_map_of_mem

def named (name path : String) (_ : DocMeta) : Bool := basename path = name || stem path = some name

def aliased (name _path : String) (m : DocMeta) : Bool := m.aliases.contains name

def titled (name _path : String) (m : DocMeta) : Bool := m.headerTitle = some name

def carriers (R : DocReader) (tree : Tree) (carries : String → DocMeta → Bool) : List String :=
  (tree.entries.filter fun e => carries e.1 (R.docMeta e.2)).map Prod.fst

def meant (R : DocReader) (tree : Tree) (name : String) : Option String :=
  if (tree.get? name).isSome then some name
  else (unique (carriers R tree (named name))).or
    ((unique (carriers R tree (aliased name))).or (unique (carriers R tree (titled name))))

/-- Where only the aliases of one document carry the name, it states the name once, or its title does too. -/
def StatedOnce (R : DocReader) (tree : Tree) (name : String) : Prop :=
  ∀ path content, tree.get? path = some content → carriers R tree (aliased name) = [path] →
    (tree.get? name).isSome ∨ (unique (carriers R tree (named name))).isSome ∨
      (R.docMeta content).aliases.count name = 1 ∨ unique (carriers R tree (titled name)) = some path

variable {R : DocReader} {tree : Tree} {name : String}

theorem build_docs (R : DocReader) (tree : Tree) : (WikiGraph.build R tree).docs = tree.map R.docMeta := by
  apply ext_get?
  intro path
  rw [get?_map]
  exact (describes_build tree path not_mem_nil).docs

theorem build_raw (R : DocReader) (tree : Tree) (path : String) :
    (WikiGraph.build R tree).raw.get? path = (tree.get? path).map (rawEdgesOf R) :=
  (describes_build tree path not_mem_nil).raw

theorem unique_eq_some {l : List String} {x : String} : unique l = some x ↔ l = [x] := by
  constructor
  · intro h
    unfold unique at h
    split at h
    · rw [Option.some.inj h]
    · cases h
  · rintro rfl
    rfl

theorem unique_eq_none {l : List String} (h : l.length ≠ 1) : unique l = none := by
  cases hl : unique l with
  | none => rfl
  | some x =>
    rw [unique_eq_some.mp hl] at h
    exact absurd rfl h

theorem stem_ne_basename {path : String} (h : stem path = some (basename path)) : False := by
  obtain ⟨rest, hrest, heq⟩ := map_eq_some_iff.mp h
  have hcut := congrArg List.length (stripPrefixChars_eq_some.mp hrest)
  have hlen := congrArg List.length (congrArg String.toList heq)
  rw [String.toList_ofList, length_reverse] at hlen
  rw [length_reverse, length_append, hlen] at hcut
  simp at hcut

theorem byName_eq (R : DocReader) (tree : Tree) (name : String) :
    byName (tree.map R.docMeta) name = carriers R tree (named name) := by
  unfold byName carriers SortedMap.map
  dsimp only
  induction tree.entries with
  | nil => rfl
  | cons e l ih =>
    rw [map_cons, flatMap_cons, ih, filter_cons]
    by_cases hbase : basename e.1 = name
    · have hstem : stem e.1 ≠ some name := fun h => stem_ne_basename (hbase ▸ h)
      rw [if_pos hbase, if_neg hstem, if_pos (by simp [named, hbase])]
      rfl
    · by_cases hstem : stem e.1 = some name
      · rw [if_neg hbase, if_pos hstem, if_pos (by simp [named, hstem])]
        rfl
      · rw [if_neg hbase, if_neg hstem, if_neg (by simp [named, hbase, hstem])]
        rfl

theorem byTitle_eq (R : DocReader) (tree : Tree) (name : String) :
    byTitle (tree.map R.docMeta) name = carriers R tree (titled name) := by
  unfold byTitle carriers SortedMap.map
  dsimp only
  induction tree.entries with
  | nil => rfl
  | cons e l ih =>
    rw [map_cons, flatMap_cons, ih, filter_cons]
    by_cases htitle : (R.docMeta e.2).headerTitle = some name
    · rw [if_pos htitle, if_pos (by simp [titled, htitle])]
      rfl
    · rw [if_neg htitle, if_neg (by simp [titled, htitle])]
      rfl

theorem byAlias_eq (R : DocReader) (tree : Tree) (name : String) :
    byAlias (tree.map R.docMeta) name =
      (tree.entries.filter fun e => aliased name e.1 (R.docMeta e.2)).flatMap fun e =>
        List.replicate ((R.docMeta e.2).aliases.count name) e.1 := by
  unfold byAlias SortedMap.map
  dsimp only
  induction tree.entries with
  | nil => rfl
  | cons e l ih =>
    have hown : ((R.docMeta e.2).aliases.filter (· = name)).map (fun _ => e.1) =
        List.replicate ((R.docMeta e.2).aliases.count name) e.1 := by
      have hcount : ((R.docMeta e.2).aliases.filter (· = name)).length = (R.docMeta e.2).aliases.count name := by
        rw [count_eq_length_filter]
        rfl
      rw [map_const', hcount]
    rw [map_cons, flatMap_cons, ih, hown, filter_cons]
    by_cases hmem : name ∈ (R.docMeta e.2).aliases
    · rw [if_pos (by simp [aliased, hmem]), flatMap_cons]
    · rw [if_neg (by simp [aliased, hmem]), count_eq_zero.mpr hmem]
      rfl

theorem bindName_build (R : DocReader) (tree : Tree) (name : String) :
    bindName (WikiGraph.build R tree).docs name =
      if (tree.get? name).isSome then some name
      else (unique (carriers R tree (named name))).or
        ((unique (byAlias (tree.map R.docMeta) name)).or (unique (carriers R tree (titled name)))) := by
  rw [build_docs]
  unfold bindName
  rw [get?_map, isSome_map, byName_eq, byTitle_eq]

theorem byAlias_of_one {path content : String} (hget : tree.get? path = some content)
    (hone : carriers R tree (aliased name) = [path]) :
    byAlias (tree.map R.docMeta) name = List.replicate ((R.docMeta content).aliases.count name) path := by
  obtain ⟨e, hfilter, rfl⟩ := map_eq_singleton_iff.mp hone
  have hmem : e ∈ tree.entries := mem_of_mem_filter (hfilter ▸ mem_singleton_self e)
  have hcontent : e.2 = content := Option.some.inj ((get?_eq_some.mpr hmem).symm.trans hget)
  rw [byAlias_eq, hfilter, flatMap_singleton, hcontent]

theorem unique_byAlias_of_many (hmany : ∀ path, carriers R tree (aliased name) ≠ [path]) :
    unique (byAlias (tree.map R.docMeta) name) = none := by
  have hstates : ∀ e ∈ tree.entries.filter (fun e => aliased name e.1 (R.docMeta e.2)),
      0 < (R.docMeta e.2).aliases.count name := fun e he =>
    count_pos_iff.mpr (by simpa [aliased] using (mem_filter.mp he).2)
  rw [byAlias_eq]
  apply unique_eq_none
  rcases hl : tree.entries.filter (fun e => aliased name e.1 (R.docMeta e.2)) with _ | ⟨e, _ | ⟨e', rest⟩⟩
  · rw [hl]
    exact Nat.zero_ne_one
  · exact absurd (congrArg (List.map Prod.fst) hl) (hmany e.1)
  · have he := hstates e (hl ▸ .head _)
    have he' := hstates e' (hl ▸ .tail _ (.head _))
    rw [hl, flatMap_cons, flatMap_cons, length_append, length_append, length_replicate,
      length_replicate]
    omega

theorem bindName_eq_meant (R : DocReader) (tree : Tree) (name : String) :
    bindName (WikiGraph.build R tree).docs name = meant R tree name ↔ StatedOnce R tree name := by
  rw [bindName_build]
  unfold meant StatedOnce
  by_cases hpath : (tree.get? name).isSome = true
  · simp [hpath]
  rw [if_neg hpath, if_neg hpath]
  cases hbase : unique (carriers R tree (named name)) with
  | some p => simp
  | none =>
    by_cases hone : ∃ path, carriers R tree (aliased name) = [path]
    · obtain ⟨path, hone⟩ := hone
      have hheld : ∃ content, tree.get? path = some content := by
        obtain ⟨e, hfilter, rfl⟩ := map_eq_singleton_iff.mp hone
        exact ⟨e.2, get?_eq_some.mpr (mem_of_mem_filter (hfilter ▸ mem_singleton_self e))⟩
      obtain ⟨content, hget⟩ := hheld
      rw [byAlias_of_one hget hone, hone, unique_eq_some.mpr rfl, some_or]
      by_cases hcount : (R.docMeta content).aliases.count name = 1
      · rw [hcount]
        refine iff_of_true rfl fun path' content' hget' heq => .inr (.inr (.inl ?_))
        obtain rfl := (List.cons.inj heq).1
        rwa [Option.some.inj (hget'.symm.trans hget)]
      · have hnone : unique (List.replicate ((R.docMeta content).aliases.count name) path) = none :=
          unique_eq_none (by rwa [length_replicate])
        rw [hnone, none_or]
        constructor
        · intro htitle path' content' _ heq
          obtain rfl := (List.cons.inj heq).1
          exact .inr (.inr (.inr htitle))
        · intro hstated
          rcases hstated path content hget rfl with h | h | h | h
          · exact absurd h hpath
          · cases h
          · exact absurd h hcount
          · exact h
    · have hmany : ∀ path, carriers R tree (aliased name) ≠ [path] := fun path heq => hone ⟨path, heq⟩
      have hnone : unique (carriers R tree (aliased name)) = none := by
        cases hl : unique (carriers R tree (aliased name)) with
        | none => rfl
        | some x => exact absurd (unique_eq_some.mp hl) (hmany x)
      rw [unique_byAlias_of_many hmany, hnone]
      exact iff_of_true rfl fun path content _ heq => absurd heq (hmany path)

def written (s : GraphSources) : List (String × RawEdge) := s.raw.entries.flatMap fun e => e.2.map (e.1, ·)

def bound (docs : SortedMap String DocMeta) (x : String × RawEdge) : Option (String × Edge) :=
  (bindName docs x.2.target).map fun target => (x.1, ⟨target, x.2.predicate, x.2.header⟩)

def turned (e : String × Edge) : String × Edge := (e.2.to_, ⟨e.1, e.2.predicate, e.2.header⟩)

def loose (docs : SortedMap String DocMeta) (x : String × RawEdge) : Option (String × (String × Edge)) :=
  if bindName docs x.2.target = none then some (x.2.target, (x.1, ⟨x.2.target, x.2.predicate, x.2.header⟩)) else none

/-- The edge maps say what was written: out and dangling share the raw edges out, and inn is out turned around. -/
structure EdgesExact (g : WikiGraph) : Prop where
  out : ∀ src, (g.out.get? src).getD [] = ((g.raw.get? src).getD []).filterMap fun raw =>
    (bindName g.docs raw.target).map fun target => ⟨target, raw.predicate, raw.header⟩
  dangling : ∀ target src, ((g.dangling.get? target).getD []).filter (·.1 = src) =
    ((g.raw.get? src).getD []).filterMap fun raw =>
      if raw.target = target ∧ bindName g.docs raw.target = none then
        some (src, ⟨target, raw.predicate, raw.header⟩) else none
  inn : ∀ src target predicate header,
    ((g.inn.get? target).getD []).count ⟨src, predicate, header⟩ =
      ((g.out.get? src).getD []).count ⟨target, predicate, header⟩

theorem foldl_resolveEdge (docs : SortedMap String DocMeta) (l : List (String × RawEdge)) (r : Resolved) :
    l.foldl (fun r x => resolveEdge docs x.1 r x.2) r =
      { out := (l.filterMap (bound docs)).foldl (fun m e => m.push e.1 e.2) r.out
        inn := ((l.filterMap (bound docs)).map turned).foldl (fun m e => m.push e.1 e.2) r.inn
        dangling := (l.filterMap (loose docs)).foldl (fun m e => m.push e.1 e.2) r.dangling } := by
  induction l generalizing r with
  | nil => rfl
  | cons x l ih =>
    rw [foldl_cons, ih]
    unfold resolveEdge
    cases hbind : bindName docs x.2.target with
    | none =>
      have hloose : loose docs x = some (x.2.target, (x.1, ⟨x.2.target, x.2.predicate, x.2.header⟩)) := if_pos hbind
      have hbound : bound docs x = none := by rw [bound, hbind, map_none]
      rw [filterMap_cons_none hbound, filterMap_cons_some hloose]
      rfl
    | some target =>
      have hloose : loose docs x = none := if_neg (by rw [hbind]; exact some_ne_none target)
      have hbound : bound docs x = some (x.1, ⟨target, x.2.predicate, x.2.header⟩) := by
        rw [bound, hbind, map_some]
      rw [filterMap_cons_some hbound, filterMap_cons_none hloose]
      rfl

variable (s : GraphSources)

theorem resolve_edges :
    (resolve s).out = ((written s).filterMap (bound s.docs)).foldl (fun m e => m.push e.1 e.2) SortedMap.empty ∧
    (resolve s).inn =
      (((written s).filterMap (bound s.docs)).map turned).foldl (fun m e => m.push e.1 e.2) SortedMap.empty ∧
    (resolve s).dangling =
      ((written s).filterMap (loose s.docs)).foldl (fun m e => m.push e.1 e.2) SortedMap.empty := by
  have hfold : s.raw.entries.foldl (fun r e => e.2.foldl (resolveEdge s.docs e.1) r) {} =
      (written s).foldl (fun r x => resolveEdge s.docs x.1 r x.2) {} := by
    unfold written
    rw [foldl_flatMap]
    simp [foldl_map]
  unfold resolve
  dsimp only
  rw [hfold, foldl_resolveEdge]
  exact ⟨rfl, rfl, rfl⟩

theorem filter_written (src : String) :
    (written s).filter (·.1 = src) = ((s.raw.get? src).getD []).map (src, ·) := by
  have hnodup := s.raw.keys_nodup
  unfold written SortedMap.get?
  generalize s.raw.entries = l at hnodup ⊢
  induction l with
  | nil => rfl
  | cons e l ih =>
    obtain ⟨hnot, hrest⟩ := nodup_cons.mp hnodup
    rw [flatMap_cons, filter_append, ih hrest, lookup_cons_ite]
    by_cases hsrc : src = e.1
    · have hnone : l.lookup src = none := by
        rw [lookup_eq_none_iff]
        intro a ha
        have hne : src ≠ a.1 := fun heq => hnot (hsrc ▸ heq ▸ mem_map_of_mem ha)
        simpa using hne
      rw [if_pos hsrc, hnone, hsrc]
      simp
    · rw [if_neg hsrc]
      have hother : (e.2.map (e.1, ·)).filter (fun x => decide (x.1 = src)) = [] := by
        rw [filter_map, filter_eq_nil_iff.mpr (by simp [Ne.symm hsrc]), map_nil]
      rw [hother, nil_append]

theorem filter_filterMap_of {α β : Type*} {f : α → Option β} {p : α → Bool} {q : β → Bool}
    (h : ∀ x y, f x = some y → q y = p x) (l : List α) : (l.filterMap f).filter q = (l.filter p).filterMap f := by
  induction l with
  | nil => rfl
  | cons x l ih =>
    cases hx : f x with
    | none =>
      rw [filterMap_cons_none hx, ih, filter_cons]
      split_ifs
      · rw [filterMap_cons_none hx]
      · rfl
    | some y =>
      rw [filterMap_cons_some hx, filter_cons, filter_cons, h x y hx, ih]
      split_ifs
      · rw [filterMap_cons_some hx]
      · rfl

theorem count_filter_snd {α β : Type*} [DecidableEq α] [DecidableEq β] (l : List (α × β)) (a : α) (b : β) :
    ((l.filter (·.1 = a)).map Prod.snd).count b = l.count (a, b) := by
  induction l with
  | nil => rfl
  | cons e l ih =>
    obtain ⟨c, d⟩ := e
    rw [filter_cons]
    by_cases hc : c = a
    · rw [if_pos (decide_eq_true hc), map_cons, count_cons, count_cons, ih]
      simp [hc]
    · rw [if_neg (by simpa using hc), ih, count_cons, if_neg (by simp [hc])]
      rfl

theorem turned_turned (e : String × Edge) : turned (turned e) = e := rfl

theorem bound_fst {docs : SortedMap String DocMeta} {x : String × RawEdge} {y : String × Edge}
    (h : bound docs x = some y) : y.1 = x.1 := by
  obtain ⟨target, -, rfl⟩ := map_eq_some_iff.mp h
  rfl

theorem loose_fst {docs : SortedMap String DocMeta} {x : String × RawEdge} {y : String × (String × Edge)}
    (h : loose docs x = some y) : y.2.1 = x.1 := by
  unfold loose at h
  split_ifs at h
  cases h
  rfl

theorem resolve_exact : EdgesExact (resolve s) := by
  obtain ⟨hout, hinn, hdangling⟩ := resolve_edges s
  have houts : ∀ src, ((resolve s).out.get? src).getD [] =
      (((written s).filterMap (bound s.docs)).filter (·.1 = src)).map Prod.snd := by
    intro src
    rw [hout, getD_foldl_push]
    rfl
  refine ⟨fun src => ?_, fun target src => ?_, fun src target predicate header => ?_⟩
  · rw [houts, filter_filterMap_of (p := (·.1 = src)) (fun x y h => by rw [bound_fst h]), filter_written,
      filterMap_map, map_filterMap]
    apply filterMap_congr
    intro raw _
    show ((bindName s.docs raw.target).map _).map Prod.snd = _
    rw [Option.map_map]
    rfl
  · have hsplit : (((written s).filterMap (loose s.docs)).filter (·.1 = target)).filter (·.2.1 = src) =
        ((((s.raw.get? src).getD []).map (src, ·)).filterMap (loose s.docs)).filter (·.1 = target) := by
      rw [filter_comm, filter_filterMap_of (p := (·.1 = src)) (fun x y h => by rw [loose_fst h]), filter_written]
    have hraw : ∀ raw : RawEdge, ((loose s.docs (src, raw)).filter (·.1 = target)).map Prod.snd =
        if raw.target = target ∧ bindName s.docs raw.target = none then
          some (src, ⟨target, raw.predicate, raw.header⟩) else none := by
      intro raw
      unfold loose
      by_cases hbind : bindName s.docs raw.target = none
      · by_cases htarget : raw.target = target
        · subst htarget
          simp [hbind]
        · simp [hbind, htarget]
      · simp [hbind]
    rw [hdangling, getD_foldl_push, get?_empty, getD_none, nil_append, filter_map]
    show (List.filter (fun x : String × (String × Edge) => decide (x.2.1 = src)) _).map Prod.snd = _
    rw [hsplit, filterMap_map, filter_filterMap, map_filterMap]
    apply filterMap_congr
    intro raw _
    exact hraw raw
  · have hinj : Function.Injective turned := Function.LeftInverse.injective turned_turned
    rw [houts, hinn, getD_foldl_push, get?_empty, getD_none, nil_append,
      count_filter_snd, count_filter_snd]
    exact count_map_of_injective _ turned hinj (src, ⟨target, predicate, header⟩)

/-- Names bind to their one carrier, and the edges say what was written, for the trees in which no name rests
on one document that states it as an alias twice. -/
theorem names_bind_to_carriers (R : DocReader) (tree : Tree) :
    ((∀ name, bindName (WikiGraph.build R tree).docs name = meant R tree name) ∧
        EdgesExact (WikiGraph.build R tree) ∧
        ∀ path, (WikiGraph.build R tree).raw.get? path = (tree.get? path).map (rawEdgesOf R)) ↔
      ∀ name, StatedOnce R tree name := by
  constructor
  · rintro ⟨hbind, -, -⟩ name
    exact (bindName_eq_meant R tree name).mp (hbind name)
  · intro hstated
    exact ⟨fun name => (bindName_eq_meant R tree name).mpr (hstated name), resolve_exact _, build_raw R tree⟩

/-- The reader of a page whose header says `aliases: [X, X]`. -/
def twiceReader : DocReader where
  docMeta content := ⟨none, none, none, if content = "---\naliases: [X, X]\n---\n" then ["X", "X"] else []⟩
  headerEdges _ := []
  headerPairs _ := []
  quests _ := []
  bodyLinks content := if content = "[[X]]\n" then [⟨"X", none⟩] else []

def twiceTree : Tree :=
  (SortedMap.empty.insert "a.md" "---\naliases: [X, X]\n---\n").insert "b.md" "[[X]]\n"

theorem alias_twice_binds_nothing :
    meant twiceReader twiceTree "X" = some "a.md" ∧ bindName (WikiGraph.build twiceReader twiceTree).docs "X" = none ∧
      ((WikiGraph.build twiceReader twiceTree).dangling.get? "X").isSome = true := by
  decide +kernel

end Molt.Wiki
