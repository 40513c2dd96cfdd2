import Mathlib
import MoltRepublic.Wiki.Fold

/-! The link graph of the folded tree (`WikiGraph`): what each document says, and the edges
resolved over all of them. An update re-reads the touched documents and resolves again, so
it reaches the graph a build would. -/

namespace Molt.Wiki
open Molt.Core Text List SortedMap Option

/-- `DocMeta`: what a listing needs about one document. -/
structure DocMeta where
  title : Option String
  headerTitle : Option String
  kind : Option String
  aliases : List String
  deriving DecidableEq

structure RawEdge where
  target : String
  predicate : Option String
  header : Bool
  deriving DecidableEq

structure BodyLink where
  target : String
  predicate : Option String
  deriving DecidableEq

structure Edge where
  to_ : String
  predicate : Option String
  header : Bool
  deriving DecidableEq

/-- The readers of one document: its header (`front_matter`) and its markdown body. -/
structure DocReader where
  docMeta : String → DocMeta
  /-- `collect_typed` over the header. -/
  headerEdges : String → List RawEdge
  /-- `scalar_strings` over the header, beside their keys. -/
  headerPairs : String → List (String × String)
  /-- The well-formed quest references of the body. -/
  quests : String → List String
  bodyLinks : String → List BodyLink

structure GraphSources where
  docs : SortedMap String DocMeta := SortedMap.empty
  raw : SortedMap String (List RawEdge) := SortedMap.empty
  props : SortedMap String (List (String × String)) := SortedMap.empty
  quests : SortedMap String (List String) := SortedMap.empty

structure WikiGraph extends GraphSources where
  inventory : SortedMap String (SortedMap String Nat)
  out : SortedMap String (List Edge)
  inn : SortedMap String (List Edge)
  dangling : SortedMap String (List (String × Edge))

def rawEdgesOf (R : DocReader) (content : String) : List RawEdge :=
  R.headerEdges content ++ (R.bodyLinks content).map fun l => ⟨l.target, l.predicate, false⟩

def pairsOf (R : DocReader) (content : String) : List (String × String) :=
  (R.bodyLinks content).foldl (fun pairs l =>
    match l.predicate with
    | none => pairs
    | some pred => if pairs.contains (pred, l.target) then pairs else pairs ++ [(pred, l.target)])
    (R.headerPairs content)

def reparse (R : DocReader) (s : GraphSources) (path : String) : Option String → GraphSources
  | none => ⟨s.docs.erase path, s.raw.erase path, s.props.erase path, s.quests.erase path⟩
  | some content =>
    { docs := s.docs.insert path (R.docMeta content)
      raw := s.raw.insert path (rawEdgesOf R content)
      props := s.props.insert path (pairsOf R content)
      quests :=
        if (R.quests content).isEmpty then s.quests.erase path else s.quests.insert path (R.quests content) }

def basename (path : String) : String := String.ofList ((segmentsFrom path.toList []).getLast?.getD [])

/-- The basename without `.md`. -/
def stem (path : String) : Option String :=
  (stripPrefixChars "dm.".toList (basename path).toList.reverse).map fun rest => String.ofList rest.reverse

def byName (docs : SortedMap String DocMeta) (name : String) : List String :=
  docs.entries.flatMap fun d =>
    (if basename d.1 = name then [d.1] else []) ++ (if stem d.1 = some name then [d.1] else [])

def byAlias (docs : SortedMap String DocMeta) (name : String) : List String :=
  docs.entries.flatMap fun d => (d.2.aliases.filter (· = name)).map fun _ => d.1

def byTitle (docs : SortedMap String DocMeta) (name : String) : List String :=
  docs.entries.flatMap fun d => if d.2.headerTitle = some name then [d.1] else []

def unique : List String → Option String
  | [path] => some path
  | _ => none

/-- `NameIndex::bind`: the path itself, else a unique basename or stem, alias or title. -/
def bindName (docs : SortedMap String DocMeta) (name : String) : Option String :=
  if (docs.get? name).isSome then some name
  else (unique (byName docs name)).or ((unique (byAlias docs name)).or (unique (byTitle docs name)))

def pushAt {ν : Type} (m : SortedMap String (List ν)) (key : String) (v : ν) : SortedMap String (List ν) :=
  m.insert key ((m.get? key).getD [] ++ [v])

structure Resolved where
  out : SortedMap String (List Edge) := SortedMap.empty
  inn : SortedMap String (List Edge) := SortedMap.empty
  dangling : SortedMap String (List (String × Edge)) := SortedMap.empty

def resolveEdge (docs : SortedMap String DocMeta) (src : String) (r : Resolved) (raw : RawEdge) : Resolved :=
  match bindName docs raw.target with
  | some target =>
    { r with
      out := pushAt r.out src ⟨target, raw.predicate, raw.header⟩
      inn := pushAt r.inn target ⟨src, raw.predicate, raw.header⟩ }
  | none => { r with dangling := pushAt r.dangling raw.target (src, ⟨raw.target, raw.predicate, raw.header⟩) }

def countPair (inventory : SortedMap String (SortedMap String Nat)) (pair : String × String) :
    SortedMap String (SortedMap String Nat) :=
  let values := (inventory.get? pair.1).getD SortedMap.empty
  inventory.insert pair.1 (values.insert pair.2 ((values.get? pair.2).getD 0 + 1))

/-- `WikiGraph::resolve`: everything that is derived, over the current sources. -/
def resolve (s : GraphSources) : WikiGraph :=
  let r := s.raw.entries.foldl (fun r e => e.2.foldl (resolveEdge s.docs e.1) r) {}
  { toGraphSources := s
    inventory := s.props.values.foldl (fun inventory pairs => pairs.foldl countPair inventory) SortedMap.empty
    out := r.out
    inn := r.inn
    dangling := r.dangling }

def WikiGraph.build (R : DocReader) (tree : Tree) : WikiGraph :=
  resolve (tree.entries.foldl (fun s e => reparse R s e.1 (some e.2)) {})

def WikiGraph.update (R : DocReader) (g : WikiGraph) (tree : Tree) (touched : List String) : WikiGraph :=
  resolve (touched.foldl (fun s path => reparse R s path (tree.get? path)) g.toGraphSources)

section

variable {R : DocReader}

structure DescribesAt (R : DocReader) (s : GraphSources) (path : String) (content : Option String) : Prop where
  docs : s.docs.get? path = content.map R.docMeta
  raw : s.raw.get? path = content.map (rawEdgesOf R)
  props : s.props.get? path = content.map (pairsOf R)
  quests : s.quests.get? path =
    content.bind fun c => if (R.quests c).isEmpty then none else some (R.quests c)

/-- The sources are those of the tree, but for the paths in `stale`. -/
def Describes (R : DocReader) (s : GraphSources) (tree : Tree) (stale : List String) : Prop :=
  ∀ path, path ∉ stale → DescribesAt R s path (tree.get? path)

theorem reparse_at (s : GraphSources) (path : String) (content : Option String) :
    DescribesAt R (reparse R s path content) path content := by
  cases content with
  | none =>
    refine ⟨?_, ?_, ?_, ?_⟩
    all_goals
      unfold reparse
      rw [get?_erase, if_pos rfl]
      rfl
  | some c =>
    refine ⟨?_, ?_, ?_, ?_⟩
    · exact (get?_insert ..).trans (if_pos rfl)
    · exact (get?_insert ..).trans (if_pos rfl)
    · exact (get?_insert ..).trans (if_pos rfl)
    · unfold reparse
      dsimp only [bind_some]
      split_ifs with hnone
      · rw [get?_erase, if_pos rfl]
      · rw [get?_insert, if_pos rfl]

variable {s : GraphSources}

theorem reparse_other {path other : String} (hne : other ≠ path) {content old : Option String}
    (h : DescribesAt R s other old) : DescribesAt R (reparse R s path content) other old := by
  cases content with
  | none =>
    refine ⟨?_, ?_, ?_, ?_⟩
    · exact ((get?_erase ..).trans (if_neg hne)).trans h.docs
    · exact ((get?_erase ..).trans (if_neg hne)).trans h.raw
    · exact ((get?_erase ..).trans (if_neg hne)).trans h.props
    · exact ((get?_erase ..).trans (if_neg hne)).trans h.quests
  | some c =>
    refine ⟨?_, ?_, ?_, ?_⟩
    · exact ((get?_insert ..).trans (if_neg hne)).trans h.docs
    · exact ((get?_insert ..).trans (if_neg hne)).trans h.raw
    · exact ((get?_insert ..).trans (if_neg hne)).trans h.props
    · unfold reparse
      dsimp only
      split_ifs
      · rw [get?_erase, if_neg hne]
        exact h.quests
      · rw [get?_insert, if_neg hne]
        exact h.quests

variable {tree : Tree}

theorem DescribesAt.unique {s' : GraphSources} (h : Describes R s tree []) (h' : Describes R s' tree []) :
    s = s' := by
  have hs := fun path => h path (by simp)
  have hs' := fun path => h' path (by simp)
  obtain ⟨docs, raw, props, quests⟩ := s
  obtain ⟨docs', raw', props', quests'⟩ := s'
  have hdocs : docs = docs' := ext_get? fun p => (hs p).docs.trans (hs' p).docs.symm
  have hraw : raw = raw' := ext_get? fun p => (hs p).raw.trans (hs' p).raw.symm
  have hprops : props = props' := ext_get? fun p => (hs p).props.trans (hs' p).props.symm
  have hquests : quests = quests' := ext_get? fun p => (hs p).quests.trans (hs' p).quests.symm
  rw [hdocs, hraw, hprops, hquests]

variable {stale : List String}

theorem Describes.touch (h : Describes R s tree stale) (touched : List String) :
    Describes R (touched.foldl (fun s path => reparse R s path (tree.get? path)) s) tree
      (stale.filter (· ∉ touched)) := by
  induction touched generalizing s stale with
  | nil =>
    intro path hpath
    exact h path (by simpa using hpath)
  | cons t touched ih =>
    have hone : Describes R (reparse R s t (tree.get? t)) tree (stale.filter (· ≠ t)) := by
      intro path hpath
      by_cases heq : path = t
      · rw [heq]
        exact reparse_at s t _
      · refine reparse_other heq (h path fun hmem => hpath ?_)
        exact mem_filter.mpr ⟨hmem, by simpa using heq⟩
    intro path hpath
    refine ih hone path fun hmem => hpath ?_
    obtain ⟨hmem, hnot⟩ := mem_filter.mp hmem
    obtain ⟨hmem, hne⟩ := mem_filter.mp hmem
    refine mem_filter.mpr ⟨hmem, ?_⟩
    simp only [decide_eq_true_eq] at hne hnot ⊢
    simp [hne, hnot]

theorem describes_build (tree : Tree) :
    Describes R (tree.entries.foldl (fun s e => reparse R s e.1 (some e.2)) {}) tree [] := by
  have key : ∀ (l : List (String × String)) (s : GraphSources) (seen : String → Option String),
      (l.map Prod.fst).Nodup → (∀ p, DescribesAt R s p (seen p)) →
      ∀ p, DescribesAt R (l.foldl (fun s e => reparse R s e.1 (some e.2)) s) p ((l.lookup p).or (seen p)) := by
    intro l
    induction l with
    | nil => exact fun s seen _ h p => h p
    | cons e l ih =>
      intro s seen hnodup h p
      rw [map_cons, nodup_cons] at hnodup
      have hnext : ∀ q, DescribesAt R (reparse R s e.1 (some e.2)) q (if q = e.1 then some e.2 else seen q) := by
        intro q
        split_ifs with hq
        · rw [hq]
          exact reparse_at s e.1 _
        · exact reparse_other hq (h q)
      have hgoal := ih _ _ hnodup.2 hnext p
      rw [foldl_cons]
      have heq : (List.lookup p (e :: l)).or (seen p) = (l.lookup p).or (if p = e.1 then some e.2 else seen p) := by
        rw [lookup_cons_ite]
        split_ifs with hp
        · have hnone : l.lookup p = none := by
            rw [lookup_eq_none_iff]
            intro a ha
            have hne : p ≠ a.1 := by
              intro heq
              exact hnodup.1 (hp ▸ mem_map.mpr ⟨a, ha, heq.symm⟩)
            simpa using hne
          rw [hnone]
          rfl
        · rfl
      rw [heq]
      exact hgoal
  intro path _
  have hempty : ∀ p, DescribesAt R {} p none := fun p => ⟨rfl, rfl, rfl, rfl⟩
  have hall := key tree.entries {} (fun _ => none) tree.keys_nodup hempty path
  rwa [or_none] at hall

/-- A graph whose sources lag behind a tree at the paths `stale`, resolved. -/
structure Lags (R : DocReader) (g : WikiGraph) (tree : Tree) (stale : List String) : Prop where
  sources : Describes R g.toGraphSources tree stale
  resolved : g = resolve g.toGraphSources

theorem WikiGraph.build_lags (tree : Tree) : Lags R (WikiGraph.build R tree) tree [] :=
  ⟨describes_build tree, rfl⟩

variable {g : WikiGraph}

theorem Lags.eq_build (h : Lags R g tree []) : g = WikiGraph.build R tree := by
  rw [h.resolved]
  unfold WikiGraph.build
  rw [DescribesAt.unique h.sources (describes_build tree)]

theorem Lags.update (h : Lags R g tree stale) {touched : List String} (hall : ∀ p ∈ stale, p ∈ touched) :
    Lags R (g.update R tree touched) tree [] := by
  refine ⟨?_, rfl⟩
  intro path _
  refine h.sources.touch touched path fun hmem => ?_
  obtain ⟨hstale, hnot⟩ := mem_filter.mp hmem
  exact absurd (hall path hstale) (by simpa using hnot)

theorem Lags.moved {next : Tree} {stale' : List String} (h : Lags R g tree stale)
    (hsub : ∀ p ∈ stale, p ∈ stale') (hmoved : ∀ p, p ∉ stale' → next.get? p = tree.get? p) :
    Lags R g next stale' := by
  refine ⟨?_, h.resolved⟩
  intro path hpath
  rw [hmoved path hpath]
  exact h.sources path fun hmem => hpath (hsub path hmem)

end

end Molt.Wiki
