import Mathlib
import MoltRepublic.Lib.Breadth
import MoltRepublic.Lib.Check
import MoltRepublic.Wiki.Graph

/-! The neighbour walk over the link graph (`WikiGraph::neighbors`): breadth first, in one or both
directions, under a predicate or under all, to a depth or to the end, and cut at a cap. -/

namespace Molt.Wiki
open Molt.Core Text Check Breadth List

inductive Side where
  | out
  | inn
  deriving DecidableEq

structure Walk where
  depth : Nat
  out : Bool
  inn : Bool
  predicate : Option String
  transitive : Bool
  cap : Nat

structure Reached where
  path : String
  distance : Nat
  predicate : Option String
  direction : Side
  via : List String
  deriving DecidableEq

structure Scan where
  seen : List String
  found : List Reached
  next : List (String × List String)

namespace WikiGraph

def sideEdges (g : WikiGraph) (walk : Walk) (node : String) : List (Side × Edge) :=
  (if walk.out then (g.out.get? node).getD [] else []).map (Side.out, ·) ++
    (if walk.inn then (g.inn.get? node).getD [] else []).map (Side.inn, ·)

def follows (walk : Walk) (e : Edge) : Bool := !walk.predicate.any fun p => e.predicate ≠ some p

def visitEdge (g : WikiGraph) (walk : Walk) (hop : Nat) (entry : String × List String) (s : Scan) (x : Side × Edge) :
    Except (List Reached × Bool) Scan :=
  if !follows walk x.2 then .ok s
  else if s.seen.contains x.2.to_ then .ok s
  else if (g.docs.get? x.2.to_).isNone then .ok s
  else
    -- `via` names what lies between start and hit, so the first hop has none
    let via := if hop = 1 then [] else entry.2 ++ [entry.1]
    let found := s.found ++ [⟨x.2.to_, hop, x.2.predicate, x.1, via⟩]
    if walk.cap < found.length then .error (found.take walk.cap, true)
    else .ok ⟨x.2.to_ :: s.seen, found, s.next ++ [(x.2.to_, via)]⟩

def visitNode (g : WikiGraph) (walk : Walk) (hop : Nat) (s : Scan) (entry : String × List String) :
    Except (List Reached × Bool) Scan := (g.sideEdges walk entry.1).foldlM (g.visitEdge walk hop entry) s

/-- The hops from `hop` on; a hop that finds nothing is the last. -/
def hops (g : WikiGraph) (walk : Walk) : Nat → Nat → Scan → Option (List Reached × Bool)
  | 0, _, _ => none
  | fuel + 1, hop, s =>
    if s.next.isEmpty then some (s.found, false)
    else if !walk.transitive && walk.depth < hop + 1 then some (s.found, false)
    else match s.next.foldlM (g.visitNode walk (hop + 1)) { s with next := [] } with
      | .error cut => some cut
      | .ok s => hops g walk fuel (hop + 1) s

def neighbors (g : WikiGraph) (path : String) (walk : Walk) : Option (List Reached × Bool) :=
  hops g walk (g.docs.entries.length + 2) 0 ⟨[path], [], [(path, [])]⟩

def Joined (g : WikiGraph) (walk : Walk) (m n : String) : Prop :=
  (g.docs.get? n).isSome ∧ ∃ x ∈ g.sideEdges walk m, follows walk x.2 = true ∧ x.2.to_ = n

def Within (g : WikiGraph) (walk : Walk) (start n : String) : Prop :=
  n ≠ start ∧ ∃ k, (walk.transitive = true ∨ k ≤ walk.depth) ∧ Walks (g.Joined walk) start k n

end WikiGraph

open WikiGraph

section

variable {g : WikiGraph} {walk : Walk} {start : String} {hop : Nat} {s s' t : Scan}

structure Hit (g : WikiGraph) (walk : Walk) (start : String) (r : Reached) : Prop where
  dist : Dist (g.Joined walk) start r.distance r.path
  via : r.via.length + 1 = r.distance
  leads : Leads (g.Joined walk) start r.via r.path

structure Level (g : WikiGraph) (walk : Walk) (start : String) (hop : Nat) (s : Scan) : Prop where
  seen : ∀ n, n ∈ s.seen ↔ ∃ k ≤ hop, Walks (g.Joined walk) start k n
  frontier : ∀ n, n ∈ s.next.map Prod.fst ↔ Dist (g.Joined walk) start hop n
  routes : ∀ e ∈ s.next, hop = 0 ∨ e.2.length + 1 = hop ∧ Leads (g.Joined walk) start e.2 e.1
  hits : ∀ r ∈ s.found, Hit g walk start r ∧ r.distance ≤ hop
  all : ∀ n k, Dist (g.Joined walk) start k n → 0 < k → k ≤ hop → n ∈ s.found.map Reached.path
  nodup : (s.found.map Reached.path).Nodup
  ordered : s.found.Pairwise fun a b => a.distance ≤ b.distance
  room : s.found.length ≤ walk.cap

/-- What holds while the frontier of `s` is being scanned, one hop on. -/
structure Scanning (g : WikiGraph) (walk : Walk) (start : String) (hop : Nat) (s t : Scan) : Prop where
  seen : ∀ n, n ∈ t.seen ↔ n ∈ s.seen ∨ n ∈ t.next.map Prod.fst
  found : ∃ new, t.found = s.found ++ new ∧ new.map Reached.path = t.next.map Prod.fst ∧
    new.map Reached.via = t.next.map Prod.snd ∧ ∀ r ∈ new, Hit g walk start r ∧ r.distance = hop + 1
  nodup : (t.found.map Reached.path).Nodup
  room : t.found.length ≤ walk.cap

/-- The walk was cut in the hop after `hop`, with one hit past the cap. -/
structure Cut (g : WikiGraph) (walk : Walk) (start : String) (hop : Nat) (s : Scan)
    (cut : List Reached × Bool) : Prop where
  flag : cut.2 = true
  hits : ∃ new, cut.1 = (s.found ++ new).take walk.cap ∧ (s.found ++ new).length = walk.cap + 1 ∧
    (∀ r ∈ new, Hit g walk start r ∧ r.distance = hop + 1) ∧ ((s.found ++ new).map Reached.path).Nodup

theorem Level.start_scan (h : Level g walk start hop s) : Scanning g walk start hop s { s with next := [] } :=
  ⟨fun n => by simp, ⟨[], (append_nil _).symm, rfl, rfl, fun r hr => absurd hr not_mem_nil⟩, h.nodup, h.room⟩

theorem Scanning.found_seen (h : Scanning g walk start hop s t) (hlevel : Level g walk start hop s) {p : String}
    (hp : p ∈ t.found.map Reached.path) : p ∈ t.seen := by
  obtain ⟨new, hfound, hpaths, -, -⟩ := h.found
  rw [hfound, map_append, mem_append, hpaths] at hp
  refine (h.seen p).mpr (hp.imp_left fun hp => ?_)
  obtain ⟨r, hr, rfl⟩ := mem_map.mp hp
  obtain ⟨hhit, hle⟩ := hlevel.hits r hr
  exact (hlevel.seen _).mpr ⟨r.distance, hle, hhit.dist.1⟩

variable {entry : String × List String}

theorem Level.hit_next (h : Level g walk start hop s) (hentry : entry ∈ s.next) {n : String}
    (hjoined : g.Joined walk entry.1 n) (hnew : ∀ j ≤ hop, ¬ Walks (g.Joined walk) start j n)
    (predicate : Option String) (side : Side) :
    Hit g walk start ⟨n, hop + 1, predicate, side, if hop + 1 = 1 then [] else entry.2 ++ [entry.1]⟩ := by
  have hfrom := (h.frontier entry.1).mp (mem_map_of_mem hentry)
  rcases h.routes entry hentry with hzero | ⟨hlen, hleads⟩
  · rw [hzero] at hfrom hnew ⊢
    rw [if_pos rfl]
    exact ⟨hfrom.succ hjoined hnew, rfl, .nil (dist_zero.mp hfrom ▸ hjoined)⟩
  · rw [if_neg (by omega)]
    refine ⟨hfrom.succ hjoined hnew, ?_, hleads.snoc hjoined⟩
    rw [length_append, length_singleton, hlen]

theorem visitEdge_spec (hlevel : Level g walk start hop s) (h : Scanning g walk start hop s t)
    (hentry : entry ∈ s.next) {x : Side × Edge} (hx : x ∈ g.sideEdges walk entry.1) :
    (∀ t', g.visitEdge walk (hop + 1) entry t x = .ok t' → Scanning g walk start hop s t' ∧ t.seen ⊆ t'.seen ∧
      (follows walk x.2 = true → (g.docs.get? x.2.to_).isSome = true → x.2.to_ ∈ t'.seen)) ∧
    ∀ cut, g.visitEdge walk (hop + 1) entry t x = .error cut → Cut g walk start hop s cut := by
  unfold visitEdge
  by_cases hfollows : follows walk x.2 = true
  swap
  · rw [if_pos (by simpa using hfollows)]
    refine ⟨fun t' ht => ?_, fun cut hc => by cases hc⟩
    exact Except.ok.inj ht ▸ ⟨h, List.Subset.refl _, fun hf => absurd hf hfollows⟩
  rw [if_neg (by simpa using hfollows)]
  by_cases hseen : x.2.to_ ∈ t.seen
  · rw [if_pos (by simpa using hseen)]
    refine ⟨fun t' ht => ?_, fun cut hc => by cases hc⟩
    exact Except.ok.inj ht ▸ ⟨h, List.Subset.refl _, fun _ _ => hseen⟩
  rw [if_neg (by simpa using hseen)]
  by_cases hdoc : (g.docs.get? x.2.to_).isSome = true
  swap
  · rw [if_pos (by simpa using hdoc)]
    refine ⟨fun t' ht => ?_, fun cut hc => by cases hc⟩
    exact Except.ok.inj ht ▸ ⟨h, List.Subset.refl _, fun _ hd => absurd hd hdoc⟩
  rw [if_neg (by simp [Option.isSome_iff_ne_none.mp hdoc])]
  dsimp only
  have hnew : ∀ j ≤ hop, ¬ Walks (g.Joined walk) start j x.2.to_ := fun j hj hwalk =>
    hseen ((h.seen _).mpr (.inl ((hlevel.seen _).mpr ⟨j, hj, hwalk⟩)))
  have hhit := hlevel.hit_next hentry ⟨hdoc, x, hx, hfollows, rfl⟩ hnew x.2.predicate x.1
  generalize (if hop + 1 = 1 then [] else entry.2 ++ [entry.1]) = via at hhit ⊢
  set hit : Reached := ⟨x.2.to_, hop + 1, x.2.predicate, x.1, via⟩
  obtain ⟨new, hfound, hpaths, hvias, hhits⟩ := h.found
  have hfresh : ((t.found ++ [hit]).map Reached.path).Nodup := by
    rw [map_append, nodup_append]
    refine ⟨h.nodup, nodup_singleton _, fun p hp q hq heq => ?_⟩
    rw [heq, mem_singleton.mp hq] at hp
    exact hseen (h.found_seen hlevel hp)
  constructor
  · intro t' ht
    split_ifs at ht with hcap
    obtain rfl := Except.ok.inj ht
    refine ⟨⟨?_, ?_, hfresh, Nat.not_lt.mp hcap⟩, subset_cons_self _ _, fun _ _ => mem_cons_self ..⟩
    · intro n
      rw [mem_cons, h.seen, map_append, mem_append, map_singleton, mem_singleton]
      tauto
    · refine ⟨new ++ [hit], ?_, ?_, ?_, ?_⟩
      · rw [hfound, append_assoc]
      · rw [map_append, map_append, hpaths]
        rfl
      · rw [map_append, map_append, hvias]
        rfl
      · exact forall_mem_append.mpr ⟨hhits, forall_mem_singleton.mpr ⟨hhit, rfl⟩⟩
  · intro cut hc
    split_ifs at hc with hcap
    obtain rfl := Except.error.inj hc
    refine ⟨rfl, new ++ [hit], ?_, ?_, ?_, ?_⟩
    · rw [hfound, append_assoc]
    · rw [← append_assoc, ← hfound]
      have hroom := h.room
      rw [length_append, length_singleton] at hcap ⊢
      omega
    · exact forall_mem_append.mpr ⟨hhits, forall_mem_singleton.mpr ⟨hhit, rfl⟩⟩
    · rw [← append_assoc, ← hfound]
      exact hfresh

theorem edges_spec (hlevel : Level g walk start hop s) (hentry : entry ∈ s.next) {edges : List (Side × Edge)}
    (hedges : ∀ x ∈ edges, x ∈ g.sideEdges walk entry.1) (h : Scanning g walk start hop s t) :
    (∀ t', edges.foldlM (g.visitEdge walk (hop + 1) entry) t = .ok t' → Scanning g walk start hop s t' ∧
      t.seen ⊆ t'.seen ∧
      ∀ x ∈ edges, follows walk x.2 = true → (g.docs.get? x.2.to_).isSome = true → x.2.to_ ∈ t'.seen) ∧
    ∀ cut, edges.foldlM (g.visitEdge walk (hop + 1) entry) t = .error cut → Cut g walk start hop s cut := by
  induction edges generalizing t with
  | nil =>
    refine ⟨fun t' ht => ?_, fun cut hc => by cases hc⟩
    obtain rfl := foldlM_nil_eq_ok.mp ht
    exact ⟨h, List.Subset.refl _, fun x hx => absurd hx not_mem_nil⟩
  | cons x edges ih =>
    obtain ⟨hok, herr⟩ := visitEdge_spec hlevel h hentry (hedges x (.head _))
    rw [foldlM_cons]
    cases hone : g.visitEdge walk (hop + 1) entry t x with
    | error cut =>
      refine ⟨fun t' ht => (by cases ht), fun cut' hc => ?_⟩
      obtain rfl : cut = cut' := Except.error.inj hc
      exact herr cut hone
    | ok u =>
      obtain ⟨hscan, hsub, hx⟩ := hok u hone
      obtain ⟨hrest, hcut⟩ := ih (fun y hy => hedges y (.tail _ hy)) hscan
      refine ⟨fun t' ht => ?_, hcut⟩
      obtain ⟨hscan', hsub', hall⟩ := hrest t' ht
      refine ⟨hscan', List.Subset.trans hsub hsub', fun y hy => ?_⟩
      rcases mem_cons.mp hy with rfl | hy
      · exact fun hf hd => hsub' (hx hf hd)
      · exact hall y hy

theorem frontier_spec (hlevel : Level g walk start hop s) {entries : List (String × List String)}
    (hentries : ∀ e ∈ entries, e ∈ s.next) (h : Scanning g walk start hop s t) :
    (∀ t', entries.foldlM (g.visitNode walk (hop + 1)) t = .ok t' → Scanning g walk start hop s t' ∧
      t.seen ⊆ t'.seen ∧ ∀ e ∈ entries, ∀ n, g.Joined walk e.1 n → n ∈ t'.seen) ∧
    ∀ cut, entries.foldlM (g.visitNode walk (hop + 1)) t = .error cut → Cut g walk start hop s cut := by
  induction entries generalizing t with
  | nil =>
    refine ⟨fun t' ht => ?_, fun cut hc => by cases hc⟩
    obtain rfl := foldlM_nil_eq_ok.mp ht
    exact ⟨h, List.Subset.refl _, fun x hx => absurd hx not_mem_nil⟩
  | cons e entries ih =>
    obtain ⟨hok, herr⟩ := edges_spec hlevel (hentries e (.head _)) (fun _ hx => hx) h
    rw [foldlM_cons]
    cases hone : g.visitNode walk (hop + 1) t e with
    | error cut =>
      refine ⟨fun t' ht => (by cases ht), fun cut' hc => ?_⟩
      obtain rfl : cut = cut' := Except.error.inj hc
      exact herr cut hone
    | ok u =>
      obtain ⟨hscan, hsub, hown⟩ := hok u hone
      obtain ⟨hrest, hcut⟩ := ih (fun y hy => hentries y (.tail _ hy)) hscan
      refine ⟨fun t' ht => ?_, hcut⟩
      obtain ⟨hscan', hsub', hall⟩ := hrest t' ht
      refine ⟨hscan', List.Subset.trans hsub hsub', fun y hy => ?_⟩
      rcases mem_cons.mp hy with rfl | hy
      · rintro n ⟨hdoc, x, hx, hfollows, rfl⟩
        exact hsub' (hown x hx hfollows hdoc)
      · exact hall y hy

theorem Level.next (hlevel : Level g walk start hop s) (h : Scanning g walk start hop s t)
    (hall : ∀ e ∈ s.next, ∀ n, g.Joined walk e.1 n → n ∈ t.seen) : Level g walk start (hop + 1) t := by
  obtain ⟨new, hfound, hpaths, hvias, hhits⟩ := h.found
  have hnext : ∀ p ∈ t.next.map Prod.fst, Dist (g.Joined walk) start (hop + 1) p := by
    intro p hp
    rw [← hpaths] at hp
    obtain ⟨r, hr, rfl⟩ := mem_map.mp hp
    obtain ⟨hhit, hdist⟩ := hhits r hr
    exact hdist ▸ hhit.dist
  have hfrontier : ∀ n, n ∈ t.next.map Prod.fst ↔ Dist (g.Joined walk) start (hop + 1) n := by
    refine fun n => ⟨hnext n, fun hdist => ?_⟩
    obtain ⟨m, hm, hjoined⟩ := hdist.pred
    obtain ⟨e, he, rfl⟩ := mem_map.mp ((hlevel.frontier m).mpr hm)
    rcases (h.seen n).mp (hall e he n hjoined) with hseen | hmem
    · obtain ⟨k, hk, hwalk⟩ := (hlevel.seen n).mp hseen
      exact absurd hwalk (hdist.2 k (Nat.lt_succ_of_le hk))
    · exact hmem
  refine ⟨fun n => ?_, hfrontier, fun e he => .inr ?_, fun r hr => ?_, fun n k hdist hpos hk => ?_, h.nodup, ?_, h.room⟩
  · rw [h.seen, hfrontier, hlevel.seen]
    constructor
    · rintro (⟨k, hk, hwalk⟩ | hdist)
      · exact ⟨k, Nat.le_succ_of_le hk, hwalk⟩
      · exact ⟨hop + 1, le_rfl, hdist.1⟩
    · rintro ⟨k, hk, hwalk⟩
      obtain ⟨j, hj, hdist⟩ := hwalk.exists_dist
      rcases Nat.lt_or_ge hop j with hlt | hle
      · obtain rfl : j = hop + 1 := by omega
        exact .inr hdist
      · exact .inl ⟨j, hle, hdist.1⟩
  · have hpairs : new.map (fun r => (r.path, r.via)) = t.next := by
      have hzip := congrArg₂ List.zip hpaths hvias
      rw [zip_map', zip_map'] at hzip
      exact hzip.trans (map_id' t.next)
    rw [← hpairs] at he
    obtain ⟨r, hr, rfl⟩ := mem_map.mp he
    obtain ⟨hhit, hdist⟩ := hhits r hr
    exact ⟨hhit.via.trans hdist, hhit.leads⟩
  · rw [hfound] at hr
    rcases mem_append.mp hr with hr | hr
    · obtain ⟨hhit, hle⟩ := hlevel.hits r hr
      exact ⟨hhit, Nat.le_succ_of_le hle⟩
    · obtain ⟨hhit, hdist⟩ := hhits r hr
      exact ⟨hhit, hdist.le⟩
  · rw [hfound, map_append, mem_append]
    rcases Nat.lt_or_ge hop k with hlt | hle
    · obtain rfl : k = hop + 1 := by omega
      rw [hpaths]
      exact .inr ((hfrontier n).mpr hdist)
    · exact .inl (hlevel.all n k hdist hpos hle)
  · rw [hfound, pairwise_append]
    refine ⟨hlevel.ordered, ?_, fun a ha b hb => ?_⟩
    · have hsame : new.Pairwise fun _ _ => True := pairwise_of_forall fun _ _ => trivial
      refine hsame.imp_of_mem fun ha hb _ => ?_
      rw [(hhits _ ha).2, (hhits _ hb).2]
    · rw [(hhits b hb).2]
      exact Nat.le_succ_of_le (hlevel.hits a ha).2

structure Exact (g : WikiGraph) (walk : Walk) (start : String) (found : List Reached) (cut : Bool) : Prop where
  nodup : (found.map Reached.path).Nodup
  hits : ∀ r ∈ found, g.Within walk start r.path ∧ Hit g walk start r
  ordered : found.Pairwise fun a b => a.distance ≤ b.distance
  whole : Set.ncard {n | g.Within walk start n} ≤ walk.cap →
    cut = false ∧ ∀ n, g.Within walk start n → n ∈ found.map Reached.path
  capped : walk.cap < Set.ncard {n | g.Within walk start n} → cut = true ∧ found.length = walk.cap ∧
    ∀ r ∈ found, ∀ n k, g.Within walk start n → n ∉ found.map Reached.path →
      Dist (g.Joined walk) start k n → r.distance ≤ k

theorem Hit.pos {r : Reached} (h : Hit g walk start r) : 0 < r.distance := h.via ▸ Nat.succ_pos _

theorem Hit.within {r : Reached} (h : Hit g walk start r) (hdepth : walk.transitive = true ∨ r.distance ≤ walk.depth) :
    g.Within walk start r.path := by
  refine ⟨fun heq => ?_, r.distance, hdepth, h.dist.1⟩
  have hzero := Dist.unique (dist_zero.mpr heq) h.dist
  exact absurd h.pos (by omega)

theorem within_held {n : String} (h : g.Within walk start n) : n ∈ g.docs.entries.map Prod.fst := by
  obtain ⟨hne, k, -, hwalk⟩ := h
  cases hwalk with
  | zero => exact absurd rfl hne
  | succ _ hstep =>
    obtain ⟨m, hm⟩ := Option.isSome_iff_exists.mp hstep.1
    exact mem_map_of_mem (f := Prod.fst) (SortedMap.get?_eq_some.mp hm)

theorem within_finite (g : WikiGraph) (walk : Walk) (start : String) : {n | g.Within walk start n}.Finite :=
  (finite_toSet (g.docs.entries.map Prod.fst)).subset fun _ => within_held

theorem length_le_ncard {found : List Reached} (hnodup : (found.map Reached.path).Nodup)
    (hwithin : ∀ r ∈ found, g.Within walk start r.path) : found.length ≤ Set.ncard {n | g.Within walk start n} := by
  have hsub : (↑(found.map Reached.path).toFinset : Set String) ⊆ {n | g.Within walk start n} := by
    intro n hn
    obtain ⟨r, hr, rfl⟩ := mem_map.mp (mem_toFinset.mp (Finset.mem_coe.mp hn))
    exact hwithin r hr
  have hle := Set.ncard_le_ncard hsub (within_finite g walk start)
  rwa [Set.ncard_coe_finset, toFinset_card_of_nodup hnodup, length_map] at hle

theorem Level.hit_within (h : Level g walk start hop s) (hdepth : walk.transitive = true ∨ hop ≤ walk.depth) :
    ∀ r ∈ s.found, g.Within walk start r.path ∧ Hit g walk start r := by
  intro r hr
  obtain ⟨hhit, hle⟩ := h.hits r hr
  exact ⟨hhit.within (hdepth.imp_right hle.trans), hhit⟩

theorem Level.exact (h : Level g walk start hop s) (hdepth : walk.transitive = true ∨ hop ≤ walk.depth)
    (hlast : s.next = [] ∨ (walk.transitive = false ∧ walk.depth < hop + 1)) : Exact g walk start s.found false := by
  have hall : ∀ n, g.Within walk start n → n ∈ s.found.map Reached.path := by
    rintro n ⟨hne, k, hk, hwalk⟩
    obtain ⟨j, hj, hdist⟩ := hwalk.exists_dist
    have hpos : 0 < j := by
      rcases Nat.eq_zero_or_pos j with rfl | hpos
      · exact absurd (dist_zero.mp hdist) hne
      · exact hpos
    refine h.all n j hdist hpos ?_
    rcases hlast with hnone | ⟨htransitive, hlt⟩
    · by_contra hlt
      refine none_beyond (fun m hm => ?_) (Nat.le_of_not_le hlt) n hdist
      have hmem := (h.frontier m).mpr hm
      rw [hnone] at hmem
      exact not_mem_nil hmem
    · rcases hk with htrue | hk
      · rw [htransitive] at htrue
        cases htrue
      · omega
  refine ⟨h.nodup, h.hit_within hdepth, h.ordered, fun _ => ⟨rfl, hall⟩, fun hcap => ?_⟩
  have hset : {n | g.Within walk start n} = ↑(s.found.map Reached.path).toFinset := by
    ext n
    rw [Finset.mem_coe, mem_toFinset]
    constructor
    · exact hall n
    · intro hn
      obtain ⟨r, hr, rfl⟩ := mem_map.mp hn
      exact (h.hit_within hdepth r hr).1
  rw [hset, Set.ncard_coe_finset, toFinset_card_of_nodup h.nodup, length_map] at hcap
  exact absurd h.room (Nat.not_le.mpr hcap)

theorem Cut.exact {cut : List Reached × Bool} (h : Level g walk start hop s)
    (hdepth : walk.transitive = true ∨ hop + 1 ≤ walk.depth) (hcut : Cut g walk start hop s cut) :
    Exact g walk start cut.1 cut.2 := by
  obtain ⟨hflag, new, hfound, hlen, hhits, hnodup⟩ := hcut
  have hall : ∀ r ∈ s.found ++ new, g.Within walk start r.path ∧ Hit g walk start r ∧ r.distance ≤ hop + 1 := by
    intro r hr
    rcases mem_append.mp hr with hr | hr
    · obtain ⟨hhit, hle⟩ := h.hits r hr
      exact ⟨hhit.within (hdepth.imp_right (by omega)), hhit, Nat.le_succ_of_le hle⟩
    · obtain ⟨hhit, hdist⟩ := hhits r hr
      exact ⟨hhit.within (hdist ▸ hdepth), hhit, hdist.le⟩
  have hsub : cut.1.Sublist (s.found ++ new) := hfound ▸ take_sublist _ _
  have hmore : walk.cap < Set.ncard {n | g.Within walk start n} := by
    have hle := length_le_ncard hnodup fun r hr => (hall r hr).1
    omega
  refine ⟨hnodup.sublist (hsub.map _), fun r hr => ?_, ?_, fun hle => absurd hmore (Nat.not_lt.mpr hle), fun _ => ?_⟩
  · obtain ⟨hwithin, hhit, -⟩ := hall r (hsub.subset hr)
    exact ⟨hwithin, hhit⟩
  · have hordered : (s.found ++ new).Pairwise fun a b => a.distance ≤ b.distance := by
      refine pairwise_append.mpr ⟨h.ordered, ?_, fun a ha b hb => ?_⟩
      · have hsame : new.Pairwise fun _ _ => True := pairwise_of_forall fun _ _ => trivial
        refine hsame.imp_of_mem fun ha hb _ => ?_
        rw [(hhits _ ha).2, (hhits _ hb).2]
      · rw [(hhits b hb).2]
        exact Nat.le_succ_of_le (h.hits a ha).2
    exact hordered.sublist hsub
  · refine ⟨hflag, ?_, fun r hr n k hwithin hout hdist => ?_⟩
    · rw [hfound, length_take]
      omega
    · have hle := (hall r (hsub.subset hr)).2.2
      by_contra hlt
      have hpos : 0 < k := by
        rcases Nat.eq_zero_or_pos k with rfl | hpos
        · exact absurd (dist_zero.mp hdist) hwithin.1
        · exact hpos
      refine hout ?_
      have hmem := h.all n k hdist hpos (by omega)
      rw [hfound, take_append, take_of_length_le h.room, map_append]
      exact mem_append_left _ hmem

theorem Level.length_le (h : Level g walk start hop s) (hdepth : walk.transitive = true ∨ hop ≤ walk.depth) :
    s.found.length ≤ g.docs.entries.length := by
  have hsub : s.found.map Reached.path ⊆ g.docs.entries.map Prod.fst := by
    intro n hn
    obtain ⟨r, hr, rfl⟩ := mem_map.mp hn
    exact within_held (h.hit_within hdepth r hr).1
  have hle := (subperm_of_subset h.nodup hsub).length_le
  rwa [length_map, length_map] at hle

theorem hops_exact {fuel : Nat} (h : Level g walk start hop s) (hdepth : walk.transitive = true ∨ hop ≤ walk.depth)
    (hfuel : (s.next = [] ∧ 0 < fuel) ∨ g.docs.entries.length + 2 ≤ fuel + s.found.length) :
    ∃ found cut, hops g walk fuel hop s = some (found, cut) ∧ Exact g walk start found cut := by
  have hlength := h.length_le hdepth
  induction fuel generalizing hop s with
  | zero => exact absurd hfuel (by omega)
  | succ fuel ih =>
    unfold hops
    split_ifs with hnone hdeep
    · exact ⟨s.found, false, rfl, h.exact hdepth (.inl (List.isEmpty_iff.mp hnone))⟩
    · obtain ⟨htransitive, hlt⟩ := Bool.and_eq_true_iff.mp hdeep
      exact ⟨s.found, false, rfl, h.exact hdepth (.inr ⟨by simpa using htransitive, of_decide_eq_true hlt⟩)⟩
    · have hnext : walk.transitive = true ∨ hop + 1 ≤ walk.depth := by
        by_contra hnot
        obtain ⟨hwalk, hlt⟩ := not_or.mp hnot
        exact hdeep (Bool.and_eq_true_iff.mpr ⟨by simpa using hwalk, decide_eq_true (by omega)⟩)
      obtain ⟨hok, herr⟩ := frontier_spec h (fun _ he => he) h.start_scan
      cases hscan : s.next.foldlM (g.visitNode walk (hop + 1)) { s with next := [] } with
      | error cut => exact ⟨cut.1, cut.2, rfl, (herr cut hscan).exact h hnext⟩
      | ok t =>
        obtain ⟨hscanned, -, hall⟩ := hok t hscan
        have hlevel := h.next hscanned hall
        refine ih hlevel hnext ?_ (hlevel.length_le hnext)
        obtain ⟨new, hfound, hpaths, -, -⟩ := hscanned.found
        have hlen := congrArg List.length hpaths
        rw [length_map, length_map] at hlen
        have hmore : t.found.length = s.found.length + t.next.length := by
          rw [hfound, length_append, hlen]
        have hbusy : ¬ s.next = [] := fun hnil => hnone (List.isEmpty_iff.mpr hnil)
        rcases hfuel with ⟨hnil, -⟩ | hfuel
        · exact absurd hnil hbusy
        · rcases Nat.eq_zero_or_pos t.next.length with hzero | hpos
          · exact .inl ⟨length_eq_zero_iff.mp hzero, by omega⟩
          · exact .inr (by omega)

theorem level_start (g : WikiGraph) (walk : Walk) (start : String) :
    Level g walk start 0 ⟨[start], [], [(start, [])]⟩ := by
  refine ⟨fun n => ?_, fun n => ?_, fun _ _ => .inl rfl, fun r hr => absurd hr not_mem_nil,
    fun n k _ hpos hk => absurd hk (by omega), nodup_nil, List.Pairwise.nil, Nat.zero_le _⟩
  · rw [mem_singleton]
    constructor
    · rintro rfl
      exact ⟨0, le_rfl, .zero⟩
    · rintro ⟨k, hk, hwalk⟩
      obtain rfl := Nat.le_zero.mp hk
      cases hwalk
      rfl
  · exact mem_singleton.trans dist_zero.symm

end

/-- The neighbour walk ends, and answers everything within reach, nearest first, or as much as the cap admits. -/
theorem neighbors_exact (g : WikiGraph) (start : String) (walk : Walk) :
    ∃ found cut, g.neighbors start walk = some (found, cut) ∧ (found.map Reached.path).Nodup ∧
      (∀ r ∈ found, g.Within walk start r.path ∧ Dist (g.Joined walk) start r.distance r.path ∧
        r.via.length = r.distance - 1 ∧ Leads (g.Joined walk) start r.via r.path) ∧
      (found.Pairwise fun a b => a.distance ≤ b.distance) ∧
      (Set.ncard {n | g.Within walk start n} ≤ walk.cap →
        cut = false ∧ ∀ n, g.Within walk start n → n ∈ found.map Reached.path) ∧
      (walk.cap < Set.ncard {n | g.Within walk start n} → cut = true ∧ found.length = walk.cap ∧
        ∀ r ∈ found, ∀ n k, g.Within walk start n → n ∉ found.map Reached.path →
          Dist (g.Joined walk) start k n → r.distance ≤ k) := by
  have hfuel : g.docs.entries.length + 2 ≤ g.docs.entries.length + 2 + ([] : List Reached).length := le_rfl
  obtain ⟨found, cut, hrun, hexact⟩ := hops_exact (level_start g walk start) (.inr (Nat.zero_le _)) (.inr hfuel)
  refine ⟨found, cut, hrun, hexact.nodup, fun r hr => ?_, hexact.ordered, hexact.whole, hexact.capped⟩
  obtain ⟨hwithin, hhit⟩ := hexact.hits r hr
  exact ⟨hwithin, hhit.dist, by rw [← hhit.via, Nat.add_sub_cancel], hhit.leads⟩

end Molt.Wiki
