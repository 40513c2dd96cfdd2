import Mathlib
import MoltRepublic.Wiki.Edit

/-! What a structured edit proposes: the edits performed one after the other on the whole base,
and links to moved pages followed. -/

namespace Molt.Wiki
open Molt.Core Text Json LineDiff Check List SortedMap Option

theorem get?_restrict (tree : Tree) (paths : List String) (k : String) :
    (restrict tree paths).get? k = if k ∈ paths then tree.get? k else none := by
  have hfold : ∀ put : Tree → String → Tree,
      (∀ part p, (put part p).get? k = if k = p then (tree.get? k).or (part.get? k) else part.get? k) →
      ∀ (l : List String) (part : Tree), (l.foldl put part).get? k =
        if k ∈ l then (tree.get? k).or (part.get? k) else part.get? k := by
    intro put hput l
    induction l with
    | nil => intro part; simp
    | cons p l ih =>
      intro part
      rw [foldl_cons, ih, hput]
      by_cases hk : k = p
      · cases htree : tree.get? k <;> simp [hk]
      · simp [hk]
  unfold restrict
  refine (hfold _ (fun part p => ?_) paths SortedMap.empty).trans ?_
  · cases htree : tree.get? p with
    | none =>
      by_cases hk : k = p
      · subst hk
        simp [htree]
      · simp [hk]
    | some content =>
      dsimp only
      rw [get?_insert]
      by_cases hk : k = p
      · subst hk
        simp [htree]
      · simp [hk]
  rw [get?_empty, or_none]

namespace EditDesk

variable {d : EditDesk}

def perform (d : EditDesk) (T : Tree) : WikiEdit → Except EditError Tree
  | .create path content | .content path content => .ok (T.insert path content)
  | .replace path old new => do
    let doc ← docAt T path
    let next ← replaceOnce path doc old new
    return T.insert path next
  | .setProps path props => do
    let doc ← docAt T path
    let next ← (d.withProps doc props).mapError EditError.badPayload
    return T.insert path next
  | .addRelation path predicate target display => do
    let doc ← docAt T path
    let next ← d.addRelation T doc predicate target display
    return T.insert path next
  | .rename from_ to_ => do
    let content ← docAt T from_
    return (T.erase from_).insert to_ content
  | .delete path => do
    let _ ← docAt T path
    return T.erase path

def Knows (d : EditDesk) (tree : Tree) : Prop :=
  ∀ g, d.graph = some g → ∀ p, (tree.get? p).isSome → (g.docs.get? p).isSome

structure Mirrors (tree : Tree) (touched : List String) (after T : Tree) : Prop where
  inside : ∀ p ∈ touched, T.get? p = after.get? p
  outside : ∀ p, p ∉ touched → T.get? p = tree.get? p
  within : ∀ p, p ∉ touched → after.get? p = none

section

variable {tree : Tree} {touched : List String} {after T : Tree}

theorem Mirrors.start : Mirrors tree touched (restrict tree touched) tree where
  inside := fun p hp => by rw [get?_restrict, if_pos hp]
  outside := fun _ _ => rfl
  within := fun p hp => by rw [get?_restrict, if_neg hp]

theorem Mirrors.insert (h : Mirrors tree touched after T) {p : String} (hp : p ∈ touched) (content : String) :
    Mirrors tree touched (after.insert p content) (T.insert p content) where
  inside := fun q hq => by rw [get?_insert, get?_insert, h.inside q hq]
  outside := fun q hq => by
    rw [get?_insert, if_neg (ne_of_mem_of_not_mem hp hq).symm, h.outside q hq]
  within := fun q hq => by
    rw [get?_insert, if_neg (ne_of_mem_of_not_mem hp hq).symm, h.within q hq]

theorem Mirrors.erase (h : Mirrors tree touched after T) {p : String} (hp : p ∈ touched) :
    Mirrors tree touched (after.erase p) (T.erase p) where
  inside := fun q hq => by rw [get?_erase, get?_erase, h.inside q hq]
  outside := fun q hq => by
    rw [get?_erase, if_neg (ne_of_mem_of_not_mem hp hq).symm, h.outside q hq]
  within := fun q hq => by
    rw [get?_erase, if_neg (ne_of_mem_of_not_mem hp hq).symm, h.within q hq]

theorem docAt_eq_ok {T : Tree} {path doc : String} : docAt T path = .ok doc ↔ T.get? path = some doc := by
  unfold docAt
  cases T.get? path <;> simp

theorem Mirrors.docAt (h : Mirrors tree touched after T) {p doc : String} (hp : p ∈ touched)
    (hdoc : EditDesk.docAt after p = .ok doc) : EditDesk.docAt T p = .ok doc :=
  docAt_eq_ok.mpr ((h.inside p hp).trans (docAt_eq_ok.mp hdoc))

theorem Mirrors.bindWikiName (h : Mirrors tree touched after T) (hknows : d.Knows tree) {name path : String}
    (hbind : d.bindWikiName name after = .ok path) : d.bindWikiName name T = .ok path := by
  by_cases htouched : name ∈ touched
  · unfold EditDesk.bindWikiName at hbind ⊢
    rwa [h.inside name htouched]
  · unfold EditDesk.bindWikiName at hbind ⊢
    rw [h.within name htouched] at hbind
    rw [h.outside name htouched]
    cases htree : tree.get? name with
    | none => exact hbind
    | some content =>
      cases hgraph : d.graph with
      | none =>
        rw [hgraph] at hbind
        cases hbind
      | some g =>
        have hdoc := hknows g hgraph name (by rw [htree]; rfl)
        have hname : bindName g.docs name = some name := if_pos hdoc
        rw [hgraph] at hbind
        dsimp only at hbind
        rw [hname] at hbind
        exact hbind

theorem Mirrors.addRelation (h : Mirrors tree touched after T) (hknows : d.Knows tree)
    {doc predicate target next : String} {display : Option String}
    (hadd : d.addRelation after doc predicate target display = .ok next) :
    d.addRelation T doc predicate target display = .ok next := by
  obtain ⟨u, hkey, hadd⟩ := bind_eq_ok.mp hadd
  obtain ⟨bound, hbound, hadd⟩ := bind_eq_ok.mp hadd
  exact bind_eq_ok.mpr ⟨u, hkey, bind_eq_ok.mpr ⟨bound, h.bindWikiName hknows hbound, hadd⟩⟩

theorem foldWikiEdit_performs (hknows : d.Knows tree) {base : Tree} {s t : WorkingCopy} {e : WikiEdit}
    (htouched : ∀ p ∈ editPaths e, p ∈ touched) (h : Mirrors tree touched s.after T)
    (hstep : d.foldWikiEdit base s e = .ok t) : ∃ T', d.perform T e = .ok T' ∧ Mirrors tree touched t.after T' := by
  unfold foldWikiEdit at hstep
  cases e with
  | create path content =>
    simp only [bind_eq_ok] at hstep
    obtain ⟨-, -, -, -, hstep⟩ := hstep
    obtain rfl := pure_eq_ok.mp hstep
    exact ⟨_, rfl, h.insert (htouched path (.head _)) content⟩
  | content path content =>
    obtain ⟨-, -, hstep⟩ := bind_eq_ok.mp hstep
    obtain rfl := pure_eq_ok.mp hstep
    exact ⟨_, rfl, h.insert (htouched path (.head _)) content⟩
  | replace path old new | setProps path props =>
    simp only [bind_eq_ok] at hstep
    obtain ⟨doc, hdoc, next, hnext, hstep⟩ := hstep
    obtain rfl := pure_eq_ok.mp hstep
    have hp := htouched path (.head _)
    exact ⟨_, bind_eq_ok.mpr ⟨doc, h.docAt hp hdoc, bind_eq_ok.mpr ⟨next, hnext, rfl⟩⟩, h.insert hp next⟩
  | addRelation path predicate target display =>
    simp only [bind_eq_ok] at hstep
    obtain ⟨doc, hdoc, next, hnext, hstep⟩ := hstep
    obtain rfl := pure_eq_ok.mp hstep
    have hp := htouched path (.head _)
    exact ⟨_, bind_eq_ok.mpr ⟨doc, h.docAt hp hdoc, bind_eq_ok.mpr ⟨next, h.addRelation hknows hnext, rfl⟩⟩,
      h.insert hp next⟩
  | rename from_ to_ =>
    simp only [bind_eq_ok] at hstep
    obtain ⟨-, -, -, -, content, hdoc, hstep⟩ := hstep
    obtain rfl := pure_eq_ok.mp hstep
    have hfrom := htouched from_ (.head _)
    have hto := htouched to_ (.tail _ (.head _))
    exact ⟨_, bind_eq_ok.mpr ⟨content, h.docAt hfrom hdoc, rfl⟩, (h.erase hfrom).insert hto content⟩
  | delete path =>
    obtain ⟨doc, hdoc, hstep⟩ := bind_eq_ok.mp hstep
    obtain rfl := pure_eq_ok.mp hstep
    have hp := htouched path (.head _)
    exact ⟨_, bind_eq_ok.mpr ⟨doc, h.docAt hp hdoc, rfl⟩, h.erase hp⟩

end

/-- What one edit does to the moves: chains collapse onto the base path, and a page that is back or
gone is no longer moved. -/
def trackMove (tree moves : Tree) : WikiEdit → Tree
  | .rename from_ to_ =>
    let origin := (moves.get? from_).getD from_
    if (tree.get? origin).isSome && decide (origin ≠ to_) then (moves.erase from_).insert to_ origin
    else moves.erase from_
  | .delete path => moves.erase path
  | _ => moves

def netMoves (tree : Tree) (edits : List WikiEdit) : Tree := edits.foldl (trackMove tree) SortedMap.empty

def Moved (edits : List WikiEdit) : String → String → Prop :=
  Relation.TransGen fun a b => WikiEdit.rename a b ∈ edits

def Tracked (edits : List WikiEdit) (base : Tree) (s : WorkingCopy) : Prop :=
  ∀ path old, s.renames.get? path = some old →
    (base.get? old).isSome ∧ (s.after.get? path).isSome ∧ Moved edits old path

variable {edits : List WikiEdit} {base : Tree} {s t : WorkingCopy}

theorem Tracked.insert (h : Tracked edits base s) (p content : String) :
    Tracked edits base { s with after := s.after.insert p content } := by
  intro path old hrename
  obtain ⟨hbase, hafter, hmoved⟩ := h path old hrename
  refine ⟨hbase, ?_, hmoved⟩
  rw [get?_insert]
  split
  · rfl
  · exact hafter

variable {e : WikiEdit}

theorem foldWikiEdit_cases (hstep : d.foldWikiEdit base s e = .ok t) :
    ((∀ moves, trackMove base moves e = moves) ∧ ∃ path next, t = { s with after := s.after.insert path next }) ∨
    (∃ gone, e = .delete gone ∧ t = ⟨s.after.erase gone, s.renames.erase gone⟩) ∨
    ∃ from_ to_ content, e = .rename from_ to_ ∧
      t = ⟨(s.after.erase from_).insert to_ content, trackMove base s.renames e⟩ := by
  cases e with
  | create path content =>
    obtain ⟨-, -, hstep⟩ := bind_eq_ok.mp hstep
    obtain ⟨-, -, hstep⟩ := bind_eq_ok.mp hstep
    exact .inl ⟨fun _ => rfl, path, content, (pure_eq_ok.mp hstep).symm⟩
  | content path content =>
    obtain ⟨-, -, hstep⟩ := bind_eq_ok.mp hstep
    exact .inl ⟨fun _ => rfl, path, content, (pure_eq_ok.mp hstep).symm⟩
  | replace path | setProps path | addRelation path =>
    obtain ⟨doc, -, hstep⟩ := bind_eq_ok.mp hstep
    obtain ⟨next, -, hstep⟩ := bind_eq_ok.mp hstep
    exact .inl ⟨fun _ => rfl, path, next, (pure_eq_ok.mp hstep).symm⟩
  | delete gone =>
    obtain ⟨-, -, hstep⟩ := bind_eq_ok.mp hstep
    exact .inr (.inl ⟨gone, rfl, (pure_eq_ok.mp hstep).symm⟩)
  | rename from_ to_ =>
    obtain ⟨-, -, hstep⟩ := bind_eq_ok.mp hstep
    obtain ⟨-, -, hstep⟩ := bind_eq_ok.mp hstep
    obtain ⟨content, -, hstep⟩ := bind_eq_ok.mp hstep
    exact .inr (.inr ⟨from_, to_, content, rfl, (pure_eq_ok.mp hstep).symm⟩)

theorem foldWikiEdit_moves (hstep : d.foldWikiEdit base s e = .ok t) : t.renames = trackMove base s.renames e := by
  rcases foldWikiEdit_cases hstep with ⟨hstays, path, next, rfl⟩ | ⟨gone, rfl, rfl⟩ | ⟨from_, to_, content, rfl, rfl⟩
  · exact (hstays _).symm
  · rfl
  · rfl

theorem foldWikiEdit_tracked (he : e ∈ edits) (h : Tracked edits base s)
    (hstep : d.foldWikiEdit base s e = .ok t) :
    Tracked edits base t := by
  rcases foldWikiEdit_cases hstep with ⟨-, path, next, rfl⟩ | ⟨gone, rfl, rfl⟩ | ⟨from_, to_, content, rfl, rfl⟩
  · exact h.insert path next
  · intro path old hrename
    have hrename : (s.renames.erase gone).get? path = some old := hrename
    rw [get?_erase] at hrename
    split at hrename
    · cases hrename
    · rename_i hne
      obtain ⟨hbase, hafter, hmoved⟩ := h path old hrename
      refine ⟨hbase, ?_, hmoved⟩
      show ((s.after.erase gone).get? path).isSome = true
      rwa [get?_erase, if_neg hne]
  · -- a path other than the two of the edit keeps its move
    have hkept : ∀ path old, path ≠ to_ → (s.renames.erase from_).get? path = some old →
        (base.get? old).isSome ∧ (((s.after.erase from_).insert to_ content).get? path).isSome ∧
          Moved edits old path := by
      intro path old hto hrename
      rw [get?_erase] at hrename
      split at hrename
      · cases hrename
      · rename_i hfrom
        obtain ⟨hbase, hafter, hmoved⟩ := h path old hrename
        exact ⟨hbase, by rwa [get?_insert, if_neg hto, get?_erase, if_neg hfrom], hmoved⟩
    have hhop : Moved edits from_ to_ := .single he
    have horigin : Moved edits ((s.renames.get? from_).getD from_) to_ := by
      cases hfrom : s.renames.get? from_ with
      | none => exact hhop
      | some old => exact (h from_ old hfrom).2.2.trans hhop
    intro path old hrename
    unfold trackMove at hrename
    dsimp only at hrename ⊢
    split at hrename
    · rename_i hboth
      have hbase : (base.get? ((s.renames.get? from_).getD from_)).isSome = true :=
        (Bool.and_eq_true_iff.mp hboth).1
      rw [get?_insert] at hrename
      split at hrename
      · rename_i hpath
        cases hrename
        subst hpath
        exact ⟨hbase, by rw [get?_insert, if_pos rfl]; rfl, horigin⟩
      · rename_i hpath
        exact hkept path old hpath hrename
    · by_cases hpath : path = to_
      · subst hpath
        rw [get?_erase] at hrename
        split at hrename
        · cases hrename
        · obtain ⟨hbase, -, hmoved⟩ := h path old hrename
          exact ⟨hbase, by rw [get?_insert, if_pos rfl]; rfl, hmoved⟩
      · exact hkept path old hpath hrename

variable {tree : Tree}

theorem trackMove_restrict {moves : Tree} {touched : List String} (htouched : ∀ p ∈ editPaths e, p ∈ touched)
    (hmoves : ∀ path old, moves.get? path = some old → old ∈ touched) :
    trackMove (restrict tree touched) moves e = trackMove tree moves e ∧
      ∀ path old, (trackMove tree moves e).get? path = some old → old ∈ touched := by
  have herase : ∀ gone path old, (moves.erase gone).get? path = some old → old ∈ touched := by
    intro gone path old h
    rw [get?_erase] at h
    split at h
    · cases h
    · exact hmoves path old h
  cases e with
  | rename from_ to_ =>
    have horigin : (moves.get? from_).getD from_ ∈ touched := by
      cases hfrom : moves.get? from_ with
      | none => exact htouched from_ (.head _)
      | some old => exact hmoves from_ old hfrom
    unfold trackMove
    dsimp only
    rw [get?_restrict, if_pos horigin]
    refine ⟨rfl, fun path old h => ?_⟩
    split at h
    · rw [get?_insert] at h
      split at h
      · exact Option.some.inj h ▸ horigin
      · exact herase from_ path old h
    · exact herase from_ path old h
  | delete gone => exact ⟨rfl, herase gone⟩
  | create path content | content path content | replace path old new => exact ⟨rfl, hmoves⟩
  | setProps path props | addRelation path predicate target display => exact ⟨rfl, hmoves⟩

theorem foldWikiEdits_moves {touched : List String} {s t : WorkingCopy}
    (htouched : ∀ e ∈ edits, ∀ p ∈ editPaths e, p ∈ touched)
    (hmoves : ∀ path old, s.renames.get? path = some old → old ∈ touched)
    (h : edits.foldlM (d.foldWikiEdit (restrict tree touched)) s = .ok t) :
    t.renames = edits.foldl (trackMove tree) s.renames := by
  induction edits generalizing s with
  | nil => rw [foldlM_nil_eq_ok.mp h, foldl_nil]
  | cons e edits ih =>
    obtain ⟨next, hone, hall⟩ := foldlM_cons_eq_ok.mp h
    obtain ⟨hsame, hnext⟩ := @trackMove_restrict e tree s.renames touched (htouched e (mem_cons_self ..)) hmoves
    have hrenames : next.renames = trackMove tree s.renames e := (foldWikiEdit_moves hone).trans hsame
    rw [foldl_cons, ← hrenames]
    exact ih (fun g hg => htouched g (mem_cons_of_mem _ hg)) (hrenames ▸ hnext) hall

def Relinked (scan : Scanner) (move : String → String → Prop) : String → String → Prop :=
  Relation.ReflTransGen fun old new => ∃ from_ to_, move from_ to_ ∧ Relinks scan from_ to_ old new

variable {renames : Tree}

theorem retargetPage_relinked (hnamed : ∀ path old, renames.get? path = some old → old ≠ "")
    (path start : String) : Relinked d.scan (fun old to_ => renames.get? to_ = some old) start
      (d.retargetPage renames path start).1 := by
  have hfold : ∀ turn : String × List String → String × String → String × List String,
      (∀ page, ∀ r ∈ renames.entries,
        Relinked d.scan (fun old to_ => renames.get? to_ = some old) page.1 (turn page r).1) →
      ∀ (l : List (String × String)) (page : String × List String), (∀ r ∈ l, r ∈ renames.entries) →
        Relinked d.scan (fun old to_ => renames.get? to_ = some old) page.1 (l.foldl turn page).1 := by
    intro turn hturn l
    induction l with
    | nil => exact fun page _ => .refl
    | cons r l ih =>
      intro page hl
      exact Relation.ReflTransGen.trans (hturn page r (hl r (.head _))) (ih _ fun q hq => hl q (.tail _ hq))
  unfold retargetPage
  refine hfold _ (fun page r hr => ?_) renames.entries (start, []) fun r hr => hr
  have hrename : renames.get? r.1 = some r.2 := get?_eq_some.mpr hr
  split
  · exact .refl
  · cases hdone : rewriteLinkTarget d.scan page.1 r.2 r.1 with
    | none => exact .refl
    | some done => exact .head ⟨r.2, r.1, hrename, rewriteLinkTarget_relinks (hnamed r.1 r.2 hrename) hdone⟩ .refl

theorem get?_foldl_insert {ι : Type} (key val : ι → String) (l : List ι) (m : Tree) (k : String) :
    (∃ a ∈ l, key a = k ∧ (l.foldl (fun m a => m.insert (key a) (val a)) m).get? k = some (val a)) ∨
      (∀ a ∈ l, key a ≠ k) ∧ (l.foldl (fun m a => m.insert (key a) (val a)) m).get? k = m.get? k := by
  induction l generalizing m with
  | nil => exact .inr ⟨fun a ha => absurd ha not_mem_nil, rfl⟩
  | cons a l ih =>
    rcases ih (m.insert (key a) (val a)) with ⟨b, hb, hkey, hget⟩ | ⟨hnone, hget⟩
    · exact .inl ⟨b, .tail _ hb, hkey, hget⟩
    · rw [get?_insert] at hget
      split at hget
      · rename_i hk
        exact .inl ⟨a, mem_cons_self .., hk.symm, hget⟩
      · rename_i hk
        refine .inr ⟨fun b hb => ?_, hget⟩
        rcases mem_cons.mp hb with rfl | hb
        · exact Ne.symm hk
        · exact hnone b hb

theorem get?_foldl_keep {ι : Type} (key val : ι → String) (l : List ι) (m : Tree) (k : String) :
    (m.get? k = none ∧ ∃ a ∈ l, key a = k ∧ (l.foldl (fun m a =>
      if (m.get? (key a)).isSome then m else m.insert (key a) (val a)) m).get? k = some (val a)) ∨
    ((m.get? k).isSome ∨ ∀ a ∈ l, key a ≠ k) ∧ (l.foldl (fun m a =>
      if (m.get? (key a)).isSome then m else m.insert (key a) (val a)) m).get? k = m.get? k := by
  induction l generalizing m with
  | nil => exact .inr ⟨.inr fun a ha => absurd ha not_mem_nil, rfl⟩
  | cons a l ih =>
    rw [foldl_cons]
    have hrest := ih (if (m.get? (key a)).isSome then m else m.insert (key a) (val a))
    by_cases hheld : (m.get? (key a)).isSome
    · rw [if_pos hheld] at hrest ⊢
      rcases hrest with ⟨hm, b, hb, hkey, hget⟩ | ⟨hwhy, hget⟩
      · exact .inl ⟨hm, b, .tail _ hb, hkey, hget⟩
      · refine .inr ⟨?_, hget⟩
        by_cases hk : key a = k
        · exact .inl (hk ▸ hheld)
        · exact hwhy.imp_right fun hnone b hb =>
            (mem_cons.mp hb).elim (fun heq => heq ▸ hk) (hnone b)
    · rw [if_neg hheld, get?_insert] at hrest
      rw [if_neg hheld]
      rw [not_isSome_iff_eq_none] at hheld
      by_cases hk : k = key a
      · rw [if_pos hk] at hrest
        rcases hrest with ⟨hno, -⟩ | ⟨-, hget⟩
        · cases hno
        · exact .inl ⟨hk ▸ hheld, a, .head _, hk.symm, hget⟩
      · rw [if_neg hk] at hrest
        rcases hrest with ⟨hm, b, hb, hkey, hget⟩ | ⟨hwhy, hget⟩
        · exact .inl ⟨hm, b, .tail _ hb, hkey, hget⟩
        · exact .inr ⟨hwhy.imp_right fun hnone b hb =>
            (mem_cons.mp hb).elim (fun heq => heq ▸ Ne.symm hk) (hnone b), hget⟩

theorem mem_repairPages {after : Tree} {p : RepairPage} (h : p ∈ d.repairPages tree base after renames) :
    tree.get? p.path = some p.held ∧
      ¬((base.get? p.path).isSome ∧ after.get? p.path = none) ∧ p.start = (after.get? p.path).getD p.held ∧
        p.next = (d.retargetPage renames p.path p.start).1 := by
  obtain ⟨e, he, hpage⟩ := mem_filterMap.mp h
  split at hpage
  · cases hpage
  · rename_i hstays
    cases hpage
    exact ⟨get?_eq_some.mpr he, by simpa using hstays, rfl, rfl⟩

/-- What a repair makes of one path: the page as it was, or a page of the tree that stays, with
links to moved pages followed. -/
def RepairsAt (d : EditDesk) (tree base after renames : Tree) (r : Repair) (p : String) : Prop :=
  (r.base.get? p = base.get? p ∧ r.after.get? p = after.get? p) ∨
    ∃ held next, tree.get? p = some held ∧ ¬((base.get? p).isSome ∧ after.get? p = none) ∧
      r.base.get? p = (base.get? p).or (some held) ∧ r.after.get? p = some next ∧
        next ≠ (after.get? p).getD held ∧ next = (d.retargetPage renames p ((after.get? p).getD held)).1

theorem repairRenameLinks_off (tree base after renames : Tree) :
    (d.repairRenameLinks tree base after renames false).base = base ∧
      (d.repairRenameLinks tree base after renames false).after = after := by
  unfold repairRenameLinks
  dsimp only
  split
  · exact ⟨rfl, rfl⟩
  · split
    · exact ⟨rfl, rfl⟩
    · exact ⟨rfl, rfl⟩

theorem repairRenameLinks_at (tree base after renames : Tree) (repair : Bool) (p : String) :
    RepairsAt d tree base after renames (d.repairRenameLinks tree base after renames repair) p := by
  unfold repairRenameLinks
  dsimp only
  split
  · exact .inl ⟨rfl, rfl⟩
  split
  · exact .inl ⟨rfl, rfl⟩
  split
  · exact .inl ⟨rfl, rfl⟩
  have hpage : ∀ q ∈ (d.repairPages tree base after renames).filter (fun p => p.next ≠ p.start),
      q.path = p → ∃ held next, q.held = held ∧ q.next = next ∧ tree.get? p = some held ∧
        ¬((base.get? p).isSome ∧ after.get? p = none) ∧ next ≠ (after.get? p).getD held ∧
          next = (d.retargetPage renames p ((after.get? p).getD held)).1 := by
    intro q hq hpath
    obtain ⟨hmem, hne⟩ := mem_filter.mp hq
    obtain ⟨htree, hstays, hstart, hnext⟩ := mem_repairPages hmem
    rw [hpath] at htree hstays hstart hnext
    rw [hstart] at hnext
    exact ⟨q.held, q.next, rfl, rfl, htree, hstays, by simpa [hstart] using hne, hnext⟩
  have hafter := get?_foldl_insert RepairPage.path RepairPage.next
    ((d.repairPages tree base after renames).filter fun p => p.next ≠ p.start) after p
  have hbase := get?_foldl_keep RepairPage.path RepairPage.held
    ((d.repairPages tree base after renames).filter fun p => p.next ≠ p.start) base p
  rcases hafter with ⟨q, hq, hpath, hget⟩ | ⟨hnone, hget⟩
  · obtain ⟨held, next, hheld, hnext, htree, hstays, hne, heq⟩ := hpage q hq hpath
    refine .inr ⟨held, next, htree, hstays, ?_, hnext ▸ hget, hne, heq⟩
    rcases hbase with ⟨hno, q', hq', hpath', hget'⟩ | ⟨hwhy, hget'⟩
    · obtain ⟨held', -, hheld', -, htree', -⟩ := hpage q' hq' hpath'
      refine hget'.trans ?_
      rw [hno, hheld', ← htree', htree]
      rfl
    · refine hget'.trans ?_
      obtain ⟨content, hcontent⟩ := isSome_iff_exists.mp
        (hwhy.resolve_right fun hnone => hnone q hq hpath)
      rw [hcontent]
      rfl
  · refine .inl ⟨?_, hget⟩
    rcases hbase with ⟨-, q', hq', hpath', -⟩ | ⟨-, hget'⟩
    · exact absurd hpath' (hnone q' hq')
    · exact hget'

structure Cast (d : EditDesk) (tree : Tree) (edits : List WikiEdit) (repairLinks : Bool) (s : WorkingCopy)
    (patch : String) : Prop where
  folded : edits.foldlM (d.foldWikiEdit (restrict tree (edits.flatMap editPaths)))
    { after := restrict tree (edits.flatMap editPaths) } = .ok s
  vacated : Vacated s.after s.renames
  built : buildPatch d.diff
    (d.repairRenameLinks tree (restrict tree (edits.flatMap editPaths)) s.after s.renames repairLinks).base
    (d.repairRenameLinks tree (restrict tree (edits.flatMap editPaths)) s.after s.renames repairLinks).after
    s.renames = some patch
  checked : ∃ left, applyPatch (restrict tree (touchedPaths (parsePatch patch))) (parsePatch patch) = .ok left

theorem wikiPatchFiles_wikiPayload (summary patch : String) :
    wikiPatchFiles (wikiPayload summary patch) = some (parsePatch patch) := by
  have hop : (wikiPayload summary patch).getStr "op" = some "wiki_patch" := rfl
  have hvalue : (wikiPayload summary patch).getStr "value" = some patch := rfl
  unfold wikiPatchFiles
  rfl

variable {patch : String}

theorem wikiPatchCheck_eq_ok (htree : d.wikiBase = .ok tree) {summary : String} {warnings : List String}
    (h : d.wikiPatchCheck (wikiPayload summary patch) = .ok warnings) :
    ∃ left, applyPatch (restrict tree (touchedPaths (parsePatch patch))) (parsePatch patch) = .ok left := by
  unfold wikiPatchCheck at h
  rw [wikiPatchFiles_wikiPayload, htree] at h
  dsimp only at h
  split at h
  · cases h
  · rename_i left hleft
    exact ⟨left, hleft⟩

theorem cast_eq_ok (htree : d.wikiBase = .ok tree) {dryRun : Bool} {allow : AllowWarnings} {r : Repair}
    {reply : WikiReply} (h : d.cast edits dryRun allow r renames patch = .ok reply) : reply.patch = some patch ∧
      ∃ left, applyPatch (restrict tree (touchedPaths (parsePatch patch))) (parsePatch patch) = .ok left := by
  obtain ⟨header, hcheck, h⟩ := bind_eq_ok.mp h
  refine ⟨?_, wikiPatchCheck_eq_ok htree hcheck⟩
  split at h
  · rw [← pure_eq_ok.mp h]
    rfl
  · simp only [bind_eq_ok] at h
    obtain ⟨-, -, -, -, h⟩ := h
    rw [← pure_eq_ok.mp h]
    rfl

theorem cmdWikiEdit_eq_ok (htree : d.wikiBase = .ok tree) {dryRun : Bool} {allow : AllowWarnings}
    {repairLinks : Bool} {reply : WikiReply} (h : d.cmdWikiEdit edits dryRun allow repairLinks = .ok reply) :
    ∃ s patch, reply.patch = some patch ∧ Cast d tree edits repairLinks s patch := by
  obtain ⟨-, -, h⟩ := bind_eq_ok.mp h
  obtain ⟨-, -, h⟩ := bind_eq_ok.mp h
  obtain ⟨-, -, h⟩ := bind_eq_ok.mp h
  obtain ⟨tree', htree', h⟩ := bind_eq_ok.mp h
  cases htree'.symm.trans htree
  obtain ⟨-, -, h⟩ := bind_eq_ok.mp h
  obtain ⟨s, hfold, h⟩ := bind_eq_ok.mp h
  split at h
  · cases h
  · rename_i hfind
    dsimp only at h
    split at h
    · cases h
    · rename_i patch hbuilt
      obtain ⟨hpatch, hchecked⟩ := cast_eq_ok htree h
      refine ⟨s, patch, hpatch, hfold, fun path old hrename => ?_, hbuilt, hchecked⟩
      have hold := find?_eq_none.mp hfind old (mem_values.mpr ⟨path, hrename⟩)
      exact not_isSome_iff_eq_none.mp hold

structure NetMove (edits : List WikiEdit) (tree P : Tree) (from_ to_ : String) : Prop where
  chain : Moved edits from_ to_
  tracked : (netMoves tree edits).get? to_ = some from_
  left : (tree.get? from_).isSome ∧ P.get? from_ = none
  arrived : (P.get? to_).isSome

/-- What a call may propose where the edits make `P` of the base: `P` itself, with the repair on up
to links to moved pages on pages of the base that stay. -/
def Meant (d : EditDesk) (edits : List WikiEdit) (repairLinks : Bool) (tree P T : Tree) : Prop :=
  ∀ p, T.get? p = P.get? p ∨ repairLinks = true ∧ ∃ old new, (tree.get? p).isSome ∧ P.get? p = some old ∧
    T.get? p = some new ∧ Relinked d.scan (NetMove edits tree P) old new

theorem Meant.eq_of_off {P T : Tree} (h : Meant d edits false tree P T) : T = P :=
  ext_get? fun p => (h p).resolve_right fun hon => Bool.false_ne_true hon.1

structure CleanCall (d : EditDesk) (edits : List WikiEdit) (repairLinks : Bool) (tree : Tree) : Prop where
  named : ∀ from_ to_, WikiEdit.rename from_ to_ ∈ edits → from_ ≠ ""
  changes : ∀ P T, edits.foldlM d.perform tree = .ok P → Meant d edits repairLinks tree P T →
    ∀ c, Makes tree T (netMoves tree edits) c → CleanChange d.diff c

section

variable {tree : Tree} {edits : List WikiEdit} {repairLinks : Bool} {s : WorkingCopy} {patch : String}

theorem Cast.mirrors (h : Cast d tree edits repairLinks s patch) (hknows : d.Knows tree) :
    ∃ P, edits.foldlM d.perform tree = .ok P ∧ Mirrors tree (edits.flatMap editPaths) s.after P :=
  foldlM_simulation (R := fun s T => Mirrors tree (edits.flatMap editPaths) s.after T)
    (fun _ _ e _ he hR hstep => foldWikiEdit_performs hknows
      (fun _ hp => mem_flatMap.mpr ⟨e, he, hp⟩) hR hstep) Mirrors.start h.folded

theorem Cast.tracked (h : Cast d tree edits repairLinks s patch) :
    Tracked edits (restrict tree (edits.flatMap editPaths)) s :=
  foldlM_invariant (P := Tracked edits (restrict tree (edits.flatMap editPaths)))
    (fun _ _ _ he hs hstep => foldWikiEdit_tracked he hs hstep)
    (fun path old hrename => by rw [get?_empty] at hrename; cases hrename) h.folded

theorem Cast.renames_eq (h : Cast d tree edits repairLinks s patch) : s.renames = netMoves tree edits :=
  foldWikiEdits_moves (fun e he p hp => mem_flatMap.mpr ⟨e, he, hp⟩)
    (fun path old hrename => by rw [get?_empty] at hrename; cases hrename) h.folded

theorem Cast.moved_touched (h : Cast d tree edits repairLinks s patch) {path old : String}
    (hrename : s.renames.get? path = some old) : old ∈ edits.flatMap editPaths := by
  have hbase := (h.tracked path old hrename).1
  rw [get?_restrict] at hbase
  split at hbase
  · assumption
  · cases hbase

theorem Cast.netMove (h : Cast d tree edits repairLinks s patch) {P : Tree}
    (hmirror : Mirrors tree (edits.flatMap editPaths) s.after P) {from_ to_ : String}
    (hrename : s.renames.get? to_ = some from_) : NetMove edits tree P from_ to_ := by
  obtain ⟨hbase, hafter, hmoved⟩ := h.tracked to_ from_ hrename
  have hgone := h.vacated to_ from_ hrename
  have hfrom := h.moved_touched hrename
  rw [get?_restrict, if_pos hfrom] at hbase
  have hto : to_ ∈ edits.flatMap editPaths := by
    by_contra hout
    rw [hmirror.within to_ hout] at hafter
    cases hafter
  exact {
    chain := hmoved
    tracked := h.renames_eq ▸ hrename
    left := ⟨hbase, by rw [hmirror.inside _ hfrom, hgone]⟩
    arrived := by rwa [hmirror.inside _ hto] }

theorem Cast.at_path (h : Cast d tree edits repairLinks s patch) {P : Tree}
    (hmirror : Mirrors tree (edits.flatMap editPaths) s.after P)
    (hnamed : ∀ from_ to_, WikiEdit.rename from_ to_ ∈ edits → from_ ≠ "") {r : Repair}
    (hr : r = d.repairRenameLinks tree (restrict tree (edits.flatMap editPaths)) s.after s.renames repairLinks)
    (p : String) :
    (p ∈ edits.flatMap editPaths ∧ r.base.get? p = tree.get? p ∧ r.after.get? p = P.get? p) ∨
    (p ∉ edits.flatMap editPaths ∧ r.base.get? p = none ∧ r.after.get? p = none ∧ P.get? p = tree.get? p) ∨
    (repairLinks = true ∧ ∃ held old new, tree.get? p = some held ∧ P.get? p = some old ∧
      r.base.get? p = some held ∧ r.after.get? p = some new ∧
        Relinked d.scan (NetMove edits tree P) old new) := by
  have hat := hr ▸ repairRenameLinks_at (d := d) tree (restrict tree (edits.flatMap editPaths)) s.after s.renames
    repairLinks p
  have hbase := get?_restrict tree (edits.flatMap editPaths) p
  rcases hat with ⟨hsame, hafter⟩ | ⟨held, next, htree, hstays, hheld, hafter, hne, hnext⟩
  · by_cases hp : p ∈ edits.flatMap editPaths
    · rw [if_pos hp] at hbase
      exact .inl ⟨hp, hsame.trans hbase, hafter.trans (hmirror.inside p hp).symm⟩
    · rw [if_neg hp] at hbase
      exact .inr (.inl ⟨hp, hsame.trans hbase, hafter.trans (hmirror.within p hp), hmirror.outside p hp⟩)
  · have hrepair : repairLinks = true := by
      by_contra hoff
      rw [Bool.not_eq_true] at hoff
      subst hoff
      rw [hr, (repairRenameLinks_off tree _ s.after s.renames).2] at hafter
      rw [hafter] at hne hnext
      exact hne rfl
    have hold : P.get? p = some ((s.after.get? p).getD held) := by
      by_cases hp : p ∈ edits.flatMap editPaths
      · rw [hmirror.inside p hp]
        rw [if_pos hp, htree] at hbase
        cases hafter' : s.after.get? p with
        | none => exact absurd ⟨by rw [hbase]; rfl, hafter'⟩ hstays
        | some content => rfl
      · rw [hmirror.outside p hp, htree, hmirror.within p hp]
        rfl
    have hboth : r.base.get? p = some held := by
      rw [hheld, hbase, htree]
      split <;> rfl
    have hold_named : ∀ path old, s.renames.get? path = some old → old ≠ "" := by
      intro path old hrename
      obtain ⟨b, hhop, -⟩ := Relation.TransGen.head'_iff.mp (h.netMove hmirror hrename).chain
      exact hnamed old b hhop
    have hchain := retargetPage_relinked (d := d) hold_named p ((s.after.get? p).getD held)
    refine .inr (.inr ⟨hrepair, held, _, next, htree, hold, hboth, hafter, ?_⟩)
    rw [hnext]
    have hfollow : ∀ a b, (∃ f t, s.renames.get? t = some f ∧ Relinks d.scan f t a b) →
        ∃ f t, NetMove edits tree P f t ∧ Relinks d.scan f t a b := fun a b ⟨f, t, hrename, hlinks⟩ =>
      ⟨f, t, h.netMove hmirror hrename, hlinks⟩
    exact Relation.ReflTransGen.mono hfollow _ _ hchain

theorem Cast.vacated_repaired (h : Cast d tree edits repairLinks s patch) :
    Vacated (d.repairRenameLinks tree (restrict tree (edits.flatMap editPaths)) s.after s.renames repairLinks).after
      s.renames := by
  intro path old hrename
  have hgone := h.vacated path old hrename
  rcases repairRenameLinks_at (d := d) tree (restrict tree (edits.flatMap editPaths)) s.after s.renames
    repairLinks old with ⟨-, hafter⟩ | ⟨-, -, -, hstays, -⟩
  · exact hafter.trans hgone
  · exact absurd ⟨(h.tracked path old hrename).1, hgone⟩ hstays

theorem Cast.moved_stays (h : Cast d tree edits repairLinks s patch) {path old : String}
    (hrename : s.renames.get? path = some old) :
    ((d.repairRenameLinks tree (restrict tree (edits.flatMap editPaths)) s.after s.renames
      repairLinks).after.get? path).isSome := by
  have hafter := (h.tracked path old hrename).2.1
  rcases repairRenameLinks_at (d := d) tree (restrict tree (edits.flatMap editPaths)) s.after s.renames
    repairLinks path with ⟨-, hsame⟩ | ⟨-, next, -, -, -, hnext, -⟩
  · rwa [hsame]
  · rw [hnext]
    rfl

end

def overlay (after P : Tree) : Tree := after.entries.foldl (fun T e => T.insert e.1 e.2) P

theorem get?_overlay (after P : Tree) (p : String) : (overlay after P).get? p = (after.get? p).or (P.get? p) := by
  rcases get?_foldl_insert Prod.fst Prod.snd after.entries P p with ⟨e, he, rfl, hget⟩ | ⟨hnone, hget⟩
  · have hafter : after.get? e.1 = some e.2 := get?_eq_some.mpr he
    rw [hafter]
    exact hget
  · have hafter : after.get? p = none := by
      cases hsome : after.get? p with
      | none => rfl
      | some content => exact absurd rfl (hnone _ (get?_eq_some.mp hsome))
    rw [hafter]
    exact hget

/-- A call whose changes a patch can carry proposes what it was asked for: its patch applies to the
whole base, and leaves the tree the edits make one after the other, with the repair on up to links
to moved pages on pages of the base that stay. -/
theorem wikiEdit_proposes_edits {tree : Tree} {edits : List WikiEdit} {dryRun : Bool} {allow : AllowWarnings}
    {repairLinks : Bool} {reply : WikiReply} (hdiff : Faithful d.diff) (htree : d.wikiBase = .ok tree)
    (hknows : d.Knows tree) (hclean : CleanCall d edits repairLinks tree)
    (h : d.cmdWikiEdit edits dryRun allow repairLinks = .ok reply) :
    ∃ patch P T, reply.patch = some patch ∧ edits.foldlM d.perform tree = .ok P ∧
      applyPatch tree (parsePatch patch) = .ok T ∧ (repairLinks = false → T = P) ∧
        Meant d edits repairLinks tree P T := by
  obtain ⟨s, patch, hpatch, hcast⟩ := cmdWikiEdit_eq_ok htree h
  obtain ⟨P, hperform, hmirror⟩ := hcast.mirrors hknows
  have hvacated := hcast.vacated_repaired
  have hstays := @Cast.moved_stays d tree edits repairLinks s patch hcast
  have hbuilt := hcast.built
  have hat := hcast.at_path hmirror hclean.named rfl
  generalize d.repairRenameLinks tree (restrict tree (edits.flatMap editPaths)) s.after s.renames
    repairLinks = r at hvacated hstays hbuilt hat
  have hT : ∀ p t, r.base.get? p = some t → tree.get? p = some t := by
    intro p t ht
    rcases hat p with ⟨-, hb, -⟩ | ⟨-, hb, -⟩ | ⟨-, held, -, -, htree', -, hb, -⟩
    · exact hb ▸ ht
    · rw [hb] at ht
      cases ht
    · rw [htree', ← hb, ht]
  have hmoved : ∀ path old, s.renames.get? path = some old → r.base.get? old = tree.get? old := by
    intro path old hrename
    rcases hat old with ⟨-, hb, -⟩ | ⟨hout, -⟩ | ⟨-, held, -, -, htree', -, hb, -⟩
    · exact hb
    · exact absurd (hcast.moved_touched hrename) hout
    · rw [hb, htree']
  have hover := get?_overlay r.after P
  have hmeant : Meant d edits repairLinks tree P (overlay r.after P) := by
    intro p
    rw [hover]
    rcases hat p with ⟨-, -, ha⟩ | ⟨-, -, ha, -⟩ | ⟨hrepair, held, old, new, htree', hold, -, ha, hlinks⟩
    · rw [ha, Option.or_self]
      exact .inl rfl
    · rw [ha, Option.none_or]
      exact .inl rfl
    · exact .inr ⟨hrepair, old, new, by rw [htree']; rfl, hold, by rw [ha, Option.some_or], hlinks⟩
  have horigin : ∀ path, origin r.base s.renames path = none → origin tree s.renames path = none := by
    intro path hnone
    rw [Option.eq_none_iff_forall_ne_some] at hnone ⊢
    rintro ⟨old, before⟩ hsome
    obtain ⟨hrename, hbefore⟩ := origin_eq_some.mp hsome
    exact hnone (old, before) (origin_eq_some.mpr ⟨hrename, (hmoved path old hrename).trans hbefore⟩)
  -- the changes of the restricted trees are changes of the whole ones
  have hmakes : ∀ c, Makes r.base r.after s.renames c → CleanChange d.diff c := by
    intro c hc
    refine hclean.changes P _ hperform hmeant c ?_
    rw [← hcast.renames_eq]
    cases c with
    | added path content =>
      obtain ⟨ha, hb, ho⟩ := hc
      refine ⟨by rw [hover, ha, Option.some_or], ?_, horigin path ho⟩
      rcases hat path with ⟨-, hb', -⟩ | ⟨-, -, ha', -⟩ | ⟨-, held, -, -, -, -, hb', -⟩
      · rw [← hb', hb]
      · rw [ha'] at ha
        cases ha
      · rw [hb'] at hb
        cases hb
    | deleted path content =>
      obtain ⟨hb, ha, hnot⟩ := hc
      refine ⟨hT path content hb, ?_, fun hconsumed => hnot ?_⟩
      · rw [hover, ha, Option.none_or]
        rcases hat path with ⟨-, -, ha'⟩ | ⟨-, hb', -⟩ | ⟨-, held, old, new, -, -, -, ha', -⟩
        · rw [← ha', ha]
        · rw [hb'] at hb
          cases hb
        · rw [ha'] at ha
          cases ha
      · obtain ⟨q, hrename, -, -⟩ := mem_consumed.mp hconsumed
        exact mem_consumed.mpr ⟨q, hrename, hstays hrename, by rw [hb]; rfl⟩
    | edited oldPath newPath before content =>
      obtain ⟨ha, hb, hwhich⟩ := hc
      refine ⟨by rw [hover, ha, Option.some_or], hT oldPath before hb, hwhich.imp_right ?_⟩
      exact fun ⟨hsame, hne, ho⟩ => ⟨hsame, hne, horigin newPath ho⟩
  -- the patch reads back as its changes
  unfold buildPatch at hbuilt
  dsimp only at hbuilt
  split at hbuilt
  · cases hbuilt
  obtain rfl := Option.some.inj hbuilt
  have hparse := parsePatch_emitted hdiff fun c hc => hmakes c ((mem_changes hvacated).mp hc)
  obtain ⟨left, hleft⟩ := hcast.checked
  rw [hparse] at hleft
  have hpart : ∀ c ∈ changes r.base r.after s.renames, ∀ p ∈ c.paths,
      (restrict tree (touchedPaths ((changes r.base r.after s.renames).map (fileOf d.diff)))).get? p =
        tree.get? p := by
    intro c hc p hp
    have hne := validPath_ne_empty (applyPatch_valid hleft c hc p hp)
    rw [get?_restrict, if_pos]
    refine List.mem_flatMap.mpr ⟨fileOf d.diff c, List.mem_map_of_mem hc, ?_⟩
    have hside := (fileOf_paths d.diff c p).mp hp
    simpa [hne] using hside
  obtain ⟨-, T, happly, hget⟩ := applyPatch_whole hdiff hvacated hmakes hT hpart hleft
  have hsame : T = overlay r.after P := by
    refine SortedMap.ext_get? fun p => ?_
    rw [hget p, hover]
    rcases hat p with ⟨-, hb, ha⟩ | ⟨-, hb, ha, hP⟩ | ⟨-, held, old, new, htree', -, hb, ha, -⟩
    · rw [hb, ha, Option.or_self]
      split
      · rfl
      · rename_i hnone
        rw [Option.not_isSome_iff_eq_none.mp hnone, Option.or_none]
    · rw [hb, ha, hP]
      rfl
    · rw [hb, ha]
      rfl
  subst hsame
  exact ⟨_, P, _, hpatch, hperform, by rw [hparse]; exact happly, fun hoff => (hoff ▸ hmeant).eq_of_off, hmeant⟩

def sample (tree : Tree) : EditDesk where
  feature := .ok ()
  supersedes := .ok ()
  wikiBase := .ok tree
  graph := none
  candidates := fun _ _ => []
  withProps := fun doc _ => .ok doc
  headerError := fun _ => none
  scan := fun _ => ⟨[], []⟩
  diff := whole
  touchedLines := fun _ _ => 0
  openWarnings := fun _ => []
  laterWarnings := fun _ _ _ _ => []
  propose := fun _ => .ok ()

def previewed : Except EditError WikiReply → Option String
  | .ok (.preview patch _ _ _) => some patch
  | _ => none

theorem previewed_eq_some {x : Except EditError WikiReply} (h : previewed x = some patch) :
    ∃ reply, x = .ok reply ∧ reply.patch = some patch := by
  unfold previewed at h
  split at h
  · rename_i q _ _ _
    cases h
    exact ⟨_, rfl, rfl⟩
  · cases h

theorem get?_single {k v p t : String} (h : ((SortedMap.empty : Tree).insert k v).get? p = some t) :
    p = k ∧ t = v := by
  rw [get?_insert] at h
  split at h
  · rename_i hp
    exact ⟨hp, (Option.some.inj h).symm⟩
  · rw [get?_empty] at h
    cases h

/-- A page is moved and rewritten in one call. -/
theorem wikiEdit_proposes_edits_sample :
    let tree : Tree := SortedMap.empty.insert "a" "A\n"
    let edits : List WikiEdit := [.rename "a" "b", .replace "b" "A" "B"]
    ∃ patch T, applyPatch tree (parsePatch patch) = .ok T ∧ edits.foldlM (sample tree).perform tree = .ok T ∧
      T.get? "b" = some "B\n" := by
  intro tree edits
  have hrun : (previewed ((sample tree).cmdWikiEdit edits true (.all false) true)).isSome := by decide +kernel
  obtain ⟨patch₀, hpreview⟩ := Option.isSome_iff_exists.mp hrun
  obtain ⟨reply, hreply, -⟩ := previewed_eq_some hpreview
  have hperform : edits.foldlM (sample tree).perform tree = .ok (SortedMap.empty.insert "b" "B\n") := by
    decide +kernel
  -- no page of the base stays, so no link is followed
  have hmeant : ∀ P T, edits.foldlM (sample tree).perform tree = .ok P →
      Meant (sample tree) edits true tree P T → T = SortedMap.empty.insert "b" "B\n" := by
    intro P T hP h
    obtain rfl := Except.ok.inj (hP.symm.trans hperform)
    refine SortedMap.ext_get? fun p => (h p).resolve_right ?_
    rintro ⟨-, old, new, hbase, hold, -⟩
    obtain ⟨content, hcontent⟩ := Option.isSome_iff_exists.mp hbase
    rw [(get?_single hcontent).1] at hold
    exact absurd (get?_single hold).1 (by decide)
  have hpath : CleanPath "a" ∧ CleanPath "b" ∧ OneSided "a" ∧ OneSided "b" :=
    ⟨⟨by decide, by decide⟩, ⟨by decide, by decide⟩, by unfold OneSided; decide, by unfold OneSided; decide⟩
  have hdiff : ∀ old new, '\r' ∉ old.toList → '\r' ∉ new.toList → old.toList.length < 3 → new.toList.length < 3 →
      CleanDiff (sample tree).diff old new := fun old new hold hnew hsold hsnew =>
    cleanDiff_plain whole_faithful hold hnew (by omega) (by omega)
  have hclean : CleanCall (sample tree) edits true tree := by
    refine ⟨fun from_ to_ hmem => ?_, fun P T hP hT c hc => ?_⟩
    · have heq : from_ = "a" ∧ to_ = "b" := by simpa [edits] using hmem
      rw [heq.1]
      decide
    · obtain rfl := hmeant P T hP hT
      cases c with
      | added path content =>
        obtain ⟨rfl, rfl⟩ := get?_single hc.1
        exact ⟨⟨hpath.2.1, hpath.2.2.2⟩, hdiff _ _ (by decide) (by decide) (by decide) (by decide)⟩
      | deleted path content =>
        obtain ⟨rfl, rfl⟩ := get?_single hc.1
        exact ⟨⟨hpath.1, hpath.2.2.1⟩, hdiff _ _ (by decide) (by decide) (by decide) (by decide)⟩
      | edited oldPath newPath before content =>
        obtain ⟨rfl, rfl⟩ := get?_single hc.1
        obtain ⟨rfl, rfl⟩ := get?_single hc.2.1
        exact ⟨⟨hpath.1, hpath.2.1⟩, fun h => absurd h (by decide), fun _ =>
          hdiff _ _ (by decide) (by decide) (by decide) (by decide)⟩
  have hknows : (sample tree).Knows tree := fun g hg => by cases hg
  obtain ⟨patch, P, T, -, hP, happly, -, hT⟩ := wikiEdit_proposes_edits whole_faithful rfl hknows hclean hreply
  obtain rfl := hmeant P T hP hT
  exact ⟨patch, _, happly, hperform, rfl⟩

/-- The carriage return of a created page is lost on the way through the patch. -/
theorem wikiEdit_loses_carriage_return :
    let d := sample SortedMap.empty
    let edits : List WikiEdit := [.create "p" "a\r\n"]
    Faithful d.diff ∧ ∃ reply patch, d.cmdWikiEdit edits true (.all false) false = .ok reply ∧
      reply.patch = some patch ∧
      edits.foldlM d.perform SortedMap.empty = .ok (SortedMap.empty.insert "p" "a\r\n") ∧
      applyPatch SortedMap.empty (parsePatch patch) = .ok (SortedMap.empty.insert "p" "a\n") := by
  intro d edits
  have hrun : previewed (d.cmdWikiEdit edits true (.all false) false) =
      some "diff --git a/p b/p\nnew file mode 100644\n--- /dev/null\n+++ b/p\n@@ -0,0 +1 @@\n+a\r\n" := by
    decide +kernel
  obtain ⟨reply, hreply, hpatch⟩ := previewed_eq_some hrun
  exact ⟨whole_faithful, reply, _, hreply, hpatch, by decide +kernel, by decide +kernel⟩

end EditDesk

end Molt.Wiki
