import Mathlib
import MoltRepublic.Wiki.Changes
import MoltRepublic.Wiki.EmitParse

/-! A net changeset against the tree it is applied to: when the strict applier takes it, and the
tree it leaves. -/

namespace Molt.Wiki
open Molt.Core Text LineDiff Check List SortedMap
open Option hiding mem_map

namespace NetChange

def paths : NetChange → List String
  | .added path _ | .deleted path _ => [path]
  | .edited oldPath newPath _ _ => [oldPath, newPath]

def Stands (T : Tree) : NetChange → Prop
  | .added _ _ => True
  | .deleted path content => T.get? path = some content
  | .edited oldPath _ before _ => T.get? oldPath = some before

def Free (T : Tree) : NetChange → Prop
  | .added path _ => T.get? path = none
  | .deleted _ _ => True
  | .edited oldPath newPath _ _ => oldPath ≠ newPath → T.get? newPath = none

def result (T : Tree) : NetChange → Tree
  | .added path content => T.insert path content
  | .deleted path _ => T.erase path
  | .edited oldPath newPath _ content => (T.erase oldPath).insert newPath content

end NetChange

theorem fileOf_paths (diff : Differ) (c : NetChange) (p : String) :
    p ∈ c.paths ↔ p = (fileOf diff c).oldPath ∨ p = (fileOf diff c).newPath := by
  cases c <;> simp [NetChange.paths, fileOf]

section

variable {diff : Differ} (hdiff : Faithful diff) {T : Tree} {c : NetChange}
include hdiff

theorem applyHunks_edited {before content : String} (h : before ≠ content → CleanDiff diff before content) :
    applyHunks before (if before ≠ content then (diff (splitLines before) (splitLines content)).map toHunk else []) =
      .ok content := by
  split
  · rename_i hne
    exact applyHunks_diff hdiff (h hne)
  · rename_i hsame
    rw [not_not] at hsame
    subst hsame
    unfold applyHunks
    simp [pure, Except.pure, Bind.bind, Except.bind, join_toElements]

theorem applyFile_fileOf (hclean : CleanChange diff c) (hvalid : ∀ p ∈ c.paths, validPath p = true)
    (hstands : c.Stands T) (hfree : c.Free T) : applyFile T (fileOf diff c) = .ok (c.result T) := by
  cases c with
  | added path content =>
    have hpath := hvalid path (.head _)
    have hnone : T.get? path = none := hfree
    have hhunks := applyHunks_diff hdiff hclean.2
    simp [applyFile, fileOf, hpath, hnone, hhunks, NetChange.result, Bind.bind, Except.bind, pure, Except.pure]
  | deleted path content =>
    have hpath := hvalid path (.head _)
    have hsome : T.get? path = some content := hstands
    have hhunks := applyHunks_diff hdiff hclean.2
    simp [applyFile, fileOf, hpath, hsome, hhunks, NetChange.result, Bind.bind, Except.bind, pure, Except.pure]
  | edited oldPath newPath before content =>
    have hold := hvalid oldPath (mem_cons_self ..)
    have hnew := hvalid newPath (.tail _ (.head _))
    have hsome : T.get? oldPath = some before := hstands
    have hhunks := applyHunks_edited hdiff hclean.2.2
    have htarget : oldPath ≠ newPath → (T.erase oldPath).get? newPath = none := by
      intro hne
      rw [get?_erase, if_neg (Ne.symm hne)]
      exact hfree hne
    by_cases hpath : oldPath = newPath
    · subst hpath
      simp only [applyFile, fileOf, hold, hsome, hhunks, NetChange.result, Bind.bind, Except.bind, pure,
        Except.pure]
      simp
    · have htarget := htarget hpath
      simp only [applyFile, fileOf, hold, hnew, hsome, hhunks, htarget, NetChange.result, Bind.bind, Except.bind,
        pure, Except.pure]
      simp

omit hdiff in
theorem applyFile_needs {next : Tree} (h : applyFile T (fileOf diff c) = .ok next) :
    (∀ p ∈ c.paths, validPath p = true) ∧ c.Free T := by
  have hcases := applyFile_cases h
  unfold applyFile at h
  dsimp only at h
  obtain ⟨hnew, h⟩ := passes h
  obtain ⟨hold, -⟩ := passes h
  have holdValid : validPath (fileOf diff c).oldPath = true := by simpa using hold
  cases c with
  | added path content =>
    refine ⟨fun p hp => mem_singleton.mp hp ▸ holdValid, ?_⟩
    rcases hcases with ⟨-, hfree, -⟩ | ⟨hno, -⟩
    · exact hfree
    · exact absurd hno Bool.true_eq_false.mp
  | deleted path content => exact ⟨fun p hp => mem_singleton.mp hp ▸ holdValid, trivial⟩
  | edited oldPath newPath before content =>
    have hnewValid : validPath newPath = true := by simpa [fileOf] using hnew
    refine ⟨?_, fun hne => ?_⟩
    · exact forall_mem_cons.mpr ⟨holdValid, fun p hp => mem_singleton.mp hp ▸ hnewValid⟩
    · rcases hcases with ⟨hno, -⟩ | ⟨-, -, ⟨hno, -⟩ | ⟨-, hfree, -⟩⟩
      · exact absurd hno Bool.false_ne_true
      · exact absurd hno Bool.false_ne_true
      · have hfree : (T.erase oldPath).get? newPath = none := hfree (decide_eq_true hne)
        rwa [get?_erase, if_neg (Ne.symm hne)] at hfree

theorem applyFile_fileOf_eq {next : Tree} (hclean : CleanChange diff c) (hstands : c.Stands T)
    (h : applyFile T (fileOf diff c) = .ok next) : c.Free T ∧ next = c.result T := by
  obtain ⟨hvalid, hfree⟩ := applyFile_needs h
  exact ⟨hfree, Except.ok.inj (h.symm.trans (applyFile_fileOf hdiff hclean hvalid hstands hfree))⟩

end

variable {p : String}

theorem touch_eq_ok {touched : List String} (hp : p ≠ "") {t : List String} :
    touch touched p = .ok t ↔ p ∉ touched ∧ t = p :: touched := by
  unfold touch
  rw [if_neg hp]
  split
  · rename_i hmem
    simp [contains_iff_mem.mp hmem]
  · rename_i hmem
    have hmem : p ∉ touched := fun h => hmem (contains_iff_mem.mpr h)
    simp [hmem, eq_comm]

theorem touchFile_eq_ok {touched : List String} {f : PatchFile} (hold : f.oldPath ≠ "") (hnew : f.newPath ≠ "")
    {t : List String} : touchFile touched f = .ok t ↔ (f.oldPath ∉ touched ∧ f.newPath ∉ touched) ∧
      t = if f.newPath = f.oldPath then f.oldPath :: touched else f.newPath :: f.oldPath :: touched := by
  unfold touchFile
  rw [bind_eq_ok]
  by_cases hsame : f.newPath = f.oldPath
  · simp only [hsame, if_true, touch_eq_ok hold, pure_eq_ok]
    constructor
    · rintro ⟨a, ⟨hout, rfl⟩, rfl⟩
      exact ⟨⟨hout, hout⟩, rfl⟩
    · rintro ⟨⟨hout, -⟩, rfl⟩
      exact ⟨_, ⟨hout, rfl⟩, rfl⟩
  · simp only [hsame, if_false, touch_eq_ok hold, touch_eq_ok hnew]
    constructor
    · rintro ⟨a, ⟨hout, rfl⟩, hnot, rfl⟩
      exact ⟨⟨hout, fun h => hnot (.tail _ h)⟩, rfl⟩
    · rintro ⟨⟨hout, hnot⟩, rfl⟩
      refine ⟨_, ⟨hout, rfl⟩, fun h => ?_, rfl⟩
      exact (mem_cons.mp h).elim hsame hnot

def Apart (files : List PatchFile) : Prop :=
  files.Pairwise fun f g => ∀ p, p = f.oldPath ∨ p = f.newPath → p ≠ g.oldPath ∧ p ≠ g.newPath

theorem touchFiles_ok {files : List PatchFile} (hnamed : ∀ f ∈ files, f.oldPath ≠ "" ∧ f.newPath ≠ "")
    (touched : List String) : (∃ t, files.foldlM touchFile touched = .ok t) ↔
      Apart files ∧ ∀ f ∈ files, f.oldPath ∉ touched ∧ f.newPath ∉ touched := by
  induction files generalizing touched with
  | nil => exact ⟨fun _ => ⟨List.Pairwise.nil, fun f hf => absurd hf (not_mem_nil)⟩, fun _ => ⟨touched, rfl⟩⟩
  | cons f files ih =>
    obtain ⟨hold, hnew⟩ := hnamed f (.head _)
    have hrest := fun t => ih (fun g hg => hnamed g (.tail _ hg)) t
    have hafter : ∀ p : String, (p ∉ if f.newPath = f.oldPath then f.oldPath :: touched
        else f.newPath :: f.oldPath :: touched) ↔ (p ≠ f.oldPath ∧ p ≠ f.newPath) ∧ p ∉ touched := by
      intro p
      split
      · rename_i hsame
        rw [hsame, mem_cons, not_or, and_self]
      · rw [mem_cons, mem_cons, not_or, not_or]
        tauto
    constructor
    · rintro ⟨t, ht⟩
      obtain ⟨r, hone, hall⟩ := foldlM_cons_eq_ok.mp ht
      obtain ⟨hfree, rfl⟩ := (touchFile_eq_ok hold hnew).mp hone
      obtain ⟨hapart, hout⟩ := (hrest _).mp ⟨t, hall⟩
      refine ⟨pairwise_cons.mpr ⟨fun g hg p hp => ?_, hapart⟩, fun g hg => ?_⟩
      · obtain ⟨hgold, hgnew⟩ := hout g hg
        have hgold := ((hafter _).mp hgold).1
        have hgnew := ((hafter _).mp hgnew).1
        rcases hp with rfl | rfl
        · exact ⟨fun h => hgold.1 h.symm, fun h => hgnew.1 h.symm⟩
        · exact ⟨fun h => hgold.2 h.symm, fun h => hgnew.2 h.symm⟩
      · rcases mem_cons.mp hg with rfl | hg
        · exact hfree
        · obtain ⟨hgold, hgnew⟩ := hout g hg
          exact ⟨((hafter _).mp hgold).2, ((hafter _).mp hgnew).2⟩
    · rintro ⟨hapart, hout⟩
      obtain ⟨hfirst, hapart⟩ := pairwise_cons.mp hapart
      have hall := (hrest (if f.newPath = f.oldPath then f.oldPath :: touched
        else f.newPath :: f.oldPath :: touched)).mpr ⟨hapart, fun g hg => ?_⟩
      · obtain ⟨t, ht⟩ := hall
        exact ⟨t, foldlM_cons_eq_ok.mpr
          ⟨_, (touchFile_eq_ok hold hnew).mpr ⟨hout f (.head _), rfl⟩, ht⟩⟩
      · obtain ⟨hgold, hgnew⟩ := hout g (.tail _ hg)
        have hold' := hfirst g hg f.oldPath (.inl rfl)
        have hnew' := hfirst g hg f.newPath (.inr rfl)
        exact ⟨(hafter _).mpr ⟨⟨fun h => hold'.1 h.symm, fun h => hnew'.1 h.symm⟩, hgold⟩,
          (hafter _).mpr ⟨⟨fun h => hold'.2 h.symm, fun h => hnew'.2 h.symm⟩, hgnew⟩⟩

namespace NetChange

def leaves (p : String) : NetChange → Option String
  | .added _ content => some content
  | .deleted _ _ => none
  | .edited _ newPath _ content => if p = newPath then some content else none

variable {c : NetChange}

theorem get?_result {p : String} (hp : p ∈ c.paths) (T : Tree) :
    (c.result T).get? p = c.leaves p := by
  cases c with
  | added path content =>
    rw [mem_singleton.mp hp]
    simp [result, leaves, get?_insert]
  | deleted path content =>
    rw [mem_singleton.mp hp]
    simp [result, leaves, get?_erase]
  | edited oldPath newPath before content =>
    simp only [result, leaves, get?_insert, get?_erase]
    rcases mem_cons.mp hp with rfl | hp
    · simp
    · simp [mem_singleton.mp hp]

theorem get?_result_of_notMem {p : String} (hp : p ∉ c.paths) (T : Tree) :
    (c.result T).get? p = T.get? p := by
  cases c with
  | added path content =>
    have hne : p ≠ path := by simpa [paths] using hp
    simp [result, get?_insert, hne]
  | deleted path content =>
    have hne : p ≠ path := by simpa [paths] using hp
    simp [result, get?_erase, hne]
  | edited oldPath newPath before content =>
    have hne : p ≠ oldPath ∧ p ≠ newPath := by simpa [paths] using hp
    simp [result, get?_insert, get?_erase, hne.1, hne.2]

theorem Stands.congr {T U : Tree} (h : ∀ p ∈ c.paths, T.get? p = U.get? p) :
    c.Stands T ↔ c.Stands U := by
  cases c with
  | added path content => exact .rfl
  | deleted path content =>
    show T.get? path = _ ↔ U.get? path = _
    rw [h path (.head _)]
  | edited oldPath newPath before content =>
    show T.get? oldPath = _ ↔ U.get? oldPath = _
    rw [h oldPath (.head _)]

theorem Free.congr {T U : Tree} (h : ∀ p ∈ c.paths, T.get? p = U.get? p) :
    c.Free T ↔ c.Free U := by
  cases c with
  | added path content =>
    show T.get? path = none ↔ U.get? path = none
    rw [h path (.head _)]
  | deleted path content => exact .rfl
  | edited oldPath newPath before content =>
    show (_ → T.get? newPath = none) ↔ (_ → U.get? newPath = none)
    rw [h newPath (.tail _ (.head _))]

end NetChange

def Disjoint (cs : List NetChange) : Prop := cs.Pairwise fun c d => ∀ p ∈ c.paths, p ∉ d.paths

theorem apart_fileOf (diff : Differ) (cs : List NetChange) : Apart (cs.map (fileOf diff)) ↔ Disjoint cs := by
  unfold Apart Disjoint
  rw [pairwise_map]
  have hpair : ∀ c d : NetChange, (∀ p, p = (fileOf diff c).oldPath ∨ p = (fileOf diff c).newPath →
      p ≠ (fileOf diff d).oldPath ∧ p ≠ (fileOf diff d).newPath) ↔ ∀ p ∈ c.paths, p ∉ d.paths := by
    intro c d
    refine forall_congr' fun p => ?_
    rw [fileOf_paths diff c, fileOf_paths diff d, not_or]
  simp only [hpair]

variable {cs : List NetChange}

theorem get?_results_of_notMem (hp : ∀ c ∈ cs, p ∉ c.paths) (T : Tree) :
    (cs.foldl (fun T c => c.result T) T).get? p = T.get? p := by
  induction cs generalizing T with
  | nil => rfl
  | cons c cs ih =>
    rw [foldl_cons, ih fun d hd => hp d (.tail _ hd),
      NetChange.get?_result_of_notMem (hp c (.head _))]

theorem get?_results (hdis : Disjoint cs) {c : NetChange} (hc : c ∈ cs) (hp : p ∈ c.paths) (T : Tree) :
    (cs.foldl (fun T c => c.result T) T).get? p = c.leaves p := by
  induction cs generalizing T with
  | nil => exact absurd hc (not_mem_nil)
  | cons d cs ih =>
    obtain ⟨hfirst, hrest⟩ := pairwise_cons.mp hdis
    rw [foldl_cons]
    rcases mem_cons.mp hc with rfl | hc
    · rw [get?_results_of_notMem fun e he => hfirst e he p hp, NetChange.get?_result hp]
    · exact ih hrest hc (d.result T)

variable {diff : Differ}

theorem applyFiles_fileOf (hdiff : Faithful diff) (hdis : Disjoint cs) (hclean : ∀ c ∈ cs, CleanChange diff c)
    {T T' : Tree} (hstands : ∀ c ∈ cs, c.Stands T) :
    (cs.map (fileOf diff)).foldlM applyFile T = .ok T' ↔
      (∀ c ∈ cs, (∀ p ∈ c.paths, validPath p = true) ∧ c.Free T) ∧
        T' = cs.foldl (fun T c => c.result T) T := by
  induction cs generalizing T with
  | nil =>
    rw [map_nil, foldlM_nil_eq_ok, foldl_nil]
    exact ⟨fun h => ⟨fun c hc => absurd hc (not_mem_nil), h.symm⟩, fun h => h.2.symm⟩
  | cons c cs ih =>
    obtain ⟨hfirst, hrest⟩ := pairwise_cons.mp hdis
    have hc := hclean c (.head _)
    -- what stands or is free behind the first change did so before it
    have hsame : ∀ d ∈ cs, ∀ p ∈ d.paths, (c.result T).get? p = T.get? p := fun d hd p hp =>
      NetChange.get?_result_of_notMem (fun h => hfirst d hd p h hp) T
    have hih := ih hrest (fun d hd => hclean d (.tail _ hd)) (T := c.result T) fun d hd =>
      (NetChange.Stands.congr (hsame d hd)).mpr (hstands d (.tail _ hd))
    rw [map_cons, foldlM_cons_eq_ok, foldl_cons]
    constructor
    · rintro ⟨next, hone, hall⟩
      have hvalid := (applyFile_needs hone).1
      obtain ⟨hfree, rfl⟩ := applyFile_fileOf_eq hdiff hc (hstands c (.head _)) hone
      obtain ⟨hothers, hresult⟩ := hih.mp hall
      refine ⟨fun d hd => ?_, hresult⟩
      rcases mem_cons.mp hd with rfl | hd
      · exact ⟨hvalid, hfree⟩
      · exact ⟨(hothers d hd).1, (NetChange.Free.congr (hsame d hd)).mp (hothers d hd).2⟩
    · rintro ⟨hneeds, hresult⟩
      obtain ⟨hvalid, hfree⟩ := hneeds c (.head _)
      refine ⟨c.result T, applyFile_fileOf hdiff hc hvalid (hstands c (.head _)) hfree,
        hih.mpr ⟨fun d hd => ?_, hresult⟩⟩
      obtain ⟨hdvalid, hdfree⟩ := hneeds d (.tail _ hd)
      exact ⟨hdvalid, (NetChange.Free.congr (hsame d hd)).mpr hdfree⟩

theorem validPath_ne_empty (h : validPath p = true) : p ≠ "" := by
  rintro rfl
  cases h

theorem applyFiles_valid {T T' : Tree} (h : (cs.map (fileOf diff)).foldlM applyFile T = .ok T') :
    ∀ c ∈ cs, ∀ p ∈ c.paths, validPath p = true := by
  induction cs generalizing T with
  | nil => exact fun c hc => absurd hc not_mem_nil
  | cons d cs ih =>
    obtain ⟨next, hone, hall⟩ := foldlM_cons_eq_ok.mp h
    exact forall_mem_cons.mpr ⟨(applyFile_needs hone).1, ih hall⟩

theorem applyPatch_valid {T T' : Tree} (h : applyPatch T (cs.map (fileOf diff)) = .ok T') :
    ∀ c ∈ cs, ∀ p ∈ c.paths, validPath p = true := by
  obtain ⟨-, h⟩ := passes h
  obtain ⟨-, -, h⟩ := bind_eq_ok.mp h
  exact applyFiles_valid h

theorem touch_changeset {diff : Differ} {cs : List NetChange}
    (hvalid : ∀ c ∈ cs, ∀ p ∈ c.paths, validPath p = true) :
    (∃ t, (cs.map (fileOf diff)).foldlM touchFile [] = .ok t) ↔ Disjoint cs := by
  have hpaths : ∀ f ∈ cs.map (fileOf diff), f.oldPath ≠ "" ∧ f.newPath ≠ "" := by
    intro f hf
    obtain ⟨c, hc, rfl⟩ := mem_map.mp hf
    exact ⟨validPath_ne_empty (hvalid c hc _ ((fileOf_paths diff c _).mpr (.inl rfl))),
      validPath_ne_empty (hvalid c hc _ ((fileOf_paths diff c _).mpr (.inr rfl)))⟩
  rw [touchFiles_ok hpaths, apart_fileOf]
  exact ⟨fun h => h.1, fun h => ⟨h, fun f _ => ⟨not_mem_nil, not_mem_nil⟩⟩⟩

theorem applyPatch_changeset (hdiff : Faithful diff) (hclean : ∀ c ∈ cs, CleanChange diff c) {T T' : Tree}
    (hstands : ∀ c ∈ cs, c.Stands T) :
    applyPatch T (cs.map (fileOf diff)) = .ok T' ↔ cs ≠ [] ∧ Disjoint cs ∧
      (∀ c ∈ cs, (∀ p ∈ c.paths, validPath p = true) ∧ c.Free T) ∧
        T' = cs.foldl (fun T c => c.result T) T := by
  have hempty : (cs.map (fileOf diff)).isEmpty = true ↔ cs = [] := by
    rw [List.isEmpty_iff, map_eq_nil_iff]
  constructor
  · intro h
    obtain ⟨hne, h⟩ := passes h
    obtain ⟨t, ht, h⟩ := bind_eq_ok.mp h
    have hdis := (touch_changeset (applyFiles_valid h)).mp ⟨t, ht⟩
    obtain ⟨hneeds, hresult⟩ := (applyFiles_fileOf hdiff hdis hclean hstands).mp h
    exact ⟨fun hnil => hne (hempty.mpr hnil), hdis, hneeds, hresult⟩
  · rintro ⟨hne, hdis, hneeds, hresult⟩
    obtain ⟨t, ht⟩ := (@touch_changeset diff cs fun c hc => (hneeds c hc).1).mpr hdis
    have happly := (applyFiles_fileOf hdiff hdis hclean hstands).mpr ⟨hneeds, hresult⟩
    unfold applyPatch
    rw [if_neg fun h => hne (hempty.mp h)]
    exact bind_eq_ok.mpr ⟨t, ht, happly⟩

def Vacated (after renames : Tree) : Prop := ∀ path old, renames.get? path = some old → after.get? old = none

def origin (base renames : Tree) (path : String) : Option (String × String) :=
  (renames.get? path).bind fun old => (base.get? old).map fun before => (old, before)

theorem origin_eq_some {base renames : Tree} {path old before : String} :
    origin base renames path = some (old, before) ↔ renames.get? path = some old ∧ base.get? old = some before := by
  unfold origin
  cases renames.get? path with
  | none => simp
  | some o =>
    cases ho : base.get? o with
    | none =>
      simp only [bind_some, ho, map_none, reduceCtorEq, Option.some.injEq, false_iff, not_and]
      rintro rfl hb
      exact absurd (ho.symm.trans hb) (by simp)
    | some b =>
      simp only [bind_some, ho, map_some, Option.some.injEq, Prod.mk.injEq]
      constructor
      · rintro ⟨rfl, rfl⟩
        exact ⟨rfl, ho⟩
      · rintro ⟨rfl, hb⟩
        exact ⟨rfl, Option.some.inj (ho.symm.trans hb)⟩

def Makes (base after renames : Tree) : NetChange → Prop
  | .added path content =>
    after.get? path = some content ∧ base.get? path = none ∧ origin base renames path = none
  | .deleted path content =>
    base.get? path = some content ∧ after.get? path = none ∧ path ∉ consumed base after renames
  | .edited oldPath newPath before content =>
    after.get? newPath = some content ∧ base.get? oldPath = some before ∧
      (oldPath ≠ newPath ∧ renames.get? newPath = some oldPath ∨
        oldPath = newPath ∧ before ≠ content ∧ origin base renames newPath = none)

section

variable {base after renames : Tree}

theorem mem_consumed {p : String} : p ∈ consumed base after renames ↔
    ∃ path, renames.get? path = some p ∧ (after.get? path).isSome ∧ (base.get? p).isSome := by
  unfold consumed
  simp only [mem_map, mem_filter, Bool.and_eq_true, Prod.exists, exists_eq_right,
    get?_eq_some]

theorem notMem_consumed (hvacated : Vacated after renames) {p content : String} (hp : after.get? p = some content) :
    p ∉ consumed base after renames := by
  rintro h
  obtain ⟨path, hrename, -, -⟩ := mem_consumed.mp h
  rw [hvacated path p hrename] at hp
  cases hp

variable {c : NetChange}

theorem changeAt_eq_some (hvacated : Vacated after renames) {path content : String}
    (hafter : after.get? path = some content) :
    changeAt base after renames path content = some c ↔ Makes base after renames c ∧ c.key = path ∧
      c.leaves path = some content := by
  have hconsumed := @notMem_consumed base after renames hvacated path content hafter
  have horigin : (renames.get? path).bind (fun old => (base.get? old).map fun before => (old, before)) =
    origin base renames path := rfl
  unfold changeAt
  rw [horigin]
  cases ho : origin base renames path with
  | some pair =>
    obtain ⟨old, before⟩ := pair
    obtain ⟨hrename, hbefore⟩ := origin_eq_some.mp ho
    have hne : old ≠ path := by
      rintro rfl
      rw [hvacated _ _ hrename] at hafter
      cases hafter
    simp only [hne, ne_eq, not_false_eq_true, decide_true, Bool.true_or, if_true, Option.some.injEq]
    constructor
    · rintro rfl
      exact ⟨⟨hafter, hbefore, .inl ⟨hne, hrename⟩⟩, rfl, if_pos rfl⟩
    · rintro ⟨hmakes, hkey, hleaves⟩
      cases c with
      | added p t =>
        obtain rfl : p = path := hkey
        have hnone : origin base renames p = none := hmakes.2.2
        rw [ho] at hnone
        cases hnone
      | deleted p t => cases hleaves
      | edited o p b t =>
        obtain rfl : p = path := hkey
        obtain ⟨ht, hb, hwhich⟩ := hmakes
        obtain ⟨-, hr⟩ | ⟨-, -, hnone⟩ := hwhich
        · cases hrename.symm.trans hr
          cases hbefore.symm.trans hb
          cases hafter.symm.trans ht
          rfl
        · rw [ho] at hnone
          cases hnone
  | none =>
    dsimp only
    cases hb : base.get? path with
    | none =>
      simp only [Option.some.injEq]
      constructor
      · rintro rfl
        exact ⟨⟨hafter, hb, ho⟩, rfl, rfl⟩
      · rintro ⟨hmakes, hkey, hleaves⟩
        cases c with
        | added p t =>
          obtain rfl : p = path := hkey
          cases hleaves
          rfl
        | deleted p t => cases hleaves
        | edited o p b t =>
          obtain rfl : p = path := hkey
          obtain ⟨-, hold, ⟨-, hr⟩ | ⟨rfl, -⟩⟩ := hmakes
          · rw [origin_eq_some.mpr ⟨hr, hold⟩] at ho
            cases ho
          · rw [hb] at hold
            cases hold
    | some before =>
      have hnot : (consumed base after renames).contains path = false := by
        simpa using hconsumed
      simp only [hnot, Bool.false_eq_true, if_false]
      constructor
      · intro h
        split at h
        · rename_i hne
          cases h
          exact ⟨⟨hafter, hb, .inr ⟨rfl, hne, ho⟩⟩, rfl, if_pos rfl⟩
        · cases h
      · rintro ⟨hmakes, hkey, hleaves⟩
        cases c with
        | added p t =>
          obtain rfl : p = path := hkey
          have hnone : base.get? p = none := hmakes.2.1
          rw [hb] at hnone
          cases hnone
        | deleted p t => cases hleaves
        | edited o p b t =>
          obtain rfl : p = path := hkey
          obtain ⟨ht, hold, ⟨-, hr⟩ | ⟨rfl, hne, -⟩⟩ := hmakes
          · rw [origin_eq_some.mpr ⟨hr, hold⟩] at ho
            cases ho
          · cases hb.symm.trans hold
            cases hafter.symm.trans ht
            rw [if_pos hne]

theorem mem_changes (hvacated : Vacated after renames) :
    c ∈ changes base after renames ↔ Makes base after renames c := by
  unfold changes
  rw [mem_mergeSort, mem_append, mem_filterMap, mem_map]
  constructor
  · rintro (⟨e, he, hc⟩ | ⟨e, he, rfl⟩)
    · exact ((changeAt_eq_some hvacated (get?_eq_some.mpr he)).mp hc).1
    · obtain ⟨hmem, hgone⟩ := mem_filter.mp he
      have hgone : (after.get? e.1).isSome = false ∧ (consumed base after renames).contains e.1 = false := by
        simpa using hgone
      exact ⟨get?_eq_some.mpr hmem, by simpa using hgone.1, by simpa using hgone.2⟩
  · intro hmakes
    cases c with
    | added path content =>
      have hafter : after.get? path = some content := hmakes.1
      exact .inl ⟨(path, content), get?_eq_some.mp hafter,
        (changeAt_eq_some hvacated hafter).mpr ⟨hmakes, rfl, rfl⟩⟩
    | edited oldPath newPath before content =>
      have hafter : after.get? newPath = some content := hmakes.1
      exact .inl ⟨(newPath, content), get?_eq_some.mp hafter,
        (changeAt_eq_some hvacated hafter).mpr ⟨hmakes, rfl, if_pos rfl⟩⟩
    | deleted path content =>
      obtain ⟨hbase, hafter, hnot⟩ := hmakes
      refine .inr ⟨(path, content), mem_filter.mpr ⟨get?_eq_some.mp hbase, ?_⟩, rfl⟩
      simp [hafter, hnot]

theorem Makes.stands (h : Makes base after renames c) {T : Tree}
    (hT : ∀ p t, base.get? p = some t → T.get? p = some t) : c.Stands T := by
  cases c with
  | added path content => trivial
  | deleted path content => exact hT path content h.1
  | edited oldPath newPath before content => exact hT oldPath before h.2.1

theorem Makes.leaves_eq (hvacated : Vacated after renames) (h : Makes base after renames c) {p : String}
    (hp : p ∈ c.paths) : c.leaves p = after.get? p := by
  cases c with
  | added path content => rw [mem_singleton.mp hp, h.1]; rfl
  | deleted path content => rw [mem_singleton.mp hp, h.2.1]; rfl
  | edited oldPath newPath before content =>
    obtain ⟨hafter, -, hwhich⟩ := h
    simp only [NetChange.leaves]
    split
    · rename_i hnew
      rw [hnew, hafter]
    · rename_i hnew
      have hold : p = oldPath := (mem_cons.mp hp).resolve_right fun h => hnew (mem_singleton.mp h)
      obtain ⟨-, hr⟩ | ⟨rfl, -⟩ := hwhich
      · rw [hold, hvacated _ _ hr]
      · exact absurd hold hnew

theorem same_of_silent (hvacated : Vacated after renames) {p : String}
    (hp : ∀ c, Makes base after renames c → p ∉ c.paths) : after.get? p = base.get? p := by
  cases hafter : after.get? p with
  | none =>
    cases hbase : base.get? p with
    | none => rfl
    | some content =>
      exfalso
      by_cases hconsumed : p ∈ consumed base after renames
      · obtain ⟨path, hrename, hsome, -⟩ := mem_consumed.mp hconsumed
        obtain ⟨now, hnow⟩ := isSome_iff_exists.mp hsome
        have hne : p ≠ path := by
          rintro rfl
          rw [hafter] at hnow
          cases hnow
        exact hp (.edited p path content now) ⟨hnow, hbase, .inl ⟨hne, hrename⟩⟩ (.head _)
      · exact hp (.deleted p content) ⟨hbase, hafter, hconsumed⟩ (.head _)
  | some content =>
    cases ho : origin base renames p with
    | some pair =>
      obtain ⟨old, before⟩ := pair
      obtain ⟨hrename, hbefore⟩ := origin_eq_some.mp ho
      have hne : old ≠ p := by
        rintro rfl
        rw [hvacated _ _ hrename] at hafter
        cases hafter
      exact absurd (.tail _ (.head _))
        (hp (.edited old p before content) ⟨hafter, hbefore, .inl ⟨hne, hrename⟩⟩)
    | none =>
      cases hbase : base.get? p with
      | none => exact absurd (.head _) (hp (.added p content) ⟨hafter, hbase, ho⟩)
      | some before =>
        by_contra hne
        have hne : before ≠ content := fun h => hne (congrArg some h.symm)
        exact hp (.edited p p before content) ⟨hafter, hbase, .inr ⟨rfl, hne, ho⟩⟩ (.head _)

theorem get?_changes (hvacated : Vacated after renames) (hdis : Disjoint (changes base after renames)) {T : Tree}
    (hT : ∀ p t, base.get? p = some t → T.get? p = some t) (p : String) :
    ((changes base after renames).foldl (fun T c => c.result T) T).get? p =
      if (base.get? p).isSome then after.get? p else (after.get? p).or (T.get? p) := by
  by_cases hspoken : ∃ c ∈ changes base after renames, p ∈ c.paths
  · obtain ⟨c, hc, hp⟩ := hspoken
    have hmakes := (mem_changes hvacated).mp hc
    rw [get?_results hdis hc hp, hmakes.leaves_eq hvacated hp]
    split
    · rfl
    · rename_i hnone
      cases hafter : after.get? p with
      | some content => rfl
      | none =>
        rw [not_isSome_iff_eq_none] at hnone
        cases c with
        | added path content =>
          have hsome : after.get? path = some content := hmakes.1
          rw [mem_singleton.mp hp, hsome] at hafter
          cases hafter
        | deleted path content =>
          have hsome : base.get? path = some content := hmakes.1
          rw [mem_singleton.mp hp, hsome] at hnone
          cases hnone
        | edited oldPath newPath before content =>
          have hsome : after.get? newPath = some content := hmakes.1
          have hbase : base.get? oldPath = some before := hmakes.2.1
          rcases mem_cons.mp hp with rfl | hp
          · rw [hbase] at hnone
            cases hnone
          · rw [mem_singleton.mp hp, hsome] at hafter
            cases hafter
  · have hsilent : ∀ c ∈ changes base after renames, p ∉ c.paths := fun c hc hp => hspoken ⟨c, hc, hp⟩
    have hsame := @same_of_silent base after renames hvacated p fun c hc => hsilent c ((mem_changes hvacated).mpr hc)
    rw [get?_results_of_notMem hsilent, hsame]
    cases hbase : base.get? p with
    | none => rfl
    | some content => exact hT p content hbase

theorem applyPatch_whole {diff : Differ} (hdiff : Faithful diff) (hvacated : Vacated after renames)
    (hclean : ∀ c, Makes base after renames c → CleanChange diff c) {T part left : Tree}
    (hT : ∀ p t, base.get? p = some t → T.get? p = some t)
    (hpart : ∀ c ∈ changes base after renames, ∀ p ∈ c.paths, part.get? p = T.get? p)
    (h : applyPatch part ((changes base after renames).map (fileOf diff)) = .ok left) :
    (∀ c ∈ changes base after renames, ∀ p ∈ c.paths, validPath p = true) ∧
      ∃ T', applyPatch T ((changes base after renames).map (fileOf diff)) = .ok T' ∧
        ∀ p, T'.get? p = if (base.get? p).isSome then after.get? p else (after.get? p).or (T.get? p) := by
  have hmakes : ∀ c ∈ changes base after renames, Makes base after renames c := fun c hc =>
    (mem_changes hvacated).mp hc
  have hcleans : ∀ c ∈ changes base after renames, CleanChange diff c := fun c hc => hclean c (hmakes c hc)
  have hstands : ∀ c ∈ changes base after renames, c.Stands T := fun c hc => (hmakes c hc).stands hT
  obtain ⟨hne, hdis, hneeds, -⟩ := (applyPatch_changeset hdiff hcleans fun c hc =>
    (NetChange.Stands.congr (hpart c hc)).mpr (hstands c hc)).mp h
  refine ⟨fun c hc => (hneeds c hc).1, _, (applyPatch_changeset hdiff hcleans hstands).mpr ⟨hne, hdis, fun c hc =>
    ⟨(hneeds c hc).1, (NetChange.Free.congr (hpart c hc)).mp (hneeds c hc).2⟩, rfl⟩, ?_⟩
  exact get?_changes hvacated hdis hT

end

end Molt.Wiki
