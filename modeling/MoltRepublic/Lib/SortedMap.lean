import Mathlib

/-! Maps kept as the list of their entries in key order: one list for each map, so two
maps with the same content are equal and serialize alike. -/

namespace Molt
open List

variable {κ ν : Type*} [LinearOrder κ]

def insertEntry (k : κ) (v : ν) : List (κ × ν) → List (κ × ν)
  | [] => [(k, v)]
  | (j, w) :: l =>
    if k < j then (k, v) :: (j, w) :: l
    else if k = j then (k, v) :: l
    else (j, w) :: insertEntry k v l

theorem mem_insertEntry {k : κ} {v : ν} {l : List (κ × ν)} {e : κ × ν}
    (h : e ∈ insertEntry k v l) : e = (k, v) ∨ e ∈ l := by
  induction l with
  | nil => simpa [insertEntry] using h
  | cons f l ih =>
    rw [insertEntry] at h
    split_ifs at h with hlt heq
    · simpa using h
    · simp only [mem_cons] at h ⊢
      tauto
    · rcases mem_cons.mp h with rfl | h
      · exact .inr (.head _)
      · exact (ih h).imp_right (mem_cons_of_mem _)

omit [LinearOrder κ] in
theorem lookup_cons_ite [DecidableEq κ] (i j : κ) (w : ν) (l : List (κ × ν)) :
    ((i, w) :: l).lookup j = if j = i then some w else l.lookup j := by
  rw [lookup_cons]
  by_cases h : j = i
  · simp [h]
  · simp [h, beq_eq_false_iff_ne.mpr h]

theorem lookup_insertEntry (k j : κ) (v : ν) (l : List (κ × ν)) :
    (insertEntry k v l).lookup j = if j = k then some v else l.lookup j := by
  induction l with
  | nil => rw [insertEntry, lookup_cons_ite]
  | cons f l ih =>
    obtain ⟨i, w⟩ := f
    rw [insertEntry]
    by_cases hlt : k < i
    · rw [if_pos hlt, lookup_cons_ite]
    · rw [if_neg hlt]
      by_cases heq : k = i
      · rw [if_pos heq, lookup_cons_ite, lookup_cons_ite, heq]
        by_cases hj : j = i <;> simp [hj]
      · rw [if_neg heq, lookup_cons_ite, lookup_cons_ite, ih]
        by_cases hj : j = i
        · simp [hj, Ne.symm heq]
        · simp [hj]

def Ascending (l : List (κ × ν)) : Prop := l.Pairwise fun a b => a.1 < b.1

theorem Ascending.insertEntry {l : List (κ × ν)} (h : Ascending l) (k : κ) (v : ν) :
    Ascending (insertEntry k v l) := by
  induction l with
  | nil => simp [Molt.insertEntry, Ascending]
  | cons f l ih =>
    obtain ⟨hf, hl⟩ := pairwise_cons.mp h
    rw [Molt.insertEntry]
    split_ifs with hlt heq
    · refine pairwise_cons.mpr ⟨fun e he => ?_, h⟩
      rcases mem_cons.mp he with rfl | he
      · exact hlt
      · exact lt_trans hlt (hf e he)
    · exact pairwise_cons.mpr ⟨heq ▸ hf, hl⟩
    · refine pairwise_cons.mpr ⟨fun e he => ?_, ih hl⟩
      rcases mem_insertEntry he with rfl | he
      · exact lt_of_le_of_ne (not_lt.mp hlt) (Ne.symm heq)
      · exact hf e he

theorem insertEntry_of_lt {l : List (κ × ν)} {k : κ} (h : ∀ e ∈ l, e.1 < k) (v : ν) :
    insertEntry k v l = l ++ [(k, v)] := by
  induction l with
  | nil => rfl
  | cons f l ih =>
    have hf := h f (.head _)
    rw [insertEntry, if_neg (not_lt_of_gt hf), if_neg (ne_of_gt hf),
      ih fun e he => h e (.tail _ he), cons_append]

theorem foldl_insertEntry {l : List (κ × ν)} (h : Ascending l) :
    l.foldl (fun m e => insertEntry e.1 e.2 m) [] = l := by
  have hstart : ∀ m : List (κ × ν), Ascending (m ++ l) →
      l.foldl (fun m e => insertEntry e.1 e.2 m) m = m ++ l := by
    clear h
    induction l with
    | nil => intro m _; simp
    | cons f l ih =>
      intro m hm
      have hlt : ∀ e ∈ m, e.1 < f.1 := fun e he =>
        (pairwise_append.mp hm).2.2 e he f (.head _)
      rw [foldl_cons, insertEntry_of_lt hlt, ih (m ++ [f]) (by simpa using hm)]
      simp
  simpa using hstart [] (by simpa using h)

structure SortedMap (κ ν : Type*) [LinearOrder κ] where
  entries : List (κ × ν)
  ascending : Ascending entries

namespace SortedMap

theorem ext {m n : SortedMap κ ν} (h : m.entries = n.entries) : m = n := by
  cases m; cases n; cases h; rfl

instance [DecidableEq ν] : DecidableEq (SortedMap κ ν) := fun m n =>
  decidable_of_iff (m.entries = n.entries) ⟨ext, fun h => h ▸ rfl⟩

def empty : SortedMap κ ν := ⟨[], List.Pairwise.nil⟩

def get? (m : SortedMap κ ν) (k : κ) : Option ν := m.entries.lookup k

def insert (m : SortedMap κ ν) (k : κ) (v : ν) : SortedMap κ ν :=
  ⟨insertEntry k v m.entries, m.ascending.insertEntry k v⟩

def erase (m : SortedMap κ ν) (k : κ) : SortedMap κ ν :=
  ⟨m.entries.filter fun e => e.1 ≠ k, m.ascending.filter _⟩

def values (m : SortedMap κ ν) : List ν := m.entries.map Prod.snd

def popLast (m : SortedMap κ ν) : Option ((κ × ν) × SortedMap κ ν) :=
  m.entries.getLast?.map fun e => (e, ⟨m.entries.dropLast, m.ascending.sublist (dropLast_sublist _)⟩)

/-- The lowest keys taken out until at most `n` entries are left. -/
def keepLast (m : SortedMap κ ν) (n : Nat) : SortedMap κ ν :=
  ⟨m.entries.drop (m.entries.length - n), m.ascending.sublist (drop_sublist _ _)⟩

def map {μ : Type*} (m : SortedMap κ ν) (f : ν → μ) : SortedMap κ μ :=
  ⟨m.entries.map fun e => (e.1, f e.2), by
    have hkeys : (m.entries.map fun e => (e.1, f e.2)).map Prod.fst = m.entries.map Prod.fst := map_map
    rw [Ascending, ← pairwise_map (f := Prod.fst) (R := fun a b => a < b), hkeys, pairwise_map]
    exact m.ascending⟩

def mapWithKey {μ : Type*} (m : SortedMap κ ν) (f : κ → ν → μ) : SortedMap κ μ :=
  ⟨m.entries.map fun e => (e.1, f e.1 e.2), by
    have hkeys : (m.entries.map fun e => (e.1, f e.1 e.2)).map Prod.fst = m.entries.map Prod.fst :=
      map_map
    rw [Ascending, ← pairwise_map (f := Prod.fst) (R := fun a b => a < b), hkeys, pairwise_map]
    exact m.ascending⟩

def modifyEntry (p : ν → Bool) (f : ν → ν) : List (κ × ν) → List (κ × ν)
  | [] => []
  | (k, v) :: l => if p v then (k, f v) :: l else (k, v) :: modifyEntry p f l

omit [LinearOrder κ] in
theorem modifyEntry_keys (p : ν → Bool) (f : ν → ν) (l : List (κ × ν)) :
    (modifyEntry p f l).map Prod.fst = l.map Prod.fst := by
  induction l with
  | nil => rfl
  | cons e l ih =>
    rw [modifyEntry]
    split_ifs <;> simp [ih]

theorem ascending_iff_keys (l : List (κ × ν)) :
    Ascending l ↔ (l.map Prod.fst).Pairwise (· < ·) := pairwise_map.symm

def modifyFirst (m : SortedMap κ ν) (p : ν → Bool) (f : ν → ν) : SortedMap κ ν :=
  ⟨modifyEntry p f m.entries, by
    rw [ascending_iff_keys, modifyEntry_keys, ← ascending_iff_keys]; exact m.ascending⟩

def ofValues (key : ν → κ) (l : List ν) : SortedMap κ ν :=
  l.foldl (fun m v => m.insert (key v) v) empty

theorem entries_foldl_insert (key : ν → κ) (l : List ν) (m : SortedMap κ ν) :
    (l.foldl (fun m v => m.insert (key v) v) m).entries =
      (l.map fun v => (key v, v)).foldl (fun m e => insertEntry e.1 e.2 m) m.entries := by
  induction l generalizing m with
  | nil => rfl
  | cons v l ih =>
    rw [foldl_cons, ih]
    rfl

theorem ofValues_values {key : ν → κ} {m : SortedMap κ ν} (h : ∀ e ∈ m.entries, key e.2 = e.1) :
    ofValues key m.values = m := by
  apply ext
  have hentries : (m.values.map fun v => (key v, v)) = m.entries := by
    rw [values, map_map]
    conv_rhs => rw [← map_id m.entries]
    exact map_congr_left fun e he => Prod.ext (h e he) rfl
  rw [ofValues, entries_foldl_insert, hentries]
  exact foldl_insertEntry m.ascending

omit [LinearOrder κ] in
theorem mem_of_lookup [DecidableEq κ] {l : List (κ × ν)} {k : κ} {v : ν} (h : l.lookup k = some v) :
    (k, v) ∈ l := by
  obtain ⟨before, after, rfl, -⟩ := lookup_eq_some_iff.mp h
  exact mem_append_right _ (.head _)

theorem get?_insert (m : SortedMap κ ν) (k : κ) (v : ν) (j : κ) :
    (m.insert k v).get? j = if j = k then some v else m.get? j := lookup_insertEntry k j v m.entries

theorem get?_empty (k : κ) : (empty : SortedMap κ ν).get? k = none := rfl

omit [LinearOrder κ] in
theorem lookup_modifyEntry [DecidableEq κ] {p : ν → Bool} {f : ν → ν} {l : List (κ × ν)}
    (hnodup : (l.map Prod.fst).Nodup)
    (hone : ∀ d ∈ l, ∀ e ∈ l, p d.2 = true → p e.2 = true → d.1 = e.1) (k : κ) :
    (modifyEntry p f l).lookup k = (l.lookup k).map fun v => if p v then f v else v := by
  induction l with
  | nil => rfl
  | cons e l ih =>
    obtain ⟨i, v⟩ := e
    rw [map_cons, nodup_cons] at hnodup
    rw [modifyEntry]
    by_cases hp : p v = true
    · rw [if_pos hp, lookup_cons_ite, lookup_cons_ite]
      by_cases hk : k = i
      · simp [hk, hp]
      · rw [if_neg hk, if_neg hk]
        cases hfound : l.lookup k with
        | none => rfl
        | some w =>
          -- the predicate holds of no other entry
          have hmem : (k, w) ∈ l := mem_of_lookup hfound
          have hnot : ¬ p w = true := fun hw =>
            hk (hone (k, w) (.tail _ hmem) (i, v) (.head _) hw hp)
          simp [hnot]
    · rw [if_neg hp, lookup_cons_ite, lookup_cons_ite]
      by_cases hk : k = i
      · simp [hk, hp]
      · rw [if_neg hk, if_neg hk]
        exact ih hnodup.2 fun d hd e he =>
          hone d (.tail _ hd) e (.tail _ he)

theorem keys_nodup (m : SortedMap κ ν) : (m.entries.map Prod.fst).Nodup := by
  have hpairwise := (ascending_iff_keys m.entries).mp m.ascending
  exact hpairwise.imp ne_of_lt

theorem get?_eq_some {m : SortedMap κ ν} {k : κ} {v : ν} : m.get? k = some v ↔ (k, v) ∈ m.entries := by
  unfold get?
  constructor
  · exact mem_of_lookup
  · intro hmem
    have hnodup := m.keys_nodup
    generalize m.entries = l at hmem hnodup
    induction l with
    | nil => simp at hmem
    | cons e l ih =>
      obtain ⟨i, w⟩ := e
      rw [map_cons, nodup_cons] at hnodup
      rw [lookup_cons_ite]
      rcases mem_cons.mp hmem with heq | hmem
      · cases heq
        exact if_pos rfl
      · have hkey : k ∈ l.map Prod.fst := mem_map.mpr ⟨(k, v), hmem, rfl⟩
        have hne : k ≠ i := fun heq => hnodup.1 (heq ▸ hkey)
        rw [if_neg hne]
        exact ih hmem hnodup.2

theorem get?_erase (m : SortedMap κ ν) (k j : κ) :
    (m.erase k).get? j = if j = k then none else m.get? j := by
  ext v
  rw [get?_eq_some]
  split_ifs with hj
  · simp [erase, hj]
  · rw [get?_eq_some]
    simp [erase, hj]

theorem length_erase_lt {m : SortedMap κ ν} {k : κ} {v : ν} (h : m.get? k = some v) :
    (m.erase k).entries.length < m.entries.length := by
  apply length_filter_lt_length_iff_exists.mpr
  exact ⟨(k, v), get?_eq_some.mp h, by simp⟩

theorem mem_values {m : SortedMap κ ν} {v : ν} : v ∈ m.values ↔ ∃ k, m.get? k = some v := by
  unfold values
  rw [mem_map]
  constructor
  · rintro ⟨e, he, rfl⟩
    exact ⟨e.1, get?_eq_some.mpr he⟩
  · rintro ⟨k, hk⟩
    exact ⟨(k, v), get?_eq_some.mp hk, rfl⟩

theorem sum_insertEntry (f : ν → Nat) (k : κ) (v : ν) {l : List (κ × ν)} (h : Ascending l) :
    ((insertEntry k v l).map fun e => f e.2).sum + ((l.lookup k).map f).getD 0 =
      (l.map fun e => f e.2).sum + f v := by
  induction l with
  | nil => simp [insertEntry]
  | cons e l ih =>
    obtain ⟨i, w⟩ := e
    obtain ⟨hlt, htail⟩ := pairwise_cons.mp h
    have hrest := ih htail
    rw [insertEntry, lookup_cons_ite]
    rcases lt_trichotomy k i with hk | rfl | hk
    · have hnone : l.lookup k = none := by
        rw [lookup_eq_none_iff]
        intro e he
        simpa using (hk.trans (hlt e he)).ne
      rw [if_pos hk, if_neg hk.ne, hnone]
      simp only [map_cons, sum_cons, Option.map_none, Option.getD_none]
      omega
    · rw [if_neg (lt_irrefl _), if_pos rfl, if_pos rfl]
      simp only [map_cons, sum_cons, Option.map_some, Option.getD_some]
      omega
    · rw [if_neg hk.not_gt, if_neg hk.ne', if_neg hk.ne']
      simp only [map_cons, sum_cons]
      omega

theorem sum_insert (f : ν → Nat) (m : SortedMap κ ν) (k : κ) (v : ν) :
    ((m.insert k v).values.map f).sum + ((m.get? k).map f).getD 0 = (m.values.map f).sum + f v := by
  have h := sum_insertEntry f k v m.ascending
  unfold values
  rw [map_map, map_map]
  exact h

theorem length_insert_le (m : SortedMap κ ν) (k : κ) (v : ν) :
    (m.insert k v).entries.length ≤ m.entries.length + 1 := by
  have hentry : ∀ l : List (κ × ν), (insertEntry k v l).length ≤ l.length + 1 := by
    intro l
    induction l with
    | nil => exact le_rfl
    | cons e l ih =>
      rw [insertEntry]
      split_ifs
      · exact le_rfl
      · exact Nat.le_succ _
      · exact Nat.succ_le_succ ih
  exact hentry m.entries

theorem length_modifyFirst (m : SortedMap κ ν) (p : ν → Bool) (f : ν → ν) :
    (m.modifyFirst p f).entries.length = m.entries.length := by
  have hkeys := congrArg List.length (modifyEntry_keys p f m.entries)
  rwa [length_map, length_map] at hkeys

theorem get?_modifyFirst {m : SortedMap κ ν} {p : ν → Bool} {f : ν → ν}
    (hone : ∀ k v j w, m.get? k = some v → m.get? j = some w → p v = true → p w = true → k = j)
    (k : κ) : (m.modifyFirst p f).get? k = (m.get? k).map fun v => if p v then f v else v := by
  refine lookup_modifyEntry m.keys_nodup (fun d hd e he hpd hpe => ?_) k
  exact hone d.1 d.2 e.1 e.2 (get?_eq_some.mpr hd) (get?_eq_some.mpr he) hpd hpe

theorem get?_map {μ : Type*} (m : SortedMap κ ν) (f : ν → μ) (k : κ) :
    (m.map f).get? k = (m.get? k).map f := by
  ext v
  rw [get?_eq_some, Option.map_eq_some_iff]
  unfold map
  rw [mem_map]
  constructor
  · rintro ⟨e, he, heq⟩
    cases heq
    exact ⟨e.2, get?_eq_some.mpr he, rfl⟩
  · rintro ⟨w, hw, rfl⟩
    exact ⟨(k, w), get?_eq_some.mp hw, rfl⟩

theorem get?_mapWithKey {μ : Type*} (m : SortedMap κ ν) (f : κ → ν → μ) (k : κ) :
    (m.mapWithKey f).get? k = (m.get? k).map (f k) := by
  ext v
  rw [get?_eq_some, Option.map_eq_some_iff]
  unfold mapWithKey
  rw [mem_map]
  constructor
  · rintro ⟨e, he, heq⟩
    cases heq
    exact ⟨e.2, get?_eq_some.mpr he, rfl⟩
  · rintro ⟨w, hw, rfl⟩
    exact ⟨(k, w), get?_eq_some.mp hw, rfl⟩

theorem ext_get? {m n : SortedMap κ ν} (h : ∀ k, m.get? k = n.get? k) : m = n := by
  have hmem : ∀ e, e ∈ m.entries ↔ e ∈ n.entries := by
    intro e
    rw [← get?_eq_some, ← get?_eq_some, h]
  have hnodup : ∀ l : SortedMap κ ν, l.entries.Nodup := fun l =>
    l.ascending.imp fun hlt heq => absurd hlt (by rw [heq]; exact lt_irrefl _)
  have hperm : m.entries.Perm n.entries := (perm_ext_iff_of_nodup (hnodup m) (hnodup n)).mpr hmem
  apply ext
  refine hperm.eq_of_pairwise (fun a b _ _ hab hba => ?_) m.ascending n.ascending
  exact absurd (lt_trans hab hba) (lt_irrefl _)

def filter (m : SortedMap κ ν) (p : κ → ν → Bool) : SortedMap κ ν :=
  ⟨m.entries.filter fun e => p e.1 e.2, m.ascending.filter _⟩

theorem get?_filter (m : SortedMap κ ν) (p : κ → ν → Bool) (k : κ) :
    (m.filter p).get? k = (m.get? k).filter (p k) := by
  ext v
  rw [get?_eq_some, Option.filter_eq_some_iff, get?_eq_some]
  exact mem_filter

/-- `entry(k).or_default()` -/
def orDefault (m : SortedMap κ (List ν)) (k : κ) : SortedMap κ (List ν) :=
  match m.get? k with
  | some _ => m
  | none => m.insert k []

/-- `entry(k).or_default().push(v)` -/
def push (m : SortedMap κ (List ν)) (k : κ) (v : ν) : SortedMap κ (List ν) :=
  m.insert k ((m.get? k).getD [] ++ [v])

theorem getD_orDefault (m : SortedMap κ (List ν)) (k j : κ) :
    ((m.orDefault k).get? j).getD [] = (m.get? j).getD [] := by
  unfold orDefault
  cases hk : m.get? k with
  | some l => rfl
  | none =>
    rw [get?_insert]
    split_ifs with hj
    · rw [hj, hk]
      rfl
    · rfl

theorem getD_foldl_orDefault (l : List κ) (m : SortedMap κ (List ν)) (j : κ) :
    ((l.foldl orDefault m).get? j).getD [] = (m.get? j).getD [] := by
  induction l generalizing m with
  | nil => rfl
  | cons k l ih => rw [foldl_cons, ih, getD_orDefault]

theorem getD_foldl_push (l : List (κ × ν)) (m : SortedMap κ (List ν)) (j : κ) :
    ((l.foldl (fun m e => m.push e.1 e.2) m).get? j).getD [] =
      (m.get? j).getD [] ++ (l.filter fun e => e.1 = j).map Prod.snd := by
  induction l generalizing m with
  | nil => simp
  | cons e l ih =>
    rw [foldl_cons, ih, push, get?_insert]
    by_cases hj : j = e.1
    · simp [hj]
    · simp [hj, Ne.symm hj]

end SortedMap

end Molt
