import Mathlib
import MoltRepublic.Lib.SortedMap

/-! An order of a graph by counting (Kahn), and one pass over it that derives a value for every
node from the values of the nodes before it. -/

namespace Molt.Propagate
open List SortedMap

section

structure Work (α : Type*) [LinearOrder α] where
  waiting : SortedMap α Nat
  ready : SortedMap α Unit

variable {α : Type*} [LinearOrder α] (links : α → List α)

def release (w : Work α) (b : α) : Work α :=
  match w.waiting.get? b with
  | none => w
  | some n => ⟨w.waiting.insert b (n - 1), if n - 1 = 0 then w.ready.insert b () else w.ready⟩

def run : Nat → Work α → List α
  | 0, _ => []
  | fuel + 1, w =>
    match w.ready.entries with
    | [] => []
    | (id, _) :: _ => id :: run fuel ((links id).foldl release ⟨w.waiting, w.ready.erase id⟩)

structure Work.Sound (w : Work α) (nodes done : Finset α) (left : α → Nat) : Prop where
  waiting : ∀ b, w.waiting.get? b = if b ∈ nodes then some (left b) else none
  ready : ∀ b, w.ready.get? b = some () ↔ b ∈ nodes \ done ∧ left b = 0

variable {nodes done : Finset α} {w : Work α} {left : α → Nat}

theorem Work.Sound.release (h : w.Sound nodes done left) {b : α} (hb : b ∉ done) :
    (release w b).Sound nodes done fun x => left x - if x = b then 1 else 0 := by
  unfold Propagate.release
  rw [h.waiting b]
  by_cases hmem : b ∈ nodes
  · rw [if_pos hmem]
    dsimp only
    refine ⟨fun x => ?_, fun x => ?_⟩
    · rw [get?_insert, h.waiting x]
      split_ifs with hx
      · rw [hx]
      · simp_all
      · rfl
      · rfl
    · by_cases hx : x = b
      · obtain rfl := hx
        rw [if_pos rfl]
        split_ifs with hzero
        · simp [get?_insert, hzero, hmem, hb]
        · rw [h.ready x]
          refine and_congr_right fun _ => ?_
          omega
      · rw [if_neg hx, Nat.sub_zero]
        split_ifs
        · rw [get?_insert, if_neg hx, h.ready x]
        · rw [h.ready x]
  · rw [if_neg hmem]
    refine ⟨fun x => ?_, fun x => ?_⟩
    · rw [h.waiting x]
      split_ifs with hx heq
      · exact absurd (heq ▸ hx) hmem
      · rfl
      · rfl
    · rw [h.ready x]
      refine and_congr_right fun hx => ?_
      have hne : x ≠ b := by
        rintro rfl
        exact hmem (Finset.mem_sdiff.mp hx).1
      rw [if_neg hne, Nat.sub_zero]

theorem Work.Sound.foldl_release {l : List α} (h : w.Sound nodes done left) (hl : ∀ b ∈ l, b ∉ done) :
    (l.foldl Propagate.release w).Sound nodes done fun x => left x - l.count x := by
  induction l generalizing w left with
  | nil => exact h
  | cons b l ih =>
    have hstep := ih (h.release (hl b (.head _))) fun c hc => hl c (.tail _ hc)
    have hleft : (fun x => left x - (b :: l).count x) =
        fun x => (left x - if x = b then 1 else 0) - l.count x := by
      funext x
      rw [count_cons, Nat.sub_sub, Nat.add_comm]
      by_cases hx : x = b
      · simp [hx]
      · simp [hx, Ne.symm hx]
    rw [hleft]
    exact hstep

def into (rest : Finset α) (b : α) : Nat := ∑ n ∈ rest, (links n).count b

variable {links}

theorem into_eq_zero {rest : Finset α} {b : α} : into links rest b = 0 ↔ ∀ n ∈ rest, b ∉ links n := by
  rw [into, Finset.sum_eq_zero_iff]
  exact forall₂_congr fun n _ => count_eq_zero

theorem Work.Sound.pop {id : α} (h : w.Sound nodes done (into links (nodes \ done)))
    (hdone : ∀ b ∈ done, into links (nodes \ done) b = 0) (hid : w.ready.get? id = some ()) :
    ((links id).foldl Propagate.release ⟨w.waiting, w.ready.erase id⟩).Sound nodes (insert id done)
        (into links (nodes \ insert id done)) ∧
      ∀ b ∈ insert id done, into links (nodes \ insert id done) b = 0 := by
  obtain ⟨hmem, hzero⟩ := (h.ready id).mp hid
  have hrest : nodes \ insert id done = (nodes \ done).erase id := by
    rw [Finset.sdiff_insert]
  have hfree : ∀ b ∈ links id, b ∉ insert id done := by
    intro b hb hmem'
    rcases Finset.mem_insert.mp hmem' with rfl | hin
    · exact into_eq_zero.mp hzero _ hmem hb
    · exact into_eq_zero.mp (hdone b hin) id hmem hb
  have herase : Work.Sound (⟨w.waiting, w.ready.erase id⟩ : Work α) nodes (insert id done)
      (into links (nodes \ done)) := by
    refine ⟨h.waiting, fun b => ?_⟩
    rw [get?_erase, hrest]
    by_cases hb : b = id
    · simp [hb]
    · rw [if_neg hb, h.ready b, Finset.mem_erase]
      simp [hb]
  have hsum : (fun x => into links (nodes \ done) x - (links id).count x) = into links (nodes \ insert id done) := by
    funext x
    rw [hrest, into, into, ← Finset.add_sum_erase _ _ hmem, Nat.add_sub_cancel_left]
  refine ⟨hsum ▸ herase.foldl_release hfree, fun b hb => ?_⟩
  rw [into_eq_zero]
  intro n hn
  rw [hrest] at hn
  have hn' := Finset.mem_of_mem_erase hn
  rcases Finset.mem_insert.mp hb with rfl | hin
  · exact into_eq_zero.mp hzero n hn'
  · exact into_eq_zero.mp (hdone b hin) n hn'

omit [LinearOrder α] in
theorem exists_unlinked {r : α → α → Prop} (hacyclic : ∀ a, ¬ Relation.TransGen r a a) {rest : Finset α}
    (hne : rest.Nonempty) : ∃ b ∈ rest, ∀ n ∈ rest, ¬ r b n := by
  let up : rest → rest → Prop := fun n b => Relation.TransGen r b.1 n.1
  have : Std.Irrefl up := ⟨fun a => hacyclic a.1⟩
  obtain ⟨a, ha⟩ := hne
  obtain ⟨b, -, hb⟩ := (Finite.wellFounded_of_trans_of_irrefl up).has_min Set.univ ⟨⟨a, ha⟩, trivial⟩
  exact ⟨b.1, b.2, fun n hn hlink => hb ⟨n, hn⟩ trivial (.single hlink)⟩

theorem run_spec (hacyclic : ∀ a, ¬ Relation.TransGen (fun b n => b ∈ nodes ∧ b ∈ links n) a a) {fuel : Nat}
    (hfuel : (nodes \ done).card ≤ fuel) (h : w.Sound nodes done (into links (nodes \ done)))
    (hdone : ∀ b ∈ done, into links (nodes \ done) b = 0) :
    (run links fuel w).Nodup ∧ (∀ x, x ∈ run links fuel w ↔ x ∈ nodes \ done) ∧
      (run links fuel w).Pairwise fun x y => x ∉ links y := by
  induction fuel generalizing done w with
  | zero =>
    have hempty : nodes \ done = ∅ := Finset.card_eq_zero.mp (Nat.le_zero.mp hfuel)
    exact ⟨nodup_nil, fun x => by simp [run, hempty], List.Pairwise.nil⟩
  | succ fuel ih =>
    unfold run
    cases hentries : w.ready.entries with
    | nil =>
      have hempty : nodes \ done = ∅ := by
        rw [← Finset.not_nonempty_iff_eq_empty]
        intro hne
        obtain ⟨b, hb, hfree⟩ := exists_unlinked hacyclic hne
        have hzero : into links (nodes \ done) b = 0 :=
          into_eq_zero.mpr fun n hn hlink => hfree n hn ⟨(Finset.mem_sdiff.mp hb).1, hlink⟩
        have hready := get?_eq_some.mp ((h.ready b).mpr ⟨hb, hzero⟩)
        rw [hentries] at hready
        exact not_mem_nil hready
      exact ⟨nodup_nil, fun x => by simp [hempty], List.Pairwise.nil⟩
    | cons e rest =>
      obtain ⟨id, u⟩ := e
      have hid : w.ready.get? id = some () := get?_eq_some.mpr (hentries ▸ .head _)
      obtain ⟨hmem, hzero⟩ := (h.ready id).mp hid
      obtain ⟨hnext, hdone'⟩ := h.pop hdone hid
      have hrest : nodes \ insert id done = (nodes \ done).erase id := by
        rw [Finset.sdiff_insert]
      have hcard : (nodes \ insert id done).card ≤ fuel := by
        rw [hrest, Finset.card_erase_of_mem hmem]
        omega
      obtain ⟨hnodup, hall, hpair⟩ := ih hcard hnext hdone'
      refine ⟨nodup_cons.mpr ⟨?_, hnodup⟩, fun x => ?_, pairwise_cons.mpr ⟨fun y hy => ?_, hpair⟩⟩
      · rw [hall, hrest]
        exact Finset.notMem_erase id _
      · rw [mem_cons, hall, hrest, Finset.mem_erase]
        by_cases hx : x = id
        · simp [hx, Finset.mem_sdiff.mp hmem]
        · simp [hx]
      · have hy' := (hall y).mp hy
        rw [hrest] at hy'
        exact into_eq_zero.mp hzero y (Finset.mem_of_mem_erase hy')

end

section

variable {α : Type*} {r : α → α → Prop} {P : α → Prop}

theorem along_order {order : List α} (horder : order.Pairwise fun x y => ¬ r x y) (hself : ∀ x, ¬ r x x)
    (h : ∀ x ∈ order, (∀ y ∈ order, r x y → P y) → P x) : ∀ x ∈ order, P x := by
  have hparts : ∀ done rest, order = done ++ rest → ∀ x ∈ done, P x := by
    intro done
    induction done using List.reverseRecOn with
    | nil => simp
    | append_singleton done z ih =>
      intro rest hsplit x hx
      have hdone : ∀ y ∈ done, P y := ih (z :: rest) (by rw [hsplit, append_assoc]; rfl)
      rcases mem_append.mp hx with hx | hx
      · exact hdone x hx
      · obtain rfl := mem_singleton.mp hx
        refine h x (by rw [hsplit]; simp) fun y hy hlink => ?_
        rw [hsplit] at hy horder
        have hafter := (pairwise_append.mp horder).2.2 x (by simp)
        rcases mem_append.mp hy with hy | hy
        · rcases mem_append.mp hy with hy | hy
          · exact hdone y hy
          · exact absurd (mem_singleton.mp hy ▸ hlink) (hself _)
        · exact absurd hlink (hafter y hy)
  exact hparts order [] (append_nil _).symm

theorem isLeast_leasts {β ι : Type*} [LinearOrder β] [WellFoundedLT β] {A : Set β} {p : ι → Prop} {B : ι → Set β}
    {n : β} : IsLeast {k | k ∈ A ∨ ∃ i, p i ∧ IsLeast (B i) k} n ↔
      IsLeast {k | k ∈ A ∨ ∃ i, p i ∧ k ∈ B i} n := by
  have hleast : ∀ i k, k ∈ B i → ∃ l ≤ k, IsLeast (B i) l := by
    intro i k hk
    obtain ⟨l, hl, hmin⟩ := (wellFounded_lt (α := β)).has_min (B i) ⟨k, hk⟩
    exact ⟨l, not_lt.mp (hmin k hk), hl, fun m hm => not_lt.mp (hmin m hm)⟩
  constructor
  · rintro ⟨hmem, hle⟩
    refine ⟨hmem.imp_right fun ⟨i, hi, hk⟩ => ⟨i, hi, hk.1⟩, ?_⟩
    rintro k (hk | ⟨i, hi, hk⟩)
    · exact hle (.inl hk)
    · obtain ⟨l, hl, hisLeast⟩ := hleast i k hk
      exact (hle (.inr ⟨i, hi, hisLeast⟩)).trans hl
  · rintro ⟨hmem, hle⟩
    refine ⟨hmem.imp_right fun ⟨i, hi, hk⟩ => ⟨i, hi, hk, fun m hm => hle (.inr ⟨i, hi, hm⟩)⟩, ?_⟩
    rintro k (hk | ⟨i, hi, hk⟩)
    · exact hle (.inl hk)
    · exact hle (.inr ⟨i, hi, hk.1⟩)

end

section

variable {α β : Type*} [LinearOrder α] (value : SortedMap α β → α → Option β)

def pass (order : List α) : SortedMap α β :=
  order.foldl (fun m id => match value m id with
    | some v => m.insert id v
    | none => m) SortedMap.empty

variable {value} {reads : α → α → Prop}

theorem pass_fixed
    (hlocal : ∀ (m m' : SortedMap α β) id, (∀ d, reads id d → m.get? d = m'.get? d) → value m id = value m' id)
    (hself : ∀ id, ¬ reads id id) {order : List α} (hnodup : order.Nodup)
    (horder : order.Pairwise fun x y => ¬ reads x y) (id : α) :
    (pass value order).get? id = if id ∈ order then value (pass value order) id else none := by
  induction order using List.reverseRecOn with
  | nil => rfl
  | append_singleton order z ih =>
    rw [nodup_append'] at hnodup
    obtain ⟨hpair, -, hlast⟩ := pairwise_append.mp horder
    have hz : z ∉ order := fun h => hnodup.2.2 h (mem_singleton.mpr rfl)
    have ih := ih hnodup.1 hpair
    have hstep : pass value (order ++ [z]) = match value (pass value order) z with
        | some v => (pass value order).insert z v
        | none => pass value order := by
      rw [pass, foldl_append]
      rfl
    have hother : ∀ d ≠ z, (pass value (order ++ [z])).get? d = (pass value order).get? d := by
      intro d hd
      rw [hstep]
      cases value (pass value order) z with
      | none => rfl
      | some v => exact (get?_insert ..).trans (if_neg hd)
    have hsame : ∀ x ∈ order ++ [z], value (pass value (order ++ [z])) x = value (pass value order) x := by
      intro x hx
      refine hlocal _ _ x fun d hd => hother d ?_
      rintro rfl
      rcases mem_append.mp hx with hx | hx
      · exact hlast x hx d (mem_singleton.mpr rfl) hd
      · exact hself d (mem_singleton.mp hx ▸ hd)
    by_cases hid : id = z
    · obtain rfl := hid
      have hmem : id ∈ order ++ [id] := mem_append_right _ (mem_singleton.mpr rfl)
      rw [if_pos hmem, hsame id hmem, hstep]
      cases value (pass value order) id with
      | none => exact ih.trans (if_neg hz)
      | some v => exact (get?_insert ..).trans (if_pos rfl)
    · rw [hother id hid, ih]
      by_cases hmem : id ∈ order
      · rw [if_pos hmem, if_pos (mem_append_left _ hmem), hsame id (mem_append_left _ hmem)]
      · rw [if_neg hmem, if_neg]
        simp [hmem, hid]

end

end Molt.Propagate
