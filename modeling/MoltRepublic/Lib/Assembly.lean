import Mathlib
import MoltRepublic.Lib.SortedMap

/-! A list cut into numbered pieces and put together again from a map of those that have come: the
map is full when it has as many entries as there are pieces, and its values are then the pieces in
order. -/

namespace Molt.Assembly
open List SortedMap Nat

variable {α β : Type*}

def block (k : Nat) (l : List α) (i : Nat) : List α := (l.drop (k * i)).take k

/-- `slice::chunks`: the last one may be shorter. -/
def chunks (k : Nat) (l : List α) : List (List α) := (List.range ((l.length + k - 1) / k)).map (block k l)

variable (k : Nat)

variable (l : List α)

theorem flatten_map_block (m : Nat) :
    ((List.range m).map (block k l)).flatten = l.take (k * m) := by
  induction m with
  | zero => simp
  | succ m ih =>
    rw [range_succ, map_append, flatten_append, ih, mul_succ, take_add]
    simp [block]

theorem length_le_chunks {k n : Nat} (hk : 0 < k) : n ≤ k * ((n + k - 1) / k) := by
  have hdiv := div_add_mod (n + k - 1) k
  have hmod := mod_lt (n + k - 1) hk
  omega

theorem length_chunks : (chunks k l).length = (l.length + k - 1) / k := by
  rw [chunks, length_map, length_range]

section

variable {m : SortedMap ℕ β} {n : Nat}

theorem get?_isSome {k : Nat} : (m.get? k).isSome ↔ k ∈ m.entries.map Prod.fst := by
  rw [Option.isSome_iff_exists]
  constructor
  · rintro ⟨v, hv⟩
    exact mem_map.mpr ⟨_, get?_eq_some.mp hv, rfl⟩
  · intro h
    obtain ⟨⟨j, v⟩, he, rfl⟩ := mem_map.mp h
    exact ⟨v, get?_eq_some.mpr he⟩

theorem keys_subset (h : ∀ k, (m.get? k).isSome → k < n) : m.entries.map Prod.fst ⊆ List.range n :=
  fun k hk => mem_range.mpr (h k (get?_isSome.mpr hk))

theorem length_le_count (h : ∀ k, (m.get? k).isSome → k < n) : m.entries.length ≤ n := by
  have hle := (subperm_of_subset m.keys_nodup (keys_subset h)).length_le
  rwa [length_map, length_range] at hle

theorem keys_of_full (h : ∀ k, (m.get? k).isSome → k < n) (hfull : m.entries.length = n) :
    m.entries.map Prod.fst = List.range n := by
  have hperm : (m.entries.map Prod.fst).Perm (List.range n) := by
    refine (subperm_of_subset m.keys_nodup (keys_subset h)).perm_of_length_le ?_
    rw [length_map, length_range, hfull]
  have hsorted : (m.entries.map Prod.fst).Pairwise (· < ·) := by
    rw [pairwise_map]
    exact m.ascending
  exact hperm.eq_of_pairwise (fun a b _ _ hab hba => absurd hab (Nat.lt_asymm hba)) hsorted pairwise_lt_range

theorem values_of_full {f : ℕ → β} (h : ∀ k v, m.get? k = some v → k < n ∧ v = f k)
    (hfull : m.entries.length = n) : m.values = (List.range n).map f := by
  have hkeys : m.entries.map Prod.fst = List.range n := keys_of_full (fun k hk => by
    obtain ⟨v, hv⟩ := Option.isSome_iff_exists.mp hk
    exact (h k v hv).1) hfull
  rw [← hkeys, SortedMap.values, map_map]
  exact map_congr_left fun e he => (h e.1 e.2 (get?_eq_some.mpr he)).2

theorem full_iff (h : ∀ k, (m.get? k).isSome → k < n) :
    m.entries.length = n ↔ ∀ k < n, (m.get? k).isSome := by
  constructor
  · intro hfull k hk
    rw [get?_isSome, keys_of_full h hfull]
    exact mem_range.mpr hk
  · intro hall
    refine Nat.le_antisymm (length_le_count h) ?_
    have hsub : List.range n ⊆ m.entries.map Prod.fst := fun k hk =>
      get?_isSome.mp (hall k (mem_range.mp hk))
    have hle := (subperm_of_subset nodup_range hsub).length_le
    rwa [length_map, length_range] at hle

end

end Molt.Assembly
