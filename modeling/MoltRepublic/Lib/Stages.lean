import Mathlib
import MoltRepublic.Lib.Check

/-! A list summarized in stages: each cut reads the group the last one left, the items
behind it and the snapshot the last one returned. -/

namespace Molt.Check
open List

universe u v
variable {ε : Type u} {α τ : Type v}

def stages (cut : τ → List α → Except ε (List α × τ)) :
    List α × τ → List (List α) → Except ε (List α × τ)
  | p, [] => .ok p
  | p, seg :: segs => do
    let q ← cut p.2 (p.1 ++ seg)
    stages cut q segs

variable {cut : τ → List α → Except ε (List α × τ)} (whole : List α → Except ε (List α × τ))
  {R : List α → List α × τ → Prop} {V : α → Prop}

theorem stages_eq_ok (happend : ∀ raw p e, R raw p → V e → R (raw ++ [e]) (p.1 ++ [e], p.2))
    (hcut : ∀ raw p q, (∀ e ∈ raw, V e) → R raw p → (cut p.2 p.1 = .ok q ↔ whole raw = .ok q))
    (hwhole : ∀ raw q, (∀ e ∈ raw, V e) → whole raw = .ok q → R raw q)
    (htotal : ∀ raw, (∀ e ∈ raw, V e) → ∃ q, whole raw = .ok q)
    (raw : List α) {p : List α × τ} (hp : R raw p) (seg : List α) (segs : List (List α))
    (hV : ∀ e ∈ raw ++ (seg :: segs).flatten, V e) {q : List α × τ} :
    stages cut p (seg :: segs) = .ok q ↔ whole (raw ++ (seg :: segs).flatten) = .ok q := by
  have hextend : ∀ (items raw : List α) (p : List α × τ), R raw p → (∀ e ∈ items, V e) →
      R (raw ++ items) (p.1 ++ items, p.2) := by
    intro items
    induction items with
    | nil => intro raw p hp _; simpa using hp
    | cons e items ih =>
      intro raw p hp hitems
      have hnext := ih _ _ (happend raw p e hp (hitems e (.head _)))
        fun d hd => hitems d (.tail _ hd)
      simpa using hnext
  -- each stage hands on a group that stands for all the raw items behind it
  induction segs generalizing raw p seg with
  | nil =>
    simp only [flatten_cons, flatten_nil, append_nil] at hV ⊢
    rw [stages, bind_eq_ok]
    have hseg := hextend seg raw p hp fun e he => hV e (mem_append_right _ he)
    simpa [stages] using hcut _ _ q hV hseg
  | cons next segs ih =>
    rw [flatten_cons, ← append_assoc] at hV ⊢
    have hraw : ∀ e ∈ raw ++ seg, V e := fun e he => hV e (mem_append_left _ he)
    have hseg := hextend seg raw p hp fun e he => hraw e (mem_append_right _ he)
    obtain ⟨r, hr⟩ := htotal _ hraw
    refine Iff.trans ?_ (ih _ (hwhole _ r hraw hr) next hV)
    rw [stages, (hcut _ _ r hraw hseg).mpr hr]
    rfl

end Molt.Check
