import Mathlib

/-! Sharing by a polynomial: its values at distinct points, as many as it has coefficients,
combine to its value at zero. The polynomial is the list of its coefficients, constant first. -/

namespace Molt.Shamir

open Polynomial List

variable {F : Type*} [Field F]

def evalAt (coefficients : List F) (x : F) : F := coefficients.foldr (fun c rest => c + x * rest) 0

noncomputable def toPoly (coefficients : List F) : F[X] := coefficients.foldr (fun c rest => C c + X * rest) 0

theorem eval_toPoly (coefficients : List F) (x : F) : (toPoly coefficients).eval x = evalAt coefficients x := by
  induction coefficients with
  | nil => simp [toPoly, evalAt]
  | cons c rest ih =>
    have hpoly : toPoly (c :: rest) = C c + X * toPoly rest := rfl
    have heval : evalAt (c :: rest) x = c + x * evalAt rest x := rfl
    rw [hpoly, heval, eval_add, eval_C, eval_mul, eval_X, ih]

theorem degree_toPoly_lt (coefficients : List F) : (toPoly coefficients).degree < coefficients.length := by
  rw [Polynomial.degree_lt_iff_coeff_zero]
  induction coefficients with
  | nil => simp [toPoly]
  | cons c rest ih =>
    intro n hn
    have hpoly : toPoly (c :: rest) = C c + X * toPoly rest := rfl
    cases n with
    | zero => simp at hn
    | succ n =>
      have hrest := ih n (by simpa using hn)
      rw [hpoly, coeff_add, coeff_C_succ, coeff_X_mul, hrest, add_zero]

theorem evalAt_zero (c : F) (rest : List F) : evalAt (c :: rest) 0 = c := by
  have heval : evalAt (c :: rest) 0 = c + 0 * evalAt rest 0 := rfl
  rw [heval, zero_mul, add_zero]

variable [DecidableEq F]

/-- The weight of the value at `x` among values at `xs`, at zero. -/
def weight (xs : List F) (x : F) : F := ((xs.filter fun y => y ≠ x).map fun y => y / (y - x)).prod

def combine (points : List (F × F)) : F :=
  (points.map fun p => p.2 * weight (points.map Prod.fst) p.1).sum

theorem eval_basis_zero {xs : List F} (hnodup : xs.Nodup) (x : F) :
    (Lagrange.basis xs.toFinset id x).eval 0 = weight xs x := by
  have hfilter : xs.toFinset.erase x = (xs.filter fun y => y ≠ x).toFinset := by
    ext y
    simp [and_comm]
  unfold Lagrange.basis weight
  rw [eval_prod, hfilter, prod_toFinset _ (hnodup.filter _)]
  congr 1
  apply map_congr_left
  intro y hy
  have hne : y ≠ x := by simpa using (mem_filter.mp hy).2
  have hleft : y - x ≠ 0 := sub_ne_zero.mpr hne
  have hright : x - y ≠ 0 := sub_ne_zero.mpr hne.symm
  simp only [Lagrange.basisDivisor, id, eval_mul, eval_C, eval_sub, eval_X, zero_sub]
  rw [inv_mul_eq_div, div_eq_div_iff hright hleft]
  ring

theorem combine_eq {coefficients : List F} {points : List (F × F)} (hnodup : (points.map Prod.fst).Nodup)
    (hlen : coefficients.length ≤ points.length) (hon : ∀ p ∈ points, p.2 = evalAt coefficients p.1) :
    combine points = evalAt coefficients 0 := by
  have hcard : (points.map Prod.fst).toFinset.card = points.length := by
    rw [toFinset_card_of_nodup hnodup, length_map]
  have hdegree : (toPoly coefficients).degree < (points.map Prod.fst).toFinset.card := by
    rw [hcard]
    exact lt_of_lt_of_le (degree_toPoly_lt coefficients) (by exact_mod_cast hlen)
  have hpoly := Lagrange.eq_interpolate_of_eval_eq (r := evalAt coefficients) (Set.injOn_id _) hdegree
    fun x _ => eval_toPoly coefficients x
  rw [← eval_toPoly, hpoly, Lagrange.interpolate_apply, eval_finsetSum]
  simp only [eval_mul, eval_C, eval_basis_zero hnodup]
  rw [sum_toFinset _ hnodup, List.map_map]
  unfold combine
  congr 1
  apply map_congr_left
  intro p hp
  rw [hon p hp]
  rfl

end Molt.Shamir
