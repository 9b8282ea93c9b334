/-
**Univariates given by their values.**

A `Univariate` holds the values of a polynomial at `0, 1, 2, …`.  It is extended to further points
and evaluated at any other point with the barycentric formula.
-/

import Mathlib.LinearAlgebra.Lagrange
import Mathlib.Tactic.Ring

open Polynomial Finset

namespace Univariates

variable {F : Type} [Field F]

def lagrangeDenominator (n i : ℕ) : F := ∏ j ∈ (Finset.range n).erase i, ((i : F) - j)

def fullNumerator (n : ℕ) (u : F) : F := ∏ i ∈ Finset.range n, (u - i)

/-- The loop of `extend_to` for two values. -/
def linearExtension (v : ℕ → F) : ℕ → F
  | 0 => v 0
  | k + 1 => linearExtension v k + (v 1 - v 0)

/-- `extend_to`, for a univariate with `n` values; the inverses are precomputed. -/
def extendTo (n : ℕ) (v : ℕ → F) : ℕ → F :=
  if n = 2 then linearExtension v
  else fun k =>
    if k < n then v k
    else (∑ j ∈ Finset.range n, v j * (lagrangeDenominator n j * ((k : F) - j))⁻¹) *
      fullNumerator n (k : F)

def evaluate (n : ℕ) (v : ℕ → F) (u : F) : F :=
  (∑ i ∈ Finset.range n, v i * (1 / (lagrangeDenominator n i * (u - i)))) * fullNumerator n u

/-- The points below `n` are different elements of the field. -/
def Distinct (F : Type) [Field F] (n : ℕ) : Prop := ∀ i < n, ∀ j < n, (i : F) = j → i = j

theorem linearExtension_eq (v : ℕ → F) (k : ℕ) : linearExtension v k = v 0 + k * (v 1 - v 0) := by
  induction k with
  | zero => rw [linearExtension, Nat.cast_zero, zero_mul, add_zero]
  | succ k ih =>
    rw [linearExtension, ih, Nat.cast_succ]
    ring

variable {n : ℕ} {p : F[X]} {v : ℕ → F} {u : F}

theorem eval_barycentric (hdistinct : Distinct F n) (hp : p.degree < n)
    (hv : ∀ i < n, v i = p.eval (i : F)) (hu : ∀ i < n, u ≠ i) :
    p.eval u = (∑ i ∈ range n, v i * (lagrangeDenominator n i * (u - i))⁻¹) *
      fullNumerator n u := by
  have hinj : Set.InjOn (fun i : ℕ => (i : F)) (range n) := by
    intro i hi j hj hij
    exact hdistinct i (mem_range.1 hi) j (mem_range.1 hj) hij
  have hinterpolate : p = Lagrange.interpolate (range n) (fun i : ℕ => (i : F)) v := by
    refine Lagrange.eq_interpolate_of_eval_eq v hinj ?_ fun i hi => ?_
    · rwa [card_range]
    · exact (hv i (mem_range.1 hi)).symm
  rw [hinterpolate, Lagrange.eval_interpolate_not_at_node v fun i hi => hu i (mem_range.1 hi),
    Lagrange.eval_nodal, mul_comm, fullNumerator]
  congr 1
  refine sum_congr rfl fun i _ => ?_
  rw [Lagrange.nodalWeight, prod_inv_distrib, lagrangeDenominator, mul_inv]
  ring

theorem eval_of_degree_lt_two (hp : p.degree < 2) (x : F) :
    p.eval x = p.eval 0 + x * (p.eval 1 - p.eval 0) := by
  rw [Polynomial.eq_X_add_C_of_degree_le_one (Order.le_of_lt_succ hp)]
  simp only [eval_add, eval_mul, eval_C, eval_X]
  ring

theorem extendTo_eq {m : ℕ} (hdistinct : Distinct F m) (hp : p.degree < n)
    (hv : ∀ i < n, v i = p.eval (i : F)) {k : ℕ} (hk : k < m) :
    extendTo n v k = p.eval (k : F) := by
  rw [extendTo]
  by_cases hn : n = 2
  · subst hn
    have hzero := hv 0 (by omega)
    have hone := hv 1 (by omega)
    rw [Nat.cast_zero] at hzero
    rw [Nat.cast_one] at hone
    rw [if_pos rfl, linearExtension_eq, hzero, hone, eval_of_degree_lt_two hp (k : F)]
  · rw [if_neg hn]
    by_cases hlt : k < n
    · rw [if_pos hlt, hv k hlt]
    · have hsmall : Distinct F n := fun i hi j hj => hdistinct i (by omega) j (by omega)
      rw [if_neg hlt]
      refine (eval_barycentric hsmall hp hv fun i hi heq => ?_).symm
      exact absurd (hdistinct k hk i (by omega) heq) (by omega)

theorem evaluate_eq (hdistinct : Distinct F n) (hp : p.degree < n)
    (hv : ∀ i < n, v i = p.eval (i : F)) (hu : ∀ i < n, u ≠ i) : evaluate n v u = p.eval u := by
  simp only [evaluate, one_div]
  exact (eval_barycentric hdistinct hp hv hu).symm

end Univariates
