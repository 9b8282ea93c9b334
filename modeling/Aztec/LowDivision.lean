/-
**Division of polynomials from the lowest coefficient.**

A polynomial that is a multiple of `X - r` with `r ≠ 0` is divided from the constant coefficient
upwards: every coefficient of the quotient is found from the one below it with one multiplication
by `(-r)⁻¹`.
-/

import Mathlib.Algebra.Polynomial.Roots
import Mathlib.Tactic.LinearCombination

open Polynomial

namespace LowDivision

variable {F : Type} [Field F]

/-! ### Arrays of coefficients -/

/-- The polynomial whose coefficients are the first `n` entries of an array. -/
noncomputable def ofArray (n : ℕ) (p : ℕ → F) : F[X] := ∑ i ∈ Finset.range n, C (p i) * X ^ i

theorem coeff_ofArray (n : ℕ) (p : ℕ → F) (i : ℕ) :
    (ofArray n p).coeff i = if i < n then p i else 0 := by
  simp only [ofArray, finsetSum_coeff, coeff_C_mul_X_pow]
  by_cases hi : i < n
  · rw [if_pos hi, Finset.sum_eq_single_of_mem i (Finset.mem_range.2 hi), if_pos rfl]
    intro j _ hj
    exact if_neg hj.symm
  · rw [if_neg hi]
    refine Finset.sum_eq_zero fun j hj => if_neg ?_
    rintro rfl
    exact hi (Finset.mem_range.1 hj)

variable {n i : ℕ} {p : ℕ → F} {P Q : F[X]} {r : F} {roots : List F}

theorem coeff_ofArray_of_lt (p : ℕ → F) (hi : i < n) : (ofArray n p).coeff i = p i := by
  rw [coeff_ofArray, if_pos hi]

theorem eval_ofArray (n : ℕ) (p : ℕ → F) (z : F) :
    (ofArray n p).eval z = ∑ i ∈ Finset.range n, p i * z ^ i := by
  simp only [ofArray, eval_finsetSum, eval_mul, eval_C, eval_pow, eval_X]

theorem ofArray_eq (h : ∀ i < n, p i = P.coeff i) (hzero : ∀ i, n ≤ i → P.coeff i = 0) :
    ofArray n p = P := by
  ext i
  rw [coeff_ofArray]
  split
  · exact h i ‹_›
  · exact (hzero i (by omega)).symm

/-! ### One root -/

/-- The quotient by `X - r`, from the lowest coefficient. -/
def divide (r : F) (a : ℕ → F) : ℕ → F
  | 0 => a 0 * (-r)⁻¹
  | i + 1 => (a (i + 1) - divide r a i) * (-r)⁻¹

theorem divide_congr {a b : ℕ → F} (h : ∀ i < n, a i = b i) :
    ∀ i < n, divide r a i = divide r b i := by
  intro i hi
  induction i with
  | zero => rw [divide, divide, h 0 hi]
  | succ i ih => rw [divide, divide, h _ hi, ih (by omega)]

theorem divide_smul (r c : F) (a : ℕ → F) (i : ℕ) :
    divide r (fun j => c * a j) i = c * divide r a i := by
  induction i with
  | zero => rw [divide, divide, mul_assoc]
  | succ i ih =>
    rw [divide, divide, ih]
    ring

theorem divide_coeff (hr : r ≠ 0) (h : P = (X - C r) * Q) (i : ℕ) :
    divide r P.coeff i = Q.coeff i := by
  have hneg : (-r) * (-r)⁻¹ = 1 := mul_inv_cancel₀ (neg_ne_zero.2 hr)
  induction i with
  | zero =>
    have hcoeff : P.coeff 0 = -r * Q.coeff 0 := by
      rw [h, sub_mul, coeff_sub, coeff_X_mul_zero, coeff_C_mul]
      ring
    rw [divide, hcoeff]
    linear_combination Q.coeff 0 * hneg
  | succ i ih =>
    have hcoeff : P.coeff (i + 1) = Q.coeff i - r * Q.coeff (i + 1) := by
      rw [h, sub_mul, coeff_sub, coeff_X_mul, coeff_C_mul]
    rw [divide, ih, hcoeff]
    linear_combination Q.coeff (i + 1) * hneg

/-! ### Several roots -/

noncomputable def rootProduct (roots : List F) : F[X] := (roots.map fun r => X - C r).prod

@[simp] theorem rootProduct_nil : rootProduct ([] : List F) = 1 := rfl

@[simp] theorem rootProduct_cons (r : F) (roots : List F) :
    rootProduct (r :: roots) = (X - C r) * rootProduct roots := by
  simp [rootProduct]

def divideAll (roots : List F) (a : ℕ → F) : ℕ → F := roots.foldl (fun a r => divide r a) a

theorem divideAll_coeff (hroots : ∀ r ∈ roots, r ≠ 0) (h : P = rootProduct roots * Q) :
    divideAll roots P.coeff = Q.coeff := by
  induction roots generalizing P with
  | nil => rw [h, rootProduct_nil, one_mul, divideAll, List.foldl_nil]
  | cons r roots ih =>
    obtain ⟨hr, hroots⟩ := List.forall_mem_cons.1 hroots
    rw [rootProduct_cons, mul_assoc] at h
    have hdivide : divide r P.coeff = (rootProduct roots * Q).coeff :=
      funext (divide_coeff hr h)
    rw [divideAll, List.foldl_cons, hdivide]
    exact ih hroots rfl

theorem rootProduct_eq_X_pow_mul [DecidableEq F] (roots : List F) : rootProduct roots =
      X ^ roots.countP (· = 0) * rootProduct (roots.filter fun r => r ≠ 0) := by
  induction roots with
  | nil => simp
  | cons r roots ih =>
    by_cases hr : r = 0
    · rw [rootProduct_cons, ih, List.countP_cons_of_pos (by simpa using hr),
        List.filter_cons_of_neg (by simpa using hr), hr, C_0, sub_zero, pow_succ]
      ring
    · rw [rootProduct_cons, ih, List.countP_cons_of_neg (by simpa using hr),
        List.filter_cons_of_pos (by simpa using hr), rootProduct_cons]
      ring

theorem rootProduct_ne_zero (roots : List F) : rootProduct roots ≠ 0 := by
  induction roots with
  | nil => exact one_ne_zero
  | cons r roots ih =>
    rw [rootProduct_cons]
    exact mul_ne_zero (X_sub_C_ne_zero r) ih

theorem natDegree_rootProduct (roots : List F) : (rootProduct roots).natDegree = roots.length := by
  induction roots with
  | nil => exact natDegree_one
  | cons r roots ih =>
    rw [rootProduct_cons, natDegree_mul (X_sub_C_ne_zero r) (rootProduct_ne_zero roots),
      natDegree_X_sub_C, ih, List.length_cons]
    omega

theorem coeff_quotient_eq_zero {n : ℕ} {p : ℕ → F} {roots : List F} {Q : F[X]}
    (h : ofArray n p = rootProduct roots * Q) {i : ℕ} (hi : n ≤ i + roots.length) :
    Q.coeff i = 0 := by
  by_cases hQ : Q = 0
  · rw [hQ, coeff_zero]
  · by_contra hne
    have hdegree : (ofArray n p).natDegree = roots.length + Q.natDegree := by
      rw [h, natDegree_mul (rootProduct_ne_zero roots) hQ, natDegree_rootProduct]
    have hle : i ≤ Q.natDegree := le_natDegree_of_ne_zero hne
    have hlead : (ofArray n p).coeff (roots.length + Q.natDegree) = 0 := by
      rw [coeff_ofArray, if_neg (by omega)]
    rw [← hdegree, coeff_natDegree, leadingCoeff_eq_zero, h] at hlead
    exact mul_ne_zero (rootProduct_ne_zero roots) hQ hlead

end LowDivision
