/-
**Multilinear evaluation by folding.**

The table of a multilinear polynomial holds its values at the vertices of the hypercube; the value
at another point is the sum of the entries, each with the product of the variables and their
complements that the bits of its index choose.  Folding a table with one variable halves it.
-/

import Aztec.LowDivision

open Polynomial Finset

namespace Multilinear

open LowDivision

variable {F : Type} [Field F]

/-- The product over the variables of `u` or `1 - u`, as the bits of the index say; the first
variable goes with the lowest bit. -/
def weight (i : ℕ) : List F → F
  | [] => 1
  | u :: us => (if i % 2 = 1 then u else 1 - u) * weight (i / 2) us

/-- The value at `us` of the multilinear polynomial with the table `a`. -/
def multilinear (us : List F) (a : ℕ → F) : F :=
  ∑ i ∈ Finset.range (2 ^ us.length), a i * weight i us

/-- The table with the first variable set to `u`. -/
def foldOnce (u : F) (a : ℕ → F) (j : ℕ) : F := a (2 * j) + u * (a (2 * j + 1) - a (2 * j))

theorem sum_range_double {M : Type} [AddCommMonoid M] (f : ℕ → M) (n : ℕ) :
    ∑ i ∈ range (2 * n), f i = ∑ j ∈ range n, (f (2 * j) + f (2 * j + 1)) := by
  induction n with
  | zero => simp
  | succ n ih =>
    rw [show 2 * (n + 1) = 2 * n + 1 + 1 from by omega, sum_range_succ,
      sum_range_succ, ih, sum_range_succ, add_assoc]

@[simp] theorem multilinear_nil (a : ℕ → F) : multilinear [] a = a 0 := by
  simp [multilinear, weight]

theorem multilinear_cons (u : F) (us : List F) (a : ℕ → F) :
    multilinear (u :: us) a = multilinear us (foldOnce u a) := by
  rw [multilinear, List.length_cons, pow_succ, mul_comm, sum_range_double, multilinear]
  refine sum_congr rfl fun j _ => ?_
  have heven : weight (2 * j) (u :: us) = (1 - u) * weight j us := by
    rw [weight, if_neg (by omega), Nat.mul_div_cancel_left _ (by omega)]
  have hodd : weight (2 * j + 1) (u :: us) = u * weight j us := by
    rw [weight, if_pos (by omega), show (2 * j + 1) / 2 = j from by omega]
  rw [heven, hodd, foldOnce]
  ring

variable {n i : ℕ} {a b : ℕ → F}

theorem ofArray_congr (h : ∀ i < n, a i = b i) : ofArray n a = ofArray n b :=
  sum_congr rfl fun i hi => by rw [h i (mem_range.1 hi)]

theorem foldOnce_congr {u : F} (h : ∀ i < 2 * n, a i = b i) :
    ∀ j < n, foldOnce u a j = foldOnce u b j := by
  intro j hj
  rw [foldOnce, foldOnce, h _ (by omega), h _ (by omega)]

theorem eval_ofArray_double (n : ℕ) (a : ℕ → F) (x : F) : (ofArray (2 * n) a).eval x =
      (ofArray n fun j => a (2 * j)).eval (x ^ 2) +
        x * (ofArray n fun j => a (2 * j + 1)).eval (x ^ 2) := by
  rw [eval_ofArray, eval_ofArray, eval_ofArray, sum_range_double, sum_add_distrib, mul_sum]
  congr 1
  · exact sum_congr rfl fun j _ => by rw [pow_mul]
  · refine sum_congr rfl fun j _ => ?_
    rw [pow_succ, pow_mul]
    ring

theorem eval_foldOnce (n : ℕ) (u : F) (a : ℕ → F) (x : F) :
    2 * x * (ofArray n (foldOnce u a)).eval (x ^ 2) =
      x * (1 - u) * ((ofArray (2 * n) a).eval x + (ofArray (2 * n) a).eval (-x)) +
        u * ((ofArray (2 * n) a).eval x - (ofArray (2 * n) a).eval (-x)) := by
  have hfold : (ofArray n (foldOnce u a)).eval (x ^ 2) =
      (1 - u) * (ofArray n fun j => a (2 * j)).eval (x ^ 2) +
        u * (ofArray n fun j => a (2 * j + 1)).eval (x ^ 2) := by
    rw [eval_ofArray, eval_ofArray, eval_ofArray, mul_sum, mul_sum, ← sum_add_distrib]
    refine sum_congr rfl fun j _ => ?_
    rw [foldOnce]
    ring
  rw [eval_ofArray_double, eval_ofArray_double, hfold, neg_sq]
  ring

/-! ### The last variable -/

/-- The table with the last variable set to `u`, from a table of `n + 1` variables. -/
def foldTop (n : ℕ) (u : F) (a : ℕ → F) (l : ℕ) : F := a l + u * (a (2 ^ n + l) - a l)

variable (us : List F)

theorem weight_concat_low (u : F) (hi : i < 2 ^ us.length) :
    weight i (us ++ [u]) = weight i us * (1 - u) := by
  induction us generalizing i with
  | nil =>
    obtain rfl : i = 0 := by simpa using hi
    simp [weight]
  | cons v us ih =>
    rw [List.length_cons, pow_succ] at hi
    rw [List.cons_append, weight, ih (by omega), weight, mul_assoc]

theorem weight_concat_high (u : F) (hi : i < 2 ^ us.length) :
    weight (2 ^ us.length + i) (us ++ [u]) = weight i us * u := by
  induction us generalizing i with
  | nil =>
    obtain rfl : i = 0 := by simpa using hi
    simp [weight]
  | cons v us ih =>
    rw [List.length_cons, pow_succ] at hi
    have hmod : (2 ^ us.length * 2 + i) % 2 = i % 2 := by omega
    have hdiv : (2 ^ us.length * 2 + i) / 2 = 2 ^ us.length + i / 2 := by omega
    rw [List.length_cons, pow_succ, List.cons_append, weight, hmod, hdiv, ih (by omega), weight,
      mul_assoc]

theorem multilinear_concat (u : F) (a : ℕ → F) :
    multilinear (us ++ [u]) a = multilinear us (foldTop us.length u a) := by
  rw [multilinear, List.length_append, List.length_singleton, pow_succ, mul_two,
    sum_range_add, multilinear, ← sum_add_distrib]
  refine sum_congr rfl fun i hi => ?_
  have hi := mem_range.1 hi
  rw [weight_concat_low us u hi, weight_concat_high us u hi, foldTop]
  ring

theorem multilinear_congr {us : List F} (h : ∀ i < 2 ^ us.length, a i = b i) :
    multilinear us a = multilinear us b :=
  sum_congr rfl fun i hi => by rw [h i (mem_range.1 hi)]

theorem multilinear_add (a b : ℕ → F) :
    multilinear us a + multilinear us b = multilinear us fun i => a i + b i := by
  rw [multilinear, multilinear, multilinear, ← sum_add_distrib]
  exact sum_congr rfl fun i _ => (add_mul _ _ _).symm

/-- The evaluation as a linear map on the polynomials whose coefficients are the table. -/
noncomputable def multilinearHom (us : List F) : F[X] →ₗ[F] F where
  toFun P := multilinear us P.coeff
  map_add' P Q := by
    rw [multilinear_add]
    exact multilinear_congr fun i _ => coeff_add P Q i
  map_smul' c P := by
    rw [multilinear, multilinear, RingHom.id_apply, smul_eq_mul, Finset.mul_sum]
    refine Finset.sum_congr rfl fun i _ => ?_
    rw [coeff_smul, smul_eq_mul, mul_assoc]

theorem multilinearHom_ofArray (a : ℕ → F) :
    multilinearHom us (ofArray (2 ^ us.length) a) = multilinear us a :=
  multilinear_congr fun _ hi => coeff_ofArray_of_lt a hi

end Multilinear
