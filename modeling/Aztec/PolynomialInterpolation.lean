/-
**Interpolation of polynomials.**

The product of linear polynomials is built from elementary symmetric sums, which one scratch array
takes through their degrees in place.  An interpolation sums such products over all points but one;
the efficient version builds one product and divides it by every `X - x`, from the lowest
coefficient and with the inverse of the point, which the batched inversion leaves at zero for the
point zero.
-/

import Aztec.PolynomialRoots
import Mathlib.Data.List.GetD
import Mathlib.LinearAlgebra.Lagrange
import Mathlib.RingTheory.Polynomial.Vieta

open Polynomial LowDivision PolynomialRoots List Function
open List (range)

namespace PolynomialInterpolation

variable {F : Type} [Field F]

/-! ### Elementary symmetric sums -/

def symmetricSum (roots : ℕ → F) (k start count : ℕ) : F :=
  (((List.range' start count).map roots : List F) : Multiset F).esymm k

theorem esymm_cons (a : F) (s : Multiset F) (k : ℕ) :
    (a ::ₘ s).esymm (k + 1) = s.esymm (k + 1) + a * s.esymm k := by
  simp only [Multiset.esymm, Multiset.powersetCard_cons, Multiset.map_add, Multiset.sum_add,
    Multiset.map_map, comp_def, Multiset.prod_cons]
  rw [Multiset.sum_map_mul_left]

variable {roots : ℕ → F}

@[simp] theorem symmetricSum_zero (start count : ℕ) : symmetricSum roots 0 start count = 1 := by
  simp [symmetricSum, Multiset.esymm]

theorem symmetricSum_succ (k start count : ℕ) : symmetricSum roots (k + 1) start (count + 1) =
      symmetricSum roots (k + 1) (start + 1) count +
        roots start * symmetricSum roots k (start + 1) count := by
  rw [symmetricSum, List.range'_succ, map_cons, ← Multiset.cons_coe, esymm_cons]
  rfl

variable {k i : ℕ} {x : F} {P : F[X]}

theorem symmetricSum_of_lt {start count : ℕ} (h : count < k) :
    symmetricSum roots k start count = 0 := by
  rw [symmetricSum, Multiset.esymm, Multiset.powersetCard_eq_empty]
  · rfl
  · simpa using h

theorem symmetricSum_eq_sum (k start count : ℕ) :
    symmetricSum roots (k + 1) start count = ∑ u ∈ Finset.range count,
      roots (start + u) * symmetricSum roots k (start + u + 1) (count - 1 - u) := by
  induction count generalizing start with
  | zero => rw [Finset.sum_range_zero, symmetricSum_of_lt (Nat.succ_pos k)]
  | succ count ih =>
    rw [symmetricSum_succ, ih, Finset.sum_range_succ']
    refine congrArg₂ (· + ·) (Finset.sum_congr rfl fun u hu => ?_) ?_
    · have hu := Finset.mem_range.1 hu
      rw [show start + 1 + u = start + (u + 1) by omega,
        show count + 1 - 1 - (u + 1) = count - 1 - u by omega]
    · simp only [Nat.add_zero, Nat.add_sub_cancel, Nat.sub_zero]

theorem symmetricSum_eq_sum_of_le (k start count m : ℕ) (hm : m ≤ count) (hcount : count ≤ m + k) :
    symmetricSum roots (k + 1) start count = ∑ u ∈ Finset.range m,
      roots (start + u) * symmetricSum roots k (start + u + 1) (count - 1 - u) := by
  rw [symmetricSum_eq_sum]
  refine (Finset.sum_subset (Finset.range_mono hm) fun u hu hnot => ?_).symm
  have hu := Finset.mem_range.1 hu
  have hnot : ¬ u < m := fun h => hnot (Finset.mem_range.2 h)
  rw [symmetricSum_of_lt (by omega), mul_zero]

variable {n : ℕ}

theorem coeff_rootProduct (hk : k ≤ n) : (rootProduct ((range n).map roots)).coeff k =
      (-1) ^ (n - k) * symmetricSum roots (n - k) 0 n := by
  have hcard : Multiset.card (((range n).map roots : List F) : Multiset F) = n := by simp
  have h := Multiset.prod_X_sub_C_coeff (((range n).map roots : List F) : Multiset F)
    (k := k) (by rw [hcard]; exact hk)
  rw [hcard, Multiset.map_coe, Multiset.prod_coe] at h
  rw [rootProduct, h, symmetricSum, range_eq_range']

/-! ### `compute_linear_polynomial_product` -/

def computeSum (src : ℕ → F) (start n : ℕ) : F :=
  (List.range' start n).foldl (fun result i => result + src i) 0

/-- The entry `j` of the scratch space in the pass `i`, and the sum of the entries so far. -/
def productStep (roots : ℕ → F) (n i : ℕ) (s : (ℕ → F) × F) (j : ℕ) : (ℕ → F) × F :=
  let entry := roots j * computeSum s.1 (j + 1) (n - 1 - i - j)
  (Function.update s.1 j entry, s.2 + entry)

structure ProductState (F : Type) where
  dest : ℕ → F
  scratchSpace : ℕ → F
  constant : F

/-- The pass `i` over the scratch space. -/
def productPass (roots : ℕ → F) (n : ℕ) (s : ProductState F) (i : ℕ) : ProductState F :=
  let pass := (List.range (n - 1 - i)).foldl (productStep roots n i) (s.scratchSpace, 0)
  { dest := Function.update s.dest (n - 2 - i) (pass.2 * s.constant)
    scratchSpace := pass.1
    constant := s.constant * -1 }

def computeLinearPolynomialProduct (roots dest : ℕ → F) (n : ℕ) : ℕ → F :=
  let first := Function.update (Function.update dest n 1) (n - 1) (-computeSum roots 0 n)
  ((List.range (n - 1)).foldl (productPass roots n) ⟨first, roots, 1⟩).dest

theorem computeSum_eq (src : ℕ → F) (start n : ℕ) :
    computeSum src start n = ∑ u ∈ Finset.range n, src (start + u) := by
  rw [computeSum]
  induction n with
  | zero => rfl
  | succ n ih =>
    rw [List.range'_1_concat, foldl_append, ih, Finset.sum_range_succ]
    rfl

/-- The entry `j` of the scratch space before the pass `i`: the products of `i + 1` roots whose
least index is `j`. -/
def scratchEntry (roots : ℕ → F) (n i j : ℕ) : F :=
  roots j * symmetricSum roots i (j + 1) (n - 1 - j)

theorem productStep_foldl {scratch : ℕ → F}
    (hscratch : ∀ j < n - i, scratch j = scratchEntry roots n i j) (k : ℕ) (hk : k ≤ n - 1 - i) :
    (range k).foldl (productStep roots n i) (scratch, 0) =
      (fun j => if j < k then scratchEntry roots n (i + 1) j else scratch j,
        ∑ j ∈ Finset.range k, scratchEntry roots n (i + 1) j) := by
  induction k with
  | zero =>
    refine Prod.ext (funext fun j => ?_) rfl
    rw [range_zero, foldl_nil]
    dsimp only
    rw [if_neg (Nat.not_lt_zero j)]
  | succ k ih =>
    have hsum : computeSum (fun j => if j < k then scratchEntry roots n (i + 1) j else scratch j)
        (k + 1) (n - 1 - i - k) = symmetricSum roots (i + 1) (k + 1) (n - 1 - k) := by
      rw [computeSum_eq, symmetricSum_eq_sum_of_le i (k + 1) (n - 1 - k) (n - 1 - i - k)
        (by omega) (by omega)]
      refine Finset.sum_congr rfl fun u hu => ?_
      have hu := Finset.mem_range.1 hu
      rw [if_neg (by omega), hscratch _ (by omega), scratchEntry,
        show n - 1 - (k + 1 + u) = n - 1 - k - 1 - u by omega]
    rw [range_succ, foldl_append, ih (by omega), foldl_cons, foldl_nil,
      productStep]
    dsimp only
    rw [hsum, Finset.sum_range_succ]
    refine Prod.ext (funext fun j => ?_) rfl
    dsimp only
    by_cases hj : j = k
    · rw [hj, update_self, if_pos (by omega)]
      rfl
    · rw [update_of_ne hj]
      by_cases hlt : j < k
      · rw [if_pos hlt, if_pos (by omega)]
      · rw [if_neg hlt, if_neg (by omega)]

/-- What holds before the pass `i`. -/
structure ProductInv (roots : ℕ → F) (n i : ℕ) (s : ProductState F) : Prop where
  dest : ∀ k, n - 1 - i ≤ k → k ≤ n → s.dest k = (-1) ^ (n - k) * symmetricSum roots (n - k) 0 n
  scratch : ∀ j < n - i, s.scratchSpace j = scratchEntry roots n i j
  constant : s.constant = (-1) ^ i

theorem ProductInv.pass {s : ProductState F} (h : ProductInv roots n i s) (hi : i < n - 1) :
    ProductInv roots n (i + 1) (productPass roots n s i) := by
  rw [productPass, productStep_foldl h.scratch _ le_rfl]
  constructor
  · intro k hlow hk
    dsimp only
    by_cases hlast : k = n - 2 - i
    · rw [hlast, update_self, h.constant, show n - (n - 2 - i) = i + 1 + 1 by omega,
        symmetricSum_eq_sum_of_le (i + 1) 0 n (n - 1 - i) (by omega) (by omega)]
      have hentries : ∑ j ∈ Finset.range (n - 1 - i), scratchEntry roots n (i + 1) j =
          ∑ u ∈ Finset.range (n - 1 - i),
            roots (0 + u) * symmetricSum roots (i + 1) (0 + u + 1) (n - 1 - u) := by
        refine Finset.sum_congr rfl fun u _ => ?_
        rw [scratchEntry, Nat.zero_add]
      rw [hentries]
      ring
    · rw [update_of_ne hlast]
      exact h.dest k (by omega) hk
  · intro j hj
    dsimp only
    rw [if_pos (by omega)]
  · dsimp only
    rw [h.constant, pow_succ]

theorem productInv_foldl {s : ProductState F} (h : ProductInv roots n 0 s) (k : ℕ)
    (hk : k ≤ n - 1) : ProductInv roots n k ((range k).foldl (productPass roots n) s) := by
  induction k with
  | zero => exact h
  | succ k ih =>
    rw [range_succ, foldl_append, foldl_cons, foldl_nil]
    exact (ih (by omega)).pass (by omega)

theorem linearPolynomialProduct_coeff (dest : ℕ → F) (hn : 0 < n) (hk : k ≤ n) :
    computeLinearPolynomialProduct roots dest n k =
      (rootProduct ((range n).map roots)).coeff k := by
  have hinit : ProductInv roots n 0
      ⟨update (update dest n 1) (n - 1) (-computeSum roots 0 n), roots, 1⟩ := by
    constructor
    · intro j hlow hj
      dsimp only
      by_cases hlast : j = n - 1
      · rw [hlast, update_self, computeSum_eq, show n - (n - 1) = 0 + 1 by omega,
          symmetricSum_eq_sum]
        simp
      · rw [update_of_ne hlast, show j = n by omega, update_self, Nat.sub_self,
          symmetricSum_zero, pow_zero, mul_one]
    · intro j _
      rw [scratchEntry, symmetricSum_zero, mul_one]
    · rw [pow_zero]
  rw [coeff_rootProduct hk]
  exact (productInv_foldl hinit (n - 1) le_rfl).dest k (by omega) hk

/-! ### Interpolation -/

def localRoots (evaluationPoints : ℕ → F) (n i : ℕ) : List F :=
  ((List.range n).filter fun j => j ≠ i).map evaluationPoints

def denominator (evaluationPoints : ℕ → F) (n i : ℕ) : F :=
  ((List.range n).filter fun j => j ≠ i).foldl
    (fun d j => d * (evaluationPoints i - evaluationPoints j)) 1

/-- The terms of the point `i` are added. -/
def interpolationStep (src evaluationPoints : ℕ → F) (n : ℕ) (tempDest : ℕ → F) (i : ℕ) : ℕ → F :=
  let others := localRoots evaluationPoints n i
  let localPolynomial :=
    computeLinearPolynomialProduct (fun j => others.getD j 0) (fun _ => 0) (n - 1)
  let multiplicand := src i / denominator evaluationPoints n i
  fun j => if j < n then tempDest j + multiplicand * localPolynomial j else tempDest j

def computeInterpolation (src dest evaluationPoints : ℕ → F) (n : ℕ) : ℕ → F :=
  if n = 1 then dest
  else
    let tempDest :=
      (List.range n).foldl (interpolationStep src evaluationPoints n) fun _ => 0
    fun j => if j < n then tempDest j else dest j

section Efficient

variable [DecidableEq F]

/-- The coefficient `j` of the quotient by `X - x`, in `temp_dest`, and the sum in `dest`. -/
def quotientStep (numerator : ℕ → F) (multiplier z : F) (s : (ℕ → F) × (ℕ → F)) (j : ℕ) :
    (ℕ → F) × (ℕ → F) :=
  let coefficient :=
    if j = 0 then multiplier * numerator 0 * z
    else (multiplier * numerator j - s.1 (j - 1)) * z
  (Function.update s.1 j coefficient, Function.update s.2 j (s.2 j + coefficient))

/-- The loop for the point `i`. -/
def efficientStep (src numerator : ℕ → F) (rootsAndDenominators : List F) (n : ℕ)
    (s : (ℕ → F) × (ℕ → F)) (i : ℕ) : (ℕ → F) × (ℕ → F) :=
  let z := rootsAndDenominators.getD i 0
  let multiplier := src i * rootsAndDenominators.getD (n + i) 0
  (List.range n).foldl (quotientStep numerator multiplier z) s

def computeEfficientInterpolation (src dest evaluationPoints : ℕ → F) (n : ℕ) : ℕ → F :=
  let numerator := computeLinearPolynomialProduct evaluationPoints (fun _ => 0) n
  let rootsAndDenominators := batchInvert
    ((List.range n).map (fun i => -evaluationPoints i) ++
      (List.range n).map (denominator evaluationPoints n))
  let cleared := fun j => if j < n then 0 else dest j
  ((List.range n).foldl (efficientStep src numerator rootsAndDenominators n)
    (fun _ => 0, cleared)).2

def interpolationConstructor (interpolationPoints evaluations : ℕ → F) (size : ℕ) : ℕ → F :=
  computeEfficientInterpolation evaluations (fun _ => 0) interpolationPoints size

end Efficient

/-! ### Both interpolations as sums of products -/

variable {points values : ℕ → F} {n : ℕ}

def Distinct (points : ℕ → F) (n : ℕ) : Prop := ∀ i < n, ∀ j < n, points i = points j → i = j

/-- The polynomial of degree below `n` through the given pairs. -/
structure Interpolates (points values : ℕ → F) (n : ℕ) (P : F[X]) : Prop where
  degree : P.degree < n
  eval : ∀ i < n, P.eval (points i) = values i

theorem denominator_eq (i : ℕ) : denominator points n i =
    (rootProduct (localRoots points n i)).eval (points i) := by
  have hfold : ∀ (l : List ℕ) (d : F), l.foldl (fun d j => d * (points i - points j)) d =
      d * (rootProduct (l.map points)).eval (points i) := by
    intro l
    induction l with
    | nil =>
      intro d
      rw [foldl_nil, map_nil, rootProduct_nil, eval_one, mul_one]
    | cons j l ih =>
      intro d
      rw [foldl_cons, ih, map_cons, rootProduct_cons, eval_mul, eval_sub, eval_X, eval_C,
        mul_assoc]
  rw [denominator, hfold, one_mul, localRoots]

theorem eval_rootProduct_eq_zero {roots : List F} (hx : x ∈ roots) :
    (rootProduct roots).eval x = 0 := by
  induction roots with
  | nil => cases hx
  | cons r roots ih =>
    rw [rootProduct_cons, eval_mul, eval_sub, eval_X, eval_C]
    rcases mem_cons.1 hx with rfl | hx
    · rw [sub_self, zero_mul]
    · rw [ih hx, mul_zero]

theorem eval_rootProduct_ne_zero {roots : List F} (hx : x ∉ roots) :
    (rootProduct roots).eval x ≠ 0 := by
  induction roots with
  | nil => rw [rootProduct_nil, eval_one]; exact one_ne_zero
  | cons r roots ih =>
    rw [rootProduct_cons, eval_mul, eval_sub, eval_X, eval_C]
    rw [mem_cons, not_or] at hx
    exact mul_ne_zero (sub_ne_zero.2 hx.1) (ih hx.2)

omit [Field F] in
theorem mem_localRoots : x ∈ localRoots points n i ↔ ∃ j < n, j ≠ i ∧ points j = x := by
  simp [localRoots, mem_map, and_assoc]

theorem denominator_ne_zero (hdistinct : Distinct points n) (hi : i < n) :
    denominator points n i ≠ 0 := by
  rw [denominator_eq]
  refine eval_rootProduct_ne_zero fun h => ?_
  obtain ⟨j, hj, hne, heq⟩ := mem_localRoots.1 h
  exact hne (hdistinct j hj i hi heq)

omit [Field F] in
theorem length_localRoots (hi : i < n) : (localRoots points n i).length = n - 1 := by
  have hcount : ((range n).filter fun j => j ≠ i).length + 1 = n := by
    have h := length_eq_countP_add_countP (fun j => decide (j ≠ i)) (l := range n)
    have hone : (range n).countP (fun j => decide ¬decide (j ≠ i) = true) = 1 := by
      have hcount := nodup_range.count (a := i) (l := range n)
      rw [if_pos (mem_range.2 hi)] at hcount
      rw [← hcount, List.count]
      refine countP_congr fun j _ => ?_
      simp
    rw [length_range, hone, countP_eq_length_filter] at h
    exact h.symm
  rw [localRoots, length_map]
  omega

/-- The term of the point `i`: a multiple of the product over the other points. -/
noncomputable def term (points values : ℕ → F) (n i : ℕ) : F[X] :=
  C (values i / denominator points n i) * rootProduct (localRoots points n i)

theorem degree_term_lt (hi : i < n) : (term points values n i).degree < n := by
  refine (degree_lt_iff_coeff_zero _ _).2 fun j hj => ?_
  rw [term, coeff_C_mul, coeff_eq_zero_of_natDegree_lt, mul_zero]
  rw [natDegree_rootProduct, length_localRoots hi]
  omega

theorem eval_term (hdistinct : Distinct points n) (hi : i < n) (hk : k < n) :
    (term points values n i).eval (points k) = if k = i then values i else 0 := by
  rw [term, eval_mul, eval_C]
  split
  · rename_i heq
    rw [heq, ← denominator_eq, div_mul_cancel₀ _ (denominator_ne_zero hdistinct hi)]
  · rename_i hne
    rw [eval_rootProduct_eq_zero (mem_localRoots.2 ⟨k, hk, hne, rfl⟩), mul_zero]

theorem sum_term_eq (hdistinct : Distinct points n) (hP : Interpolates points values n P) :
    ∑ i ∈ Finset.range n, term points values n i = P := by
  refine eq_of_degrees_lt_of_eval_index_eq (s := Finset.range n) (v := points) ?_ ?_ ?_ ?_
  · intro i hi j hj h
    exact hdistinct i (Finset.mem_range.1 hi) j (Finset.mem_range.1 hj) h
  · rw [Finset.card_range]
    refine (degree_sum_le _ _).trans_lt ?_
    refine (Finset.sup_lt_iff (WithBot.bot_lt_coe n)).2 fun i hi => ?_
    exact degree_term_lt (Finset.mem_range.1 hi)
  · rw [Finset.card_range]
    exact hP.degree
  · intro k hk
    have hk := Finset.mem_range.1 hk
    rw [eval_finsetSum, hP.eval k hk, Finset.sum_eq_single_of_mem k (Finset.mem_range.2 hk),
      eval_term hdistinct hk hk, if_pos rfl]
    intro i hi hne
    rw [eval_term hdistinct (Finset.mem_range.1 hi) hk, if_neg hne.symm]

/-! ### `compute_interpolation` -/

theorem map_range_getD (l : List F) : (range l.length).map (fun j => l.getD j 0) = l := by
  refine ext_getElem (by simp) fun j hj hj' => ?_
  rw [getElem_map, getElem_range, getD_eq_getElem _ _ hj']

theorem interpolationStep_foldl (hn : 1 < n) (k : ℕ) (hk : k ≤ n) (j : ℕ) (hj : j < n) :
    (range k).foldl (interpolationStep values points n) (fun _ => 0) j =
      (∑ i ∈ Finset.range k, term points values n i).coeff j := by
  induction k with
  | zero => simp
  | succ k ih =>
    have hlength : (localRoots points n k).length = n - 1 := length_localRoots (by omega)
    have hproduct : computeLinearPolynomialProduct (fun j => (localRoots points n k).getD j 0)
        (fun _ => 0) (n - 1) j = (rootProduct ((range (n - 1)).map fun j =>
          (localRoots points n k).getD j 0)).coeff j :=
      linearPolynomialProduct_coeff (fun _ => 0) (by omega) (by omega)
    have hroots := map_range_getD (localRoots points n k)
    rw [hlength] at hroots
    rw [hroots] at hproduct
    rw [range_succ, foldl_append, foldl_cons, foldl_nil, interpolationStep]
    dsimp only
    rw [if_pos hj, ih (by omega), hproduct, Finset.sum_range_succ, coeff_add, term, coeff_C_mul]

theorem computeInterpolation_coeff (hdistinct : Distinct points n)
    (hP : Interpolates points values n P) (hn : n ≠ 1) (dest : ℕ → F) (j : ℕ) (hj : j < n) :
    computeInterpolation values dest points n j = P.coeff j := by
  rw [computeInterpolation, if_neg hn, if_pos hj, interpolationStep_foldl (by omega) n le_rfl j hj,
    sum_term_eq hdistinct hP]

/-! ### `compute_efficient_interpolation` -/

section Efficient

theorem quotientStep_foldl (numerator : ℕ → F) (multiplier x : F) (s : (ℕ → F) × (ℕ → F)) (k : ℕ) :
    (range k).foldl (quotientStep numerator multiplier (-x)⁻¹) s =
      (fun j => if j < k then divide x (fun j => multiplier * numerator j) j else s.1 j,
        fun j => if j < k then s.2 j + divide x (fun j => multiplier * numerator j) j
          else s.2 j) := by
  induction k with
  | zero => rfl
  | succ k ih =>
    rw [range_succ, foldl_append, ih, foldl_cons, foldl_nil, quotientStep]
    have hcoefficient : (if k = 0 then multiplier * numerator 0 * (-x)⁻¹
        else (multiplier * numerator k -
          if k - 1 < k then divide x (fun j => multiplier * numerator j) (k - 1) else s.1 (k - 1)) *
            (-x)⁻¹) = divide x (fun j => multiplier * numerator j) k := by
      cases k with
      | zero => rw [if_pos rfl, divide]
      | succ k => rw [if_neg (by omega), if_pos (by omega), Nat.add_sub_cancel, divide]
    dsimp only
    rw [hcoefficient, if_neg (lt_irrefl k)]
    refine Prod.ext (funext fun j => ?_) (funext fun j => ?_)
    all_goals
      dsimp only
      by_cases hj : j = k
      · rw [hj, update_self, if_pos (Nat.lt_succ_self k)]
      · rw [update_of_ne hj]
        by_cases hlt : j < k
        · rw [if_pos hlt, if_pos (by omega)]
        · rw [if_neg hlt, if_neg (by omega)]

def contribution (points values numerator : ℕ → F) (n i j : ℕ) : F :=
  divide (points i) (fun j => values i * (denominator points n i)⁻¹ * numerator j) j

variable [DecidableEq F]

theorem getD_inverses (i : ℕ) (hi : i < n) :
    (batchInvert ((range n).map (fun i => -points i) ++
      (range n).map (denominator points n))).getD i 0 = (-points i)⁻¹ ∧
    (batchInvert ((range n).map (fun i => -points i) ++
      (range n).map (denominator points n))).getD (n + i) 0 = (denominator points n i)⁻¹ := by
  rw [batchInvert_eq, map_append, List.map_map, List.map_map]
  constructor
  · rw [getD_append _ _ _ _ (by simpa using hi)]
    simp [getD_eq_getElem?_getD, hi]
  · rw [getD_append_right _ _ _ _ (by simp)]
    simp [getD_eq_getElem?_getD, hi]

theorem efficientStep_foldl (numerator : ℕ → F) (s : (ℕ → F) × (ℕ → F)) (k : ℕ) (hk : k ≤ n)
    (j : ℕ) (hj : j < n) : ((range k).foldl (efficientStep values numerator (batchInvert
        ((range n).map (fun i => -points i) ++
          (range n).map (denominator points n))) n) s).2 j =
      s.2 j + ∑ i ∈ Finset.range k, contribution points values numerator n i j := by
  induction k with
  | zero => simp
  | succ k ih =>
    obtain ⟨hpoint, hdenominator⟩ := @getD_inverses F _ points n _ k (by omega)
    rw [range_succ, foldl_append, foldl_cons, foldl_nil, efficientStep, hpoint,
      hdenominator, quotientStep_foldl]
    dsimp only
    rw [if_pos hj, ih (by omega), Finset.sum_range_succ, contribution, add_assoc]

end Efficient

theorem rootProduct_eq_mul (hi : i < n) : rootProduct ((range n).map points) =
    (X - C (points i)) * rootProduct (localRoots points n i) := by
  have hperm : ((range n).map points).Perm (points i :: localRoots points n i) := by
    have h := (perm_cons_erase (mem_range.2 hi)).map points
    rw [nodup_range.erase_eq_filter] at h
    have hfilter : (range n).filter (fun j => j != i) =
        (range n).filter fun j => j ≠ i :=
      filter_congr fun j _ => by by_cases hj : j = i <;> simp [hj]
    rw [hfilter] at h
    exact h
  rw [rootProduct, (hperm.map _).prod_eq, ← rootProduct, rootProduct_cons]

theorem contribution_eq [DecidableEq F] (hn : 0 < n) {j : ℕ} (hi : i < n) (hj : j < n) :
    contribution points values (computeLinearPolynomialProduct points (fun _ => 0) n) n i j =
      if points i = 0 then 0 else (term points values n i).coeff j := by
  rw [contribution]
  split
  · rename_i hzero
    rw [hzero]
    cases j with
    | zero => rw [divide, neg_zero, inv_zero, mul_zero]
    | succ j => rw [divide, neg_zero, inv_zero, mul_zero]
  · rename_i hne
    rw [divide_smul, term, coeff_C_mul, div_eq_mul_inv, ← divide_coeff hne (rootProduct_eq_mul hi)]
    refine congrArg _ (divide_congr (n := n) (fun k hk => ?_) j hj)
    exact linearPolynomialProduct_coeff _ hn hk.le

theorem efficient_coeff [DecidableEq F] (hn : 0 < n) (dest : ℕ → F) (j : ℕ) (hj : j < n) :
    computeEfficientInterpolation values dest points n j =
      (∑ i ∈ Finset.range n, if points i = 0 then 0 else term points values n i).coeff j := by
  rw [computeEfficientInterpolation, efficientStep_foldl _ _ n le_rfl j hj]
  dsimp only
  rw [if_pos hj, zero_add, finsetSum_coeff]
  refine Finset.sum_congr rfl fun i hi => ?_
  rw [contribution_eq hn (Finset.mem_range.1 hi) hj]
  split
  · rw [coeff_zero]
  · rfl

theorem term_eq_zero_iff (hdistinct : Distinct points n) (hi : i < n) :
    term points values n i = 0 ↔ values i = 0 := by
  rw [term, mul_eq_zero, or_iff_left (rootProduct_ne_zero _), C_eq_zero, div_eq_zero_iff,
    or_iff_left (denominator_ne_zero hdistinct hi)]

theorem efficient_iff [DecidableEq F] (hn : 0 < n) (hdistinct : Distinct points n)
    (hP : Interpolates points values n P) (dest : ℕ → F) :
    (∀ j < n, computeEfficientInterpolation values dest points n j = P.coeff j) ↔
      ∀ i < n, points i = 0 → values i = 0 := by
  have hsplit : P = (∑ i ∈ Finset.range n, if points i = 0 then 0 else term points values n i) +
      ∑ i ∈ Finset.range n, if points i = 0 then term points values n i else 0 := by
    rw [← Finset.sum_add_distrib, ← sum_term_eq hdistinct hP]
    refine Finset.sum_congr rfl fun i _ => ?_
    split
    · rw [zero_add]
    · rw [add_zero]
  -- what the point zero should have added
  generalize hmissing :
    (∑ i ∈ Finset.range n, if points i = 0 then term points values n i else 0) = missing at hsplit
  have hlow : ∀ j, n ≤ j → missing.coeff j = 0 := by
    intro j hj
    rw [← hmissing, finsetSum_coeff]
    refine Finset.sum_eq_zero fun i hi => ?_
    split
    · exact (degree_lt_iff_coeff_zero _ _).1 (degree_term_lt (Finset.mem_range.1 hi)) j hj
    · rw [coeff_zero]
  constructor
  · intro h i hi hzero
    have hmissing_zero : missing = 0 := by
      ext j
      by_cases hj : j < n
      · have hcoeff := h j hj
        rw [efficient_coeff hn dest j hj, hsplit, coeff_add] at hcoeff
        rw [coeff_zero]
        linear_combination -hcoeff
      · rw [hlow j (by omega), coeff_zero]
    rw [← term_eq_zero_iff hdistinct hi, ← hmissing_zero, ← hmissing,
      Finset.sum_eq_single_of_mem i (Finset.mem_range.2 hi), if_pos hzero]
    intro k hk hne
    refine if_neg fun hk' => hne ?_
    exact hdistinct k (Finset.mem_range.1 hk) i hi (hk'.trans hzero.symm)
  · intro h j hj
    have hmissing_zero : missing = 0 := by
      rw [← hmissing]
      refine Finset.sum_eq_zero fun i hi => ?_
      split
      · rename_i hzero
        have hi := Finset.mem_range.1 hi
        exact (term_eq_zero_iff hdistinct hi).2 (h i hi hzero)
      · rfl
    rw [efficient_coeff hn dest j hj, hsplit, hmissing_zero, add_zero]

theorem interpolation_one (hP : Interpolates points values 1 P) (dest : ℕ → F) :
    (∀ j < 1, computeInterpolation values dest points 1 j = P.coeff j) ↔ dest 0 = values 0 := by
  have hconstant : P = C (P.coeff 0) :=
    eq_C_of_degree_le_zero (Nat.WithBot.lt_one_iff_le_zero.1 hP.degree)
  have hvalue : P.coeff 0 = values 0 := by
    rw [← hP.eval 0 Nat.one_pos, hconstant, eval_C, coeff_C_zero]
  rw [computeInterpolation, if_pos rfl]
  constructor
  · intro h
    rw [h 0 Nat.one_pos, hvalue]
  · intro h j hj
    rw [Nat.lt_one_iff.1 hj, h, hvalue]

/-- What is claimed: both interpolations have the coefficients of the polynomial through the
pairs, and the product those of the product of `X - root`. -/
def InterpolatesExactly [DecidableEq F] (points values dest : ℕ → F) (n : ℕ) (P : F[X]) : Prop :=
  (∀ j < n, interpolationConstructor points values n j = P.coeff j) ∧
    (∀ j < n, computeInterpolation values dest points n j = P.coeff j) ∧
      ∀ roots : ℕ → F, ∀ k ≤ n, computeLinearPolynomialProduct roots dest n k =
        (rootProduct ((List.range n).map roots)).coeff k

/-- **Both interpolations are exact, but for a value other than zero at the point zero and for one
point**, whose value `compute_interpolation` does not write. -/
theorem interpolation_iff [DecidableEq F] (hn : 0 < n) (hdistinct : Distinct points n) {P : F[X]}
    (hP : Interpolates points values n P) (dest : ℕ → F) :
    InterpolatesExactly points values dest n P ↔
      (∀ i < n, points i = 0 → values i = 0) ∧ (n = 1 → dest 0 = values 0) := by
  have hefficient := efficient_iff hn hdistinct hP fun _ => 0
  have hproduct : ∀ roots : ℕ → F, ∀ k ≤ n, computeLinearPolynomialProduct roots dest n k =
      (rootProduct ((List.range n).map roots)).coeff k :=
    fun roots k hk => linearPolynomialProduct_coeff dest hn hk
  rw [InterpolatesExactly, interpolationConstructor, hefficient]
  constructor
  · rintro ⟨hvalues, hinterpolation, -⟩
    refine ⟨hvalues, ?_⟩
    rintro rfl
    exact (interpolation_one hP dest).1 hinterpolation
  · rintro ⟨hvalues, hone⟩
    refine ⟨hvalues, ?_, hproduct⟩
    by_cases h : n = 1
    · subst h
      exact (interpolation_one hP dest).2 (hone rfl)
    · exact computeInterpolation_coeff hdistinct hP h dest

omit [Field F] in
theorem distinct_one (points : ℕ → F) : Distinct points 1 := by
  intro i hi j hj _
  rw [Nat.lt_one_iff.1 hi, Nat.lt_one_iff.1 hj]

theorem interpolates_constant (points : ℕ → F) (c : F) :
    Interpolates points (fun _ => c) 1 (C c) where
  degree := degree_C_le.trans_lt (by norm_num)
  eval _ _ := eval_C

/-- The squares of zero, one and two. -/
theorem interpolation_iff_squares :
    InterpolatesExactly (fun i => (i : ℚ)) (fun i => (i : ℚ) ^ 2) (fun _ => 7) 3 (X ^ 2) := by
  have hinterpolates : Interpolates (fun i => (i : ℚ)) (fun i => (i : ℚ) ^ 2) 3 (X ^ 2) :=
    ⟨by rw [degree_X_pow]; norm_num, fun i _ => by rw [eval_pow, eval_X]⟩
  refine (interpolation_iff (by decide) (fun i _ j _ h => Nat.cast_injective h) hinterpolates _).2
    ⟨fun i _ hzero => ?_, fun h => absurd h (by decide)⟩
  rw [hzero, zero_pow two_ne_zero]

/-- The value five at the point zero. -/
theorem not_interpolatesExactly : ¬ ∀ (points values dest : ℕ → ℚ) (n : ℕ) (P : ℚ[X]), 0 < n →
    Distinct points n → Interpolates points values n P →
      InterpolatesExactly points values dest n P := by
  intro h
  have hconstructor := (h (fun _ => 0) (fun _ => 5) (fun _ => 5) 1 (C 5) Nat.one_pos
    (distinct_one _) (interpolates_constant _ 5)).1
  have hfive : (5 : ℚ) = 0 := (efficient_iff Nat.one_pos (distinct_one _)
    (interpolates_constant (fun _ => 0) 5) fun _ => 0).1 hconstructor 0 Nat.one_pos rfl
  norm_num at hfive

end PolynomialInterpolation
