/-
**Division of polynomials by roots.**

`factor_roots` divides an array of coefficients in place by `X - r` for one root, or for a list of
roots in one pass that keeps the last coefficient of every intermediate quotient in a cache.
`compute_kate_opening_coefficients` divides `p(X) - p(z)` by `X - z`.
-/

import Aztec.LowDivision

open Polynomial LowDivision List Function

namespace PolynomialRoots

variable {F : Type} [Field F] [DecidableEq F]

/-! ### `factor_roots` -/

/-- `std::copy_n` from `first` to the start of the same array. -/
def copyN (first count : ℕ) (p : ℕ → F) : ℕ → F :=
  (List.range count).foldl (fun p i => Function.update p i (p (first + i))) p

/-- One step of the loop for a root that is not zero; the second component is `temp`. -/
def factorStep (rootInverse : F) (s : (ℕ → F) × F) (i : ℕ) : (ℕ → F) × F :=
  let temp := (s.1 i - s.2) * rootInverse
  (Function.update s.1 i temp, temp)

def factorRoot (size : ℕ) (p : ℕ → F) (root : F) : ℕ → F :=
  let q :=
    if root = 0 then copyN 1 (size - 1) p
    else ((List.range (size - 1)).foldl (factorStep (-root)⁻¹) (p, 0)).1
  Function.update q (size - 1) 0

/-- The forward loop of `batch_invert`: the products of the elements before, zeros skipped, and
the product of all. -/
def batchProducts (accumulator : F) : List F → List F × F
  | [] => ([], accumulator)
  | c :: coeffs =>
    let rest := batchProducts (if c = 0 then accumulator else accumulator * c) coeffs
    (accumulator :: rest.1, rest.2)

/-- The backward loop of `batch_invert`, over the elements and the products before them. -/
def batchInverses (accumulator : F) (coeffs : List (F × F)) : List F × F :=
  coeffs.foldr (fun c s =>
    if c.1 = 0 then (c.1 :: s.1, s.2) else (s.2 * c.2 :: s.1, s.2 * c.1)) ([], accumulator)

def batchInvert (coeffs : List F) : List F :=
  let products := batchProducts 1 coeffs
  (batchInverses products.2⁻¹ (coeffs.zip products.1)).1

/-- The cache after the lowest coefficient, and the last value of `temp`. -/
def cacheStart (temp : F) : List F → List F × F
  | [] => ([], temp)
  | inverse :: inverses =>
    let rest := cacheStart (temp * inverse) inverses
    (temp * inverse :: rest.1, rest.2)

/-- The loop over the cache for another coefficient, and the last value of `temp`. -/
def cacheStep (temp : F) : List F → List F → List F × F
  | cached :: cache, inverse :: inverses =>
    let next := (temp - cached) * inverse
    let rest := cacheStep next cache inverses
    (next :: rest.1, rest.2)
  | _, _ => ([], temp)

/-- The coefficient `i` of the result; `first` is the number of zero roots. -/
def manyStep (first : ℕ) (inverses : List F) (s : (ℕ → F) × List F) (i : ℕ) : (ℕ → F) × List F :=
  let next := cacheStep (s.1 (first + i)) s.2 inverses
  (Function.update s.1 i next.2, next.1)

def factorManyRoots (size : ℕ) (p : ℕ → F) (roots : List F) : ℕ → F :=
  let newSize := size - roots.length
  let numZeroRoots := roots.countP (· = 0)
  let minusRoots := (roots.filter fun r => r ≠ 0).map fun r => -r
  let q :=
    if 0 < minusRoots.length then
      let inverses := batchInvert minusRoots
      let start := cacheStart (p numZeroRoots) inverses
      ((List.range' 1 (size - numZeroRoots - minusRoots.length - 1)).foldl
        (manyStep numZeroRoots inverses) (Function.update p 0 start.2, start.1)).1
    else if 0 < numZeroRoots then copyN numZeroRoots (size - numZeroRoots) p
    else p
  (List.range' newSize (size - newSize)).foldl (fun q i => Function.update q i 0) q

def factorRoots (size : ℕ) (p : ℕ → F) (roots : List F) : ℕ → F :=
  match roots with
  | [root] => factorRoot size p root
  | roots => factorManyRoots size p roots

/-! ### Loops over an array -/

omit [Field F] [DecidableEq F] in
theorem copyN_apply (first count : ℕ) (p : ℕ → F) (i : ℕ) :
    copyN first count p i = if i < count then p (first + i) else p i := by
  rw [copyN]
  induction count generalizing i with
  | zero => simp
  | succ count ih =>
    rw [range_succ, foldl_append, foldl_cons, foldl_nil]
    by_cases hi : i = count
    · rw [hi, update_self, if_pos (by omega), ih, if_neg (by omega)]
    · rw [update_of_ne hi, ih]
      by_cases hlt : i < count
      · rw [if_pos hlt, if_pos (by omega)]
      · rw [if_neg hlt, if_neg (by omega)]

omit [DecidableEq F] in
theorem clear_apply (start count : ℕ) (p : ℕ → F) (i : ℕ) :
    (List.range' start count).foldl (fun q i => Function.update q i 0) p i =
      if start ≤ i ∧ i < start + count then 0 else p i := by
  induction count generalizing i with
  | zero =>
    rw [List.range'_zero, foldl_nil, if_neg (by omega)]
  | succ count ih =>
    rw [List.range'_1_concat, foldl_append, foldl_cons, foldl_nil]
    by_cases hi : i = start + count
    · rw [hi, Function.update_self, if_pos (by omega)]
    · rw [Function.update_of_ne hi, ih]
      by_cases hlt : start ≤ i ∧ i < start + count
      · rw [if_pos hlt, if_pos (by omega)]
      · rw [if_neg hlt, if_neg (by omega)]

/-! ### One root -/

omit [DecidableEq F] in
theorem factorStep_foldl {r : F} (p : ℕ → F) (k : ℕ) :
    ((List.range k).foldl (factorStep (-r)⁻¹) (p, 0)).1 =
        (fun i => if i < k then divide r p i else p i) ∧
      ((List.range k).foldl (factorStep (-r)⁻¹) (p, 0)).2 =
        if k = 0 then 0 else divide r p (k - 1) := by
  induction k with
  | zero =>
    refine ⟨funext fun i => ?_, rfl⟩
    rw [if_neg (by omega)]
    rfl
  | succ k ih =>
    obtain ⟨harray, htemp⟩ := ih
    rw [range_succ, foldl_append, foldl_cons, foldl_nil, factorStep, harray, htemp]
    have hnext : ((if k < k then divide r p k else p k) -
        if k = 0 then 0 else divide r p (k - 1)) * (-r)⁻¹ = divide r p k := by
      rw [if_neg (lt_irrefl k)]
      cases k with
      | zero => rw [if_pos rfl, sub_zero, divide]
      | succ k => rw [if_neg (by omega), Nat.add_sub_cancel, divide]
    refine ⟨funext fun i => ?_, ?_⟩
    · dsimp only
      rw [hnext]
      by_cases hi : i = k
      · rw [hi, update_self, if_pos (by omega)]
      · rw [update_of_ne hi]
        by_cases hlt : i < k
        · rw [if_pos hlt, if_pos (by omega)]
        · rw [if_neg hlt, if_neg (by omega)]
    · dsimp only
      rw [hnext, if_neg (by omega), Nat.add_sub_cancel]

variable {size : ℕ} {p : ℕ → F} {Q : F[X]} {roots : List F}

theorem factorRoot_coeff {root : F} (hsize : 1 < size) (h : ofArray size p = (X - C root) * Q)
    (i : ℕ) (hi : i < size) : factorRoot size p root i = Q.coeff i := by
  have hlast : Q.coeff (size - 1) = 0 :=
    coeff_quotient_eq_zero (show ofArray size p = rootProduct [root] * Q by rw [h]; simp)
      (by simp; omega)
  rw [factorRoot]
  by_cases hend : i = size - 1
  · rw [hend, update_self, hlast]
  · rw [update_of_ne hend]
    split
    · rename_i hzero
      rw [copyN_apply, if_pos (by omega), ← coeff_ofArray_of_lt p (n := size) (by omega), h, hzero,
        C_0, sub_zero, Nat.add_comm, coeff_X_mul]
    · rename_i hne
      rw [(factorStep_foldl p (size - 1)).1, ← divide_coeff hne h]
      dsimp only
      rw [if_pos (by omega)]
      exact divide_congr (fun j hj => (coeff_ofArray_of_lt p hj).symm) i hi

/-! ### A list of roots -/

theorem batchInverses_batchProducts (coeffs : List F) {accumulator : F} (h : accumulator ≠ 0) :
    batchInverses (batchProducts accumulator coeffs).2⁻¹
        (coeffs.zip (batchProducts accumulator coeffs).1) =
      (coeffs.map fun c => c⁻¹, accumulator⁻¹) := by
  induction coeffs generalizing accumulator with
  | nil => rfl
  | cons c coeffs ih =>
    rw [batchProducts]
    by_cases hc : c = 0
    · have hrest := ih h
      rw [batchInverses] at hrest
      rw [if_pos hc]
      dsimp only
      rw [zip_cons_cons, batchInverses, foldr_cons, hrest]
      dsimp only
      rw [if_pos hc, map_cons, hc, inv_zero]
    · have hrest := ih (mul_ne_zero h hc)
      rw [batchInverses] at hrest
      rw [if_neg hc]
      dsimp only
      rw [zip_cons_cons, batchInverses, foldr_cons, hrest]
      dsimp only
      rw [if_neg hc, map_cons, mul_inv, mul_right_comm, inv_mul_cancel₀ h, one_mul, mul_assoc,
        inv_mul_cancel₀ hc, mul_one]

theorem batchInvert_eq (coeffs : List F) : batchInvert coeffs = coeffs.map fun c => c⁻¹ := by
  rw [batchInvert, batchInverses_batchProducts coeffs one_ne_zero]

section Cache

omit [DecidableEq F]

def quotients : List F → (ℕ → F) → List (ℕ → F)
  | [], _ => []
  | r :: roots, a => divide r a :: quotients roots (divide r a)

theorem divideAll_cons (r : F) (roots : List F) (a : ℕ → F) :
    divideAll (r :: roots) a = divideAll roots (divide r a) := rfl

theorem cacheStart_eq (roots : List F) (a : ℕ → F) : cacheStart (a 0) (roots.map fun r => (-r)⁻¹) =
      ((quotients roots a).map fun q => q 0, divideAll roots a 0) := by
  induction roots generalizing a with
  | nil => rfl
  | cons r roots ih =>
    have hrest := ih (divide r a)
    rw [divide] at hrest
    rw [map_cons, cacheStart, hrest, quotients, map_cons, divideAll_cons, divide]

theorem cacheStep_eq (roots : List F) (a : ℕ → F) (i : ℕ) :
    cacheStep (a (i + 1)) ((quotients roots a).map fun q => q i) (roots.map fun r => (-r)⁻¹) =
      ((quotients roots a).map fun q => q (i + 1), divideAll roots a (i + 1)) := by
  induction roots generalizing a with
  | nil => rfl
  | cons r roots ih =>
    have hrest := ih (divide r a)
    rw [divide] at hrest
    rw [map_cons, quotients, map_cons, cacheStep, hrest, map_cons, divideAll_cons, divide]

theorem manyStep_foldl (roots : List F) (p : ℕ → F) (first k : ℕ) :
    (List.range' 1 k).foldl (manyStep first (roots.map fun r => (-r)⁻¹))
        (update p 0 (divideAll roots (fun i => p (first + i)) 0),
          (quotients roots fun i => p (first + i)).map fun q => q 0) =
      (fun i => if i < k + 1 then divideAll roots (fun i => p (first + i)) i else p i,
        (quotients roots fun i => p (first + i)).map fun q => q k) := by
  induction k with
  | zero =>
    refine Prod.ext (funext fun i => ?_) rfl
    rw [List.range'_zero, foldl_nil]
    dsimp only
    by_cases hi : i = 0
    · rw [hi, update_self, if_pos (by omega)]
    · rw [update_of_ne hi, if_neg (by omega)]
  | succ k ih =>
    rw [List.range'_1_concat, foldl_append, ih, foldl_cons, foldl_nil, manyStep]
    dsimp only
    rw [if_neg (by omega), Nat.add_comm 1 k, cacheStep_eq roots (fun i => p (first + i)) k]
    refine Prod.ext (funext fun i => ?_) rfl
    by_cases hi : i = k + 1
    · rw [hi]
      dsimp only
      rw [update_self, if_pos (by omega)]
    · dsimp only
      rw [update_of_ne hi]
      by_cases hlt : i < k + 1
      · rw [if_pos hlt, if_pos (by omega)]
      · rw [if_neg hlt, if_neg (by omega)]

theorem divideAll_congr {roots : List F} {a b : ℕ → F} {n : ℕ} (h : ∀ i < n, a i = b i) :
    ∀ i < n, divideAll roots a i = divideAll roots b i := by
  induction roots generalizing a b with
  | nil => exact h
  | cons r roots ih =>
    rw [divideAll_cons, divideAll_cons]
    exact ih (divide_congr h)

end Cache

theorem length_eq_countP_add (roots : List F) :
    roots.length = roots.countP (· = 0) + (roots.filter fun r => r ≠ 0).length := by
  rw [length_eq_countP_add_countP (fun r => decide (r = 0)), ← countP_eq_length_filter]
  simp

section

variable (hroots : roots.length < size) (h : ofArray size p = rootProduct roots * Q) (i : ℕ)
  (hi : i < size)
include hroots h i hi

theorem factorManyRoots_coeff : factorManyRoots size p roots i = Q.coeff i := by
  have hlength := length_eq_countP_add roots
  -- the polynomial without the zero roots is the array from their number on
  have hcoeff : ∀ j, j + roots.countP (· = 0) < size →
      (rootProduct (roots.filter fun r => r ≠ 0) * Q).coeff j = p (roots.countP (· = 0) + j) := by
    intro j hj
    rw [Nat.add_comm, ← coeff_ofArray_of_lt p hj, h, rootProduct_eq_X_pow_mul roots, mul_assoc,
      coeff_X_pow_mul]
  rw [factorManyRoots]
  dsimp only
  rw [clear_apply]
  by_cases hend : size - roots.length ≤ i
  · rw [if_pos (by omega), coeff_quotient_eq_zero h (by omega)]
  · rw [if_neg (by omega), length_map]
    generalize hnonzero : roots.filter (fun r => r ≠ 0) = nonzero at *
    generalize roots.countP (· = 0) = zeros at *
    split
    · have hne : ∀ r ∈ nonzero, r ≠ 0 := by
        intro r hr
        rw [← hnonzero] at hr
        simpa using (mem_filter.1 hr).2
      rw [batchInvert_eq, List.map_map]
      have hstart := cacheStart_eq nonzero fun i => p (zeros + i)
      have hloop := manyStep_foldl nonzero p zeros (size - zeros - nonzero.length - 1)
      simp only [Nat.add_zero] at hstart
      simp only [Function.comp_def]
      rw [hstart, hloop]
      dsimp only
      rw [if_pos (by omega), ← divideAll_coeff hne rfl]
      exact divideAll_congr (n := size - zeros) (fun j hj => (hcoeff j (by omega)).symm) i
        (by omega)
    · have hnil : nonzero = [] := length_eq_zero_iff.1 (by omega)
      rw [hnil, rootProduct_nil, one_mul] at hcoeff
      rw [hnil, length_nil] at hlength
      split
      · rw [copyN_apply, if_pos (by omega), hcoeff i (by omega)]
      · rw [hcoeff i (by omega)]
        congr 1
        omega

theorem factorRoots_coeff : factorRoots size p roots i = Q.coeff i := by
  unfold factorRoots
  split
  · rename_i root
    exact factorRoot_coeff hroots (by rw [h]; simp) i hi
  · exact factorManyRoots_coeff hroots h i hi

end

/-! ### `compute_kate_opening_coefficients` -/

/-- The loop of one thread of `evaluate`: the sum so far and the power of `z`. -/
def evaluateStep (coeffs : ℕ → F) (z : F) (s : F × F) (i : ℕ) : F × F :=
  (s.1 + s.2 * coeffs i, s.2 * z)

/-- `evaluate`.  The number of threads is a power of two. -/
def evaluate (logThreads : ℕ) (coeffs : ℕ → F) (z : F) (n : ℕ) : F :=
  let numThreads := 2 ^ logThreads
  let rangePerThread := n / numThreads
  let leftovers := n - rangePerThread * numThreads
  let evaluation (j : ℕ) : F :=
    let offset := j * rangePerThread
    let count := if j = numThreads - 1 then rangePerThread + leftovers else rangePerThread
    ((List.range' offset count).foldl (evaluateStep coeffs z) (0, z ^ offset)).1
  (List.range numThreads).foldl (fun r j => r + evaluation j) 0

/-- The step of the division; the coefficient before is already that of the quotient. -/
def openingStep (divisor : F) (coeffs : ℕ → F) (i : ℕ) : ℕ → F :=
  Function.update coeffs i ((coeffs i - coeffs (i - 1)) * divisor)

/-- `compute_kate_opening_coefficients`, in place.  The inverse of zero aborts. -/
def computeKateOpeningCoefficients (logThreads : ℕ) (coeffs : ℕ → F) (z : F) (n : ℕ) :
    Option (F × (ℕ → F)) :=
  let f := evaluate logThreads coeffs z n
  if z = 0 then none
  else
    let divisor := -z⁻¹
    let first := Function.update coeffs 0 ((coeffs 0 - f) * divisor)
    some (f, (List.range' 1 (n - 1)).foldl (openingStep divisor) first)

omit [DecidableEq F] in
theorem evaluateStep_foldl (coeffs : ℕ → F) (z r : F) (offset count : ℕ) :
    (List.range' offset count).foldl (evaluateStep coeffs z) (r, z ^ offset) =
      (r + ∑ i ∈ Finset.Ico offset (offset + count), coeffs i * z ^ i, z ^ (offset + count)) := by
  induction count with
  | zero => simp
  | succ count ih =>
    rw [List.range'_1_concat, foldl_append, ih, foldl_cons, foldl_nil, evaluateStep,
      ← Nat.add_assoc, Finset.sum_Ico_succ_top (by omega), pow_succ]
    refine Prod.ext ?_ rfl
    dsimp only
    ring

omit [DecidableEq F] in
theorem sum_blocks (f : ℕ → F) (range k : ℕ) :
    ∑ j ∈ Finset.range k, ∑ i ∈ Finset.Ico (j * range) (j * range + range), f i =
      ∑ i ∈ Finset.range (k * range), f i := by
  induction k with
  | zero => simp
  | succ k ih =>
    rw [Finset.sum_range_succ, ih, Finset.range_eq_Ico, Finset.range_eq_Ico,
      Finset.sum_Ico_consecutive f (by omega) (by omega), Nat.succ_mul]

omit [DecidableEq F] in
theorem evaluate_eq (logThreads : ℕ) (coeffs : ℕ → F) (z : F) (n : ℕ) :
    evaluate logThreads coeffs z n = (ofArray n coeffs).eval z := by
  obtain ⟨k, hk⟩ : ∃ k, 2 ^ logThreads = k + 1 :=
    ⟨2 ^ logThreads - 1, (Nat.succ_pred_eq_of_pos (Nat.two_pow_pos logThreads)).symm⟩
  have hfold : ∀ (f : ℕ → F) (m : ℕ),
      (List.range m).foldl (fun r j => r + f j) 0 = ∑ j ∈ Finset.range m, f j := by
    intro f m
    induction m with
    | zero => simp
    | succ m ih => rw [range_succ, foldl_append, ih, Finset.sum_range_succ]; rfl
  rw [evaluate, eval_ofArray, hk]
  simp only [Nat.add_sub_cancel]
  have hdiv : n / (k + 1) * (k + 1) ≤ n := Nat.div_mul_le_self n (k + 1)
  generalize n / (k + 1) = range at *
  have hrange : range * (k + 1) = k * range + range := by
    rw [Nat.mul_succ, Nat.mul_comm]
  have hblocks : ∑ j ∈ Finset.range k, ((List.range' (j * range)
      (if j = k then range + (n - range * (k + 1)) else range)).foldl
        (evaluateStep coeffs z) (0, z ^ (j * range))).1 =
      ∑ i ∈ Finset.range (k * range), coeffs i * z ^ i := by
    rw [← sum_blocks]
    refine Finset.sum_congr rfl fun j hj => ?_
    rw [if_neg (Finset.mem_range.1 hj).ne, evaluateStep_foldl, zero_add]
  have hend : k * range + (range + (n - range * (k + 1))) = n := by omega
  rw [hfold, Finset.sum_range_succ, hblocks, if_pos rfl, evaluateStep_foldl, zero_add, hend,
    Finset.range_eq_Ico, Finset.range_eq_Ico, Finset.sum_Ico_consecutive _ (by omega) (by omega)]

omit [DecidableEq F] in
theorem openingStep_foldl (p : ℕ → F) (f z : F) (k : ℕ) :
    (List.range' 1 k).foldl (openingStep (-z⁻¹)) (update p 0 ((p 0 - f) * (-z⁻¹))) =
      fun i => if i < k + 1 then divide z (update p 0 (p 0 - f)) i else p i := by
  induction k with
  | zero =>
    funext i
    rw [List.range'_zero, foldl_nil]
    by_cases hi : i = 0
    · rw [hi, update_self, if_pos (by omega), divide, update_self, inv_neg]
    · rw [update_of_ne hi, if_neg (by omega)]
  | succ k ih =>
    funext i
    rw [List.range'_1_concat, foldl_append, ih, foldl_cons, foldl_nil, openingStep,
      if_neg (by omega), Nat.add_comm 1 k, Nat.add_sub_cancel, if_pos (by omega)]
    by_cases hi : i = k + 1
    · rw [hi, update_self, if_pos (by omega), divide, update_of_ne (Nat.succ_ne_zero k), inv_neg]
    · rw [update_of_ne hi]
      by_cases hlt : i < k + 1
      · rw [if_pos hlt, if_pos (by omega)]
      · rw [if_neg hlt, if_neg (by omega)]

omit [DecidableEq F] in
theorem ofArray_sub_C {n : ℕ} (p : ℕ → F) (f : F) (hn : 0 < n) :
    ofArray n p - C f = ofArray n (update p 0 (p 0 - f)) := by
  ext i
  rw [coeff_sub, coeff_ofArray, coeff_ofArray, coeff_C]
  by_cases hi : i = 0
  · rw [hi, if_pos hn, if_pos hn, if_pos rfl, update_self]
  · rw [if_neg hi, sub_zero, update_of_ne hi]

/-- The opening of a polynomial at a point: its value there, and a quotient. -/
def Opens (n : ℕ) (p : ℕ → F) (z : F) (opening : Option (F × (ℕ → F))) : Prop :=
  ∃ q, opening = some ((ofArray n p).eval z, q) ∧
    ofArray n p - C ((ofArray n p).eval z) = (X - C z) * ofArray n q

theorem opens_of_ne (logThreads n : ℕ) (p : ℕ → F) {z : F} (hz : z ≠ 0) :
    Opens n p z (computeKateOpeningCoefficients logThreads p z n) := by
  obtain ⟨Q, hQ⟩ := X_sub_C_dvd_sub_C_eval (p := ofArray n p) (a := z)
  rw [computeKateOpeningCoefficients, if_neg hz, evaluate_eq]
  dsimp only
  rw [openingStep_foldl]
  refine ⟨_, rfl, ?_⟩
  rw [hQ, ofArray_eq]
  · intro i hi
    have harray := ofArray_sub_C p ((ofArray n p).eval z) (Nat.zero_lt_of_lt hi)
    rw [if_pos (by omega), ← divide_coeff hz hQ, harray]
    exact divide_congr (n := n) (fun j hj => (coeff_ofArray_of_lt _ hj).symm) i hi
  · intro i hi
    by_cases hn : n = 0
    · have hzero : ofArray n p = 0 := by rw [hn]; rfl
      rw [hzero, eval_zero, C_0, sub_zero] at hQ
      rw [(mul_eq_zero.1 hQ.symm).resolve_left (X_sub_C_ne_zero z), coeff_zero]
    · rw [ofArray_sub_C p _ (Nat.pos_of_ne_zero hn)] at hQ
      exact coeff_quotient_eq_zero (show _ = rootProduct [z] * _ by rw [hQ]; simp) (by simp; omega)

omit [DecidableEq F] in
theorem not_opens_none (n : ℕ) (p : ℕ → F) (z : F) : ¬ Opens n p z none := by
  rintro ⟨q, hq, -⟩
  cases hq

/-! ### Both -/

/-- What is claimed of a polynomial, of roots that divide it and of a point. -/
def DividesExactly (logThreads size : ℕ) (p : ℕ → F) (roots : List F) (z : F) : Prop :=
  (roots.length < size → ∀ Q : F[X], ofArray size p = rootProduct roots * Q →
    (∀ i < size, factorRoots size p roots i = Q.coeff i) ∧
    (∀ i, size - roots.length ≤ i → i < size → factorRoots size p roots i = 0) ∧
    ∀ root, roots = [root] → ∀ i < size,
      factorRoots size p roots i = factorRoot size p root i ∧
        factorManyRoots size p roots i = factorRoot size p root i) ∧
  Opens size p z (computeKateOpeningCoefficients logThreads p z size)

/-- **Division by roots is exact for every list of roots, and the opening for every point but
zero**, where the computation of the divisor aborts. -/
theorem division_iff (logThreads size : ℕ) (p : ℕ → F) (roots : List F) (z : F) :
    DividesExactly logThreads size p roots z ↔ z ≠ 0 := by
  constructor
  · rintro ⟨-, hopens⟩ rfl
    rw [computeKateOpeningCoefficients, if_pos rfl] at hopens
    exact not_opens_none size p 0 hopens
  · intro hz
    refine ⟨fun hroots Q hQ => ⟨factorRoots_coeff hroots hQ, fun i hlow hi => ?_, ?_⟩,
      opens_of_ne logThreads size p hz⟩
    · rw [factorRoots_coeff hroots hQ i hi, coeff_quotient_eq_zero hQ (by omega)]
    · rintro root rfl i hi
      refine ⟨rfl, ?_⟩
      rw [factorManyRoots_coeff hroots hQ i hi, ← factorRoots_coeff hroots hQ i hi]
      rfl

/-- The opening of a constant at zero. -/
theorem not_dividesExactly : ¬ ∀ (logThreads size : ℕ) (p : ℕ → ℚ) (roots : List ℚ) (z : ℚ),
    DividesExactly logThreads size p roots z := by
  intro h
  have hopens := (h 0 1 (fun _ => 5) [] 0).2
  rw [computeKateOpeningCoefficients, if_pos rfl] at hopens
  exact not_opens_none 1 (fun _ => 5) 0 hopens

end PolynomialRoots
