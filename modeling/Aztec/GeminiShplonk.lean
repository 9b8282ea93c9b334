/-
**The Gemini and Shplonk reductions.**

`GeminiProver_` turns the opening of a multilinear polynomial into openings of its foldings,
`GeminiVerifier_` derives the same claims from the batched evaluation, and the two sides of Shplonk
batch such claims into one.  A commitment is the value at a secret point.
-/

import Aztec.Multilinear
import Aztec.PolynomialArrays

open Polynomial List

namespace GeminiShplonk

open LowDivision Multilinear PolynomialArrays PolynomialRoots ArrayPoly

variable {F : Type} [Field F]

structure OpeningPair (F : Type) where
  challenge : F
  evaluation : F
deriving DecidableEq

structure OpeningClaim (F : Type) where
  openingPair : OpeningPair F
  commitment : F
deriving DecidableEq

/-! ### The Gemini prover -/

def squaresOfR (r : F) (numSquares : ℕ) : List F :=
  (List.range' 1 (numSquares - 1)).foldl (fun squares _ => squares ++ [squares.getLastD 0 ^ 2]) [r]

/-- A power of two as the code writes it, `1 << k` with the `1` an `int`: from the sign bit on no
allocation has this size, and from 32 on the shift is undefined. -/
def shiftOne (k : ℕ) : Option ℕ := if k < 31 then some (2 ^ k) else none

/-- The fold of one level in the chunks of the threads, into an array of zeros. -/
def fold (cpus n : ℕ) (u : F) (a : ℕ → F) : ℕ → F :=
  let numThreads := 2 ^ Nat.log2 cpus
  let used := min (n / 64) numThreads
  let numUsedThreads := if used ≠ 0 then used else 1
  let chunkSize := n / numUsedThreads
  let lastChunkSize := if n % chunkSize ≠ 0 then n % numUsedThreads else chunkSize
  parallelFor numUsedThreads chunkSize lastChunkSize
    (fun j _ => a (2 * j) + u * (a (2 * j + 1) - a (2 * j))) (fun _ => 0)

/-- The loop over the levels, each with its variable and its size. -/
def folds (cpus : ℕ) : List (F × ℕ) → (ℕ → F) → List (ArrayPoly F)
  | [], _ => []
  | (u, n) :: levels, a => ⟨n, fold cpus n u a⟩ :: folds cpus levels (fold cpus n u a)

def computeGeminiPolynomials (cpus : ℕ) (mleOpeningPoint : List F)
    (batchedUnshifted batchedToBeShifted : ArrayPoly F) : Option (List (ArrayPoly F)) := do
  let numVariables := mleOpeningPoint.length
  let A0 := batchedUnshifted.add cpus batchedToBeShifted.shifted
  let sizes ← (List.range (numVariables - 1)).mapM fun l => shiftOne (numVariables - l - 1)
  return batchedUnshifted :: batchedToBeShifted :: folds cpus (mleOpeningPoint.zip sizes) A0.coeffs

def computeFoldPolynomialEvaluations (cpus : ℕ) (mleOpeningPoint : List F)
    (geminiPolynomials : List (ArrayPoly F)) (r : F) : List (OpeningPair F) × List (ArrayPoly F) :=
  match geminiPolynomials with
  | batchedF :: batchedG :: foldPolynomials =>
    let rSquares := squaresOfR r mleOpeningPoint.length
    let batchedG := batchedG.scale cpus r⁻¹
    let A0pos := batchedF.add cpus batchedG
    let A0neg := batchedF.sub cpus batchedG
    (⟨r, A0pos.evaluate cpus r⟩ ::
        (rSquares.zip (A0neg :: foldPolynomials)).map (fun (x, p) => ⟨-x, p.evaluate cpus (-x)⟩),
      A0pos :: A0neg :: foldPolynomials)
  | _ => ([], geminiPolynomials)

/-! ### The Gemini verifier -/

theorem two_atLeastTwo : Nat.AtLeastTwo 2 := ⟨le_rfl⟩

attribute [local instance] two_atLeastTwo in
/-- `compute_eval_pos`: the loop goes from the last variable to the first. -/
def computeEvalPos (batchedMleEval : F) (mleVars rSquares evals : List F) : F :=
  (rSquares.zip (evals.zip mleVars)).foldr
    (fun (r, evalNeg, u) evalPos =>
      (r * evalPos * 2 - evalNeg * (r * (1 - u) - u)) / (r * (1 - u) + u)) batchedMleEval

def computeSimulatedCommitments [DecidableEq F] (isStdlibType : Bool) (batchedF batchedG r : F) :
    F × F :=
  let rInv := r⁻¹
  if isStdlibType then (batchedF * 1 + batchedG * rInv, batchedF * 1 + batchedG * -rInv)
  else if batchedG ≠ 0 then
    let batchedG := batchedG * rInv
    (batchedF + batchedG, batchedF - batchedG)
  else (batchedF, batchedF)

/-- `GeminiVerifier_::reduce_verification`; the commitments and the evaluations are the prover's. -/
def geminiReduceVerification [DecidableEq F] (isStdlibType : Bool) (mleOpeningPoint : List F)
    (batchedEvaluation batchedF batchedG : F) (commitments : List F) (r : F)
    (evaluations : List F) : List (OpeningClaim F) :=
  let rSquares := squaresOfR r mleOpeningPoint.length
  let a0Pos := computeEvalPos batchedEvaluation mleOpeningPoint rSquares evaluations
  let (c0Pos, c0Neg) := computeSimulatedCommitments isStdlibType batchedF batchedG r
  ⟨⟨r, a0Pos⟩, c0Pos⟩ :: ⟨⟨-r, evaluations.headD 0⟩, c0Neg⟩ ::
    (rSquares.tail.zip (evaluations.tail.zip commitments)).map fun (x, evaluation, commitment) =>
      ⟨⟨-x, evaluation⟩, commitment⟩

/-! ### Shplonk -/

section Shplonk

variable [DecidableEq F]

/-- The loop of `compute_batched_quotient`; the second component is `current_nu`. -/
def quotientStep (cpus : ℕ) (nu : F) (s : ArrayPoly F × F) (pw : OpeningPair F × ArrayPoly F) :
    ArrayPoly F × F :=
  let tmp := pw.2.subFirst pw.1.evaluation
  let tmp := tmp.factorRoots pw.1.challenge
  (s.1.addScaled cpus tmp s.2, s.2 * nu)

def computeBatchedQuotient (cpus : ℕ) (openingPairs : List (OpeningPair F))
    (witnesses : List (ArrayPoly F)) (nu : F) : ArrayPoly F :=
  let maxPolySize := witnesses.foldl (fun n p => max n p.size) 0
  ((openingPairs.zip witnesses).foldl (quotientStep cpus nu) (⟨maxPolySize, fun _ => 0⟩, 1)).1

/-- The loop of `compute_partially_evaluated_batched_quotient`. -/
def partialStep (cpus : ℕ) (nu : F) (s : ArrayPoly F × F) (pw : (OpeningPair F × ArrayPoly F) × F) :
    ArrayPoly F × F :=
  let tmp := pw.1.2.subFirst pw.1.1.evaluation
  let scalingFactor := s.2 * pw.2
  (s.1.addScaled cpus tmp (-scalingFactor), s.2 * nu)

def computePartiallyEvaluatedBatchedQuotient (cpus : ℕ) (openingPairs : List (OpeningPair F))
    (witnesses : List (ArrayPoly F)) (batchedQuotientQ : ArrayPoly F) (nu z : F) :
    OpeningPair F × ArrayPoly F :=
  let inverseVanishingEvals := batchInvert (openingPairs.map fun pair => z - pair.challenge)
  (⟨z, 0⟩, (((openingPairs.zip witnesses).zip inverseVanishingEvals).foldl (partialStep cpus nu)
    (batchedQuotientQ, 1)).1)

/-- The loop of the verifier outside a circuit: the commitment, the constant, `current_nu`. -/
def nativeStep (nu : F) (s : F × F × F) (ci : OpeningClaim F × F) : F × F × F :=
  let scalingFactor := s.2.2 * ci.2
  (s.1 - ci.1.commitment * scalingFactor,
    s.2.1 + scalingFactor * ci.1.openingPair.evaluation, s.2.2 * nu)

/-- The loop of the verifier in a circuit: the products of the batched multiplication. -/
def stdlibStep (nu : F) (s : List (F × F) × F × F) (ci : OpeningClaim F × F) :
    List (F × F) × F × F :=
  let scalingFactor := s.2.2 * ci.2
  (s.1 ++ [(ci.1.commitment, -scalingFactor)],
    s.2.1 + scalingFactor * ci.1.openingPair.evaluation, s.2.2 * nu)

/-- `ShplonkVerifier_::reduce_verification`.  The first point of the reference string commits to
the constant one. -/
def shplonkReduceVerification (isStdlibType : Bool) (claims : List (OpeningClaim F))
    (nu commitmentQ z : F) : OpeningClaim F :=
  let differences := claims.map fun claim => z - claim.openingPair.challenge
  let commitmentG :=
    if isStdlibType then
      let s := (claims.zip (differences.map fun d => d⁻¹)).foldl (stdlibStep nu)
        ([(commitmentQ, 1)], 0, 1)
      ((s.1 ++ [(1, s.2.1)]).map fun (product : F × F) => product.1 * product.2).sum
    else
      let s := (claims.zip (batchInvert differences)).foldl (nativeStep nu) (commitmentQ, 0, 1)
      s.1 + 1 * s.2.1
  ⟨⟨z, 0⟩, commitmentG⟩

end Shplonk

/-! ### The squares and the folds -/

def squares (r : F) : ℕ → List F
  | 0 => []
  | k + 1 => r :: squares (r ^ 2) k

theorem squaresOfR_succ (r : F) (k : ℕ) :
    squaresOfR r (k + 2) = squaresOfR r (k + 1) ++ [(squaresOfR r (k + 1)).getLastD 0 ^ 2] := by
  rw [squaresOfR, show k + 2 - 1 = k + 1 from rfl, List.range'_1_concat, foldl_append]
  rfl

theorem squares_concat (r : F) (k : ℕ) : squares r (k + 1) = squares r k ++ [r ^ 2 ^ k] := by
  induction k generalizing r with
  | zero => simp [squares]
  | succ k ih =>
    rw [squares, ih, squares, cons_append, ← pow_mul, ← pow_succ']

theorem squaresOfR_eq (r : F) (k : ℕ) : squaresOfR r (k + 1) = squares r (k + 1) := by
  induction k with
  | zero => rfl
  | succ k ih =>
    rw [squaresOfR_succ, ih, squares_concat r (k + 1), squares_concat r k,
      getLastD_concat, ← pow_mul, ← pow_succ]

theorem fold_apply (cpus k : ℕ) (u : F) (a : ℕ → F) (j : ℕ) (hj : j < 2 ^ k) :
    fold cpus (2 ^ k) u a j = foldOnce u a j := by
  obtain ⟨b, hb, hused⟩ := exists_threads cpus k
  have hrest : 2 ^ k % (2 ^ k / 2 ^ b) = 0 :=
    Nat.mod_eq_zero_of_dvd (Nat.div_dvd_of_dvd (Nat.pow_dvd_pow 2 hb))
  rw [fold, hused, hrest, if_neg (by simp), parallelFor_apply (Nat.two_pow_pos b),
    chunks_cover hb, if_pos hj, foldOnce]

/-- The polynomials of all levels, the first included. -/
noncomputable def levels : List F → (ℕ → F) → List F[X]
  | [], _ => []
  | u :: us, a => ofArray (2 ^ (us.length + 1)) a :: levels us (foldOnce u a)

theorem levels_congr (us : List F) {a b : ℕ → F} (h : ∀ i < 2 ^ us.length, a i = b i) :
    levels us a = levels us b := by
  induction us generalizing a b with
  | nil => rfl
  | cons u us ih =>
    rw [length_cons] at h
    rw [levels, levels, ofArray_congr h]
    rw [ih (foldOnce_congr fun i hi => h i (by rw [pow_succ]; omega))]

theorem mapM_shiftOne {n : ℕ} (hn : n ≤ 30) (k : ℕ) (hk : k ≤ n) :
    (List.range' (n - k) k).mapM (fun l => shiftOne (n - l)) =
      some ((List.range' (n - k) k).map fun l => 2 ^ (n - l)) := by
  induction k with
  | zero => rfl
  | succ k ih =>
    rw [List.range'_succ, mapM_cons, show n - (k + 1) + 1 = n - k by omega, ih (by omega),
      shiftOne, if_pos (by omega), map_cons]
    rfl

def foldSizes (k : ℕ) : List ℕ := (List.range k).map fun l => 2 ^ (k - l)

theorem foldSizes_succ (k : ℕ) : foldSizes (k + 1) = 2 ^ (k + 1) :: foldSizes k := by
  rw [foldSizes, range_succ_eq_map, map_cons, List.map_map, foldSizes]
  congr 1
  refine map_congr_left fun l _ => ?_
  rw [Function.comp_apply, Nat.succ_eq_add_one, Nat.add_sub_add_right]

theorem mapM_sizes {m : ℕ} (hm : 0 < m) (h : m < 32) :
    (List.range (m - 1)).mapM (fun l => shiftOne (m - l - 1)) = some (foldSizes (m - 1)) := by
  have hall := mapM_shiftOne (show m - 1 ≤ 30 by omega) (m - 1) le_rfl
  rw [Nat.sub_self, ← range_eq_range'] at hall
  rw [foldSizes, ← hall]
  congr 1
  funext l
  congr 1
  omega

theorem mapM_sizes_none {m : ℕ} (h : 32 ≤ m) :
    (List.range (m - 1)).mapM (fun l => shiftOne (m - l - 1)) = none := by
  rw [show m - 1 = (m - 2) + 1 by omega, range_succ_eq_map, mapM_cons, shiftOne, if_neg (by omega)]
  rfl

theorem folds_denote (cpus : ℕ) (u : F) (us : List F) (a : ℕ → F) :
    ofArray (2 ^ (us.length + 1)) a ::
        (folds cpus ((u :: us).zip (foldSizes us.length)) a).map denote = levels (u :: us) a := by
  induction us generalizing u a with
  | nil => rfl
  | cons v us ih =>
    rw [length_cons, foldSizes_succ, zip_cons_cons, folds, map_cons, denote]
    dsimp only
    rw [ih]
    change _ = ofArray (2 ^ (us.length + 1 + 1)) a :: levels (v :: us) (foldOnce u a)
    congr 1
    refine levels_congr _ fun i hi => ?_
    rw [length_cons] at hi
    exact fold_apply _ _ _ _ _ hi

/-! ### The claims of the verifier -/

noncomputable def values (us : List F) (a : ℕ → F) (r : F) : List F :=
  List.zipWith (fun x P => P.eval (-x)) (squares r us.length) (levels us a)

theorem values_cons (u : F) (us : List F) (a : ℕ → F) (r : F) : values (u :: us) a r =
      (ofArray (2 ^ (us.length + 1)) a).eval (-r) :: values us (foldOnce u a) (r ^ 2) := rfl

theorem computeEvalPos_cons (v u r e : F) (us rs es : List F) :
    computeEvalPos v (u :: us) (r :: rs) (e :: es) =
      (r * computeEvalPos v us rs es * 2 - e * (r * (1 - u) - u)) / (r * (1 - u) + u) := rfl

def Regular (us : List F) (r : F) : Prop :=
  ∀ l (hl : l < us.length), r ^ 2 ^ l * (1 - us[l]) + us[l] ≠ 0

theorem regular_cons {u : F} {us : List F} {r : F} (h : Regular (u :: us) r) :
    r * (1 - u) + u ≠ 0 ∧ Regular us (r ^ 2) := by
  constructor
  · have hzero := h 0 (Nat.succ_pos _)
    rwa [pow_zero, pow_one, getElem_cons_zero] at hzero
  · intro l hl
    have hsucc := h (l + 1) (Nat.succ_lt_succ hl)
    rwa [getElem_cons_succ, pow_succ', pow_mul] at hsucc

theorem computeEvalPos_values (us : List F) (a : ℕ → F) (r : F) (h : Regular us r) :
    computeEvalPos (multilinear us a) us (squares r us.length) (values us a r) =
      (ofArray (2 ^ us.length) a).eval r := by
  induction us generalizing a r with
  | nil =>
    rw [multilinear_nil, eval_ofArray]
    simp [computeEvalPos, squares]
  | cons u us ih =>
    obtain ⟨hne, hregular⟩ := regular_cons h
    rw [values_cons, length_cons, squares, computeEvalPos_cons, multilinear_cons,
      ih _ _ hregular, div_eq_iff hne]
    have hfold := eval_foldOnce (2 ^ us.length) u a r
    rw [← pow_succ'] at hfold
    linear_combination hfold

theorem computeEvalPos_injective [NeZero (2 : F)] {us : List F} {r : F} (hr : r ≠ 0)
    (h : Regular us r) {es : List F} (hes : es.length = us.length) {v w : F}
    (hvw : computeEvalPos v us (squares r us.length) es =
      computeEvalPos w us (squares r us.length) es) : v = w := by
  induction us generalizing r es with
  | nil => exact hvw
  | cons u us ih =>
    obtain ⟨hne, hregular⟩ := regular_cons h
    cases es with
    | nil => cases hes
    | cons e es =>
      rw [length_cons, squares, computeEvalPos_cons, computeEvalPos_cons,
        div_left_inj' hne, sub_left_inj] at hvw
      have hprod := mul_right_cancel₀ (NeZero.ne (2 : F)) hvw
      exact ih (pow_ne_zero 2 hr) hregular (Nat.succ.inj hes) (mul_left_cancel₀ hr hprod)

theorem length_squares (r : F) (k : ℕ) : (squares r k).length = k := by
  induction k generalizing r with
  | zero => rfl
  | succ k ih => rw [squares, length_cons, ih]

/-- The pair of a witness at the negation of a square. -/
def negatedPair (cpus : ℕ) (x : F) (p : ArrayPoly F) : OpeningPair F := ⟨-x, p.evaluate cpus (-x)⟩

theorem map_claims (cpus : ℕ) (secret : F) (xs : List F) (ps : List (ArrayPoly F)) :
    (xs.zip (((xs.zip ps).map fun (x, p) => negatedPair cpus x p).map OpeningPair.evaluation |>.zip
        (ps.map (commit secret)))).map
        (fun (x, evaluation, commitment) => (⟨⟨-x, evaluation⟩, commitment⟩ : OpeningClaim F)) =
      List.zipWith (fun pair p => ⟨pair, commit secret p⟩)
        ((xs.zip ps).map fun (x, p) => negatedPair cpus x p) ps := by
  induction xs generalizing ps with
  | nil => rfl
  | cons x xs ih =>
    cases ps with
    | nil => rfl
    | cons p ps =>
      simp only [zip_cons_cons, map_cons, zipWith_cons_cons, ih]
      rfl

theorem map_evaluation (cpus : ℕ) (xs : List F) (ps : List (ArrayPoly F)) :
    ((xs.zip ps).map fun (x, p) => negatedPair cpus x p).map OpeningPair.evaluation =
      List.zipWith (fun x P => P.eval (-x)) xs (ps.map ArrayPoly.denote) := by
  induction xs generalizing ps with
  | nil => rfl
  | cons x xs ih =>
    cases ps with
    | nil => rfl
    | cons p ps =>
      simp only [zip_cons_cons, map_cons, zipWith_cons_cons, ih]
      rw [negatedPair, ArrayPoly.evaluate_eq]

theorem computeSimulatedCommitments_eq [DecidableEq F] (isStdlibType : Bool) (f g r : F) :
    computeSimulatedCommitments isStdlibType f g r = (f + r⁻¹ * g, f - r⁻¹ * g) := by
  rw [computeSimulatedCommitments]
  cases isStdlibType with
  | true =>
    rw [if_pos rfl]
    exact Prod.ext (by ring) (by ring)
  | false =>
    rw [if_neg Bool.false_ne_true]
    by_cases hg : g = 0
    · rw [if_neg (not_not_intro hg), hg, mul_zero, add_zero, sub_zero]
    · rw [if_pos hg, mul_comm]

/-! ### The Shplonk sums -/

section Sums

variable [DecidableEq F]

def quotient (pw : OpeningPair F × ArrayPoly F) : ArrayPoly F :=
  (pw.2.subFirst pw.1.evaluation).factorRoots pw.1.challenge

/-- A witness with more than one coefficient takes the value of its pair. -/
def Opens (pw : OpeningPair F × ArrayPoly F) : Prop :=
  1 < pw.2.size ∧ pw.2.denote.eval pw.1.challenge = pw.1.evaluation

theorem eval_quotient {pw : OpeningPair F × ArrayPoly F} (h : Opens pw) (y : F) :
    (y - pw.1.challenge) * (quotient pw).denote.eval y = pw.2.denote.eval y - pw.1.evaluation := by
  obtain ⟨hsize, hvalue⟩ := h
  have hdenote := denote_subFirst (show 0 < pw.2.size by omega) pw.1.evaluation
  have hroot : (pw.2.subFirst pw.1.evaluation).denote.eval pw.1.challenge = 0 := by
    rw [hdenote, eval_sub, eval_C, hvalue, sub_self]
  rw [quotient, eval_factorRoots (p := pw.2.subFirst pw.1.evaluation) hsize hroot,
    hdenote, eval_sub, eval_C]

theorem quotientStep_foldl (cpus : ℕ) (nu y : F) (l : List (OpeningPair F × ArrayPoly F))
    (s : ArrayPoly F × F) (hsize : ∀ pw ∈ l, pw.2.size ≤ s.1.size) :
    (l.foldl (quotientStep cpus nu) s).1.size = s.1.size ∧
      (l.foldl (quotientStep cpus nu) s).1.denote.eval y =
        s.1.denote.eval y + powerSum nu s.2 (l.map fun pw => (quotient pw).denote.eval y) := by
  induction l generalizing s with
  | nil => exact ⟨rfl, (add_zero _).symm⟩
  | cons pw l ih =>
    obtain ⟨hpw, hl⟩ := forall_mem_cons.1 hsize
    obtain ⟨hs, heval⟩ := ih (quotientStep cpus nu s pw) hl
    have hstep : (quotientStep cpus nu s pw).1.denote = s.1.denote + C s.2 * (quotient pw).denote :=
      denote_addScaled cpus (q := quotient pw) hpw s.2
    refine ⟨hs, ?_⟩
    rw [foldl_cons, heval, hstep, eval_add, eval_mul, eval_C, map_cons, powerSum_cons_mul,
      add_assoc]
    rfl

omit [DecidableEq F] in
theorem partialStep_foldl (cpus : ℕ) (nu y : F) (l : List ((OpeningPair F × ArrayPoly F) × F))
    (s : ArrayPoly F × F) (hsize : ∀ pw ∈ l, 0 < pw.1.2.size ∧ pw.1.2.size ≤ s.1.size) :
    (l.foldl (partialStep cpus nu) s).1.denote.eval y = s.1.denote.eval y - powerSum nu s.2
        (l.map fun pw => pw.2 * (pw.1.2.denote.eval y - pw.1.1.evaluation)) := by
  induction l generalizing s with
  | nil => exact (sub_zero _).symm
  | cons pw l ih =>
    obtain ⟨⟨hpos, hpw⟩, hl⟩ := forall_mem_cons.1 hsize
    have hstep : (partialStep cpus nu s pw).1.denote =
        s.1.denote + C (-(s.2 * pw.2)) * (pw.1.2.denote - C pw.1.1.evaluation) := by
      rw [← denote_subFirst hpos]
      exact denote_addScaled cpus (q := pw.1.2.subFirst pw.1.1.evaluation) hpw (-(s.2 * pw.2))
    rw [foldl_cons, ih (partialStep cpus nu s pw) hl, hstep, eval_add, eval_mul, eval_C,
      eval_sub, eval_C, map_cons, powerSum_cons_mul]
    change _ - powerSum nu (s.2 * nu) _ = _
    ring

omit [DecidableEq F] in
theorem nativeStep_foldl (nu : F) (l : List (OpeningClaim F × F)) (s : F × F × F) :
    (l.foldl (nativeStep nu) s).1 =
        s.1 - powerSum nu s.2.2 (l.map fun ci => ci.2 * ci.1.commitment) ∧
      (l.foldl (nativeStep nu) s).2.1 =
        s.2.1 + powerSum nu s.2.2 (l.map fun ci => ci.2 * ci.1.openingPair.evaluation) := by
  induction l generalizing s with
  | nil => exact ⟨(sub_zero _).symm, (add_zero _).symm⟩
  | cons ci l ih =>
    obtain ⟨hfirst, hsecond⟩ := ih (nativeStep nu s ci)
    rw [foldl_cons, hfirst, hsecond, map_cons, map_cons, powerSum_cons_mul,
      powerSum_cons_mul, nativeStep]
    constructor <;> ring

omit [DecidableEq F] in
theorem stdlibStep_foldl (nu : F) (l : List (OpeningClaim F × F)) (s : List (F × F) × F × F) :
    ((l.foldl (stdlibStep nu) s).1.map fun product : F × F => product.1 * product.2).sum =
        (s.1.map fun product : F × F => product.1 * product.2).sum -
          powerSum nu s.2.2 (l.map fun ci => ci.2 * ci.1.commitment) ∧
      (l.foldl (stdlibStep nu) s).2.1 =
        s.2.1 + powerSum nu s.2.2 (l.map fun ci => ci.2 * ci.1.openingPair.evaluation) := by
  induction l generalizing s with
  | nil => exact ⟨(sub_zero _).symm, (add_zero _).symm⟩
  | cons ci l ih =>
    obtain ⟨hfirst, hsecond⟩ := ih (stdlibStep nu s ci)
    rw [foldl_cons, hfirst, hsecond, map_cons, map_cons, powerSum_cons_mul, powerSum_cons_mul,
      stdlibStep, map_append, sum_append, map_singleton, sum_singleton]
    constructor <;> ring

omit [Field F] [DecidableEq F] in
theorem le_foldl_max (ps : List (ArrayPoly F)) (n : ℕ) : n ≤ ps.foldl (fun n p => max n p.size) n ∧
      ∀ p ∈ ps, p.size ≤ ps.foldl (fun n p => max n p.size) n := by
  induction ps generalizing n with
  | nil => exact ⟨le_rfl, fun p hp => absurd hp (not_mem_nil)⟩
  | cons q ps ih =>
    obtain ⟨hn, hps⟩ := ih (max n q.size)
    refine ⟨le_trans (le_max_left _ _) hn, forall_mem_cons.2 ⟨?_, hps⟩⟩
    exact le_trans (le_max_right _ _) hn

theorem zip_zip_map {α β γ : Type} (f : α → γ) (l : List α) (l' : List β) :
    (l.zip l').zip (l.map f) = (l.zip l').map fun x => (x, f x.1) := by
  induction l generalizing l' with
  | nil => rfl
  | cons a l ih =>
    cases l' with
    | nil => rfl
    | cons b l' => rw [zip_cons_cons, map_cons, zip_cons_cons, ih, map_cons]

def claimsOf (secret : F) (pairs : List (OpeningPair F)) (witnesses : List (ArrayPoly F)) :
    List (OpeningClaim F) :=
  List.zipWith (fun pair p => ⟨pair, commit secret p⟩) pairs witnesses

omit [DecidableEq F] in
theorem claimsOf_eq (secret : F) (pairs : List (OpeningPair F)) (witnesses : List (ArrayPoly F)) :
    claimsOf secret pairs witnesses =
      (pairs.zip witnesses).map fun pw => ⟨pw.1, pw.2.commit secret⟩ := by
  rw [claimsOf, List.zip, map_zipWith]

section Reduction

variable {cpus : ℕ} {pairs : List (OpeningPair F)} {witnesses : List (ArrayPoly F)} {nu : F}

theorem eval_computeBatchedQuotient (y : F) :
    (computeBatchedQuotient cpus pairs witnesses nu).denote.eval y =
      powerSum nu 1 ((pairs.zip witnesses).map fun pw => (quotient pw).denote.eval y) ∧
    ∀ pw ∈ pairs.zip witnesses,
      pw.2.size ≤ (computeBatchedQuotient cpus pairs witnesses nu).size := by
  have hbound : ∀ pw ∈ pairs.zip witnesses,
      pw.2.size ≤ witnesses.foldl (fun n p => max n p.size) 0 := fun pw hpw =>
    (le_foldl_max witnesses 0).2 pw.2 (of_mem_zip hpw).2
  obtain ⟨hsize, heval⟩ := quotientStep_foldl cpus nu y (pairs.zip witnesses)
    (⟨witnesses.foldl (fun n p => max n p.size) 0, fun _ => 0⟩, 1) hbound
  have hzero : (denote (⟨witnesses.foldl (fun n p => max n p.size) 0, fun _ => 0⟩ :
      ArrayPoly F)).eval y = 0 := by
    simp [denote, eval_ofArray]
  rw [hzero, zero_add] at heval
  refine ⟨heval, fun pw hpw => ?_⟩
  rw [computeBatchedQuotient, hsize]
  exact hbound pw hpw

theorem eval_shplonkWitness (hopens : ∀ pw ∈ pairs.zip witnesses, Opens pw) (z y : F) :
    (computePartiallyEvaluatedBatchedQuotient cpus pairs witnesses
        (computeBatchedQuotient cpus pairs witnesses nu) nu z).2.denote.eval y =
      (computeBatchedQuotient cpus pairs witnesses nu).denote.eval y -
        powerSum nu 1 ((pairs.zip witnesses).map fun pw =>
          (z - pw.1.challenge)⁻¹ * (pw.2.denote.eval y - pw.1.evaluation)) := by
  rw [computePartiallyEvaluatedBatchedQuotient, batchInvert_eq, List.map_map, zip_zip_map,
    partialStep_foldl, List.map_map]
  · rfl
  · intro pw hpw
    obtain ⟨x, hx, rfl⟩ := mem_map.1 hpw
    exact ⟨Nat.zero_lt_of_lt (hopens x hx).1, (eval_computeBatchedQuotient 0).2 x hx⟩

theorem eval_shplonkWitness_eq_zero (hopens : ∀ pw ∈ pairs.zip witnesses, Opens pw) {z : F}
    (hz : ∀ pair ∈ pairs, z ≠ pair.challenge) :
    (computePartiallyEvaluatedBatchedQuotient cpus pairs witnesses
        (computeBatchedQuotient cpus pairs witnesses nu) nu z).2.denote.eval z = 0 := by
  rw [eval_shplonkWitness hopens, (eval_computeBatchedQuotient z).1, sub_eq_zero]
  congr 1
  refine map_congr_left fun pw hpw => ?_
  have hne : z - pw.1.challenge ≠ 0 := sub_ne_zero.2 (hz pw.1 (of_mem_zip hpw).1)
  rw [← eval_quotient (hopens pw hpw) z, inv_mul_cancel_left₀ hne]

theorem shplonkReduceVerification_eq (isStdlibType : Bool) (secret : F)
    (hopens : ∀ pw ∈ pairs.zip witnesses, Opens pw) (z : F) :
    shplonkReduceVerification isStdlibType (claimsOf secret pairs witnesses) nu
        ((computeBatchedQuotient cpus pairs witnesses nu).commit secret) z =
      ⟨⟨z, 0⟩, (computePartiallyEvaluatedBatchedQuotient cpus pairs witnesses
        (computeBatchedQuotient cpus pairs witnesses nu) nu z).2.commit secret⟩ := by
  have hsum : ∀ pw : OpeningPair F × ArrayPoly F,
      (z - pw.1.challenge)⁻¹ * (pw.2.denote.eval secret - pw.1.evaluation) =
        (z - pw.1.challenge)⁻¹ * pw.2.commit secret - (z - pw.1.challenge)⁻¹ * pw.1.evaluation := by
    intro pw
    rw [commit_eq, mul_sub]
  have hzip : (claimsOf secret pairs witnesses).zip
      (((claimsOf secret pairs witnesses).map fun claim => z - claim.openingPair.challenge).map
        fun d => d⁻¹) =
      (pairs.zip witnesses).map fun pw =>
        (⟨pw.1, pw.2.commit secret⟩, (z - pw.1.challenge)⁻¹) := by
    rw [claimsOf_eq, List.map_map, List.map_map, zip_map']
    rfl
  rw [commit_eq _ (computePartiallyEvaluatedBatchedQuotient _ _ _ _ _ _).2,
    eval_shplonkWitness hopens, map_congr_left fun pw _ => hsum pw, powerSum_sub,
    ← commit_eq, shplonkReduceVerification, batchInvert_eq, hzip]
  congr 1
  cases isStdlibType with
  | true =>
    obtain ⟨hfirst, hsecond⟩ := stdlibStep_foldl nu ((pairs.zip witnesses).map fun pw =>
      ((⟨pw.1, pw.2.commit secret⟩ : OpeningClaim F), (z - pw.1.challenge)⁻¹))
      ([((computeBatchedQuotient cpus pairs witnesses nu).commit secret, 1)], 0, 1)
    rw [if_pos rfl]
    dsimp only
    rw [map_append, sum_append, map_singleton, sum_singleton, hfirst, hsecond,
      List.map_map, List.map_map, map_singleton, sum_singleton]
    simp only [Function.comp_def]
    ring
  | false =>
    obtain ⟨hfirst, hsecond⟩ := nativeStep_foldl nu ((pairs.zip witnesses).map fun pw =>
      ((⟨pw.1, pw.2.commit secret⟩ : OpeningClaim F), (z - pw.1.challenge)⁻¹))
      ((computeBatchedQuotient cpus pairs witnesses nu).commit secret, 0, 1)
    rw [if_neg Bool.false_ne_true]
    dsimp only
    rw [hfirst, hsecond, List.map_map, List.map_map]
    simp only [Function.comp_def]
    ring

end Reduction

end Sums

/-! ### The two reductions together -/

/-- What the reductions are to do for one point, one pair of batched polynomials and one
challenge. -/
def ReductionsAgree [DecidableEq F] (cpus : ℕ) (isStdlibType : Bool) (point : List F)
    (batchedF batchedG : ArrayPoly F) (r secret : F) : Prop :=
  ∃ polys, computeGeminiPolynomials cpus point batchedF batchedG = some polys ∧
    ∃ pairs witnesses, computeFoldPolynomialEvaluations cpus point polys r = (pairs, witnesses) ∧
      pairs.length = point.length + 1 ∧ witnesses.length = point.length + 1 ∧
      (∀ pw ∈ pairs.zip witnesses, pw.2.denote.eval pw.1.challenge = pw.1.evaluation) ∧
      (let claims (v : F) := geminiReduceVerification isStdlibType point v
        (batchedF.commit secret) (batchedG.commit secret)
        ((polys.drop 2).map (commit secret))
        r (pairs.tail.map OpeningPair.evaluation)
      let evaluation :=
        multilinear point batchedF.coeffs + multilinear point batchedG.shifted.coeffs
      claims evaluation = claimsOf secret pairs witnesses ∧
      (∀ v, v ≠ evaluation →
        (claims v).head?.map (fun claim => claim.openingPair.evaluation) ≠
          (claims evaluation).head?.map fun claim => claim.openingPair.evaluation) ∧
      ∀ nu z, (∀ pair ∈ pairs, z ≠ pair.challenge) →
        let batchedQuotient := computeBatchedQuotient cpus pairs witnesses nu
        let output :=
          computePartiallyEvaluatedBatchedQuotient cpus pairs witnesses batchedQuotient nu z
        output.2.denote.eval z = 0 ∧
          shplonkReduceVerification isStdlibType (claims evaluation) nu
              (batchedQuotient.commit secret) z = ⟨output.1, output.2.commit secret⟩)

section Agreement

variable {cpus : ℕ} {point : List F} {batchedF batchedG : ArrayPoly F}

theorem multilinear_batched (hG : batchedG.size = 2 ^ point.length) :
    multilinear point (batchedF.add cpus batchedG.shifted).coeffs =
      multilinear point batchedF.coeffs + multilinear point batchedG.shifted.coeffs := by
  rw [multilinear_add]
  refine multilinear_congr fun i hi => ?_
  rw [add]
  dsimp only
  rw [forCoefficients_apply, if_pos (show i < batchedG.shifted.size from hG ▸ hi)]

theorem commit_partiallyEvaluated (cpus : ℕ) (hsize : batchedG.size ≤ batchedF.size)
    (secret r : F) : (batchedF.add cpus (batchedG.scale cpus r⁻¹)).commit secret =
        batchedF.commit secret + r⁻¹ * batchedG.commit secret ∧
      (batchedF.sub cpus (batchedG.scale cpus r⁻¹)).commit secret =
        batchedF.commit secret - r⁻¹ * batchedG.commit secret := by
  simp only [commit_eq, denote_add cpus (q := batchedG.scale cpus r⁻¹) hsize,
    denote_sub cpus (q := batchedG.scale cpus r⁻¹) hsize, denote_scale,
    eval_add, eval_sub, eval_mul, eval_C, and_self]

theorem eval_partiallyEvaluated (cpus : ℕ) (hsize : batchedG.size ≤ batchedF.size)
    (hzero : batchedG.coeffs 0 = 0) {r : F} (hr : r ≠ 0) :
    (batchedF.add cpus (batchedG.scale cpus r⁻¹)).denote.eval r =
        (batchedF.add cpus batchedG.shifted).denote.eval r ∧
      (batchedF.sub cpus (batchedG.scale cpus r⁻¹)).denote.eval (-r) =
        (batchedF.add cpus batchedG.shifted).denote.eval (-r) := by
  have hshift := denote_eq_X_mul_shifted hzero
  rw [denote_add cpus (q := batchedG.scale cpus r⁻¹) hsize,
    denote_sub cpus (q := batchedG.scale cpus r⁻¹) hsize,
    denote_add cpus (q := batchedG.shifted) hsize, denote_scale, hshift]
  constructor
  · rw [eval_add, eval_add, eval_mul, eval_C, eval_mul, eval_X, inv_mul_cancel_left₀ hr]
  · rw [eval_sub, eval_add, eval_mul, eval_C, eval_mul, eval_X, neg_mul, mul_neg,
      inv_mul_cancel_left₀ hr, sub_neg_eq_add]

theorem computeGeminiPolynomials_eq (hpoint : point ≠ []) (hlength : point.length < 32) :
    computeGeminiPolynomials cpus point batchedF batchedG =
      some (batchedF :: batchedG :: folds cpus (point.zip (foldSizes (point.length - 1)))
        (batchedF.add cpus batchedG.shifted).coeffs) := by
  rw [computeGeminiPolynomials, mapM_sizes (length_pos_iff.2 hpoint) hlength]
  rfl

theorem computeGeminiPolynomials_eq_none (hlength : 32 ≤ point.length) :
    computeGeminiPolynomials cpus point batchedF batchedG = none := by
  rw [computeGeminiPolynomials, mapM_sizes_none hlength]
  rfl

theorem folds_size (cpus : ℕ) (u : F) (us : List F) (a : ℕ → F) :
    (folds cpus ((u :: us).zip (foldSizes us.length)) a).length = us.length ∧
      ∀ p ∈ folds cpus ((u :: us).zip (foldSizes us.length)) a, 1 < p.size := by
  induction us generalizing u a with
  | nil => exact ⟨rfl, fun p hp => absurd hp (not_mem_nil)⟩
  | cons v us ih =>
    obtain ⟨hlength, hsize⟩ := ih v (fold cpus (2 ^ (us.length + 1)) u a)
    rw [length_cons, foldSizes_succ, zip_cons_cons, folds, length_cons, hlength]
    refine ⟨rfl, forall_mem_cons.2 ⟨?_, hsize⟩⟩
    exact Nat.one_lt_two_pow (Nat.succ_ne_zero _)

end Agreement

theorem opens_zip (cpus : ℕ) (xs : List F) (ps : List (ArrayPoly F))
    (hsize : ∀ p ∈ ps, 1 < p.size) :
    ∀ pw ∈ ((xs.zip ps).map fun (x, p) => negatedPair cpus x p).zip ps, Opens pw := by
  induction xs generalizing ps with
  | nil => exact fun pw hpw => absurd hpw (not_mem_nil)
  | cons x xs ih =>
    cases ps with
    | nil => exact fun pw hpw => absurd hpw (not_mem_nil)
    | cons p ps =>
      obtain ⟨hp, hps⟩ := forall_mem_cons.1 hsize
      exact forall_mem_cons.2 ⟨⟨hp, (evaluate_eq cpus p (-x)).symm⟩, ih ps hps⟩

theorem geminiReduceVerification_eq [DecidableEq F] (cpus : ℕ) (isStdlibType : Bool) (u : F)
    (us : List F) (v f g r secret : F) (negative : ArrayPoly F) (ps : List (ArrayPoly F)) :
    geminiReduceVerification isStdlibType (u :: us) v f g (ps.map (ArrayPoly.commit secret)) r
        ((((squares r (us.length + 1)).zip (negative :: ps)).map fun (x, p) =>
          negatedPair cpus x p).map OpeningPair.evaluation) =
      ⟨⟨r, computeEvalPos v (u :: us) (squares r (us.length + 1))
          (List.zipWith (fun x P => P.eval (-x)) (squares r (us.length + 1))
            ((negative :: ps).map ArrayPoly.denote))⟩, f + r⁻¹ * g⟩ ::
        ⟨negatedPair cpus r negative, f - r⁻¹ * g⟩ ::
          claimsOf secret (((squares (r ^ 2) us.length).zip ps).map fun (x, p) =>
            negatedPair cpus x p) ps := by
  rw [geminiReduceVerification, length_cons, squaresOfR_eq, computeSimulatedCommitments_eq,
    map_evaluation, claimsOf, ← map_claims, map_evaluation]
  rw [negatedPair, ArrayPoly.evaluate_eq]
  rfl

theorem opens_witnesses (cpus : ℕ) (r : F) (n : ℕ) {positive negative : ArrayPoly F}
    {ps : List (ArrayPoly F)} (hpositive : 1 < positive.size)
    (hnegative : 1 < negative.size) (hps : ∀ p ∈ ps, 1 < p.size) :
    ∀ pw ∈ (⟨r, positive.evaluate cpus r⟩ :: (((squares r (n + 1)).zip (negative :: ps)).map
      fun (x, p) => negatedPair cpus x p)).zip (positive :: negative :: ps), Opens pw :=
  forall_mem_cons.2 ⟨⟨hpositive, (ArrayPoly.evaluate_eq _ _ _).symm⟩,
    opens_zip cpus _ _ (forall_mem_cons.2 ⟨hnegative, hps⟩)⟩

theorem reductionsAgree [DecidableEq F] [NeZero (2 : F)] (cpus : ℕ) (isStdlibType : Bool)
    {point : List F} (hpoint : point ≠ []) (hlength : point.length < 32)
    {batchedF batchedG : ArrayPoly F}
    (hF : batchedF.size = 2 ^ point.length) (hG : batchedG.size = 2 ^ point.length)
    (hzero : batchedG.coeffs 0 = 0) {r : F} (hr : r ≠ 0) (hregular : Regular point r)
    (secret : F) : ReductionsAgree cpus isStdlibType point batchedF batchedG r secret := by
  obtain ⟨u, us, rfl⟩ := exists_cons_of_ne_nil hpoint
  obtain ⟨A0, hA0⟩ : ∃ A0, batchedF.add cpus batchedG.shifted = A0 := ⟨_, rfl⟩
  obtain ⟨positive, hpositive⟩ : ∃ p, batchedF.add cpus (batchedG.scale cpus r⁻¹) = p := ⟨_, rfl⟩
  obtain ⟨negative, hnegative⟩ : ∃ p, batchedF.sub cpus (batchedG.scale cpus r⁻¹) = p := ⟨_, rfl⟩
  obtain ⟨ps, hps⟩ :
    ∃ ps, folds cpus ((u :: us).zip (foldSizes us.length)) A0.coeffs = ps := ⟨_, rfl⟩
  obtain ⟨hlengths, hsizes⟩ := folds_size cpus u us A0.coeffs
  obtain ⟨hevalPositive, hevalNegative⟩ :=
    eval_partiallyEvaluated cpus (le_of_eq (hG.trans hF.symm)) hzero hr
  rw [hpositive, hA0] at hevalPositive
  rw [hnegative, hA0] at hevalNegative
  rw [hps] at hlengths hsizes
  have hdenote : A0.denote = ofArray (2 ^ (us.length + 1)) A0.coeffs := by
    rw [ArrayPoly.denote, ← hA0]
    exact congrArg (fun n => ofArray n _) hF
  have hlevels := folds_denote cpus u us A0.coeffs
  rw [hps, ← hdenote] at hlevels
  have hvalues : List.zipWith (fun x P => P.eval (-x)) (squares r (us.length + 1))
      ((negative :: ps).map ArrayPoly.denote) = values (u :: us) A0.coeffs r := by
    rw [values, length_cons, ← hlevels, squares, map_cons, zipWith_cons_cons,
      zipWith_cons_cons, hevalNegative]
  have hgemini : computeGeminiPolynomials cpus (u :: us) batchedF batchedG =
      some (batchedF :: batchedG :: ps) := by
    rw [computeGeminiPolynomials_eq hpoint hlength, hA0, length_cons, Nat.add_sub_cancel, hps]
  have hpairs : computeFoldPolynomialEvaluations cpus (u :: us) (batchedF :: batchedG :: ps) r =
      (⟨r, positive.evaluate cpus r⟩ ::
        (((squares r (us.length + 1)).zip (negative :: ps)).map fun (x, p) =>
          negatedPair cpus x p), positive :: negative :: ps) := by
    rw [computeFoldPolynomialEvaluations, length_cons, squaresOfR_eq, ← hpositive, ← hnegative]
    rfl
  have hclaims := fun v => geminiReduceVerification_eq cpus isStdlibType u us v
    (batchedF.commit secret) (batchedG.commit secret) r secret negative ps
  have hregularEval := computeEvalPos_values (u :: us) A0.coeffs r hregular
  have hcommit := commit_partiallyEvaluated cpus (le_of_eq (hG.trans hF.symm)) secret r
  rw [hpositive, hnegative] at hcommit
  have hbatched : multilinear (u :: us) A0.coeffs = multilinear (u :: us) batchedF.coeffs +
      multilinear (u :: us) batchedG.shifted.coeffs := by
    rw [← hA0, multilinear_batched hG]
  have hlarge : 1 < 2 ^ (us.length + 1) := Nat.one_lt_two_pow (Nat.succ_ne_zero _)
  have hopens := opens_witnesses cpus r us.length
    (show 1 < positive.size by rw [← hpositive]; exact hF ▸ hlarge)
    (show 1 < negative.size by rw [← hnegative]; exact hF ▸ hlarge) hsizes
  have hagree : geminiReduceVerification isStdlibType (u :: us)
      (multilinear (u :: us) batchedF.coeffs + multilinear (u :: us) batchedG.shifted.coeffs)
      (batchedF.commit secret) (batchedG.commit secret) (ps.map (ArrayPoly.commit secret)) r
      ((((squares r (us.length + 1)).zip (negative :: ps)).map fun (x, p) =>
        negatedPair cpus x p).map OpeningPair.evaluation) =
      claimsOf secret (⟨r, positive.evaluate cpus r⟩ ::
        (((squares r (us.length + 1)).zip (negative :: ps)).map fun (x, p) =>
          negatedPair cpus x p)) (positive :: negative :: ps) := by
    rw [hclaims, hvalues, ← hbatched]
    rw [length_cons] at hregularEval
    rw [hregularEval, ← hdenote, ← hevalPositive, ← ArrayPoly.evaluate_eq cpus, ← hcommit.1,
      ← hcommit.2]
    rfl
  refine ⟨_, hgemini, _, _, hpairs, ?_, ?_, fun pw hpw => (hopens pw hpw).2, hagree, ?_, ?_⟩
  · rw [length_cons, length_map, length_zip, length_squares, length_cons,
      hlengths, Nat.min_self, length_cons]
  · rw [length_cons, length_cons, hlengths, length_cons]
  · intro v hv hsame
    dsimp only [List.drop, List.tail] at hsame
    rw [hclaims, hclaims] at hsame
    refine hv (computeEvalPos_injective hr hregular ?_ (Option.some.inj hsame))
    rw [length_zipWith, length_squares, length_map, length_cons, hlengths,
      Nat.min_self, length_cons]
  · intro nu z hz
    refine ⟨eval_shplonkWitness_eq_zero hopens hz, ?_⟩
    dsimp only [List.drop, List.tail]
    rw [hagree]
    exact shplonkReduceVerification_eq isStdlibType secret hopens z

/-- **The Gemini and Shplonk reductions agree exactly below 32 variables.** -/
theorem reductions_iff [DecidableEq F] [NeZero (2 : F)] (cpus : ℕ) (isStdlibType : Bool)
    {point : List F} (hpoint : point ≠ []) {batchedF batchedG : ArrayPoly F}
    (hF : batchedF.size = 2 ^ point.length) (hG : batchedG.size = 2 ^ point.length)
    (hzero : batchedG.coeffs 0 = 0) {r : F} (hr : r ≠ 0) (hregular : Regular point r) (secret : F) :
    ReductionsAgree cpus isStdlibType point batchedF batchedG r secret ↔ point.length < 32 := by
  constructor
  · rintro ⟨polys, hpolys, -⟩
    by_contra hlength
    rw [computeGeminiPolynomials_eq_none (not_lt.1 hlength)] at hpolys
    cases hpolys
  · intro hlength
    exact reductionsAgree cpus isStdlibType hpoint hlength hF hG hzero hr hregular secret

/-- Two variables. -/
theorem reductions_iff_two :
    ReductionsAgree 1 false [(3 : ℚ), 2] ⟨4, fun i => i + 1⟩ ⟨4, fun i => 2 * i⟩ 5 7 ↔ 2 < 32 := by
  refine reductions_iff 1 false (cons_ne_nil 3 [2]) rfl rfl ?_ (by norm_num) ?_ 7
  · norm_num
  · intro l hl
    obtain rfl | rfl := Nat.le_one_iff_eq_zero_or_eq_one.1 (Nat.le_of_lt_succ hl)
    · norm_num
    · norm_num

/-- With 32 variables the sizes of the folds do not fit the literal that is shifted. -/
theorem not_reductionsAgree :
    ¬ ∀ (cpus : ℕ) (isStdlibType : Bool) (point : List ℚ) (batchedF batchedG : ArrayPoly ℚ)
      (r secret : ℚ), point ≠ [] → batchedF.size = 2 ^ point.length →
        batchedG.size = 2 ^ point.length → batchedG.coeffs 0 = 0 → r ≠ 0 → Regular point r →
          ReductionsAgree cpus isStdlibType point batchedF batchedG r secret := by
  intro h
  obtain ⟨polys, hpolys, -⟩ := h 1 false (List.replicate 32 0) ⟨2 ^ 32, fun _ => 0⟩
    ⟨2 ^ 32, fun _ => 0⟩ 1 0 (by simp) (by simp) (by simp) rfl one_ne_zero
    (fun l hl => by simp)
  rw [computeGeminiPolynomials_eq_none (by simp)] at hpolys
  cases hpolys

end GeminiShplonk
