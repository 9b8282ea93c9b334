/-
**The sumcheck protocol.**

The prover folds the tables of its polynomials round by round and sends the round univariates; the
verifier evaluates them and compares with the relations at the claimed evaluations.
-/

import Aztec.GeminiShplonk
import Aztec.Univariates
import Aztec.ScalarField
import Mathlib.Algebra.MvPolynomial.Polynomial
import Mathlib.RingTheory.Polynomial.Basic

open Polynomial List
open Finset (range sum_congr)

namespace Sumcheck

open Multilinear PolynomialArrays Univariates

variable {F ι : Type} [Field F]

/-! ### The relations -/

/-- A subrelation with its parameters set: what `accumulate` computes from the entities.  On the
points of a line it is a polynomial within its partial length. -/
structure Subrelation (F ι : Type) [Field F] where
  partialLength : ℕ
  linearlyIndependent : Bool
  value : (ι → F) → F
  withinLength : ∀ a b : ι → F, ∃ p : F[X], p.degree < partialLength ∧
    ∀ x, p.eval x = value fun j => a j + x * (b j - a j)

noncomputable def Subrelation.ofPolynomial (P : MvPolynomial ι F) (partialLength : ℕ)
    (linearlyIndependent : Bool) (hP : P.totalDegree < partialLength) : Subrelation F ι where
  partialLength := partialLength
  linearlyIndependent := linearlyIndependent
  value := fun e => MvPolynomial.eval e P
  withinLength := by
    intro a b
    have hline : ∀ j, (C (a j) + X * C (b j - a j) : F[X]).natDegree ≤ 1 := by
      intro j
      refine natDegree_le_of_degree_le ((degree_add_le _ _).trans (max_le ?_ ?_))
      · exact degree_C_le.trans zero_le_one
      · rw [mul_comm]
        exact degree_C_mul_X_le _
    have hdegree : (MvPolynomial.aeval (fun j => (C (a j) + X * C (b j - a j) : F[X])) P).natDegree
        ≤ P.totalDegree * 1 := MvPolynomial.aeval_natDegree_le P le_rfl _ hline
    refine ⟨_, (degree_le_of_natDegree_le hdegree).trans_lt (Nat.cast_lt.2 (by omega)),
      fun x => ?_⟩
    rw [MvPolynomial.aeval_def, MvPolynomial.polynomial_eval_eval₂]
    simp only [eval_add, eval_mul, eval_C, eval_X]
    have hid : (evalRingHom x).comp (algebraMap F F[X]) = RingHom.id F := by
      ext c
      simp
    rw [hid, ← MvPolynomial.eval₂_id]

def maxPartialLength (subrelations : List (Subrelation F ι)) : ℕ :=
  (subrelations.map Subrelation.partialLength).foldr max 0

/-- The subrelations of all relations in the order of the tuples.  The edges have two values, and
the points of the univariates are different elements of the field. -/
structure Flavor (F ι : Type) [Field F] where
  subrelations : List (Subrelation F ι)
  two_le : 2 ≤ maxPartialLength subrelations
  distinct : Distinct F (maxPartialLength subrelations + 1)

def Flavor.batchedLength (E : Flavor F ι) : ℕ := maxPartialLength E.subrelations + 1

/-- `RelationSeparator`: one challenge, or for a folding flavor a challenge for each subrelation
after the first. -/
inductive RelationSeparator (F : Type)
  | power (alpha : F)
  | challenges (alphas : ℕ → F)

def runningChallenges (alpha : F) : F → ℕ → List F
  | _, 0 => []
  | current, n + 1 => current :: runningChallenges alpha (current * alpha) n

def RelationSeparator.scalars : RelationSeparator F → ℕ → List F
  | power alpha, n => runningChallenges alpha 1 n
  | challenges alphas, n => (List.range n).map fun i => if i = 0 then 1 else alphas (i - 1)

/-! ### The power polynomial -/

structure PowPolynomial (F : Type) where
  betas : List F
  powBetas : ℕ → F
  currentElementIdx : ℕ
  periodicity : ℕ
  partialEvaluationResult : F

open PowPolynomial

def PowPolynomial.new (betas : List F) : PowPolynomial F := ⟨betas, fun _ => 0, 0, 2, 1⟩

def PowPolynomial.currentElement (pow : PowPolynomial F) : F :=
  pow.betas.getD pow.currentElementIdx 0

def PowPolynomial.univariateEval (pow : PowPolynomial F) (challenge : F) : F :=
  1 + challenge * (pow.currentElement - 1)

def PowPolynomial.partiallyEvaluate (pow : PowPolynomial F) (challenge : F) : PowPolynomial F :=
  { pow with
    partialEvaluationResult := pow.partialEvaluationResult * pow.univariateEval challenge
    currentElementIdx := pow.currentElementIdx + 1
    periodicity := pow.periodicity * 2 }

def powLoop (betas : List F) (j betaIdx : ℕ) (res : F) : F :=
  if 0 < j then
    powLoop betas (j / 2) (betaIdx + 1) (if j % 2 = 1 then res * betas.getD betaIdx 0 else res)
  else res
termination_by j
decreasing_by omega

def PowPolynomial.computeValues (cpus : ℕ) (pow : PowPolynomial F) : Option (PowPolynomial F) := do
  let powSize ← GeminiShplonk.shiftOne pow.betas.length
  let desired := min (powSize / 64) (2 ^ Nat.log2 cpus)
  let numThreads := if desired > 0 then desired else 1
  let iterationsPerThread := powSize / numThreads
  return { pow with
    powBetas := parallelFor numThreads iterationsPerThread iterationsPerThread
      (fun i _ => powLoop pow.betas i 0 1) (fun _ => 0) }

/-! ### The prover -/

def calculateNumThreadsPow2 (cpus numIterations minIterations : ℕ) : ℕ :=
  let numThreads := min (2 ^ Nat.log2 (numIterations / minIterations)) (2 ^ Nat.log2 cpus)
  if numThreads > 0 then numThreads else 1

def extendEdges (polys : ι → ℕ → F) (edgeIdx : ℕ) (k : ℕ) (j : ι) : F :=
  extendTo 2 (fun i => polys j (edgeIdx + i)) k

def accumulate (s : Subrelation F ι) (accumulator : ℕ → F) (edges : ℕ → ι → F)
    (scalingFactor : F) : ℕ → F := fun k =>
  accumulator k + (if s.linearlyIndependent then scalingFactor * s.value (edges k)
    else s.value (edges k))

def threadUnivariate (s : Subrelation F ι) (polys : ι → ℕ → F) (powChallenges : ℕ → F)
    (start iterations : ℕ) : ℕ → F :=
  (List.range ((iterations + 1) / 2)).foldl (fun accumulator t =>
    let edgeIdx := start + 2 * t
    accumulate s accumulator (extendEdges polys edgeIdx) (powChallenges (edgeIdx / 2))) (fun _ => 0)

/-- The accumulator of one subrelation over all threads. -/
def univariateAccumulator (cpus roundSize : ℕ) (s : Subrelation F ι) (polys : ι → ℕ → F)
    (powChallenges : ℕ → F) : ℕ → F :=
  let numThreads := calculateNumThreadsPow2 cpus roundSize 64
  let iterationsPerThread := roundSize / numThreads
  (List.range numThreads).foldl (fun accumulator threadIdx => fun k => accumulator k +
    threadUnivariate s polys powChallenges (threadIdx * iterationsPerThread) iterationsPerThread k)
    (fun _ => 0)

/-- One subrelation in `extend_and_batch_univariates`, with its scaled accumulator. -/
def batchStep (pow : PowPolynomial F) (result : ℕ → F) (su : Subrelation F ι × (ℕ → F)) : ℕ → F :=
  let randomPolynomial := extendTo 2 fun i => if i = 0 then 1 else pow.currentElement
  let extended := extendTo su.1.partialLength su.2
  fun k => result k +
    (if su.1.linearlyIndependent then extended k * randomPolynomial k else extended k)

/-- `compute_univariate`: the contributions of the subrelations do not share anything but the
edges, so that each accumulator is computed for itself. -/
def computeUnivariate (E : Flavor F ι) (cpus : ℕ) (sep : RelationSeparator F)
    (pow : PowPolynomial F) (roundSize : ℕ) (polys : ι → ℕ → F) : ℕ → F :=
  let powChallenges : ℕ → F := fun i =>
    if i = 0 then pow.partialEvaluationResult
    else pow.partialEvaluationResult * pow.powBetas (i * pow.periodicity)
  let accumulators := E.subrelations.map fun s =>
    univariateAccumulator cpus roundSize s polys powChallenges
  let scaled := List.zipWith (fun (u : ℕ → F) (c : F) => fun k => u k * c) accumulators
    (sep.scalars accumulators.length)
  (E.subrelations.zip scaled).foldl (batchStep pow) (fun _ => 0)

/-- `partially_evaluate` of one polynomial, read from `read` of the table that is written. -/
def partiallyEvaluate (read : (ℕ → F) → ℕ → F) (roundSize : ℕ) (roundChallenge : F)
    (partiallyEvaluated : ℕ → F) : ℕ → F :=
  (List.range (roundSize / 2)).foldl (fun table i =>
    Function.update table i (read table (2 * i) +
      roundChallenge * (read table (2 * i + 1) - read table (2 * i)))) partiallyEvaluated

structure ProverState (F ι : Type) where
  polys : ι → ℕ → F
  pow : PowPolynomial F
  roundSize : ℕ

/-- A round of the prover, with the polynomials in place after the first one. -/
def proverRound (E : Flavor F ι) (cpus : ℕ) (sep : RelationSeparator F) (s : ProverState F ι)
    (roundChallenge : F) : (ℕ → F) × ProverState F ι :=
  (computeUnivariate E cpus sep s.pow s.roundSize s.polys,
    ⟨fun j => partiallyEvaluate (fun table => table) s.roundSize roundChallenge (s.polys j),
      s.pow.partiallyEvaluate roundChallenge, s.roundSize / 2⟩)

def proverRounds (E : Flavor F ι) (cpus : ℕ) (sep : RelationSeparator F) :
    ProverState F ι → List F → List (ℕ → F) × ProverState F ι
  | s, [] => ([], s)
  | s, u :: us =>
    let round := proverRound E cpus sep s u
    let rest := proverRounds E cpus sep round.2 us
    (round.1 :: rest.1, rest.2)

/-- `prove`, with the challenges that the transcript gives after each univariate: the univariates
sent and the evaluations.  The first round reads the full polynomials and writes the tables. -/
def prove (E : Flavor F ι) (cpus : ℕ) (sep : RelationSeparator F) (gateChallenges : List F)
    (polys tables : ι → ℕ → F) (challenges : List F) : Option (List (ℕ → F) × (ι → F)) := do
  let pow ← (new gateChallenges).computeValues cpus
  match challenges with
  | [] => none
  | u :: us =>
    let roundSize := 2 ^ (us.length + 1)
    let univariate := computeUnivariate E cpus sep pow roundSize polys
    let state : ProverState F ι :=
      ⟨fun j => partiallyEvaluate (fun _ => polys j) roundSize u (tables j),
        pow.partiallyEvaluate u, roundSize / 2⟩
    let rest := proverRounds E cpus sep state us
    return (univariate :: rest.1, fun j => rest.2.polys j 0)

/-! ### The verifier -/

structure VerifierState (F : Type) where
  targetTotalSum : F
  pow : PowPolynomial F
  verified : Bool

/-- A round of the verifier: `check_sum` and `compute_next_target_sum`. -/
def verifierRound [DecidableEq F] (batchedLength : ℕ) (s : VerifierState F)
    (round : (ℕ → F) × F) : VerifierState F :=
  ⟨evaluate batchedLength round.1 round.2, s.pow.partiallyEvaluate round.2,
    s.verified && decide (s.targetTotalSum = round.1 0 + round.1 1)⟩

/-- `compute_full_honk_relation_purported_value`. -/
def purportedValue (E : Flavor F ι) (sep : RelationSeparator F) (pow : PowPolynomial F)
    (evaluations : ι → F) : F :=
  ((E.subrelations.map fun s =>
    accumulate s (fun _ => 0) (fun _ => evaluations) pow.partialEvaluationResult 0).zip
      (sep.scalars E.subrelations.length)).foldl (fun output ec => output + ec.1 * ec.2) 0

/-- `verify`; without variables it aborts. -/
def verify [DecidableEq F] (E : Flavor F ι) (sep : RelationSeparator F) (gateChallenges : List F)
    (targetSum : F) (univariates : List (ℕ → F)) (challenges : List F) (evaluations : ι → F) :
    Option Bool :=
  if challenges = [] then none
  else
    let s := (univariates.zip challenges).foldl (verifierRound E.batchedLength)
      ⟨targetSum, new gateChallenges, true⟩
    some (s.verified && decide (purportedValue E sep s.pow evaluations = s.targetTotalSum))

/-! ### The powers of the gate challenges -/

/-- The product of the betas at the bits of the index that are set. -/
def powAt : List F → ℕ → F
  | [], _ => 1
  | b :: bs, i => (if i % 2 = 1 then b else 1) * powAt bs (i / 2)

@[simp] theorem powAt_zero (betas : List F) : powAt betas 0 = 1 := by
  induction betas with
  | nil => rfl
  | cons b bs ih => rw [powAt, if_neg (by omega), one_mul, Nat.zero_div, ih]

theorem powAt_even (b : F) (bs : List F) (i : ℕ) : powAt (b :: bs) (2 * i) = powAt bs i := by
  rw [powAt, if_neg (by omega), one_mul, Nat.mul_div_cancel_left _ Nat.two_pos]

theorem powAt_odd (b : F) (bs : List F) (i : ℕ) : powAt (b :: bs) (2 * i + 1) = b * powAt bs i := by
  rw [powAt, if_pos (by omega), show (2 * i + 1) / 2 = i by omega]

theorem powAt_stride (betas : List F) (m i : ℕ) :
    powAt betas (i * 2 ^ m) = powAt (betas.drop m) i := by
  induction m generalizing betas with
  | zero => rw [pow_zero, Nat.mul_one, drop_zero]
  | succ m ih =>
    cases betas with
    | nil => rw [drop_nil]; rfl
    | cons b bs =>
      rw [show i * 2 ^ (m + 1) = 2 * (i * 2 ^ m) by rw [pow_succ]; ring, powAt_even, ih,
        drop_succ_cons]

variable {idx n L i : ℕ} {betas : List F} {pow : PowPolynomial F}

theorem powLoop_eq (betas : List F) {l : List F} (hl : betas.drop idx = l) {j : ℕ}
    (hj : j < 2 ^ l.length) (res : F) : powLoop betas j idx res = res * powAt l j := by
  induction l generalizing idx j res with
  | nil =>
    obtain rfl : j = 0 := by simpa using hj
    rw [powLoop, if_neg (lt_irrefl 0), powAt, mul_one]
  | cons b bs ih =>
    have hget : betas.getD idx 0 = b := by
      rw [getD_eq_getElem?_getD, ← List.head?_drop, hl]
      rfl
    have hdrop : betas.drop (idx + 1) = bs := by
      rw [← drop_drop, hl, drop_one, tail_cons]
    rw [length_cons, pow_succ] at hj
    rw [powLoop]
    by_cases hpos : 0 < j
    · rw [if_pos hpos, ih hdrop (by omega), hget, powAt]
      by_cases hbit : j % 2 = 1
      · rw [if_pos hbit, if_pos hbit, mul_assoc]
      · rw [if_neg hbit, if_neg hbit, one_mul]
    · obtain rfl : j = 0 := by omega
      rw [if_neg hpos, powAt_zero, mul_one]

theorem computeValues_eq (cpus : ℕ) (hlen : betas.length < 31) :
    ∃ powBetas, (new betas).computeValues cpus = some { new betas with powBetas := powBetas } ∧
      ∀ i < 2 ^ betas.length, powBetas i = powAt betas i := by
  obtain ⟨b, hb, hthreads⟩ := exists_threads cpus betas.length
  simp only [← Nat.pos_iff_ne_zero] at hthreads
  have hvalues : (new betas).computeValues cpus = some { new betas with
        powBetas := parallelFor (2 ^ b) (2 ^ betas.length / 2 ^ b) (2 ^ betas.length / 2 ^ b)
          (fun i _ => powLoop betas i 0 1) (fun _ => 0) } := by
    rw [← hthreads, computeValues]
    have hshift : GeminiShplonk.shiftOne (new betas).betas.length =
        some (2 ^ betas.length) := if_pos hlen
    rw [hshift]
    rfl
  refine ⟨_, hvalues, fun i hi => ?_⟩
  rw [parallelFor_apply (Nat.two_pow_pos b), chunks_cover hb, if_pos hi,
    powLoop_eq betas (drop_zero (l := betas)) hi, one_mul]

theorem computeValues_eq_none (cpus : ℕ) (hlen : ¬betas.length < 31) :
    (new betas).computeValues cpus = none := by
  have hshift : GeminiShplonk.shiftOne (new betas).betas.length = none :=
    if_neg hlen
  rw [computeValues, hshift]
  rfl

/-! ### The round univariate -/

def Subrelation.weight (s : Subrelation F ι) (w : F) : F := if s.linearlyIndependent then w else 1

/-- The batched sum of the subrelations over the first `n` vertices. -/
def batched (l : List (Subrelation F ι × F)) (polys : ι → ℕ → F) (weight : ℕ → F) (n : ℕ) : F :=
  (l.map fun sc => sc.2 * ∑ i ∈ Finset.range n,
    sc.1.weight (weight i) * sc.1.value fun j => polys j i).sum

theorem batched_congr {l : List (Subrelation F ι × F)} {polys polys' : ι → ℕ → F}
    {weight weight' : ℕ → F} (hpolys : ∀ j, ∀ i < n, polys j i = polys' j i)
    (hweight : ∀ i < n, weight i = weight' i) :
    batched l polys weight n = batched l polys' weight' n := by
  rw [batched, batched]
  congr 2
  funext sc
  congr 1
  refine sum_congr rfl fun i hi => ?_
  have hi := Finset.mem_range.1 hi
  rw [hweight i hi]
  congr 2
  funext j
  exact hpolys j i hi

theorem extendEdges_eq (polys : ι → ℕ → F) (i k : ℕ) :
    extendEdges polys (2 * i) k = fun j => foldOnce (k : F) (polys j) i := by
  funext j
  rw [extendEdges, extendTo, if_pos rfl, linearExtension_eq, foldOnce, Nat.add_zero]

theorem foldl_accumulate (s : Subrelation F ι) (polys : ι → ℕ → F) (w : ℕ → F) (start n k : ℕ) :
    (List.range n).foldl (fun accumulator t =>
      let edgeIdx := 2 * start + 2 * t
      accumulate s accumulator (extendEdges polys edgeIdx) (w (edgeIdx / 2))) (fun _ => 0) k =
        ∑ t ∈ range n, s.weight (w (start + t)) *
          s.value fun j => foldOnce (k : F) (polys j) (start + t) := by
  induction n with
  | zero => rfl
  | succ n ih =>
    have hedge : 2 * start + 2 * n = 2 * (start + n) := by ring
    rw [range_succ, foldl_append, foldl_cons, foldl_nil, Finset.sum_range_succ]
    dsimp only
    rw [accumulate, ih, hedge, extendEdges_eq, Nat.mul_div_cancel_left _ Nat.two_pos,
      Subrelation.weight]
    congr 1
    by_cases hindependent : s.linearlyIndependent
    · rw [if_pos hindependent, if_pos hindependent]
    · rw [if_neg hindependent, if_neg hindependent, one_mul]

theorem sum_chunks (f : ℕ → F) (T c : ℕ) : ∑ t ∈ range T, ∑ i ∈ range c, f (t * c + i) =
      ∑ i ∈ range (T * c), f i := by
  induction T with
  | zero => rw [Nat.zero_mul, Finset.range_zero, Finset.sum_empty, Finset.sum_empty]
  | succ T ih => rw [Finset.sum_range_succ, ih, Nat.succ_mul, Finset.sum_range_add]

theorem calculateNumThreadsPow2_eq (cpus m : ℕ) :
    ∃ b ≤ m, calculateNumThreadsPow2 cpus (2 ^ (m + 1)) 64 = 2 ^ b := by
  have hlog : Nat.log2 (2 ^ (m + 1) / 64) ≤ m := by
    by_cases hsmall : m + 1 < 6
    · have hlt : 2 ^ (m + 1) < 64 := Nat.pow_lt_pow_right (by omega) hsmall
      rw [Nat.div_eq_of_lt hlt, Nat.log2_zero]
      exact Nat.zero_le m
    · have hdiv : 2 ^ (m + 1) / 64 = 2 ^ (m + 1 - 6) :=
        Nat.pow_div (show 6 ≤ m + 1 by omega) Nat.two_pos
      rw [hdiv, Nat.log2_two_pow]
      omega
  refine ⟨min (Nat.log2 (2 ^ (m + 1) / 64)) (Nat.log2 cpus), (min_le_left _ _).trans hlog, ?_⟩
  rw [calculateNumThreadsPow2, min_two_pow, if_pos (Nat.two_pow_pos _)]

theorem univariateAccumulator_eq (cpus m : ℕ) (s : Subrelation F ι) (polys : ι → ℕ → F)
    (w : ℕ → F) (k : ℕ) : univariateAccumulator cpus (2 ^ (m + 1)) s polys w k =
      ∑ i ∈ range (2 ^ m), s.weight (w i) * s.value fun j => foldOnce (k : F) (polys j) i := by
  obtain ⟨b, hb, hthreads⟩ := calculateNumThreadsPow2_eq cpus m
  have hiterations : 2 ^ (m + 1) / 2 ^ b = 2 * 2 ^ (m - b) := by
    rw [Nat.pow_div (by omega) Nat.two_pos, show m + 1 - b = m - b + 1 by omega, pow_succ']
  have hedges : (2 * 2 ^ (m - b) + 1) / 2 = 2 ^ (m - b) := by omega
  have hthread : ∀ t, threadUnivariate s polys w (t * (2 * 2 ^ (m - b))) (2 * 2 ^ (m - b)) k =
      ∑ i ∈ range (2 ^ (m - b)), s.weight (w (t * 2 ^ (m - b) + i)) *
        s.value fun j => foldOnce (k : F) (polys j) (t * 2 ^ (m - b) + i) := by
    intro t
    rw [threadUnivariate, hedges, show t * (2 * 2 ^ (m - b)) = 2 * (t * 2 ^ (m - b)) by ring]
    exact foldl_accumulate s polys w (t * 2 ^ (m - b)) (2 ^ (m - b)) k
  have hfold : ∀ T, (List.range T).foldl (fun accumulator t => fun k => accumulator k +
      threadUnivariate s polys w (t * (2 * 2 ^ (m - b))) (2 * 2 ^ (m - b)) k) (fun _ => 0) k =
        ∑ t ∈ range T, threadUnivariate s polys w (t * (2 * 2 ^ (m - b))) (2 * 2 ^ (m - b)) k := by
    intro T
    induction T with
    | zero => rfl
    | succ T ih =>
      rw [range_succ, foldl_append, foldl_cons, foldl_nil, ih, Finset.sum_range_succ]
  rw [univariateAccumulator, hthreads, hiterations, hfold, sum_congr rfl fun t _ => hthread t,
    sum_chunks (fun i => s.weight (w i) * s.value fun j => foldOnce (k : F) (polys j) i), ← pow_add,
    Nat.add_sub_cancel' hb]

theorem exists_accumulator (s : Subrelation F ι) (polys : ι → ℕ → F) (w : ℕ → F) (n : ℕ) :
    ∃ A : F[X], A.degree < s.partialLength ∧ ∀ x, A.eval x =
      ∑ i ∈ range n, s.weight (w i) * s.value fun j => foldOnce x (polys j) i := by
  choose q hdegree heval using fun i =>
    s.withinLength (fun j => polys j (2 * i)) fun j => polys j (2 * i + 1)
  refine ⟨∑ i ∈ range n, s.weight (w i) • q i, ?_, fun x => ?_⟩
  · rw [← mem_degreeLT]
    exact Submodule.sum_mem _ fun i _ => Submodule.smul_mem _ _ (mem_degreeLT.2 (hdegree i))
  · rw [eval_finsetSum]
    refine sum_congr rfl fun i _ => ?_
    rw [eval_smul, smul_eq_mul, heval]
    rfl

theorem le_maxPartialLength {subrelations : List (Subrelation F ι)} {s : Subrelation F ι}
    (hs : s ∈ subrelations) : s.partialLength ≤ maxPartialLength subrelations := by
  induction subrelations with
  | nil => cases hs
  | cons t l ih =>
    rw [maxPartialLength, map_cons, foldr_cons]
    rcases mem_cons.1 hs with rfl | hs
    · exact le_max_left _ _
    · exact (ih hs).trans (le_max_right _ _)

theorem randomPolynomial_eq (beta : F) (k : ℕ) :
    extendTo 2 (fun i => if i = 0 then 1 else beta) k = 1 + k * (beta - 1) := by
  rw [extendTo, if_pos rfl, linearExtension_eq, if_pos rfl, if_neg one_ne_zero]

theorem degree_mul_lt {D E : F[X]} (hD : D.degree < L) (hE : E.degree ≤ 1) :
    (D * E).degree < ((L + 1 : ℕ) : WithBot ℕ) := by
  by_cases hzero : D = 0
  · rw [hzero, zero_mul, degree_zero]
    exact WithBot.bot_lt_coe _
  · have hnat : D.natDegree < L := (natDegree_lt_iff_degree_lt hzero).2 hD
    have hline : E.natDegree ≤ 1 := natDegree_le_of_degree_le hE
    have hmul : (D * E).natDegree ≤ D.natDegree + E.natDegree := natDegree_mul_le
    refine degree_le_natDegree.trans_lt ?_
    exact Nat.cast_lt.2 (by omega)

theorem batchStep_foldl (hdistinct : Distinct F (L + 1)) (pow : PowPolynomial F) (polys : ι → ℕ → F)
    (w : ℕ → F) (n : ℕ) (l : List (Subrelation F ι × F)) (hl : ∀ sc ∈ l, sc.1.partialLength ≤ L)
    (r : ℕ → F) : ∃ S : F[X], S.degree < ((L + 1 : ℕ) : WithBot ℕ) ∧
      (∀ k < L + 1, l.foldl (fun result sc => batchStep pow result (sc.1, fun k =>
        (∑ i ∈ range n, sc.1.weight (w i) *
          sc.1.value fun j => foldOnce (k : F) (polys j) i) * sc.2)) r k = r k + S.eval (k : F)) ∧
      ∀ x, S.eval x = batched l (fun j => foldOnce x (polys j))
        (fun i => w i * (1 + x * (pow.currentElement - 1))) n := by
  induction l generalizing r with
  | nil =>
    refine ⟨0, ?_, fun k _ => ?_, fun x => ?_⟩
    · rw [degree_zero]
      exact WithBot.bot_lt_coe _
    · rw [foldl_nil, eval_zero, add_zero]
    · rw [eval_zero, batched, map_nil, sum_nil]
  | cons sc l ih =>
    obtain ⟨hs, hl⟩ := forall_mem_cons.1 hl
    obtain ⟨A, hA, hAeval⟩ := exists_accumulator sc.1 polys w n
    obtain ⟨S, hS, hSvalues, hSeval⟩ := ih hl (batchStep pow r (sc.1, fun k =>
      (∑ i ∈ range n, sc.1.weight (w i) * sc.1.value fun j => foldOnce (k : F) (polys j) i) * sc.2))
    -- The line of the power polynomial raises the degree by one.
    have hline : (if sc.1.linearlyIndependent then 1 + X * C (pow.currentElement - 1)
        else 1 : F[X]).degree ≤ 1 := by
      by_cases hindependent : sc.1.linearlyIndependent
      · rw [if_pos hindependent]
        refine (degree_add_le _ _).trans (max_le (degree_one_le.trans zero_le_one) ?_)
        rw [mul_comm]
        exact degree_C_mul_X_le _
      · rw [if_neg hindependent]
        exact degree_one_le.trans zero_le_one
    have hscaled : (A * C sc.2).degree < sc.1.partialLength := by
      rw [mul_comm, ← smul_eq_C_mul, ← mem_degreeLT]
      exact Submodule.smul_mem _ _ (mem_degreeLT.2 hA)
    refine ⟨A * C sc.2 * (if sc.1.linearlyIndependent then 1 + X * C (pow.currentElement - 1)
      else 1) + S, ?_, fun k hk => ?_, fun x => ?_⟩
    · rw [← mem_degreeLT]
      refine Submodule.add_mem _ (mem_degreeLT.2 ?_) (mem_degreeLT.2 hS)
      exact degree_mul_lt (hscaled.trans_le (Nat.cast_le.2 hs)) hline
    · have hextended : extendTo sc.1.partialLength (fun k : ℕ =>
          (∑ i ∈ range n, sc.1.weight (w i) *
            sc.1.value fun j => foldOnce (k : F) (polys j) i) * sc.2) k =
              (A * C sc.2).eval (k : F) := by
        refine extendTo_eq hdistinct hscaled (fun i _ => ?_) hk
        rw [eval_mul, hAeval, eval_C]
      rw [foldl_cons, hSvalues k hk, batchStep]
      dsimp only
      rw [hextended, randomPolynomial_eq, eval_add, ← add_assoc]
      congr 2
      generalize A * C sc.2 = D
      by_cases hindependent : sc.1.linearlyIndependent
      · rw [if_pos hindependent, if_pos hindependent, eval_mul, eval_add, eval_one, eval_mul,
          eval_X, eval_C]
      · rw [if_neg hindependent, if_neg hindependent, mul_one]
    · rw [eval_add, hSeval, batched, batched, map_cons, sum_cons]
      congr 1
      rw [eval_mul, eval_mul, hAeval, eval_C, Finset.sum_mul, Finset.sum_mul, Finset.mul_sum]
      refine sum_congr rfl fun i _ => ?_
      rw [Subrelation.weight, Subrelation.weight]
      by_cases hindependent : sc.1.linearlyIndependent
      · rw [if_pos hindependent, if_pos hindependent, if_pos hindependent, eval_add, eval_one,
          eval_mul, eval_X, eval_C]
        ring
      · rw [if_neg hindependent, if_neg hindependent, if_neg hindependent, eval_one]
        ring

/-- **The round univariate**: a polynomial within the batched length, whose value at any point is
the batched sum over the tables folded there. -/
theorem computeUnivariate_eq (E : Flavor F ι) (cpus : ℕ) (sep : RelationSeparator F)
    (pow : PowPolynomial F) (m : ℕ) (polys : ι → ℕ → F) : ∃ S : F[X], S.degree < E.batchedLength ∧
      (∀ k < E.batchedLength, computeUnivariate E cpus sep pow (2 ^ (m + 1)) polys k =
        S.eval (k : F)) ∧
      ∀ x, S.eval x = batched (E.subrelations.zip (sep.scalars E.subrelations.length))
        (fun j => foldOnce x (polys j)) (fun i => (if i = 0 then pow.partialEvaluationResult
          else pow.partialEvaluationResult * pow.powBetas (i * pow.periodicity)) *
            (1 + x * (pow.currentElement - 1))) (2 ^ m) := by
  obtain ⟨S, hS, hvalues, heval⟩ := batchStep_foldl E.distinct pow polys
    (fun i => if i = 0 then pow.partialEvaluationResult
      else pow.partialEvaluationResult * pow.powBetas (i * pow.periodicity)) (2 ^ m)
    (E.subrelations.zip (sep.scalars E.subrelations.length))
    (fun sc hsc => le_maxPartialLength (of_mem_zip hsc).1) fun _ => 0
  refine ⟨S, hS, fun k hk => ?_, heval⟩
  have hzip : ∀ (l : List (Subrelation F ι)) (cs : List F) (u : Subrelation F ι → ℕ → F),
      l.zip (List.zipWith (fun (u : ℕ → F) (c : F) => fun k => u k * c) (l.map u) cs) =
        (l.zip cs).map fun sc => (sc.1, fun k => u sc.1 k * sc.2) := by
    intro l cs u
    induction l generalizing cs with
    | nil => rfl
    | cons s l ih =>
      cases cs with
      | nil => rfl
      | cons c cs =>
        rw [map_cons, zipWith_cons_cons, zip_cons_cons, zip_cons_cons, map_cons, ih]
  have hvalue := hvalues k hk
  rw [zero_add] at hvalue
  rw [← hvalue, computeUnivariate, length_map, hzip, foldl_map]
  simp only [univariateAccumulator_eq]

/-! ### One round -/

theorem partiallyEvaluate_full (a table : ℕ → F) (u : F) (n : ℕ) (hi : i < n / 2) :
    partiallyEvaluate (fun _ => a) n u table i = foldOnce u a i := by
  have hfill := fill_foldl 0 (fun _ i => a (2 * i) + u * (a (2 * i + 1) - a (2 * i)))
    (foldOnce u a) table (n / 2) (fun _ _ _ _ => rfl) i
  simp only [Nat.zero_add, Nat.zero_le, true_and, Nat.sub_zero, if_pos hi] at hfill
  exact hfill

theorem partiallyEvaluate_inPlace (a : ℕ → F) (u : F) (n : ℕ) (hi : i < n / 2) :
    partiallyEvaluate (fun table => table) n u a i = foldOnce u a i := by
  have hfill := fill_foldl 0 (fun s i => s (2 * i) + u * (s (2 * i + 1) - s (2 * i)))
    (foldOnce u a) a (n / 2) (fun i _ s hs => by
      rw [hs (2 * i) fun i' hi' => by omega, hs (2 * i + 1) fun i' hi' => by omega, foldOnce]) i
  simp only [Nat.zero_add, Nat.zero_le, true_and, Nat.sub_zero, if_pos hi] at hfill
  exact hfill

structure Ready (pow : PowPolynomial F) (betas : List F) (idx : ℕ) : Prop where
  betas_eq : pow.betas = betas
  currentElementIdx : pow.currentElementIdx = idx
  periodicity : pow.periodicity = 2 ^ (idx + 1)
  powBetas : ∀ i < 2 ^ betas.length, pow.powBetas i = powAt betas i

theorem Ready.partiallyEvaluate (h : Ready pow betas idx) (u : F) :
    Ready (pow.partiallyEvaluate u) betas (idx + 1) := by
  refine ⟨h.betas_eq, ?_, ?_, h.powBetas⟩
  · rw [← h.currentElementIdx]
    rfl
  · rw [pow_succ, ← h.periodicity]
    rfl

theorem Ready.currentElement {b : F} {bs : List F} (h : Ready pow betas idx)
    (hdrop : betas.drop idx = b :: bs) : pow.currentElement = b := by
  rw [PowPolynomial.currentElement, h.betas_eq, h.currentElementIdx, getD_eq_getElem?_getD,
    ← List.head?_drop, hdrop]
  rfl

theorem foldOnce_zero (a : ℕ → F) (i : ℕ) : foldOnce 0 a i = a (2 * i) := by
  rw [foldOnce, zero_mul, add_zero]

theorem foldOnce_one (a : ℕ → F) (i : ℕ) : foldOnce 1 a i = a (2 * i + 1) := by
  rw [foldOnce, one_mul, add_sub_cancel]

theorem batched_double (l : List (Subrelation F ι × F)) (polys : ι → ℕ → F) (c b : F) (bs : List F)
    (n : ℕ) :
    batched l (fun j => foldOnce 0 (polys j)) (fun i => c * powAt bs i * (1 + 0 * (b - 1))) n +
        batched l (fun j => foldOnce 1 (polys j)) (fun i => c * powAt bs i * (1 + 1 * (b - 1))) n =
      batched l polys (fun i => c * powAt (b :: bs) i) (2 * n) := by
  rw [batched, batched, batched, ← sum_map_add]
  congr 2
  funext sc
  rw [← mul_add, ← Finset.sum_add_distrib, sum_range_double]
  congr 1
  refine sum_congr rfl fun i _ => ?_
  simp only [foldOnce_zero, foldOnce_one, powAt_even, powAt_odd]
  rw [show c * powAt bs i * (1 + 0 * (b - 1)) = c * powAt bs i by ring,
    show c * powAt bs i * (1 + 1 * (b - 1)) = c * (b * powAt bs i) by ring]

section Round

variable (E : Flavor F ι) (cpus : ℕ) (sep : RelationSeparator F)

def Flavor.scaled : List (Subrelation F ι × F) :=
  E.subrelations.zip (sep.scalars E.subrelations.length)

theorem one_lt_batchedLength : 1 < E.batchedLength :=
  Nat.lt_succ_of_le (Nat.le_of_succ_le E.two_le)

theorem round_complete {pow : PowPolynomial F} {betas : List F} {idx m : ℕ}
    (hready : Ready pow betas idx) (hlen : betas.length = idx + (m + 1)) (polys : ι → ℕ → F)
    {u : F} (hu : ∀ i < E.batchedLength, u ≠ i) :
    computeUnivariate E cpus sep pow (2 ^ (m + 1)) polys 0 +
        computeUnivariate E cpus sep pow (2 ^ (m + 1)) polys 1 = batched (E.scaled sep) polys
        (fun i => pow.partialEvaluationResult * powAt (betas.drop idx) i) (2 ^ (m + 1)) ∧
    ∀ polys' : ι → ℕ → F, (∀ j, ∀ i < 2 ^ m, polys' j i = foldOnce u (polys j) i) →
      evaluate E.batchedLength (computeUnivariate E cpus sep pow (2 ^ (m + 1)) polys) u =
        batched (E.scaled sep) polys' (fun i =>
          (pow.partiallyEvaluate u).partialEvaluationResult * powAt (betas.drop (idx + 1)) i)
          (2 ^ m) := by
  obtain ⟨b, bs, hdrop⟩ : ∃ b bs, betas.drop idx = b :: bs := by
    refine exists_cons_of_ne_nil fun hnil => ?_
    have hlength := congrArg List.length hnil
    rw [length_drop, hlen, length_nil] at hlength
    omega
  have hnext : betas.drop (idx + 1) = bs := by
    rw [← drop_drop, hdrop, drop_one, tail_cons]
  have hb := hready.currentElement hdrop
  obtain ⟨S, hS, hvalues, heval⟩ := computeUnivariate_eq E cpus sep pow m polys
  -- The weights are the strided powers times the line of this round.
  have hweights : ∀ x, S.eval x = batched (E.scaled sep) (fun j => foldOnce x (polys j))
      (fun i => pow.partialEvaluationResult * powAt bs i * (1 + x * (b - 1))) (2 ^ m) := by
    intro x
    rw [heval, hb]
    refine batched_congr (fun _ _ _ => rfl) fun i hi => ?_
    congr 1
    by_cases hzero : i = 0
    · rw [if_pos hzero, hzero, powAt_zero, mul_one]
    · have hlt : i * 2 ^ (idx + 1) < 2 ^ betas.length := by
        rw [hlen, show idx + (m + 1) = m + (idx + 1) by omega, pow_add 2 m]
        exact Nat.mul_lt_mul_of_pos_right hi (Nat.two_pow_pos _)
      rw [if_neg hzero, hready.periodicity, hready.powBetas _ hlt, powAt_stride, hnext]
  refine ⟨?_, fun polys' hpolys' => ?_⟩
  · rw [hvalues 0 (Nat.zero_lt_of_lt (one_lt_batchedLength E)), hvalues 1 (one_lt_batchedLength E),
      Nat.cast_zero, Nat.cast_one, hweights, hweights, hdrop, batched_double, ← pow_succ']
  · have hvalue : evaluate E.batchedLength
        (computeUnivariate E cpus sep pow (2 ^ (m + 1)) polys) u = S.eval u :=
      evaluate_eq E.distinct hS hvalues hu
    rw [hvalue, hweights, hnext]
    refine batched_congr (fun j i hi => (hpolys' j i hi).symm) fun i _ => ?_
    rw [PowPolynomial.partiallyEvaluate, PowPolynomial.univariateEval, hb]
    ring

/-! ### All rounds -/

omit E cpus sep in
def Checks (batchedLength : ℕ) : F → List ((ℕ → F) × F) → Prop
  | _, [] => True
  | target, round :: rounds => target = round.1 0 + round.1 1 ∧
      Checks batchedLength (evaluate batchedLength round.1 round.2) rounds

def finalTarget (batchedLength : ℕ) : F → List ((ℕ → F) × F) → F
  | target, [] => target
  | _, round :: rounds => finalTarget batchedLength (evaluate batchedLength round.1 round.2) rounds

theorem verifierRound_foldl [DecidableEq F] (B : ℕ) (rounds : List ((ℕ → F) × F))
    (s : VerifierState F) :
    (rounds.foldl (verifierRound B) s).targetTotalSum = finalTarget B s.targetTotalSum rounds ∧
      (rounds.foldl (verifierRound B) s).pow =
        (rounds.map Prod.snd).foldl PowPolynomial.partiallyEvaluate s.pow ∧
      ((rounds.foldl (verifierRound B) s).verified = true ↔
        s.verified = true ∧ Checks B s.targetTotalSum rounds) := by
  induction rounds generalizing s with
  | nil => exact ⟨rfl, rfl, (and_iff_left trivial).symm⟩
  | cons round rounds ih =>
    obtain ⟨htarget, hpow, hverified⟩ := ih (verifierRound B s round)
    refine ⟨htarget, hpow, hverified.trans ?_⟩
    rw [verifierRound, Checks]
    simp only [Bool.and_eq_true, decide_eq_true_eq, and_assoc]

theorem rounds_complete {betas : List F} (us : List F)
    (hus : ∀ u ∈ us, ∀ i < E.batchedLength, u ≠ i) {idx : ℕ} {s : ProverState F ι}
    (hready : Ready s.pow betas idx) (hlen : betas.length = idx + us.length)
    (hsize : s.roundSize = 2 ^ us.length) {target : F}
    (htarget : target = batched (E.scaled sep) s.polys
      (fun i => s.pow.partialEvaluationResult * powAt (betas.drop idx) i) (2 ^ us.length)) :
    (proverRounds E cpus sep s us).1.length = us.length ∧
      Checks E.batchedLength target ((proverRounds E cpus sep s us).1.zip us) ∧
      finalTarget E.batchedLength target ((proverRounds E cpus sep s us).1.zip us) =
        batched (E.scaled sep) (proverRounds E cpus sep s us).2.polys
          (fun _ => (us.foldl PowPolynomial.partiallyEvaluate s.pow).partialEvaluationResult) 1 ∧
      ∀ j, (proverRounds E cpus sep s us).2.polys j 0 = multilinear us (s.polys j) := by
  induction us generalizing idx s target with
  | nil =>
    refine ⟨rfl, trivial, ?_, fun j => (multilinear_nil _).symm⟩
    rw [length_nil, pow_zero] at htarget
    refine htarget.trans (batched_congr (fun _ _ _ => rfl) fun i hi => ?_)
    rw [show i = 0 by omega, powAt_zero, mul_one]
    rfl
  | cons u us ih =>
    obtain ⟨hu, hus⟩ := forall_mem_cons.1 hus
    rw [length_cons] at hlen hsize htarget
    obtain ⟨hsum, hnext⟩ := round_complete E cpus sep hready hlen s.polys hu
    have hhalf : 2 ^ (us.length + 1) / 2 = 2 ^ us.length := by
      rw [pow_succ, Nat.mul_div_cancel _ Nat.two_pos]
    have hfolded : ∀ j, ∀ i < 2 ^ us.length,
        (proverRound E cpus sep s u).2.polys j i = foldOnce u (s.polys j) i := by
      intro j i hi
      exact partiallyEvaluate_inPlace _ _ _ (by rw [hsize, hhalf]; exact hi)
    have hround : (proverRound E cpus sep s u).1 =
        computeUnivariate E cpus sep s.pow (2 ^ (us.length + 1)) s.polys := by
      rw [← hsize]
      rfl
    obtain ⟨hlength, hchecks, hfinal, hevaluations⟩ := ih hus (hready.partiallyEvaluate u)
      (s := (proverRound E cpus sep s u).2) (by omega) (by rw [← hhalf, ← hsize]; rfl)
      (hnext _ hfolded)
    rw [proverRounds]
    dsimp only
    rw [zip_cons_cons, Checks, finalTarget, hround]
    refine ⟨congrArg (· + 1) hlength, ⟨htarget.trans hsum.symm, hchecks⟩, hfinal, fun j => ?_⟩
    rw [hevaluations j, multilinear_cons]
    exact multilinear_congr (hfolded j)

theorem purportedValue_eq (pow : PowPolynomial F) (polys : ι → ℕ → F) :
    purportedValue E sep pow (fun j => polys j 0) =
      batched (E.scaled sep) polys (fun _ => pow.partialEvaluationResult) 1 := by
  have hfold : ∀ (l : List (Subrelation F ι × F)) (output : F),
      l.foldl (fun output sc => output + accumulate sc.1 (fun _ => 0) (fun _ j => polys j 0)
        pow.partialEvaluationResult 0 * sc.2) output =
          output + batched l polys (fun _ => pow.partialEvaluationResult) 1 := by
    intro l output
    induction l generalizing output with
    | nil => rw [foldl_nil, batched, map_nil, sum_nil, add_zero]
    | cons sc l ih =>
      rw [foldl_cons, ih, batched, batched, map_cons, sum_cons, ← add_assoc]
      congr 2
      rw [Finset.sum_range_one, accumulate, zero_add, mul_comm, Subrelation.weight]
      congr 1
      by_cases hindependent : sc.1.linearlyIndependent
      · rw [if_pos hindependent, if_pos hindependent]
      · rw [if_neg hindependent, if_neg hindependent, one_mul]
  rw [purportedValue, zip_map_left, foldl_map]
  exact (hfold _ 0).trans (zero_add _)

end Round

/-! ### Completeness -/

/-- What a run of the protocol is given: polynomials with `2 ^ d` values, `d` gate challenges, and
the `d` challenges that the transcript gives, at none of which a univariate is known. -/
structure Run (E : Flavor F ι) where
  cpus : ℕ
  sep : RelationSeparator F
  gateChallenges : List F
  challenges : List F
  polys : ι → ℕ → F
  tables : ι → ℕ → F
  challenges_ne_nil : challenges ≠ []
  length_gateChallenges : gateChallenges.length = challenges.length
  outside : ∀ u ∈ challenges, ∀ i < E.batchedLength, u ≠ i

namespace Run

variable {E : Flavor F ι} (R : Run E)

/-- The sum over the hypercube of the batched subrelations, the linearly independent ones weighted
with the betas at the bits of the vertex. -/
def targetSum : F :=
  batched (E.scaled R.sep) R.polys (powAt R.gateChallenges) (2 ^ R.challenges.length)

def finalPow : PowPolynomial F :=
  R.challenges.foldl PowPolynomial.partiallyEvaluate (PowPolynomial.new R.gateChallenges)

def Complete [DecidableEq F] : Prop :=
  ∃ univariates evaluations,
    prove E R.cpus R.sep R.gateChallenges R.polys R.tables R.challenges =
      some (univariates, evaluations) ∧
    univariates.length = R.challenges.length ∧
    Checks E.batchedLength R.targetSum (univariates.zip R.challenges) ∧
    (∀ j, evaluations j = multilinear R.challenges (R.polys j)) ∧
    purportedValue E R.sep R.finalPow evaluations =
      finalTarget E.batchedLength R.targetSum (univariates.zip R.challenges) ∧
    verify E R.sep R.gateChallenges R.targetSum univariates R.challenges evaluations = some true

end Run

theorem partiallyEvaluate_foldl (us : List F) (pow : PowPolynomial F) (powBetas : ℕ → F) :
    (us.foldl PowPolynomial.partiallyEvaluate
        { pow with powBetas := powBetas }).partialEvaluationResult =
      (us.foldl PowPolynomial.partiallyEvaluate pow).partialEvaluationResult := by
  induction us generalizing pow with
  | nil => rfl
  | cons u us ih => exact ih (pow.partiallyEvaluate u)

theorem verify_eq [DecidableEq F] {E : Flavor F ι} (R : Run E) {univariates : List (ℕ → F)}
    {evaluations : ι → F} (hlength : univariates.length = R.challenges.length)
    (hchecks : Checks E.batchedLength R.targetSum (univariates.zip R.challenges))
    (hfinal : purportedValue E R.sep R.finalPow evaluations =
      finalTarget E.batchedLength R.targetSum (univariates.zip R.challenges)) :
    verify E R.sep R.gateChallenges R.targetSum univariates R.challenges evaluations =
      some true := by
  obtain ⟨htarget, hpow, hverified⟩ := verifierRound_foldl E.batchedLength
    (univariates.zip R.challenges) ⟨R.targetSum, PowPolynomial.new R.gateChallenges, true⟩
  rw [map_snd_zip (le_of_eq hlength.symm)] at hpow
  rw [verify, if_neg R.challenges_ne_nil]
  dsimp only
  rw [htarget, hpow, hverified.2 ⟨rfl, hchecks⟩, Bool.true_and]
  exact congrArg some (decide_eq_true hfinal)

theorem complete_of_lt [DecidableEq F] {E : Flavor F ι} (R : Run E)
    (hlen : R.challenges.length < 31) : R.Complete := by
  obtain ⟨powBetas, hpow, hpowBetas⟩ := computeValues_eq R.cpus
    (show R.gateChallenges.length < 31 by rwa [R.length_gateChallenges])
  obtain ⟨u, us, hchallenges⟩ := exists_cons_of_ne_nil R.challenges_ne_nil
  have hlength := R.length_gateChallenges
  have houtside := R.outside
  rw [hchallenges] at houtside
  rw [hchallenges, length_cons] at hlength
  obtain ⟨hu, hus⟩ := forall_mem_cons.1 houtside
  obtain ⟨pow, hpow₀⟩ : ∃ pow, pow = { PowPolynomial.new R.gateChallenges with
    powBetas := powBetas } := ⟨_, rfl⟩
  have hready : Ready pow R.gateChallenges 0 := by
    rw [hpow₀]
    exact ⟨rfl, rfl, rfl, hpowBetas⟩
  -- The first round reads the full polynomials.
  obtain ⟨hsum, hnext⟩ := round_complete E R.cpus R.sep hready
    (by rw [hlength, Nat.zero_add]) R.polys hu
  have hhalf : 2 ^ (us.length + 1) / 2 = 2 ^ us.length := by
    rw [pow_succ, Nat.mul_div_cancel _ Nat.two_pos]
  have hfolded : ∀ j, ∀ i < 2 ^ us.length,
      partiallyEvaluate (fun _ => R.polys j) (2 ^ (us.length + 1)) u (R.tables j) i =
        foldOnce u (R.polys j) i := by
    intro j i hi
    exact partiallyEvaluate_full _ _ _ _ (by rw [hhalf]; exact hi)
  obtain ⟨state, hstate⟩ : ∃ s : ProverState F ι, s = ⟨fun j => partiallyEvaluate
    (fun _ => R.polys j) (2 ^ (us.length + 1)) u (R.tables j), pow.partiallyEvaluate u,
    2 ^ (us.length + 1) / 2⟩ := ⟨_, rfl⟩
  have hprove : prove E R.cpus R.sep R.gateChallenges R.polys R.tables R.challenges =
      some (computeUnivariate E R.cpus R.sep pow (2 ^ (us.length + 1)) R.polys ::
        (proverRounds E R.cpus R.sep state us).1,
        fun j => (proverRounds E R.cpus R.sep state us).2.polys j 0) := by
    rw [prove, hpow, hchallenges, hstate, hpow₀]
    rfl
  have hpolys : ∀ j, ∀ i < 2 ^ us.length, state.polys j i = foldOnce u (R.polys j) i := by
    rw [hstate]
    exact hfolded
  have hstatePow : state.pow = pow.partiallyEvaluate u := by rw [hstate]
  have hstateReady : Ready state.pow R.gateChallenges 1 := by
    rw [hstatePow]
    exact hready.partiallyEvaluate u
  obtain ⟨hrest, hchecks, hfinal, hevaluations⟩ := rounds_complete E R.cpus R.sep us hus
    hstateReady (by rw [hlength, Nat.add_comm]) (by rw [hstate, ← hhalf])
    ((hnext _ hpolys).trans (by rw [hstatePow]))
  have htarget : R.targetSum = batched (E.scaled R.sep) R.polys
      (fun i => pow.partialEvaluationResult * powAt (R.gateChallenges.drop 0) i)
      (2 ^ (us.length + 1)) := by
    rw [Run.targetSum, hchallenges, length_cons]
    refine batched_congr (fun _ _ _ => rfl) fun i _ => ?_
    rw [hpow₀, drop_zero]
    exact (one_mul _).symm
  have hfinalPow : (us.foldl PowPolynomial.partiallyEvaluate
      (pow.partiallyEvaluate u)).partialEvaluationResult = R.finalPow.partialEvaluationResult := by
    have hfold := partiallyEvaluate_foldl R.challenges (PowPolynomial.new R.gateChallenges) powBetas
    rw [← hpow₀, hchallenges, foldl_cons] at hfold
    rw [hfold, Run.finalPow, hchallenges, foldl_cons]
  have hlengths : (computeUnivariate E R.cpus R.sep pow (2 ^ (us.length + 1)) R.polys ::
      (proverRounds E R.cpus R.sep state us).1).length = R.challenges.length := by
    rw [hchallenges, length_cons, length_cons, hrest]
  have hall : Checks E.batchedLength R.targetSum
      ((computeUnivariate E R.cpus R.sep pow (2 ^ (us.length + 1)) R.polys ::
        (proverRounds E R.cpus R.sep state us).1).zip R.challenges) := by
    rw [hchallenges, zip_cons_cons]
    exact ⟨htarget.trans hsum.symm, hchecks⟩
  have hlast : purportedValue E R.sep R.finalPow
      (fun j => (proverRounds E R.cpus R.sep state us).2.polys j 0) =
        finalTarget E.batchedLength R.targetSum
          ((computeUnivariate E R.cpus R.sep pow (2 ^ (us.length + 1)) R.polys ::
            (proverRounds E R.cpus R.sep state us).1).zip R.challenges) := by
    rw [purportedValue_eq, ← hfinalPow, hchallenges, zip_cons_cons, finalTarget, hfinal, hstatePow]
  refine ⟨_, _, hprove, hlengths, hall, fun j => ?_, hlast, verify_eq R hlengths hall hlast⟩
  rw [hevaluations j, hchallenges, multilinear_cons]
  exact multilinear_congr (hpolys j)

/-- **The protocol is complete exactly for fewer than 31 variables**, the number from which on the
size of the table of powers, shifted in an `int`, is not the number of vertices. -/
theorem complete_iff [DecidableEq F] {E : Flavor F ι} (R : Run E) :
    R.Complete ↔ R.challenges.length < 31 := by
  refine ⟨?_, complete_of_lt R⟩
  rintro ⟨univariates, evaluations, hprove, -⟩
  by_contra hlen
  rw [← R.length_gateChallenges] at hlen
  rw [prove, computeValues_eq_none R.cpus hlen] at hprove
  cases hprove

/-! ### A flavor over the scalar field -/

theorem distinct_FF (hn : n ≤ Kernel.fieldModulus) : Distinct FF n := by
  intro i hi j hj hij
  rw [ZMod.natCast_eq_natCast_iff'] at hij
  rwa [Nat.mod_eq_of_lt (by omega), Nat.mod_eq_of_lt (by omega)] at hij

/-- A product of two entities, and one of them alone in a dependent subrelation. -/
noncomputable def productFlavor : Flavor FF (Fin 2) where
  subrelations :=
    [.ofPolynomial (MvPolynomial.X 0 * MvPolynomial.X 1) 3 true (by
        refine (MvPolynomial.totalDegree_mul _ _).trans_lt ?_
        rw [MvPolynomial.totalDegree_X, MvPolynomial.totalDegree_X]
        norm_num),
      .ofPolynomial (MvPolynomial.X 0) 2 false (by
        rw [MvPolynomial.totalDegree_X]
        norm_num)]
  two_le := by decide
  distinct := distinct_FF (by decide)

theorem five_atLeastTwo : Nat.AtLeastTwo 5 := ⟨by decide⟩

attribute [local instance] GeminiShplonk.two_atLeastTwo five_atLeastTwo in
noncomputable def longRun : Run productFlavor where
  cpus := 1
  sep := .power 2
  gateChallenges := List.replicate 31 1
  challenges := List.replicate 31 5
  polys := fun _ _ => 0
  tables := fun _ _ => 0
  challenges_ne_nil := by decide
  length_gateChallenges := by rw [length_replicate, length_replicate]
  outside := by
    intro u hu i hi heq
    rw [eq_of_mem_replicate hu] at heq
    have hi : i < 4 := hi
    have hfive := distinct_FF (n := 6) (by decide) 5 (by omega) i (by omega) heq
    omega

/-- Not every run is complete. -/
theorem not_complete : ¬∀ (E : Flavor FF (Fin 2)) (R : Run E), R.Complete := by
  intro h
  obtain ⟨univariates, evaluations, hprove, -⟩ := h productFlavor longRun
  have hnone := computeValues_eq_none longRun.cpus
    (show ¬longRun.gateChallenges.length < 31 by
      rw [show longRun.gateChallenges = List.replicate 31 1 from rfl, length_replicate]
      exact lt_irrefl 31)
  rw [prove, hnone] at hprove
  cases hprove

/-! ### Soundness -/

variable {B : ℕ} {s h : ℕ → F}

/-- The points, apart from those of the values, at which two univariates cannot be told apart. -/
def Exceptional (B : ℕ) (s h : ℕ → F) : Set F :=
  {u | (∀ i < B, u ≠ i) ∧ evaluate B s u = evaluate B h u}

theorem encard_exceptional_lt (hdistinct : Distinct F B) (hne : ∃ k < B, s k ≠ h k) :
    (Exceptional B s h).encard < B := by
  obtain ⟨k, hk, hne⟩ := hne
  have hinj : Set.InjOn (fun i : ℕ => (i : F)) (Finset.range B) := by
    intro i hi j hj hij
    exact hdistinct i (Finset.mem_range.1 hi) j (Finset.mem_range.1 hj) hij
  let p (v : ℕ → F) : F[X] := Lagrange.interpolate (Finset.range B) (fun i : ℕ => (i : F)) v
  have hdegree : ∀ v, (p v).degree < B := by
    intro v
    have hlt := Lagrange.degree_interpolate_lt v hinj
    rwa [Finset.card_range] at hlt
  have hvalues : ∀ v, ∀ i < B, v i = (p v).eval (i : F) := by
    intro v i hi
    exact (Lagrange.eval_interpolate_at_node v hinj (Finset.mem_range.2 hi)).symm
  have hzero : p s - p h ≠ 0 := by
    intro hzero
    refine hne ?_
    rw [hvalues s k hk, hvalues h k hk, sub_eq_zero.1 hzero]
  classical
  have hsub : Exceptional B s h ⊆ (p s - p h).roots.toFinset := by
    rintro u ⟨hu, hmeet⟩
    rw [evaluate_eq hdistinct (hdegree s) (hvalues s) hu,
      evaluate_eq hdistinct (hdegree h) (hvalues h) hu] at hmeet
    rw [Finset.mem_coe, Multiset.mem_toFinset, mem_roots hzero, IsRoot, eval_sub, hmeet, sub_self]
  have hnat : (p s - p h).natDegree < B := by
    rw [natDegree_lt_iff_degree_lt hzero]
    exact (degree_sub_le _ _).trans_lt (max_lt (hdegree s) (hdegree h))
  refine (Set.encard_le_encard hsub).trans_lt ?_
  rw [Set.encard_coe_eq_coe_finsetCard, Nat.cast_lt]
  exact ((Multiset.toFinset_card_le _).trans (card_roots' _)).trans_lt hnat

/-- Sums that differ at first and agree at last have met in some round. -/
theorem exists_exceptional (hB : 1 < B) {us : List F} (hus : ∀ u ∈ us, ∀ i < B, u ≠ i)
    {target target' : F} {sent honest : List (ℕ → F)} (hsent : sent.length = us.length)
    (hhonest : honest.length = us.length) (hchecks : Checks B target (sent.zip us))
    (hchecks' : Checks B target' (honest.zip us))
    (hfinal : finalTarget B target (sent.zip us) = finalTarget B target' (honest.zip us))
    (hne : target ≠ target') : ∃ (i : ℕ) (u : F) (s h : ℕ → F), us[i]? = some u ∧
      sent[i]? = some s ∧ honest[i]? = some h ∧ (∃ k < B, s k ≠ h k) ∧ u ∈ Exceptional B s h := by
  induction us generalizing target target' sent honest with
  | nil =>
    rw [zip_nil_right, zip_nil_right] at hfinal
    exact absurd hfinal hne
  | cons u us ih =>
    obtain ⟨s, sent, rfl⟩ := exists_cons_of_length_eq_add_one hsent
    obtain ⟨h, honest, rfl⟩ := exists_cons_of_length_eq_add_one hhonest
    obtain ⟨hu, hus⟩ := forall_mem_cons.1 hus
    rw [zip_cons_cons, Checks] at hchecks hchecks'
    dsimp only at hchecks hchecks'
    rw [zip_cons_cons, finalTarget, zip_cons_cons, finalTarget] at hfinal
    by_cases hmeet : evaluate B s u = evaluate B h u
    · refine ⟨0, u, s, h, rfl, rfl, rfl, ?_, hu, hmeet⟩
      by_contra hsame
      push Not at hsame
      refine hne ?_
      rw [hchecks.1, hchecks'.1, hsame 0 (by omega), hsame 1 hB]
    · obtain ⟨i, hround⟩ := ih hus (Nat.succ.inj hsent) (Nat.succ.inj hhonest) hchecks.2
        hchecks'.2 hfinal hmeet
      exact ⟨i + 1, hround⟩

variable {E : Flavor F ι}

/-- What is sent in a round depends on the challenges before it only. -/
theorem proverRounds_of_take {cpus i : ℕ} {sep : RelationSeparator F} {us us' : List F}
    (hlength : us.length = us'.length) (htake : us.take i = us'.take i) (s : ProverState F ι) :
    (proverRounds E cpus sep s us).1[i]? = (proverRounds E cpus sep s us').1[i]? := by
  induction us generalizing us' i s with
  | nil =>
    obtain rfl := length_eq_zero_iff.1 hlength.symm
    rfl
  | cons u us ih =>
    obtain ⟨u', us', rfl⟩ := exists_cons_of_length_eq_add_one hlength.symm
    cases i with
    | zero => rfl
    | succ i =>
      rw [take_succ_cons, take_succ_cons, cons.injEq] at htake
      obtain ⟨rfl, htake⟩ := htake
      exact ih (Nat.succ.inj hlength) htake _

theorem prove_of_take {cpus i : ℕ} {sep : RelationSeparator F} {gateChallenges us us' : List F}
    {polys tables : ι → ℕ → F} (hlength : us.length = us'.length) (htake : us.take i = us'.take i) :
    (prove E cpus sep gateChallenges polys tables us).map (fun sent => sent.1[i]?) =
      (prove E cpus sep gateChallenges polys tables us').map fun sent => sent.1[i]? := by
  cases us with
  | nil =>
    obtain rfl := length_eq_zero_iff.1 hlength.symm
    rfl
  | cons u us =>
    obtain ⟨u', us', rfl⟩ := exists_cons_of_length_eq_add_one hlength.symm
    have hus : us.length = us'.length := Nat.succ.inj hlength
    rw [prove, prove]
    cases (new gateChallenges).computeValues cpus with
    | none => rfl
    | some pow =>
      refine congrArg some ?_
      dsimp only
      rw [hus]
      cases i with
      | zero => rfl
      | succ i =>
        rw [take_succ_cons, take_succ_cons, cons.injEq] at htake
        obtain ⟨rfl, htake⟩ := htake
        rw [getElem?_cons_succ, getElem?_cons_succ, proverRounds_of_take hus htake]

/-- In some round the univariate that was sent is not the one that the prover computes from the
challenges before it, and the challenge is one of the few points at which they cannot be told
apart. -/
def Run.Lucky (R : Run E) (univariates : List (ℕ → F)) : Prop :=
  ∃ (i : ℕ) (u : F) (s h : ℕ → F), R.challenges[i]? = some u ∧ univariates[i]? = some s ∧
    (∃ k < E.batchedLength, s k ≠ h k) ∧ u ∈ Exceptional E.batchedLength s h ∧
    (Exceptional E.batchedLength s h).encard < E.batchedLength ∧
    ∀ challenges : List F, R.challenges.length = challenges.length →
      R.challenges.take i = challenges.take i →
        (prove E R.cpus R.sep R.gateChallenges R.polys R.tables challenges).map
          (fun sent => sent.1[i]?) = some (some h)

/-- **A sum that is wrong is accepted only by luck**, if the evaluations are right. -/
theorem soundness [DecidableEq F] (R : Run E) (hlt : R.challenges.length < 31) {target : F}
    {univariates : List (ℕ → F)} (hlength : univariates.length = R.challenges.length)
    (hne : target ≠ R.targetSum) (haccepts : verify E R.sep R.gateChallenges target univariates
      R.challenges (fun j => multilinear R.challenges (R.polys j)) = some true) :
    R.Lucky univariates := by
  obtain ⟨honest, evaluations, hprove, hhonest, hchecks', hevaluations, hfinal', -⟩ :=
    complete_of_lt R hlt
  obtain rfl := funext hevaluations
  obtain ⟨htarget, hpow, hverified⟩ := verifierRound_foldl E.batchedLength
    (univariates.zip R.challenges) ⟨target, PowPolynomial.new R.gateChallenges, true⟩
  rw [map_snd_zip (le_of_eq hlength.symm)] at hpow
  rw [verify, if_neg R.challenges_ne_nil] at haccepts
  have haccepts := Option.some.inj haccepts
  rw [Bool.and_eq_true, decide_eq_true_eq, hverified, htarget, hpow] at haccepts
  obtain ⟨⟨-, hchecks⟩, hfinal⟩ := haccepts
  obtain ⟨i, u, s, h, hu, hs, hh, hdiffer, hmeet⟩ := exists_exceptional (one_lt_batchedLength E)
    R.outside hlength hhonest hchecks hchecks' (hfinal.symm.trans hfinal') hne
  refine ⟨i, u, s, h, hu, hs, hdiffer, hmeet, encard_exceptional_lt E.distinct hdiffer, ?_⟩
  intro challenges hlength htake
  rw [← prove_of_take hlength htake, hprove, Option.map_some, hh]

attribute [local instance] GeminiShplonk.two_atLeastTwo five_atLeastTwo in
/-- One variable, and polynomials that are zero. -/
noncomputable def shortRun : Run productFlavor :=
  { longRun with
    gateChallenges := [1]
    challenges := [5]
    challenges_ne_nil := cons_ne_nil _ _
    length_gateChallenges := rfl
    outside := fun u hu =>
      longRun.outside u (mem_singleton.1 hu ▸ mem_replicate.2 ⟨by decide, rfl⟩) }

attribute [local instance] GeminiShplonk.two_atLeastTwo five_atLeastTwo in
/-- The sum is claimed to be nine less, with a univariate that is zero at the challenge. -/
theorem soundness_shortRun : shortRun.Lucky [fun k : ℕ => (k : FF) - 5] := by
  have hroot : evaluate productFlavor.batchedLength (fun k : ℕ => (k : FF) - 5) 5 = 0 := by
    refine (evaluate_eq (p := X - C 5) productFlavor.distinct ?_ (fun i _ => ?_)
      (shortRun.outside 5 (mem_singleton_self 5))).trans ?_
    · rw [degree_X_sub_C]
      exact Nat.one_lt_cast.2 (one_lt_batchedLength _)
    · rw [eval_sub, eval_X, eval_C]
    · rw [eval_sub, eval_X, eval_C, sub_self]
  have hzero : shortRun.targetSum = 0 := by
    simp [Run.targetSum, batched, Flavor.scaled, productFlavor, shortRun, longRun,
      Subrelation.ofPolynomial, RelationSeparator.scalars, runningChallenges]
  have hne : (0 - 5) + (1 - 5) ≠ shortRun.targetSum := by
    rw [hzero]
    decide
  have hvalue : ∀ pow, purportedValue productFlavor (.power 2) pow
      (fun j => multilinear shortRun.challenges (shortRun.polys j)) = 0 := by
    intro pow
    simp [purportedValue, productFlavor, accumulate, Subrelation.ofPolynomial, multilinear,
      shortRun, longRun, RelationSeparator.scalars, runningChallenges]
  refine soundness shortRun (by decide) rfl hne ?_
  rw [verify, if_neg shortRun.challenges_ne_nil]
  dsimp only
  rw [show shortRun.sep = .power 2 from rfl, hvalue]
  simp [verifierRound, shortRun, hroot]

end Sumcheck
