/-
**ZeroMorph.**

`ZeroMorphProver_` proves the evaluations of multilinear polynomials, of shifts and of
concatenations at one point; `ZeroMorphVerifier_` recomputes from the commitments what the prover
has committed to.  A commitment is the value at a secret point.
-/

import Aztec.Multilinear
import Aztec.PolynomialArrays
import Mathlib.Algebra.Polynomial.Eval.SMul
import Mathlib.Data.List.Forall2
import Mathlib.Data.List.GetD
import Mathlib.Tactic.FieldSimp
import Mathlib.Tactic.Module

open Polynomial List
open List (map_map replicate zipWith)

namespace ZeroMorph

open LowDivision Multilinear PolynomialArrays PolynomialRoots ArrayPoly

variable {F : Type} [Field F]

/-! ### The prover -/

def nMax : ℕ := 2 ^ 22

def zeroPoly (n : ℕ) : ArrayPoly F := ⟨n, fun _ => 0⟩

/-- The variables of the loop of `compute_multilinear_quotients`; the quotients found so far, the
last one first. -/
structure QuotientState (F : Type) where
  quotients : List (ArrayPoly F)
  sizeQ : ℕ
  q : ℕ → F
  g : ℕ → F
  fk : ℕ → F

/-- One round of the loop, with the challenge `u`; `f_k` keeps what it had beyond the size. -/
def quotientStep (s : QuotientState F) (u : F) : QuotientState F :=
  let fk (l : ℕ) := if l < s.sizeQ then s.g l + u * s.q l else s.fk l
  let sizeQ := s.sizeQ / 2
  let q (l : ℕ) := if l < sizeQ then fk (sizeQ + l) - fk l else 0
  ⟨⟨sizeQ, q⟩ :: s.quotients, sizeQ, q, fk, fk⟩

/-- `compute_multilinear_quotients`.  The loop takes the challenges from the last one down to the
second. -/
def computeMultilinearQuotients (polynomial : ArrayPoly F) (uChallenge : List F) :
    List (ArrayPoly F) :=
  let logN := Nat.log2 polynomial.size
  let sizeQ := 2 ^ (logN - 1)
  let q (l : ℕ) := if l < sizeQ then polynomial.coeffs (sizeQ + l) - polynomial.coeffs l else 0
  (uChallenge.tail.reverse.foldl quotientStep
    ⟨[⟨sizeQ, q⟩], sizeQ, q, polynomial.coeffs, fun _ => 0⟩).quotients

/-- The loop of `compute_batched_lifted_degree_quotient`: the result, the power of `y` and `k`. -/
def liftedStep (y : F) (N : ℕ) (s : ArrayPoly F × F × ℕ) (quotient : ArrayPoly F) :
    ArrayPoly F × F × ℕ :=
  let degK := 2 ^ s.2.2 - 1
  let offset := N - degK - 1
  (⟨s.1.size, chunk (fun i c => c + s.2.1 * quotient.coeffs (i - offset)) offset (degK + 1)
    s.1.coeffs⟩, s.2.1 * y, s.2.2 + 1)

def computeBatchedLiftedDegreeQuotient (quotients : List (ArrayPoly F)) (y : F) (N : ℕ) :
    ArrayPoly F :=
  (quotients.foldl (liftedStep y N) (zeroPoly N, 1, 0)).1

/-- The loop of `compute_partially_evaluated_degree_check_polynomial`. -/
def degreeCheckStep (cpus : ℕ) (y x : F) (N : ℕ) (s : ArrayPoly F × F × ℕ)
    (quotient : ArrayPoly F) : ArrayPoly F × F × ℕ :=
  let degK := 2 ^ s.2.2 - 1
  let xPower := x ^ (N - degK - 1)
  (s.1.addScaled cpus quotient (-s.2.1 * xPower), s.2.1 * y, s.2.2 + 1)

def computePartiallyEvaluatedDegreeCheckPolynomial (cpus : ℕ) (batchedQuotient : ArrayPoly F)
    (quotients : List (ArrayPoly F)) (y x : F) : ArrayPoly F :=
  (quotients.foldl (degreeCheckStep cpus y x batchedQuotient.size) (batchedQuotient, 1, 0)).1

/-- The loop over the quotients of the identity polynomial. -/
def identityStep (cpus : ℕ) (x phiNumerator : F) (s : ArrayPoly F × ℕ) (qu : ArrayPoly F × F) :
    ArrayPoly F × ℕ :=
  let xPower := x ^ 2 ^ s.2
  let phiTerm1 := phiNumerator / (x ^ 2 ^ (s.2 + 1) - 1)
  let phiTerm2 := phiNumerator / (x ^ 2 ^ s.2 - 1)
  let scalar := (xPower * phiTerm1 - qu.2 * phiTerm2) * x * -1
  (s.1.addScaled cpus qu.1 scalar, s.2 + 1)

def concatenationStep (cpus : ℕ) (xToMinicircuitN : F) (s : ArrayPoly F × F) (group : ArrayPoly F) :
    ArrayPoly F × F :=
  (s.1.addScaled cpus group s.2, s.2 * xToMinicircuitN)

def computePartiallyEvaluatedZeromorphIdentityPolynomial (cpus : ℕ)
    (fBatched gBatched : ArrayPoly F) (quotients : List (ArrayPoly F)) (vEvaluation : F)
    (uChallenge : List F) (x : F)
    (concatenationGroupsBatched : List (ArrayPoly F)) : ArrayPoly F :=
  let N := fBatched.size
  let result := gBatched.addScaled cpus fBatched x
  let phiNumerator := x ^ N - 1
  let phiNX := phiNumerator / (x - 1)
  let result := result.subFirst (vEvaluation * x * phiNX)
  let result :=
    ((quotients.zip uChallenge).foldl (identityStep cpus x phiNumerator) (result, 0)).1
  if concatenationGroupsBatched.isEmpty then result
  else
    let minicircuitN := N / concatenationGroupsBatched.length
    (concatenationGroupsBatched.foldl (concatenationStep cpus (x ^ minicircuitN)) (result, x)).1

/-- `compute_batched_evaluation_and_degree_check_quotient`.  A polynomial that is too large for a
commitment fails the assertion. -/
def computeBatchedEvaluationAndDegreeCheckQuotient [DecidableEq F] (cpus : ℕ)
    (zetaX ZX : ArrayPoly F) (x z : F) : Option (ArrayPoly F) :=
  if zetaX.size ≤ nMax then
    let zetaX := zetaX.factorRoots x
    let ZX := ZX.factorRoots x
    some (zetaX.addScaled cpus ZX z)
  else none

/-- The polynomials: unshifted, to be shifted, concatenated, and the chunks of the concatenated. -/
structure Polynomials (F : Type) where
  f : List (ArrayPoly F)
  g : List (ArrayPoly F)
  concatenated : List (ArrayPoly F)
  groups : List (List (ArrayPoly F))

/-- Evaluations: of the unshifted polynomials, of the shifts, of the concatenated. -/
structure Evaluations (F : Type) where
  f : List F
  gShift : List F
  concatenated : List F

/-- The loops that batch polynomials: the polynomial, the evaluation, the power of `rho`. -/
def batchStep (cpus : ℕ) (rho : F) (s : ArrayPoly F × F × F) (pe : ArrayPoly F × F) :
    ArrayPoly F × F × F :=
  (s.1.addScaled cpus pe.1 s.2.2, s.2.1 + s.2.2 * pe.2, s.2.2 * rho)

/-- The loop over the groups: the batched chunks beside the batched concatenations. -/
def groupStep (cpus : ℕ) (rho : F) (s : List (ArrayPoly F) × ArrayPoly F × F × F)
    (pge : List (ArrayPoly F) × ArrayPoly F × F) : List (ArrayPoly F) × ArrayPoly F × F × F :=
  (List.zipWith (fun batched chunk => batched.addScaled cpus chunk s.2.2.2) s.1 pge.1,
    batchStep cpus rho s.2 pge.2)

/-- What `prove` computes: the batched polynomial, its quotients, and the polynomials before and
after the division by `X - x`. -/
structure Computed (F : Type) where
  polynomial : ArrayPoly F
  quotients : List (ArrayPoly F)
  batchedQuotient : ArrayPoly F
  zetaX : ArrayPoly F
  ZX : ArrayPoly F
  pi : ArrayPoly F

def provePolynomials [DecidableEq F] (cpus : ℕ) (p : Polynomials F) (evaluations : Evaluations F)
    (uChallenge : List F) (rho y x z : F) : Option (Computed F) := do
  let N := 2 ^ uChallenge.length
  let f := (p.f.zip evaluations.f).foldl (batchStep cpus rho) (zeroPoly N, 0, 1)
  let g := (p.g.zip evaluations.gShift).foldl (batchStep cpus rho) (zeroPoly N, f.2.1, f.2.2)
  let numChunksPerGroup := if p.groups.isEmpty then 0 else (p.groups.headD []).length
  let groups := (p.groups.zip (p.concatenated.zip evaluations.concatenated)).foldl
    (groupStep cpus rho) (List.replicate numChunksPerGroup (zeroPoly N), zeroPoly N, g.2.1, g.2.2)
  let polynomial := (f.1.add cpus g.1.shifted).add cpus groups.2.1
  let quotients := computeMultilinearQuotients polynomial uChallenge
  let batchedQuotient := computeBatchedLiftedDegreeQuotient quotients y N
  let zetaX := computePartiallyEvaluatedDegreeCheckPolynomial cpus batchedQuotient quotients y x
  let ZX := computePartiallyEvaluatedZeromorphIdentityPolynomial cpus f.1 g.1 quotients
    groups.2.2.1 uChallenge x groups.1
  let pi ← computeBatchedEvaluationAndDegreeCheckQuotient cpus zetaX ZX x z
  return ⟨polynomial, quotients, batchedQuotient, zetaX, ZX, pi⟩

structure Messages (F : Type) where
  cQK : List F
  cQ : F
  cPi : F

def Computed.messages (secret : F) (c : Computed F) : Messages F :=
  ⟨c.quotients.map (commit secret), c.batchedQuotient.commit secret, c.pi.commit secret⟩

/-! ### The verifier -/

/-- `batch_mul_native`, on pairs of a point and a scalar. -/
def batchMulNative : List (F × F) → F
  | [] => 0
  | (point, scalar) :: products =>
    products.foldl (fun result product => result + product.1 * product.2) (point * scalar)

/-- The commitments of the quotients with their scalars in `compute_C_zeta_x`. -/
def zetaProducts (y x : F) (N : ℕ) : ℕ → List F → List (F × F)
  | _, [] => []
  | k, c :: cs =>
    (c, y ^ k * x ^ (N - (2 ^ k - 1) - 1) * -1) :: zetaProducts y x N (k + 1) cs

def computeCZetaX (cQ : F) (cQK : List F) (y x : F) : F :=
  let N := 2 ^ cQK.length
  batchMulNative ((cQ, 1) :: zetaProducts y x N 0 cQK)

/-- The commitments of the quotients with their scalars in `compute_C_Z_x`; `xPow2k` and its
square run along. -/
def identityProducts (x phiNumerator : F) : F → List F → List F → List (F × F)
  | xPow2k, c :: cs, u :: us =>
    let xPow2kp1 := xPow2k * xPow2k
    let phiTerm1 := phiNumerator / (xPow2kp1 - 1)
    let phiTerm2 := phiNumerator / (xPow2k - 1)
    (c, (xPow2k * phiTerm1 - u * phiTerm2) * x * -1) ::
      identityProducts x phiNumerator xPow2kp1 cs us
  | _, _, _ => []

/-- The commitments with the scalars `c`, `c * rho` and so on. -/
def powerProducts (rho c : F) : List F → List (F × F)
  | [] => []
  | commitment :: commitments => (commitment, c) :: powerProducts rho (c * rho) commitments

def groupProducts (rho x xToMinicircuitN c : F) : List (List F) → List (F × F)
  | [] => []
  | group :: groups =>
    (powerProducts xToMinicircuitN x group).map (fun product => (product.1, c * product.2)) ++
      groupProducts rho x xToMinicircuitN (c * rho) groups

/-- `compute_C_Z_x`; the power of `rho` after a loop is the one before times `rho` for each
commitment. -/
def computeCZX (fCommitments gCommitments cQK : List F) (rho batchedEvaluation x : F)
    (uChallenge : List F) (groupsCommitments : List (List F)) : F :=
  let N := 2 ^ cQK.length
  let phiNumerator := x ^ N - 1
  let phiNX := phiNumerator / (x - 1)
  let rhoG := rho ^ fCommitments.length
  let rhoGroups := rhoG * rho ^ gCommitments.length
  let minicircuitN := N / (groupsCommitments.headD []).length
  batchMulNative ((1, -1 * batchedEvaluation * x * phiNX) ::
    ((powerProducts rho 1 fCommitments).map (fun product => (product.1, x * product.2)) ++
      powerProducts rho rhoG gCommitments ++
      groupProducts rho x (x ^ minicircuitN) rhoGroups groupsCommitments ++
      identityProducts x phiNumerator x cQK uChallenge))

/-- The batching loop of the evaluations: the sum and the power of `rho`. -/
def evaluationStep (rho : F) (s : F × F) (value : F) : F × F := (s.1 + value * s.2, s.2 * rho)

def batchedEvaluation (rho : F) (evaluations : Evaluations F) : F :=
  (evaluations.concatenated.foldl (evaluationStep rho) (evaluations.gShift.foldl
    (evaluationStep rho) (evaluations.f.foldl (evaluationStep rho) (0, 1)))).1

/-- `verify`: the two inputs of the pairing. -/
def verify (fCommitments gCommitments : List F) (evaluations : Evaluations F)
    (uChallenge : List F) (groupsCommitments : List (List F)) (messages : Messages F)
    (rho y x z : F) : F × F :=
  let cZetaX := computeCZetaX messages.cQ messages.cQK y x
  let cZX := computeCZX fCommitments gCommitments messages.cQK rho
    (batchedEvaluation rho evaluations) x uChallenge groupsCommitments
  let cZetaZ := cZetaX + cZX * z
  (cZetaZ + messages.cPi * x, -messages.cPi)

/-! ### The quotients -/

theorem sq_sub_one (x : F) : x ^ 2 - 1 = (x + 1) * (x - 1) := by ring

/-- The difference of the halves of a table of `n + 1` variables. -/
def difference (n : ℕ) (f : ℕ → F) (l : ℕ) : F := f (2 ^ n + l) - f l

/-- The quotients of a table, the first one first; the variables but the first are given from the
last one down. -/
noncomputable def quotientPolys : List F → (ℕ → F) → List F[X]
  | [], f => [ofArray (2 ^ 0) (difference 0 f)]
  | u :: us, f => quotientPolys us (foldTop (us.length + 1) u f) ++
      [ofArray (2 ^ (us.length + 1)) (difference (us.length + 1) f)]

theorem length_quotientPolys (us : List F) (f : ℕ → F) :
    (quotientPolys us f).length = us.length + 1 := by
  induction us generalizing f with
  | nil => rfl
  | cons u us ih => rw [quotientPolys, length_append, ih, length_singleton, length_cons]

structure Holds (n : ℕ) (f : ℕ → F) (s : QuotientState F) : Prop where
  sizeQ : s.sizeQ = 2 ^ n
  q : ∀ l < 2 ^ n, s.q l = difference n f l
  g : ∀ l < 2 ^ n, s.g l = f l

theorem Holds.step {n : ℕ} {f : ℕ → F} {s : QuotientState F} (h : Holds (n + 1) f s) (u : F) :
    Holds n (foldTop (n + 1) u f) (quotientStep s u) := by
  have hfk : ∀ l < 2 ^ (n + 1), (quotientStep s u).g l = foldTop (n + 1) u f l := by
    intro l hl
    change (if l < s.sizeQ then s.g l + u * s.q l else s.fk l) = _
    rw [if_pos (h.sizeQ ▸ hl), h.g l hl, h.q l hl, foldTop, difference]
  have hsize : (quotientStep s u).sizeQ = 2 ^ n := by
    change s.sizeQ / 2 = 2 ^ n
    rw [h.sizeQ, pow_succ, Nat.mul_div_cancel _ Nat.two_pos]
  refine ⟨hsize, fun l hl => ?_, fun l hl => hfk l (by omega)⟩
  change (if l < (quotientStep s u).sizeQ then (quotientStep s u).g ((quotientStep s u).sizeQ + l) -
    (quotientStep s u).g l else 0) = _
  rw [hsize, if_pos hl, hfk _ (by omega), hfk _ (by omega), difference]

theorem quotientStep_foldl (us : List F) (f : ℕ → F) (s : QuotientState F)
    (h : Holds us.length f s) (qs : List (ArrayPoly F)) (hs : s.quotients = ⟨s.sizeQ, s.q⟩ :: qs) :
    (us.foldl quotientStep s).quotients.map denote = quotientPolys us f ++ qs.map denote ∧
      (us.foldl quotientStep s).quotients.map size =
        (List.range (us.length + 1)).map (2 ^ ·) ++ qs.map size := by
  induction us generalizing f s qs with
  | nil =>
    rw [foldl_nil, hs, map_cons, map_cons, denote, h.sizeQ]
    refine ⟨?_, rfl⟩
    rw [ofArray_congr h.q]
    rfl
  | cons u us ih =>
    obtain ⟨hdenote, hsize⟩ := ih (foldTop (us.length + 1) u f) (quotientStep s u) (h.step u)
      s.quotients rfl
    rw [foldl_cons, hdenote, hsize, hs, map_cons, map_cons, denote, h.sizeQ]
    dsimp only
    rw [ofArray_congr h.q, quotientPolys, append_assoc, singleton_append,
      length_cons, @range_succ (us.length + 1), map_append, append_assoc]
    exact ⟨rfl, rfl⟩

theorem computeMultilinearQuotients_eq (p : ArrayPoly F) (u : F) (us : List F)
    (hp : p.size = 2 ^ (us.length + 1)) : (computeMultilinearQuotients p (u :: us)).map denote =
        quotientPolys us.reverse p.coeffs ∧ (computeMultilinearQuotients p (u :: us)).map size =
        (List.range (us.length + 1)).map (2 ^ ·) := by
  have hlog : 2 ^ (Nat.log2 p.size - 1) = 2 ^ us.length := by
    rw [hp, Nat.log2_two_pow, Nat.add_sub_cancel]
  have hfold := quotientStep_foldl us.reverse p.coeffs
    ⟨[⟨2 ^ (Nat.log2 p.size - 1), fun l => if l < 2 ^ (Nat.log2 p.size - 1) then
      p.coeffs (2 ^ (Nat.log2 p.size - 1) + l) - p.coeffs l else 0⟩], 2 ^ (Nat.log2 p.size - 1),
      fun l => if l < 2 ^ (Nat.log2 p.size - 1) then
        p.coeffs (2 ^ (Nat.log2 p.size - 1) + l) - p.coeffs l else 0, p.coeffs, fun _ => 0⟩
    ⟨by rw [length_reverse]; exact hlog, fun l hl => ?_, fun _ _ => rfl⟩ [] rfl
  · rw [map_nil, append_nil, map_nil, append_nil, length_reverse] at hfold
    exact hfold
  · rw [length_reverse] at hl ⊢
    dsimp only
    rw [hlog, if_pos hl, difference]

/-- **The quotients satisfy the identity of the multilinear polynomials.**  The points are given as
their first coordinate and the others from the last one down. -/
theorem multilinear_sub_multilinear (x₀ u₀ : F) (xs us : List F) (hlength : xs.length = us.length)
    (f : ℕ → F) : multilinear (x₀ :: xs.reverse) f - multilinear (u₀ :: us.reverse) f =
      ∑ k ∈ Finset.range (us.length + 1),
        ((x₀ :: xs.reverse).getD k 0 - (u₀ :: us.reverse).getD k 0) *
          multilinearHom ((x₀ :: xs.reverse).take k) ((quotientPolys us f).getD k 0) := by
  induction us generalizing xs f with
  | nil =>
    obtain rfl := length_eq_zero_iff.1 hlength
    have hlow (v : F) : multilinear [v] f = f 0 + v * (f 1 - f 0) := by
      rw [multilinear_cons, multilinear_nil, foldOnce]
    have hquotient : multilinearHom [] (ofArray (2 ^ 0) (difference 0 f)) = f 1 - f 0 :=
      (multilinearHom_ofArray [] _).trans (multilinear_nil _)
    rw [reverse_nil, length_nil, Finset.sum_range_one, take_zero, quotientPolys,
      getD_cons_zero, getD_cons_zero, getD_cons_zero, hquotient, hlow, hlow]
    ring
  | cons u us ih =>
    cases xs with
    | nil => cases hlength
    | cons x xs =>
      have hlength : xs.length = us.length := Nat.succ.inj hlength
      have hxlength : (x₀ :: xs.reverse).length = us.length + 1 := by
        rw [length_cons, length_reverse, hlength]
      have hulength : (u₀ :: us.reverse).length = us.length + 1 := by
        rw [length_cons, length_reverse]
      have htop : multilinear (x₀ :: xs.reverse) (foldTop (us.length + 1) x f) =
          multilinear (x₀ :: xs.reverse) (foldTop (us.length + 1) u f) +
            (x - u) * multilinear (x₀ :: xs.reverse) (difference (us.length + 1) f) := by
        rw [multilinear, multilinear, multilinear, Finset.mul_sum, ← Finset.sum_add_distrib]
        refine Finset.sum_congr rfl fun i _ => ?_
        rw [foldTop, foldTop, difference]
        ring
      rw [reverse_cons, reverse_cons, ← cons_append, ← cons_append,
        multilinear_concat, multilinear_concat, hxlength, hulength, htop, length_cons,
        Finset.sum_range_succ, add_sub_right_comm, ih xs hlength]
      congr 1
      · refine Finset.sum_congr rfl fun k hk => ?_
        have hk := Finset.mem_range.1 hk
        rw [getD_append _ _ _ _ (hxlength.symm ▸ hk), getD_append _ _ _ _ (hulength.symm ▸ hk),
          quotientPolys, getD_append _ _ _ _ ((length_quotientPolys us _).symm ▸ hk),
          take_append_of_le_length (by omega)]
      · rw [getD_append_right _ _ _ _ (by omega), getD_append_right _ _ _ _ (by omega),
          quotientPolys, getD_append_right _ _ _ _ (by rw [length_quotientPolys]),
          length_quotientPolys, hxlength, hulength, Nat.sub_self, getD_cons_zero, getD_cons_zero,
          getD_cons_zero, ← hxlength, take_left, multilinearHom_ofArray]

/-! ### The identity of the univariate polynomials -/

/-- The sum over the quotients, from the power `X` of `x` on. -/
def identitySum (phi : F) : F → List F → List F → F
  | X, u :: us, q :: qs =>
    (X * (phi / (X ^ 2 - 1)) - u * (phi / (X - 1))) * q + identitySum phi (X ^ 2) us qs
  | _, _, _ => 0

theorem identitySum_concat (phi X u q : F) (us qs : List F) (h : us.length = qs.length) :
    identitySum phi X (us ++ [u]) (qs ++ [q]) =
      identitySum phi X us qs + (X ^ 2 ^ us.length * (phi / (X ^ 2 ^ (us.length + 1) - 1)) -
        u * (phi / (X ^ 2 ^ us.length - 1))) * q := by
  induction us generalizing X qs with
  | nil =>
    obtain rfl := length_eq_zero_iff.1 h.symm
    simp [identitySum]
  | cons v us ih =>
    cases qs with
    | nil => cases h
    | cons p qs =>
      rw [cons_append, cons_append, identitySum, identitySum, ih _ _ (Nat.succ.inj h),
        length_cons, ← pow_mul, ← pow_mul, ← pow_succ', ← pow_succ', ← add_assoc]

theorem eval_ofArray_add (n m : ℕ) (f : ℕ → F) (x : F) : (ofArray (n + m) f).eval x =
      (ofArray n f).eval x + x ^ n * (ofArray m fun l => f (n + l)).eval x := by
  rw [eval_ofArray, eval_ofArray, eval_ofArray, Finset.sum_range_add, Finset.mul_sum]
  congr 1
  refine Finset.sum_congr rfl fun l _ => ?_
  rw [pow_add]
  ring

theorem eval_foldTop (n : ℕ) (u : F) (f : ℕ → F) (x : F) : (ofArray (2 ^ (n + 1)) f).eval x =
      (1 + x ^ 2 ^ n) * (ofArray (2 ^ n) (foldTop n u f)).eval x +
        (x ^ 2 ^ n - u * (1 + x ^ 2 ^ n)) * (ofArray (2 ^ n) (difference n f)).eval x := by
  have hfold : (ofArray (2 ^ n) (foldTop n u f)).eval x =
      (ofArray (2 ^ n) f).eval x + u * (ofArray (2 ^ n) (difference n f)).eval x := by
    rw [eval_ofArray, eval_ofArray, eval_ofArray, Finset.mul_sum, ← Finset.sum_add_distrib]
    refine Finset.sum_congr rfl fun l _ => ?_
    rw [foldTop, difference]
    ring
  have hhigh : (ofArray (2 ^ n) fun l => f (2 ^ n + l)).eval x =
      (ofArray (2 ^ n) f).eval x + (ofArray (2 ^ n) (difference n f)).eval x := by
    rw [eval_ofArray, eval_ofArray, eval_ofArray, ← Finset.sum_add_distrib]
    refine Finset.sum_congr rfl fun l _ => ?_
    rw [difference]
    ring
  rw [pow_succ, mul_two, eval_ofArray_add, hhigh, hfold]
  ring

theorem eval_quotientPolys (u₀ x phi : F) (us : List F) (f : ℕ → F)
    (hx : ∀ k ≤ us.length + 1, x ^ 2 ^ k ≠ 1) :
    phi / (x ^ 2 ^ (us.length + 1) - 1) * (ofArray (2 ^ (us.length + 1)) f).eval x =
      phi / (x - 1) * multilinear (u₀ :: us.reverse) f +
        identitySum phi x (u₀ :: us.reverse) ((quotientPolys us f).map (eval x)) := by
  have hne : ∀ k ≤ us.length + 1, x ^ 2 ^ k - 1 ≠ 0 := fun k hk => sub_ne_zero.2 (hx k hk)
  induction us generalizing f with
  | nil =>
    have hzero := hne 0 (Nat.zero_le _)
    have hone := hne 1 le_rfl
    rw [pow_zero, pow_one] at hzero
    rw [pow_one] at hone
    have hfold := eval_foldTop 0 u₀ f x
    have hconstant : (ofArray (2 ^ 0) (foldTop 0 u₀ f)).eval x = multilinear [u₀] f := by
      rw [multilinear_cons, multilinear_nil, eval_ofArray, pow_zero, Finset.sum_range_one, pow_zero,
        mul_one]
      rfl
    rw [hconstant] at hfold
    rw [reverse_nil, length_nil, quotientPolys, map_singleton, hfold]
    simp only [identitySum, zero_add, pow_zero, pow_one]
    rw [sq_sub_one] at hone ⊢
    have hplus := left_ne_zero_of_mul hone
    field_simp
    ring
  | cons u us ih =>
    have hlow := hne (us.length + 1) (by rw [length_cons]; omega)
    have hhigh := hne (us.length + 1 + 1) (by rw [length_cons])
    rw [pow_succ 2, pow_mul] at hhigh
    have hlength : (u₀ :: us.reverse).length = ((quotientPolys us
        (foldTop (us.length + 1) u f)).map (eval x)).length := by
      rw [length_map, length_quotientPolys, length_cons, length_reverse]
    have hrest := ih (foldTop (us.length + 1) u f) (fun k hk => hx k (by
      rw [length_cons]; omega)) (fun k hk => hne k (by rw [length_cons]; omega))
    rw [length_cons, eval_foldTop _ u, quotientPolys, map_append, map_singleton,
      reverse_cons, ← cons_append, identitySum_concat _ _ _ _ _ _ hlength,
      multilinear_concat, length_cons, length_reverse, ← add_assoc, ← hrest]
    rw [pow_succ 2 (us.length + 1), pow_mul]
    generalize x ^ 2 ^ (us.length + 1) = X at hlow hhigh ⊢
    rw [sq_sub_one] at hhigh ⊢
    have hplus := left_ne_zero_of_mul hhigh
    field_simp
    ring

/-! ### The loops of the prover -/

section Modules

variable {M : Type} [AddCommGroup M] [Module F M]

/-- The elements with the powers of `x` that the degree check gives them, from `k` on. -/
def scaledFrom (x : F) (N : ℕ) : ℕ → List M → List M
  | _, [] => []
  | k, q :: qs => x ^ (N - 2 ^ k) • q :: scaledFrom x N (k + 1) qs

end Modules

/-- The polynomials shifted to the end of an array, from `k` on. -/
noncomputable def liftedFrom (N : ℕ) : ℕ → List F[X] → List F[X]
  | _, [] => []
  | k, q :: qs => X ^ (N - 2 ^ k) * q :: liftedFrom N (k + 1) qs

theorem map_eval_liftedFrom (x : F) (N k : ℕ) (qs : List F[X]) :
    (liftedFrom N k qs).map (eval x) = scaledFrom x N k (qs.map (eval x)) := by
  induction qs generalizing k with
  | nil => rfl
  | cons q qs ih =>
    rw [liftedFrom, map_cons, map_cons, scaledFrom, ih, eval_mul, eval_pow, eval_X, smul_eq_mul]

theorem map_eval_scaledFrom (t x : F) (N k : ℕ) (qs : List F[X]) :
    (scaledFrom x N k qs).map (eval t) = scaledFrom x N k (qs.map (eval t)) := by
  induction qs generalizing k with
  | nil => rfl
  | cons q qs ih => rw [scaledFrom, map_cons, map_cons, scaledFrom, ih, eval_smul]

theorem eval_powerSum (t nu c : F) (ps : List F[X]) :
    (powerSum nu c ps).eval t = powerSum nu c (ps.map (eval t)) := by
  induction ps generalizing c with
  | nil => exact eval_zero
  | cons p ps ih => rw [powerSum_cons, eval_add, eval_smul, ih, map_cons, powerSum_cons]

theorem sub_pred_sub_one (N k : ℕ) : N - (2 ^ k - 1) - 1 = N - 2 ^ k := by
  have hpos := Nat.two_pow_pos k
  omega

def Sizes (k : ℕ) (qs : List (ArrayPoly F)) : Prop :=
  qs.map size = (List.range' k qs.length).map (2 ^ ·)

variable {k N numChunks : ℕ} {q g : ArrayPoly F} {qs group ps : List (ArrayPoly F)} {α β γ : Type}

omit [Field F] in
theorem sizes_cons (h : Sizes k (q :: qs)) : q.size = 2 ^ k ∧ Sizes (k + 1) qs := by
  rw [Sizes, map_cons, length_cons, List.range'_succ, map_cons] at h
  exact List.cons.inj h

theorem denote_chunk {p : ArrayPoly F} (hp : p.size = N) (hq : q.size = 2 ^ k) (hk : 2 ^ k ≤ N)
    (c : F) : (denote ⟨p.size,
      chunk (fun i x => x + c * q.coeffs (i - (N - 2 ^ k))) (N - 2 ^ k) (2 ^ k)
        p.coeffs⟩) = p.denote + c • (X ^ (N - 2 ^ k) * q.denote) := by
  ext i
  rw [denote, denote, denote, coeff_add, coeff_smul, smul_eq_mul,
    coeff_X_pow_mul', coeff_ofArray, coeff_ofArray, coeff_ofArray, hp, hq]
  dsimp only
  rw [chunk_apply]
  by_cases hlow : N - 2 ^ k ≤ i
  · by_cases hi : i < N
    · rw [if_pos hi, if_pos (by omega), if_pos hi, if_pos hlow, if_pos (by omega)]
    · rw [if_neg hi, if_neg hi, if_pos hlow, if_neg (by omega), mul_zero, add_zero]
  · rw [if_pos (by omega), if_neg (by omega), if_pos (by omega), if_neg hlow, mul_zero, add_zero]

theorem liftedStep_foldl (y : F) (N : ℕ) (qs : List (ArrayPoly F)) (s : ArrayPoly F × F × ℕ)
    (hsize : s.1.size = N) (hqs : Sizes s.2.2 qs) (hN : ∀ j < s.2.2 + qs.length, 2 ^ j ≤ N) :
    (qs.foldl (liftedStep y N) s).1.denote =
      s.1.denote + powerSum y s.2.1 (liftedFrom N s.2.2 (qs.map denote)) := by
  induction qs generalizing s with
  | nil => exact (add_zero _).symm
  | cons q qs ih =>
    obtain ⟨hq, hqs⟩ := sizes_cons hqs
    rw [length_cons] at hN
    have hstep : (liftedStep y N s q).1.denote =
        s.1.denote + s.2.1 • (X ^ (N - 2 ^ s.2.2) * q.denote) := by
      rw [← denote_chunk hsize hq (hN _ (by omega)), liftedStep, sub_pred_sub_one,
        Nat.sub_add_cancel (Nat.two_pow_pos _)]
    rw [foldl_cons, ih (liftedStep y N s q) hsize hqs (fun j hj => hN j (by
      change j < s.2.2 + 1 + qs.length at hj
      omega)), hstep, map_cons, liftedFrom, powerSum_cons, add_assoc]
    rfl

theorem degreeCheckStep_foldl (cpus : ℕ) (y x : F) (N : ℕ) (qs : List (ArrayPoly F))
    (s : ArrayPoly F × F × ℕ) (hsize : s.1.size = N) (hqs : Sizes s.2.2 qs)
    (hN : ∀ j < s.2.2 + qs.length, 2 ^ j ≤ N) :
    (qs.foldl (degreeCheckStep cpus y x N) s).1.size = N ∧
      (qs.foldl (degreeCheckStep cpus y x N) s).1.denote =
        s.1.denote - powerSum y s.2.1 (scaledFrom x N s.2.2 (qs.map denote)) := by
  induction qs generalizing s with
  | nil => exact ⟨hsize, (sub_zero _).symm⟩
  | cons q qs ih =>
    obtain ⟨hq, hqs⟩ := sizes_cons hqs
    rw [length_cons] at hN
    have hle : q.size ≤ s.1.size := by
      rw [hq, hsize]
      exact hN _ (by omega)
    have hstep : (degreeCheckStep cpus y x N s q).1.denote =
        s.1.denote - s.2.1 • x ^ (N - 2 ^ s.2.2) • q.denote := by
      rw [degreeCheckStep, sub_pred_sub_one]
      dsimp only
      rw [denote_addScaled cpus hle, ← smul_eq_C_mul, smul_smul, neg_mul, neg_smul, sub_eq_add_neg]
    obtain ⟨hs, hdenote⟩ := ih (degreeCheckStep cpus y x N s q) hsize hqs (fun j hj => hN j (by
      change j < s.2.2 + 1 + qs.length at hj
      omega))
    refine ⟨hs, ?_⟩
    rw [foldl_cons, hdenote, hstep, map_cons, scaledFrom, powerSum_cons, sub_sub]
    rfl

theorem identityStep_foldl (cpus : ℕ) (x phi t : F) (qs : List (ArrayPoly F)) (us : List F)
    (s : ArrayPoly F × ℕ) (hsize : ∀ q ∈ qs, q.size ≤ s.1.size) :
    ((qs.zip us).foldl (identityStep cpus x phi) s).1.size = s.1.size ∧
      ((qs.zip us).foldl (identityStep cpus x phi) s).1.denote.eval t = s.1.denote.eval t -
        x * identitySum phi (x ^ 2 ^ s.2) us (qs.map fun q => q.denote.eval t) := by
  induction qs generalizing us s with
  | nil =>
    refine ⟨rfl, ?_⟩
    cases us <;> simp [identitySum]
  | cons q qs ih =>
    cases us with
    | nil =>
      refine ⟨rfl, ?_⟩
      simp [identitySum]
    | cons u us =>
      obtain ⟨hq, hqs⟩ := forall_mem_cons.1 hsize
      obtain ⟨hs, heval⟩ := ih us (identityStep cpus x phi s (q, u)) hqs
      rw [zip_cons_cons, foldl_cons]
      refine ⟨hs, ?_⟩
      rw [heval, identityStep]
      dsimp only
      rw [denote_addScaled cpus hq, eval_add, eval_mul, eval_C, map_cons,
        identitySum, ← pow_mul, ← pow_succ]
      ring

/-- The chunks with the powers of `nu` from `c` on. -/
noncomputable def spread (nu c : F) (ps : List (ArrayPoly F)) : F[X] :=
  powerSum nu c (ps.map denote)

theorem concatenationStep_foldl (cpus : ℕ) (nu : F) (ps : List (ArrayPoly F)) (s : ArrayPoly F × F)
    (hsize : ∀ p ∈ ps, p.size ≤ s.1.size) :
    (ps.foldl (concatenationStep cpus nu) s).1.size = s.1.size ∧
      (ps.foldl (concatenationStep cpus nu) s).1.denote = s.1.denote + spread nu s.2 ps := by
  induction ps generalizing s with
  | nil => exact ⟨rfl, (add_zero _).symm⟩
  | cons p ps ih =>
    obtain ⟨hp, hps⟩ := forall_mem_cons.1 hsize
    obtain ⟨hs, hdenote⟩ := ih (concatenationStep cpus nu s p) hps
    refine ⟨hs, ?_⟩
    rw [foldl_cons, hdenote, concatenationStep, spread, spread, map_cons, powerSum_cons,
      ← add_assoc]
    dsimp only
    rw [denote_addScaled cpus hp, smul_eq_C_mul]

theorem batchStep_foldl (cpus : ℕ) (rho : F) (l : List (ArrayPoly F × F)) (s : ArrayPoly F × F × F)
    (hsize : ∀ pe ∈ l, pe.1.size ≤ s.1.size) : (l.foldl (batchStep cpus rho) s).1.size = s.1.size ∧
      (l.foldl (batchStep cpus rho) s).1.denote =
        s.1.denote + powerSum rho s.2.2 (l.map fun pe => pe.1.denote) ∧
      (l.foldl (batchStep cpus rho) s).2.1 = s.2.1 + powerSum rho s.2.2 (l.map fun pe => pe.2) ∧
      (l.foldl (batchStep cpus rho) s).2.2 = s.2.2 * rho ^ l.length := by
  induction l generalizing s with
  | nil =>
    refine ⟨rfl, (add_zero _).symm, (add_zero _).symm, ?_⟩
    rw [foldl_nil, length_nil, pow_zero, mul_one]
  | cons pe l ih =>
    obtain ⟨hpe, hl⟩ := forall_mem_cons.1 hsize
    obtain ⟨hs, hdenote, hvalue, hpower⟩ := ih (batchStep cpus rho s pe) hl
    rw [foldl_cons]
    refine ⟨hs, ?_, ?_, ?_⟩
    · rw [hdenote, batchStep, map_cons, powerSum_cons, ← add_assoc, smul_eq_C_mul]
      dsimp only
      rw [denote_addScaled cpus hpe]
    · rw [hvalue, batchStep, map_cons, powerSum_cons_mul, add_assoc]
    · rw [hpower, batchStep, length_cons, pow_succ', mul_assoc]

theorem spread_zipWith (cpus N : ℕ) (nu c scalar : F) (batched chunks : List (ArrayPoly F))
    (hlength : batched.length = chunks.length) (hbatched : ∀ p ∈ batched, p.size = N)
    (hchunks : ∀ p ∈ chunks, p.size = N) :
    (∀ p ∈ zipWith (fun p q => p.addScaled cpus q scalar) batched chunks, p.size = N) ∧
      spread nu c (zipWith (fun p q => p.addScaled cpus q scalar) batched chunks) =
        spread nu c batched + scalar • spread nu c chunks := by
  induction batched generalizing c chunks with
  | nil =>
    obtain rfl := length_eq_zero_iff.1 hlength.symm
    exact ⟨hbatched, by simp [spread]⟩
  | cons p batched ih =>
    cases chunks with
    | nil => cases hlength
    | cons q chunks =>
      obtain ⟨hp, hbatched⟩ := forall_mem_cons.1 hbatched
      obtain ⟨hq, hchunks⟩ := forall_mem_cons.1 hchunks
      obtain ⟨hsize, hspread⟩ := ih (c * nu) chunks (Nat.succ.inj hlength) hbatched hchunks
      rw [zipWith_cons_cons]
      refine ⟨forall_mem_cons.2 ⟨hp, hsize⟩, ?_⟩
      rw [spread] at hspread ⊢
      rw [map_cons, powerSum_cons, hspread, spread, spread, spread, spread, map_cons,
        map_cons, powerSum_cons, powerSum_cons,
        denote_addScaled cpus (le_of_eq (hq.trans hp.symm)), ← smul_eq_C_mul]
      module

theorem groupStep_foldl (cpus N c : ℕ) (rho nu start : F)
    (l : List (List (ArrayPoly F) × ArrayPoly F × F)) (s : List (ArrayPoly F) × ArrayPoly F × F × F)
    (hs : s.1.length = c ∧ ∀ p ∈ s.1, p.size = N)
    (hl : ∀ pge ∈ l, pge.1.length = c ∧ ∀ p ∈ pge.1, p.size = N) :
    (l.foldl (groupStep cpus rho) s).2 = (l.map Prod.snd).foldl (batchStep cpus rho) s.2 ∧
      ((l.foldl (groupStep cpus rho) s).1.length = c ∧
        ∀ p ∈ (l.foldl (groupStep cpus rho) s).1, p.size = N) ∧
      spread nu start (l.foldl (groupStep cpus rho) s).1 = spread nu start s.1 +
          powerSum rho s.2.2.2 (l.map fun pge => spread nu start pge.1) := by
  induction l generalizing s with
  | nil => exact ⟨rfl, hs, (add_zero _).symm⟩
  | cons pge l ih =>
    obtain ⟨⟨hlength, hsizes⟩, hl⟩ := forall_mem_cons.1 hl
    obtain ⟨hnew, hspread⟩ := spread_zipWith cpus N nu start s.2.2.2 s.1 pge.1
      (hs.1.trans hlength.symm) hs.2 hsizes
    have hnewLength : (groupStep cpus rho s pge).1.length = c := by
      change (zipWith _ s.1 pge.1).length = c
      rw [length_zipWith, hs.1, hlength, Nat.min_self]
    obtain ⟨hsnd, hkeep, hrest⟩ := ih (groupStep cpus rho s pge) ⟨hnewLength, hnew⟩ hl
    rw [foldl_cons]
    refine ⟨hsnd, hkeep, ?_⟩
    rw [hrest, map_cons, powerSum_cons, ← add_assoc]
    congr 1

/-! ### The sums of the verifier -/

def productSum (products : List (F × F)) : F :=
  (products.map fun product => product.1 * product.2).sum

theorem productSum_cons (product : F × F) (products : List (F × F)) :
    productSum (product :: products) = product.1 * product.2 + productSum products := by
  rw [productSum, map_cons, sum_cons, productSum]

theorem productSum_append (l l' : List (F × F)) :
    productSum (l ++ l') = productSum l + productSum l' := by
  rw [productSum, map_append, sum_append, productSum, productSum]

theorem batchMulNative_eq (products : List (F × F)) :
    batchMulNative products = productSum products := by
  cases products with
  | nil => rfl
  | cons product products =>
    have hfold : ∀ (l : List (F × F)) (a : F),
        l.foldl (fun result product => result + product.1 * product.2) a = a + productSum l := by
      intro l
      induction l with
      | nil => exact fun a => (add_zero a).symm
      | cons p l ih =>
        intro a
        rw [foldl_cons, ih, productSum_cons, add_assoc]
    rw [productSum_cons, ← hfold]
    rfl

theorem productSum_zetaProducts (y x : F) (N k : ℕ) (cs : List F) :
    productSum (zetaProducts y x N k cs) = -powerSum y (y ^ k) (scaledFrom x N k cs) := by
  induction cs generalizing k with
  | nil => exact neg_zero.symm
  | cons c cs ih =>
    rw [zetaProducts, productSum_cons, ih, scaledFrom, powerSum_cons_mul, sub_pred_sub_one,
      smul_eq_mul, ← pow_succ]
    ring

theorem productSum_identityProducts (x phi X : F) (cs us : List F) :
    productSum (identityProducts x phi X cs us) = -(x * identitySum phi X us cs) := by
  induction cs generalizing X us with
  | nil => cases us <;> simp [identityProducts, identitySum, productSum]
  | cons c cs ih =>
    cases us with
    | nil => simp [identityProducts, identitySum, productSum]
    | cons u us =>
      rw [identityProducts, productSum_cons, ih, identitySum, sq]
      ring

theorem productSum_powerProducts (rho c : F) (cs : List F) :
    productSum (powerProducts rho c cs) = powerSum rho c cs := by
  induction cs generalizing c with
  | nil => rfl
  | cons a cs ih => rw [powerProducts, productSum_cons, ih, powerSum_cons_mul, mul_comm]

theorem productSum_map_mul (a : F) (l : List (F × F)) :
    productSum (l.map fun product => (product.1, a * product.2)) = a * productSum l := by
  induction l with
  | nil => exact (mul_zero a).symm
  | cons p l ih =>
    rw [map_cons, productSum_cons, ih, productSum_cons]
    ring

theorem productSum_groupProducts (rho x nu c : F) (groups : List (List F)) :
    productSum (groupProducts rho x nu c groups) =
      powerSum rho c (groups.map fun group => powerSum nu x group) := by
  induction groups generalizing c with
  | nil => rfl
  | cons group groups ih =>
    rw [groupProducts, productSum_append, productSum_map_mul, productSum_powerProducts, ih,
      map_cons, powerSum_cons_mul]

def Evaluations.all (e : Evaluations F) : List F := e.f ++ e.gShift ++ e.concatenated

theorem batchedEvaluation_eq (rho : F) (e : Evaluations F) :
    batchedEvaluation rho e = powerSum rho 1 e.all := by
  have hfold : ∀ (l : List F) (a c : F), (l.foldl (evaluationStep rho) (a, c)).1 =
      a + powerSum rho c l := by
    intro l
    induction l with
    | nil => exact fun a c => (add_zero a).symm
    | cons v l ih =>
      intro a c
      rw [foldl_cons, evaluationStep, ih, powerSum_cons_mul, ← add_assoc, mul_comm v]
  rw [batchedEvaluation, ← foldl_append, ← foldl_append, hfold, zero_add, Evaluations.all,
    append_assoc]

/-! ### The concatenated polynomials -/

/-- The chunks vanish from their length on, and the polynomial has them one after the other. -/
def SpellsOut (N : ℕ) (group : List (ArrayPoly F)) (concatenated : ArrayPoly F) : Prop :=
  (∀ chunk ∈ group, chunk.size = N ∧
    ∀ l, N / group.length ≤ l → l < N → chunk.coeffs l = 0) ∧
  concatenated.size = N ∧
  ∀ i < N, concatenated.coeffs i = (group.getD (i / (N / group.length)) (zeroPoly N)).coeffs
    (i % (N / group.length))

theorem powerSum_eq_sum (nu c : F) (l : List F) :
    powerSum nu c l = ∑ j ∈ Finset.range l.length, c * nu ^ j * l.getD j 0 := by
  induction l generalizing c with
  | nil => rfl
  | cons a l ih =>
    rw [powerSum_cons_mul, ih, length_cons, Finset.sum_range_succ', pow_zero, mul_one,
      getD_cons_zero, add_comm]
    congr 1
    refine Finset.sum_congr rfl fun j _ => ?_
    rw [getD_cons_succ, pow_succ', mul_assoc c]

theorem eval_spread {concatenated : ArrayPoly F} (h : SpellsOut N group concatenated)
    (hgroup : 0 < group.length) (x : F) :
    (spread (x ^ (N / group.length)) x group).eval x = x * concatenated.denote.eval x := by
  obtain ⟨hchunks, hsize, hspell⟩ := h
  generalize hM : N / group.length = M at *
  have hle : group.length * M ≤ N := by
    rw [← hM]
    exact Nat.mul_div_le N group.length
  obtain ⟨rest, hrest⟩ := Nat.exists_eq_add_of_le hle
  have hzero : ∀ l < rest, concatenated.coeffs (group.length * M + l) = 0 := by
    intro l hl
    rw [hspell _ (by omega)]
    by_cases hM0 : M = 0
    · subst hM0
      rw [Nat.div_zero, Nat.mod_zero, getD_eq_getElem _ _ hgroup]
      exact (hchunks _ (getElem_mem hgroup)).2 _ (Nat.zero_le _) (by omega)
    · rw [getD_eq_default _ _ ((Nat.le_div_iff_mul_le (Nat.pos_of_ne_zero hM0)).2 (by omega))]
      rfl
  have hblock : ∀ j < group.length,
      ∑ i ∈ Finset.Ico (j * M) (j * M + M), concatenated.coeffs i * x ^ i =
        (x ^ M) ^ j * (group.getD j (zeroPoly N)).denote.eval x := by
    intro j hj
    have hchunk := hchunks _ (getElem_mem hj)
    have hjM : j * M + M ≤ group.length * M := by
      rw [← Nat.succ_mul]
      exact Nat.mul_le_mul_right M hj
    have hMN : M ≤ N := by omega
    obtain ⟨more, hmore⟩ := Nat.exists_eq_add_of_le hMN
    have hvalue : (group.getD j (zeroPoly N)).denote.eval x =
        ∑ l ∈ Finset.range M, (group.getD j (zeroPoly N)).coeffs l * x ^ l := by
      rw [getD_eq_getElem _ _ hj, denote, hchunk.1, eval_ofArray, hmore,
        Finset.sum_range_add, add_eq_left]
      refine Finset.sum_eq_zero fun l hl => ?_
      rw [hchunk.2 _ (Nat.le_add_right M l) (by rw [hmore]; simpa using hl), zero_mul]
    rw [hvalue, Finset.sum_Ico_eq_sum_range, Nat.add_sub_cancel_left, Finset.mul_sum]
    refine Finset.sum_congr rfl fun l hl => ?_
    have hl := Finset.mem_range.1 hl
    have hdiv : (j * M + l) / M = j := by
      rw [Nat.mul_comm, Nat.mul_add_div (by omega), Nat.div_eq_of_lt hl, Nat.add_zero]
    have hmod : (j * M + l) % M = l := by
      rw [Nat.mul_comm, Nat.mul_add_mod, Nat.mod_eq_of_lt hl]
    rw [hspell _ (by omega), hdiv, hmod, pow_add, ← pow_mul, Nat.mul_comm M j]
    ring
  have hend : ∑ l ∈ Finset.range rest, concatenated.coeffs (group.length * M + l) * x ^ l = 0 :=
    Finset.sum_eq_zero fun l hl => by rw [hzero l (Finset.mem_range.1 hl), zero_mul]
  rw [spread, eval_powerSum, powerSum_eq_sum, map_map, length_map, denote,
    hsize, hrest, eval_ofArray_add, eval_ofArray, eval_ofArray, ← sum_blocks,
    Finset.sum_congr rfl fun j hj => hblock j (Finset.mem_range.1 hj), hend, mul_zero, add_zero,
    Finset.mul_sum]
  refine Finset.sum_congr rfl fun j hj => ?_
  have hj := Finset.mem_range.1 hj
  rw [getD_eq_getElem _ _ (by simpa using hj), getElem_map, getD_eq_getElem _ _ hj,
    Function.comp_apply, mul_assoc]

/-! ### The polynomials of the prover and the commitments of the verifier -/

def phi (x : F) (N : ℕ) : F := (x ^ N - 1) / (x - 1)

theorem eval_identityPolynomial (cpus : ℕ) (hN : 0 < N) {f : ArrayPoly F}
    {groups : List (ArrayPoly F)} (hf : f.size = N) (hg : g.size = N) (hqs : ∀ q ∈ qs, q.size ≤ N)
    (hgroups : ∀ p ∈ groups, p.size = N) (v x t : F) (us : List F) :
    (computePartiallyEvaluatedZeromorphIdentityPolynomial cpus f g qs v us x groups).size = N ∧
      (computePartiallyEvaluatedZeromorphIdentityPolynomial cpus f g qs v us x groups).denote.eval
        t = g.denote.eval t + x * f.denote.eval t - v * x * phi x N -
          x * identitySum (x ^ N - 1) x us (qs.map fun q => q.denote.eval t) +
            (spread (x ^ (N / groups.length)) x groups).eval t := by
  have hfirst : ((g.addScaled cpus f x).subFirst (v * x * phi x N)).denote.eval t =
      g.denote.eval t + x * f.denote.eval t - v * x * phi x N := by
    rw [denote_subFirst (p := g.addScaled cpus f x) (show 0 < g.size from hg ▸ hN),
      denote_addScaled cpus (le_of_eq (hf.trans hg.symm)), eval_sub, eval_add, eval_mul,
      eval_C, eval_C]
  obtain ⟨hsize, heval⟩ := identityStep_foldl cpus x (x ^ N - 1) t qs us
    ((g.addScaled cpus f x).subFirst (v * x * phi x N), 0) (fun q hq => hg ▸ hqs q hq)
  rw [pow_zero, pow_one, hfirst] at heval
  have hsizeN : ((g.addScaled cpus f x).subFirst (v * x * phi x N)).size = N := hg
  rw [hsizeN] at hsize
  rw [computePartiallyEvaluatedZeromorphIdentityPolynomial, hf]
  cases groups with
  | nil =>
    refine ⟨hsize, ?_⟩
    rw [spread, map_nil, powerSum_nil, eval_zero, add_zero]
    exact heval
  | cons p groups =>
    obtain ⟨hsize', hdenote'⟩ := concatenationStep_foldl cpus
      (x ^ (N / (p :: groups).length)) (p :: groups) (((qs.zip us).foldl
        (identityStep cpus x (x ^ N - 1)) ((g.addScaled cpus f x).subFirst (v * x * phi x N), 0)).1,
        x) (fun q hq => by rw [hsize, hgroups q hq])
    dsimp only at hsize' hdenote'
    rw [hsize] at hsize'
    rw [isEmpty_cons, if_neg Bool.false_ne_true]
    refine ⟨hsize', ?_⟩
    dsimp only [phi] at hdenote' heval ⊢
    rw [hdenote', eval_add, heval]

theorem computeCZX_eq (fC gC cQK : List F) (rho v x : F) (us : List F) (groupsC : List (List F))
    (N : ℕ) (hN : 2 ^ cQK.length = N) : computeCZX fC gC cQK rho v x us groupsC =
      powerSum rho (rho ^ fC.length) gC + x * powerSum rho 1 fC - v * x * phi x N -
        x * identitySum (x ^ N - 1) x us cQK + powerSum rho (rho ^ fC.length * rho ^ gC.length)
            (groupsC.map (powerSum (x ^ (N / (groupsC.headD []).length)) x)) := by
  rw [computeCZX, hN, batchMulNative_eq, productSum_cons, productSum_append, productSum_append,
    productSum_append, productSum_map_mul, productSum_powerProducts, productSum_powerProducts,
    productSum_groupProducts, productSum_identityProducts, phi]
  ring

theorem computeCZetaX_eq (cQ : F) (cQK : List F) (y x : F) (N : ℕ) (hN : 2 ^ cQK.length = N) :
    computeCZetaX cQ cQK y x = cQ - powerSum y 1 (scaledFrom x N 0 cQK) := by
  rw [computeCZetaX, hN, batchMulNative_eq, productSum_cons, productSum_zetaProducts, pow_zero,
    mul_one, sub_eq_add_neg]

/-- The polynomials and the evaluations that the two parties are given. -/
structure WellFormed (N numChunks : ℕ) (p : Polynomials F) (e : Evaluations F) : Prop where
  f : ∀ q ∈ p.f, q.size = N
  g : ∀ q ∈ p.g, q.size = N ∧ q.coeffs 0 = 0
  fLength : p.f.length = e.f.length
  gLength : p.g.length = e.gShift.length
  concatenatedLength : p.concatenated.length = e.concatenated.length
  numChunks_pos : 0 < numChunks
  chunks : ∀ group ∈ p.groups, group.length = numChunks
  groups : List.Forall₂ (SpellsOut N) p.groups p.concatenated

def trueEvaluations (u : List F) (p : Polynomials F) : Evaluations F :=
  ⟨p.f.map fun q => multilinear u q.coeffs, p.g.map fun q => multilinear u q.shifted.coeffs,
    p.concatenated.map fun q => multilinear u q.coeffs⟩

/-- What the steps of `prove` give. -/
structure Proved (cpus : ℕ) (p : Polynomials F) (e : Evaluations F) (u : List F)
    (rho y x : F) (c : Computed F) : Prop where
  size : c.polynomial.size = 2 ^ u.length
  polynomial : ∃ gShift : F[X], spread rho (rho ^ p.f.length) p.g = X * gShift ∧
    c.polynomial.denote = spread rho 1 p.f + gShift +
      spread rho (rho ^ p.f.length * rho ^ p.g.length) p.concatenated ∧
    multilinearHom u gShift = powerSum rho (rho ^ p.f.length)
      (p.g.map fun q => multilinear u q.shifted.coeffs)
  quotients : c.quotients = computeMultilinearQuotients c.polynomial u
  batchedQuotient : c.batchedQuotient =
    computeBatchedLiftedDegreeQuotient c.quotients y (2 ^ u.length)
  zetaX : c.zetaX =
    computePartiallyEvaluatedDegreeCheckPolynomial cpus c.batchedQuotient c.quotients y x
  sizeZX : c.ZX.size = 2 ^ u.length
  ZX : ∀ t, c.ZX.denote.eval t = (spread rho (rho ^ p.f.length) p.g).eval t +
    x * (spread rho 1 p.f).eval t - powerSum rho 1 e.all * x * phi x (2 ^ u.length) -
      x * identitySum (x ^ 2 ^ u.length - 1) x u (c.quotients.map fun q => q.denote.eval t) +
        powerSum rho (rho ^ p.f.length * rho ^ p.g.length) (p.groups.map fun group =>
          (spread (x ^ (2 ^ u.length / (p.groups.headD []).length)) x group).eval t)

theorem map_zip_fst (f : α → γ) (l : List α) (l' : List β) (h : l.length = l'.length) :
    ((l.zip l').map fun x => f x.1) = l.map f := by
  rw [← Function.comp_def f Prod.fst, ← map_map, map_fst_zip (le_of_eq h)]

theorem map_zip_snd (f : β → γ) (l : List α) (l' : List β) (h : l.length = l'.length) :
    ((l.zip l').map fun x => f x.2) = l'.map f := by
  rw [← Function.comp_def f Prod.snd, ← map_map, map_snd_zip (le_of_eq h.symm)]

theorem spread_eq_X_mul (nu c : F) (h : ∀ q ∈ ps, q.coeffs 0 = 0) :
    spread nu c ps = X * powerSum nu c (ps.map fun q => q.shifted.denote) := by
  have hmap : ps.map denote =
      (ps.map fun q => q.shifted.denote).map (LinearMap.mulLeft F (X : F[X])) := by
    rw [map_map]
    exact map_congr_left fun q hq => denote_eq_X_mul_shifted (h q hq)
  rw [spread, hmap, ← map_powerSum]
  rfl

theorem multilinearHom_powerSum (u : List F) (nu c : F) (f : α → ArrayPoly F) {l : List α}
    (h : ∀ a ∈ l, (f a).size = 2 ^ u.length) :
    multilinearHom u (powerSum nu c (l.map fun a => (f a).denote)) =
      powerSum nu c (l.map fun a => multilinear u (f a).coeffs) := by
  rw [map_powerSum, map_map]
  congr 1
  refine map_congr_left fun a ha => ?_
  rw [Function.comp_apply, denote, h a ha, multilinearHom_ofArray]

theorem denote_zeroPoly (n : ℕ) : (zeroPoly n : ArrayPoly F).denote = 0 := by
  simp [denote, zeroPoly, ofArray]

theorem spread_replicate (nu c : F) (k n : ℕ) :
    spread nu c (replicate k (zeroPoly n : ArrayPoly F)) = 0 := by
  rw [spread]
  induction k generalizing c with
  | zero => rfl
  | succ k ih => rw [replicate_succ, map_cons, powerSum_cons, ih, denote_zeroPoly,
      smul_zero, add_zero]

theorem size_spelledOut {groups : List (List (ArrayPoly F))} {concatenated : List (ArrayPoly F)}
    (h : List.Forall₂ (SpellsOut N) groups concatenated) :
    (∀ group ∈ groups, ∀ q ∈ group, q.size = N) ∧ ∀ q ∈ concatenated, q.size = N := by
  induction h with
  | nil => exact ⟨fun _ h => absurd h not_mem_nil, fun _ h => absurd h not_mem_nil⟩
  | cons hfirst _ ih =>
    exact ⟨forall_mem_cons.2 ⟨fun q hq => (hfirst.1 q hq).1, ih.1⟩,
      forall_mem_cons.2 ⟨hfirst.2.1, ih.2⟩⟩

theorem batchStep_foldl_zip (cpus N : ℕ) (rho v c : F) {vs : List F}
    (hlength : ps.length = vs.length) (hsize : ∀ q ∈ ps, q.size = N) {s : ArrayPoly F × F × F}
    (hs : (ps.zip vs).foldl (batchStep cpus rho) ((zeroPoly N : ArrayPoly F), v, c) = s) :
    s.1.size = N ∧ s.1.denote = spread rho c ps ∧ s.2.1 = v + powerSum rho c vs ∧
      s.2.2 = c * rho ^ ps.length := by
  obtain ⟨hsizes, hdenote, hvalue, hpower⟩ := batchStep_foldl cpus rho (ps.zip vs)
    ((zeroPoly N : ArrayPoly F), v, c) fun pe hpe => le_of_eq (hsize pe.1 (of_mem_zip hpe).1)
  rw [hs] at hsizes hdenote hvalue hpower
  rw [denote_zeroPoly, zero_add, map_zip_fst denote _ _ hlength] at hdenote
  rw [map_zip_snd (fun v => v) _ _ hlength, map_id'] at hvalue
  rw [length_zip, ← hlength, Nat.min_self] at hpower
  exact ⟨hsizes, hdenote, hvalue, hpower⟩

theorem denote_shifted_of_spread {nu c : F} (hsize : 0 < g.size) (hzero : ∀ q ∈ ps, q.coeffs 0 = 0)
    (hg : g.denote = spread nu c ps) :
    g.shifted.denote = powerSum nu c (ps.map fun q => q.shifted.denote) := by
  rw [spread_eq_X_mul nu c hzero] at hg
  have hfirst : g.coeffs 0 = 0 := by
    rw [← coeff_ofArray_of_lt g.coeffs hsize, ← denote, hg, coeff_X_mul_zero]
  rw [denote_eq_X_mul_shifted hfirst] at hg
  exact mul_left_cancel₀ X_ne_zero hg

variable {p : Polynomials F} {e : Evaluations F}

theorem length_of_mem_groups (hwf : WellFormed N numChunks p e) (hgroup : group ∈ p.groups) :
    group.length = (p.groups.headD []).length := by
  cases hcases : p.groups with
  | nil =>
    rw [hcases] at hgroup
    exact absurd hgroup not_mem_nil
  | cons first rest =>
    rw [headD_cons, hwf.chunks group hgroup, hwf.chunks first (hcases ▸ mem_cons_self)]

theorem groupStep_foldl_zip (cpus : ℕ) (rho v c x : F) {N numChunks : ℕ} (hwf : WellFormed N numChunks p e)
    {s : List (ArrayPoly F) × ArrayPoly F × F × F}
    (hs : (p.groups.zip (p.concatenated.zip e.concatenated)).foldl (groupStep cpus rho)
      (replicate (if p.groups.isEmpty then 0 else (p.groups.headD []).length)
        (zeroPoly N : ArrayPoly F), (zeroPoly N : ArrayPoly F), v, c) = s) :
    (∀ group ∈ p.groups, group.length = s.1.length) ∧ (∀ q ∈ s.1, q.size = N) ∧
      (∀ nu, spread nu x s.1 = powerSum rho c (p.groups.map fun group => spread nu x group)) ∧
      s.2.1.size = N ∧ s.2.1.denote = spread rho c p.concatenated ∧
      s.2.2.1 = v + powerSum rho c e.concatenated := by
  obtain ⟨hgroupSize, hconcatSize⟩ := size_spelledOut hwf.groups
  obtain ⟨k, hk⟩ : ∃ k, (if p.groups.isEmpty then 0 else (p.groups.headD []).length) = k := ⟨_, rfl⟩
  rw [hk] at hs
  have hkLength : ∀ group ∈ p.groups, group.length = k := by
    intro group hgroup
    rw [← hk, if_neg (by simpa using ne_nil_of_mem hgroup)]
    exact length_of_mem_groups hwf hgroup
  have hfold := fun nu => groupStep_foldl cpus N k rho nu x
    (p.groups.zip (p.concatenated.zip e.concatenated))
    (replicate k (zeroPoly N : ArrayPoly F), (zeroPoly N : ArrayPoly F), v, c)
    ⟨length_replicate, fun q hq => (eq_of_mem_replicate hq) ▸ rfl⟩
    (fun pge hpge => ⟨hkLength _ (of_mem_zip hpge).1, hgroupSize _ (of_mem_zip hpge).1⟩)
  rw [hs] at hfold
  have hlengths : p.groups.length = (p.concatenated.zip e.concatenated).length := by
    rw [length_zip, ← hwf.concatenatedLength, Nat.min_self, hwf.groups.length_eq]
  have hsnd := (hfold 0).1
  rw [map_snd_zip (le_of_eq hlengths.symm)] at hsnd
  obtain ⟨hsize, hdenote, hvalue, -⟩ := batchStep_foldl_zip cpus N rho v c
    hwf.concatenatedLength hconcatSize hsnd.symm
  obtain ⟨-, ⟨hlength, hsizes⟩, -⟩ := hfold 0
  refine ⟨fun group hgroup => (hkLength group hgroup).trans hlength.symm, hsizes,
    fun nu => ?_, hsize, hdenote, hvalue⟩
  rw [(hfold nu).2.2, spread_replicate, zero_add, map_zip_fst (spread nu x) _ _ hlengths]

theorem size_of_mem_quotients {polynomial : ArrayPoly F} {u : List F} (hu : u ≠ [])
    (hsize : polynomial.size = 2 ^ u.length) (hq : q ∈ computeMultilinearQuotients polynomial u) :
    q.size ≤ 2 ^ u.length := by
  obtain ⟨u₀, us, rfl⟩ := exists_cons_of_ne_nil hu
  have hmem : q.size ∈ (computeMultilinearQuotients polynomial (u₀ :: us)).map size :=
    mem_map_of_mem hq
  rw [(computeMultilinearQuotients_eq polynomial u₀ us hsize).2] at hmem
  obtain ⟨j, hj, hqj⟩ := mem_map.1 hmem
  rw [← hqj]
  exact Nat.pow_le_pow_right Nat.two_pos (le_of_lt (mem_range.1 hj))

theorem provePolynomials_eq [DecidableEq F] (cpus : ℕ) {u : List F} (hwf : WellFormed (2 ^ u.length) numChunks p e) (rho y x z : F) (hu : u ≠ []) :
    ∃ c : Computed F, (∀ pi, Proved cpus p e u rho y x { c with pi := pi }) ∧
      provePolynomials cpus p e u rho y x z =
        (computeBatchedEvaluationAndDegreeCheckQuotient cpus c.zetaX c.ZX x z).map
          fun pi => { c with pi := pi } := by
  have hN : 0 < 2 ^ u.length := Nat.two_pow_pos _
  have hzero : ∀ q ∈ p.g, q.coeffs 0 = 0 := fun q hq => (hwf.g q hq).2
  -- the unshifted polynomials, those to be shifted, and the groups, in the order of the loops
  obtain ⟨f, hf⟩ : ∃ f, (p.f.zip e.f).foldl (batchStep cpus rho)
      ((zeroPoly (2 ^ u.length) : ArrayPoly F), 0, 1) = f := ⟨_, rfl⟩
  obtain ⟨hfSize, hfDenote, hfValue, hfPower⟩ := batchStep_foldl_zip cpus _ rho 0 1
    hwf.fLength hwf.f hf
  rw [one_mul] at hfPower
  obtain ⟨g, hg⟩ : ∃ g, (p.g.zip e.gShift).foldl (batchStep cpus rho)
      ((zeroPoly (2 ^ u.length) : ArrayPoly F), f.2.1, f.2.2) = g := ⟨_, rfl⟩
  obtain ⟨hgSize, hgDenote, hgValue, hgPower⟩ := batchStep_foldl_zip cpus _ rho f.2.1 f.2.2
    hwf.gLength (fun q hq => (hwf.g q hq).1) hg
  rw [hfPower] at hgDenote hgPower
  obtain ⟨groups, hgroups⟩ : ∃ groups, (p.groups.zip (p.concatenated.zip e.concatenated)).foldl
      (groupStep cpus rho) (replicate (if p.groups.isEmpty then 0 else (p.groups.headD []).length)
        (zeroPoly (2 ^ u.length) : ArrayPoly F),
        (zeroPoly (2 ^ u.length) : ArrayPoly F), g.2.1, g.2.2) = groups := ⟨_, rfl⟩
  obtain ⟨hgroupsLength, hgroupsSize, hspread, hcSize, hcDenote, hcValue⟩ :=
    groupStep_foldl_zip cpus rho g.2.1 g.2.2 x hwf hgroups
  rw [hgPower] at hcDenote
  have hvalue : groups.2.2.1 = powerSum rho 1 e.all := by
    rw [hcValue, hgValue, hfValue, hgPower, hfPower, Evaluations.all, powerSum_append,
      powerSum_append, length_append, ← hwf.fLength, ← hwf.gLength, one_mul, one_mul, pow_add,
      zero_add]
  -- the batched polynomial
  have hshift := denote_shifted_of_spread (hgSize ▸ hN) hzero hgDenote
  obtain ⟨polynomial, hpolynomial⟩ :
    ∃ q, (f.1.add cpus g.1.shifted).add cpus groups.2.1 = q := ⟨_, rfl⟩
  have hpolySize : polynomial.size = 2 ^ u.length := by
    rw [← hpolynomial]
    exact hfSize
  have hpolyDenote : polynomial.denote = spread rho 1 p.f +
      powerSum rho (rho ^ p.f.length) (p.g.map fun q => q.shifted.denote) +
        spread rho (rho ^ p.f.length * rho ^ p.g.length) p.concatenated := by
    rw [← hpolynomial, denote_add cpus (p := f.1.add cpus g.1.shifted)
        (le_of_eq (hcSize.trans hfSize.symm)),
      denote_add cpus (q := g.1.shifted) (le_of_eq (hgSize.trans hfSize.symm)), hshift,
      hfDenote, hcDenote]
  have hidentity := fun t => eval_identityPolynomial cpus hN hfSize hgSize
    (fun q => size_of_mem_quotients hu hpolySize) hgroupsSize groups.2.2.1 x t u
  refine ⟨⟨polynomial, computeMultilinearQuotients polynomial u,
    computeBatchedLiftedDegreeQuotient (computeMultilinearQuotients polynomial u) y (2 ^ u.length),
    computePartiallyEvaluatedDegreeCheckPolynomial cpus (computeBatchedLiftedDegreeQuotient
      (computeMultilinearQuotients polynomial u) y (2 ^ u.length))
      (computeMultilinearQuotients polynomial u) y x,
    computePartiallyEvaluatedZeromorphIdentityPolynomial cpus f.1 g.1
      (computeMultilinearQuotients polynomial u) groups.2.2.1 u x groups.1, zeroPoly 0⟩,
    fun pi => ⟨hpolySize, ⟨_, spread_eq_X_mul rho _ hzero, hpolyDenote, ?_⟩, rfl,
      rfl, rfl, (hidentity 0).1, fun t => ?_⟩, ?_⟩
  · exact multilinearHom_powerSum u rho _ shifted fun q hq => (hwf.g q hq).1
  · dsimp only
    rw [(hidentity t).2, hgDenote, hfDenote, hvalue, hspread, hgPower,
      eval_powerSum t rho _ (p.groups.map _), map_map]
    congr 2
    refine map_congr_left fun group hgroup => ?_
    rw [Function.comp_apply, ← hgroupsLength group hgroup, length_of_mem_groups hwf hgroup]
  · simp only [provePolynomials, hf, hg, hgroups, hpolynomial]
    cases computeBatchedEvaluationAndDegreeCheckQuotient cpus _ _ x z <;> rfl

/-! ### The two parties -/

/-- The combination that the pairing compares with zero, for the secret. -/
def pairing (secret : F) (p : Polynomials F) (e : Evaluations F) (u : List F) (c : Computed F)
    (rho y x z : F) : F :=
  let inputs := verify (p.f.map (commit secret)) (p.g.map (commit secret)) e u
    (p.groups.map (List.map (commit secret))) (c.messages secret) rho y x z
  inputs.1 + secret * inputs.2

/-- What the two parties are to do: the quotients, the polynomials that vanish, and the pairing for
right and for wrong evaluations. -/
def Agree [DecidableEq F] (cpus : ℕ) (p : Polynomials F) (e : Evaluations F) (u : List F)
    (rho y x z : F) : Prop :=
  ∃ c, provePolynomials cpus p e u rho y x z = some c ∧
    multilinear u c.polynomial.coeffs = batchedEvaluation rho (trueEvaluations u p) ∧
    (∀ xs : List F, xs.length = u.length →
      multilinear xs c.polynomial.coeffs - multilinear u c.polynomial.coeffs =
        ∑ k ∈ Finset.range u.length, (xs.getD k 0 - u.getD k 0) *
          multilinear (xs.take k) (c.quotients.getD k (zeroPoly 0)).coeffs) ∧
    (batchedEvaluation rho e = batchedEvaluation rho (trueEvaluations u p) →
      c.zetaX.denote.eval x = 0 ∧ c.ZX.denote.eval x = 0 ∧
        ∀ secret, pairing secret p e u c rho y x z = 0) ∧
    (batchedEvaluation rho e ≠ batchedEvaluation rho (trueEvaluations u p) → z ≠ 0 →
      ∃ secret, pairing secret p e u c rho y x z ≠ 0)

section Parties

variable {cpus : ℕ} {p : Polynomials F} {e : Evaluations F} {u : List F} {rho y x z : F}
variable {c : Computed F}

theorem length_quotients (h : Proved cpus p e u rho y x c) (hu : u ≠ []) :
    Sizes 0 c.quotients ∧ c.quotients.length = u.length := by
  obtain ⟨u₀, us, rfl⟩ := exists_cons_of_ne_nil hu
  have hsizes := (computeMultilinearQuotients_eq c.polynomial u₀ us h.size).2
  rw [← h.quotients] at hsizes
  have hlength : c.quotients.length = us.length + 1 := by
    simpa using congrArg List.length hsizes
  refine ⟨?_, hlength⟩
  rw [Sizes, hsizes, hlength, range_eq_range']

theorem eval_zetaX (h : Proved cpus p e u rho y x c) (hu : u ≠ []) : c.zetaX.size = 2 ^ u.length ∧
      (∀ t, c.zetaX.denote.eval t = c.batchedQuotient.denote.eval t -
        powerSum y 1 (scaledFrom x (2 ^ u.length) 0 (c.quotients.map fun q => q.denote.eval t))) ∧
      c.zetaX.denote.eval x = 0 := by
  obtain ⟨hsizes, hlength⟩ := length_quotients h hu
  have hN : ∀ j < 0 + c.quotients.length, 2 ^ j ≤ 2 ^ u.length := fun j hj =>
    Nat.pow_le_pow_right Nat.two_pos (by omega)
  have hquotient := liftedStep_foldl y (2 ^ u.length) c.quotients (zeroPoly _, 1, 0) rfl hsizes hN
  have hbatched : c.batchedQuotient.size = 2 ^ u.length ∧ c.batchedQuotient.denote =
      powerSum y 1 (liftedFrom (2 ^ u.length) 0 (c.quotients.map denote)) := by
    rw [h.batchedQuotient]
    refine ⟨?_, ?_⟩
    · have hkeep : ∀ (qs : List (ArrayPoly F)) (s : ArrayPoly F × F × ℕ),
          (qs.foldl (liftedStep y (2 ^ u.length)) s).1.size = s.1.size := by
        intro qs
        induction qs with
        | nil => exact fun _ => rfl
        | cons q qs ih => exact fun s => ih (liftedStep y (2 ^ u.length) s q)
      exact hkeep _ _
    · rw [computeBatchedLiftedDegreeQuotient, hquotient, denote_zeroPoly, zero_add]
  obtain ⟨hsize, hdenote⟩ := degreeCheckStep_foldl cpus y x (2 ^ u.length) c.quotients
    (c.batchedQuotient, 1, 0) hbatched.1 hsizes hN
  have heval : ∀ t, c.zetaX.denote.eval t = c.batchedQuotient.denote.eval t -
      powerSum y 1 (scaledFrom x (2 ^ u.length) 0 (c.quotients.map fun q => q.denote.eval t)) := by
    intro t
    rw [h.zetaX, computePartiallyEvaluatedDegreeCheckPolynomial, hbatched.1, hdenote, eval_sub,
      eval_powerSum, map_eval_scaledFrom, map_map]
    rfl
  refine ⟨?_, heval, ?_⟩
  · rw [h.zetaX, computePartiallyEvaluatedDegreeCheckPolynomial, hbatched.1, hsize]
  · rw [heval, hbatched.2, eval_powerSum, map_eval_liftedFrom, map_map, sub_eq_zero]
    rfl

theorem multilinear_polynomial {numChunks : ℕ} (hwf : WellFormed (2 ^ u.length) numChunks p e)
    (h : Proved cpus p e u rho y x c) :
    multilinear u c.polynomial.coeffs = batchedEvaluation rho (trueEvaluations u p) := by
  obtain ⟨gShift, -, hdenote, hshift⟩ := h.polynomial
  have hconcat := (size_spelledOut hwf.groups).2
  rw [← multilinearHom_ofArray, ← h.size, ← denote, hdenote, map_add, map_add, hshift,
    spread, spread, multilinearHom_powerSum u rho 1 (fun q => q) hwf.f,
    multilinearHom_powerSum u rho _ (fun q => q) hconcat, batchedEvaluation_eq, Evaluations.all,
    powerSum_append, powerSum_append, length_append, trueEvaluations]
  simp only [length_map, one_mul, pow_add]

theorem map_eval_spread {N numChunks k : ℕ} {groups : List (List (ArrayPoly F))}
    {concatenated : List (ArrayPoly F)} (hspell : List.Forall₂ (SpellsOut N) groups concatenated)
    (hlength : ∀ group ∈ groups, group.length = numChunks) (hpos : 0 < numChunks)
    (hk : groups ≠ [] → k = numChunks) (x : F) :
    (groups.map fun group => (spread (x ^ (N / k)) x group).eval x) =
      (concatenated.map denote).map fun P => x * P.eval x := by
  induction hspell with
  | nil => rfl
  | @cons group q groups concatenated hfirst _ ih =>
    obtain ⟨hgroup, hrest⟩ := forall_mem_cons.1 hlength
    have hk := hk (cons_ne_nil _ _)
    rw [map_cons, map_cons, map_cons, ih hrest fun _ => hk, hk, ← hgroup,
      eval_spread hfirst (hgroup ▸ hpos)]

theorem powerSum_map_eval_mul (nu c x : F) (l : List F[X]) :
    powerSum nu c (l.map fun P => x * P.eval x) = x * powerSum nu c (l.map (eval x)) := by
  rw [← LinearMap.mulLeft_apply (R := F), map_powerSum, map_map]
  rfl

theorem eval_ZX {numChunks : ℕ} (hwf : WellFormed (2 ^ u.length) numChunks p e) (hu : u ≠ [])
    (h : Proved cpus p e u rho y x c) (hx : ∀ k ≤ u.length, x ^ 2 ^ k ≠ 1) :
    c.ZX.denote.eval x = x * phi x (2 ^ u.length) *
      (batchedEvaluation rho (trueEvaluations u p) - batchedEvaluation rho e) := by
  obtain ⟨gShift, hshift, hdenote, -⟩ := h.polynomial
  have hmultilinear := multilinear_polynomial hwf h
  have hk : p.groups ≠ [] → (p.groups.headD []).length = numChunks := by
    intro hgroups
    obtain ⟨group, rest, hcases⟩ := exists_cons_of_ne_nil hgroups
    rw [hcases, headD_cons]
    exact hwf.chunks group (hcases ▸ mem_cons_self)
  have hgroups := map_eval_spread hwf.groups hwf.chunks hwf.numChunks_pos hk x
  obtain ⟨u₀, us, rfl⟩ := exists_cons_of_ne_nil hu
  have hquotients := (computeMultilinearQuotients_eq c.polynomial u₀ us h.size).1
  rw [← h.quotients] at hquotients
  have hidentity := eval_quotientPolys u₀ x (x ^ 2 ^ (us.length + 1) - 1) us.reverse
    c.polynomial.coeffs (fun k hk => hx k (by
      rwa [length_reverse] at hk))
  rw [length_reverse, reverse_reverse, ← hquotients,
    div_self (sub_ne_zero.2 (hx (us.length + 1) le_rfl)), one_mul, map_map,
    hmultilinear] at hidentity
  have hpoly : (ofArray (2 ^ (us.length + 1)) c.polynomial.coeffs).eval x =
      (spread rho 1 p.f).eval x + gShift.eval x +
        (spread rho (rho ^ p.f.length * rho ^ p.g.length) p.concatenated).eval x := by
    rw [← eval_add, ← eval_add, ← hdenote, denote, h.size]
    rfl
  rw [hpoly] at hidentity
  have hconcat : (spread rho (rho ^ p.f.length * rho ^ p.g.length) p.concatenated).eval x =
      powerSum rho (rho ^ p.f.length * rho ^ p.g.length)
        ((p.concatenated.map denote).map (eval x)) := eval_powerSum _ _ _ _
  rw [h.ZX, hgroups, powerSum_map_eval_mul, ← hconcat, hshift, eval_mul, eval_X,
    ← batchedEvaluation_eq, length_cons, phi]
  rw [Function.comp_def] at hidentity
  linear_combination x * hidentity

theorem pairing_eq (hu : u ≠ []) (h : Proved cpus p e u rho y x c) (secret : F) :
    pairing secret p e u c rho y x z = c.zetaX.denote.eval secret + z * c.ZX.denote.eval secret +
      (x - secret) * c.pi.denote.eval secret := by
  obtain ⟨-, hlength⟩ := length_quotients h hu
  obtain ⟨-, hzeta, -⟩ := eval_zetaX h hu
  have hN : 2 ^ (c.quotients.map (commit secret)).length = 2 ^ u.length := by
    rw [length_map, hlength]
  have hhead : ((p.groups.map (List.map (commit secret))).headD []).length =
      (p.groups.headD []).length := by
    cases p.groups with
    | nil => rfl
    | cons group groups => rw [map_cons, headD_cons, headD_cons, length_map]
  have hcommit : (c.quotients.map (commit secret)) =
      c.quotients.map fun q => q.denote.eval secret :=
    map_congr_left fun q _ => commit_eq secret q
  have hspread : ∀ (nu a : F) (ps : List (ArrayPoly F)), (spread nu a ps).eval secret =
      powerSum nu a (ps.map (commit secret)) := by
    intro nu a ps
    rw [spread, eval_powerSum, map_map]
    congr 1
    exact map_congr_left fun q _ => (commit_eq secret q).symm
  have hZX : computeCZX (p.f.map (commit secret)) (p.g.map (commit secret))
      (c.quotients.map (commit secret)) rho (batchedEvaluation rho e) x u
      (p.groups.map (List.map (commit secret))) = c.ZX.denote.eval secret := by
    rw [computeCZX_eq _ _ _ _ _ _ _ _ _ hN, h.ZX, hspread, hspread, length_map,
      length_map, hhead, batchedEvaluation_eq, map_map, hcommit]
    congr 2
    exact map_congr_left fun group _ => (hspread _ _ _).symm
  have hzetaX : computeCZetaX (c.batchedQuotient.commit secret)
      (c.quotients.map (commit secret)) y x = c.zetaX.denote.eval secret := by
    rw [computeCZetaX_eq _ _ _ _ _ hN, hzeta, commit_eq, hcommit]
  rw [pairing, verify, Computed.messages]
  dsimp only
  rw [hZX, hzetaX, commit_eq secret c.pi]
  ring

end Parties

theorem quotients_identity {p : ArrayPoly F} {u : List F} (hu : u ≠ []) (hp : p.size = 2 ^ u.length)
    (xs : List F) (hxs : xs.length = u.length) : multilinear xs p.coeffs - multilinear u p.coeffs =
      ∑ k ∈ Finset.range u.length, (xs.getD k 0 - u.getD k 0) *
        multilinear (xs.take k) ((computeMultilinearQuotients p u).getD k (zeroPoly 0)).coeffs := by
  obtain ⟨u₀, us, rfl⟩ := exists_cons_of_ne_nil hu
  obtain ⟨x₀, xs, rfl⟩ := exists_cons_of_ne_nil (ne_nil_of_length_pos (by
    rw [hxs]; exact Nat.succ_pos _))
  obtain ⟨hdenote, hsize⟩ := computeMultilinearQuotients_eq p u₀ us hp
  have hidentity := multilinear_sub_multilinear x₀ u₀ xs.reverse us.reverse (by
    rw [length_reverse, length_reverse]
    exact Nat.succ.inj hxs) p.coeffs
  rw [reverse_reverse, reverse_reverse, length_reverse] at hidentity
  rw [hidentity, length_cons]
  refine Finset.sum_congr rfl fun k hk => ?_
  have hk := Finset.mem_range.1 hk
  have hlength : (computeMultilinearQuotients p (u₀ :: us)).length = us.length + 1 := by
    simpa using congrArg List.length hsize
  have hsizek : ((computeMultilinearQuotients p (u₀ :: us)).getD k (zeroPoly 0)).size = 2 ^ k := by
    have hget := congrArg (fun l : List ℕ => l.getD k 0) hsize
    rw [getD_eq_getElem _ _ (by rw [length_map, hlength]; exact hk), getElem_map,
      getD_eq_getElem _ _ (by simpa using hk), getElem_map, getElem_range] at hget
    rw [getD_eq_getElem _ _ (hlength ▸ hk), hget]
  have hdenotek : ((computeMultilinearQuotients p (u₀ :: us)).getD k (zeroPoly 0)).denote =
      (quotientPolys us.reverse p.coeffs).getD k 0 := by
    rw [← hdenote, getD_eq_getElem _ _ (hlength ▸ hk), getD_eq_getElem _ _ (by
      rw [length_map, hlength]; exact hk), getElem_map]
  have htake : ((x₀ :: xs).take k).length = k := by
    rw [length_take, hxs, length_cons, Nat.min_eq_left (by omega)]
  have hvalue := multilinearHom_ofArray ((x₀ :: xs).take k)
    ((computeMultilinearQuotients p (u₀ :: us)).getD k (zeroPoly 0)).coeffs
  rw [htake] at hvalue
  rw [← hdenotek, denote, hsizek, hvalue]

/-- **Prover and verifier agree for the sizes that can be committed to.** -/
theorem prover_verifier_agree [DecidableEq F] (cpus numChunks : ℕ) {p : Polynomials F}
    {e : Evaluations F} {u : List F} (hu : u ≠ []) (hmax : u.length ≤ 22)
    (hwf : WellFormed (2 ^ u.length) numChunks p e) (rho y : F) {x : F} (z : F) (hx₀ : x ≠ 0)
    (hx : ∀ k ≤ u.length, x ^ 2 ^ k ≠ 1) : Agree cpus p e u rho y x z := by
  obtain ⟨c, hproved, hprove⟩ := provePolynomials_eq cpus hwf rho y x z hu
  obtain ⟨hzetaSize, -, hzetaZero⟩ := eval_zetaX (hproved (zeroPoly 0)) hu
  have hZSize : c.ZX.size = 2 ^ u.length := (hproved (zeroPoly 0)).sizeZX
  have hle : 2 ^ u.length ≤ nMax := Nat.pow_le_pow_right Nat.two_pos hmax
  have hlarge : 1 < 2 ^ u.length := Nat.one_lt_two_pow (fun h => hu (length_eq_zero_iff.1 h))
  dsimp only at hzetaSize hzetaZero
  rw [computeBatchedEvaluationAndDegreeCheckQuotient, if_pos (hzetaSize ▸ hle)] at hprove
  have hpi := hproved ((c.zetaX.factorRoots x).addScaled cpus (c.ZX.factorRoots x) z)
  refine ⟨_, hprove, multilinear_polynomial hwf hpi, fun xs hxs => ?_, fun hright => ?_,
    fun hwrong hz => ⟨x, ?_⟩⟩
  · dsimp only
    rw [hpi.quotients]
    exact quotients_identity hu hpi.size xs hxs
  · have hZZero : c.ZX.denote.eval x = 0 := by
      have hZ := eval_ZX hwf hu hpi hx
      rw [hright, sub_self, mul_zero] at hZ
      exact hZ
    refine ⟨hzetaZero, hZZero, fun secret => ?_⟩
    have hzeta := eval_factorRoots (p := c.zetaX) (hzetaSize ▸ hlarge) hzetaZero secret
    have hZ := eval_factorRoots (p := c.ZX) (hZSize ▸ hlarge) hZZero secret
    rw [pairing_eq hu hpi]
    dsimp only
    rw [denote_addScaled cpus (p := c.zetaX.factorRoots x) (q := c.ZX.factorRoots x)
      (le_of_eq (hZSize.trans hzetaSize.symm)), eval_add, eval_mul, eval_C]
    linear_combination -hzeta - z * hZ
  · have hZ := eval_ZX hwf hu hpi hx
    have hpairing := pairing_eq (z := z) hu hpi x
    dsimp only at hZ hpairing
    rw [sub_self, zero_mul, add_zero, hzetaZero, zero_add, hZ] at hpairing
    have hphi : phi x (2 ^ u.length) ≠ 0 := by
      have hone := hx 0 (Nat.zero_le _)
      rw [pow_zero, pow_one] at hone
      exact div_ne_zero (sub_ne_zero.2 (hx _ le_rfl)) (sub_ne_zero.2 hone)
    rw [hpairing]
    exact mul_ne_zero hz (mul_ne_zero (mul_ne_zero hx₀ hphi) (sub_ne_zero.2 hwrong.symm))

/-- One variable, one polynomial to be shifted. -/
theorem prover_verifier_agree_one :
    Agree 1 (⟨[], [⟨2, fun i => i⟩], [], []⟩ : Polynomials ℚ) ⟨[], [1], []⟩ [3] 1 1 2 1 := by
  refine prover_verifier_agree 1 1 (cons_ne_nil 3 []) (by decide) ⟨?_, ?_, rfl, rfl, rfl,
    Nat.one_pos, ?_, List.Forall₂.nil⟩ 1 1 1 two_ne_zero ?_
  · exact fun q hq => absurd hq not_mem_nil
  · intro q hq
    rw [mem_singleton.1 hq]
    exact ⟨rfl, Nat.cast_zero⟩
  · exact fun group hgroup => absurd hgroup not_mem_nil
  · intro k hk
    exact (one_lt_pow₀ (by norm_num : (1 : ℚ) < 2) (Nat.two_pow_pos k).ne').ne'

/-- With 23 variables the quotient is too large for a commitment. -/
theorem not_agree : ¬ ∀ (cpus numChunks : ℕ) (p : Polynomials ℚ) (e : Evaluations ℚ) (u : List ℚ)
    (rho y x z : ℚ), u ≠ [] → WellFormed (2 ^ u.length) numChunks p e → x ≠ 0 →
      (∀ k ≤ u.length, x ^ 2 ^ k ≠ 1) → Agree cpus p e u rho y x z := by
  intro h
  have hwf : WellFormed (2 ^ (List.replicate 23 (0 : ℚ)).length) 1
      (⟨[], [], [], []⟩ : Polynomials ℚ) ⟨[], [], []⟩ :=
    ⟨fun q hq => absurd hq not_mem_nil, fun q hq => absurd hq not_mem_nil, rfl, rfl, rfl,
      Nat.one_pos, fun group hgroup => absurd hgroup not_mem_nil, List.Forall₂.nil⟩
  have hu : List.replicate 23 (0 : ℚ) ≠ [] := cons_ne_nil _ _
  obtain ⟨c, hc, -⟩ := h 1 1 ⟨[], [], [], []⟩ ⟨[], [], []⟩ (List.replicate 23 0) 1 1 2 1 hu hwf
    two_ne_zero (fun k _ => (one_lt_pow₀ (by norm_num : (1 : ℚ) < 2) (Nat.two_pow_pos k).ne').ne')
  obtain ⟨c', hproved, hprove⟩ := provePolynomials_eq 1 hwf 1 1 2 1 hu
  have hsize := (eval_zetaX (hproved (zeroPoly 0)) hu).1
  dsimp only at hsize
  rw [computeBatchedEvaluationAndDegreeCheckQuotient, if_neg, hc] at hprove
  · cases hprove
  · rw [hsize, length_replicate, nMax, not_le]
    exact Nat.pow_lt_pow_right (by omega) (by omega)

end ZeroMorph
