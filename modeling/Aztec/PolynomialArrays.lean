/-
**Polynomials as arrays, and loops cut into chunks.**

The operations on `Polynomial` that the commitment schemes use.  Every loop over the coefficients is
cut into chunks for the threads; a chunk writes only entries of its own.
-/

import Aztec.PolynomialRoots

open Polynomial Function List

namespace PolynomialArrays

open LowDivision

variable {F : Type}

/-! ### Loops in chunks -/

/-- The loop of one thread: the entries from `start`, each from its old value. -/
def chunk (f : ℕ → F → F) (start count : ℕ) (a : ℕ → F) : ℕ → F :=
  (List.range' start count).foldl (fun a j => Function.update a j (f j (a j))) a

/-- A loop whose thread `i` has the entries from `i * chunkSize`; the last chunk has its own
size. -/
def parallelFor (numThreads chunkSize lastChunkSize : ℕ) (f : ℕ → F → F) (a : ℕ → F) : ℕ → F :=
  (List.range numThreads).foldl (fun a i =>
    chunk f (i * chunkSize) (if i = numThreads - 1 then lastChunkSize else chunkSize) a) a

theorem chunk_apply (f : ℕ → F → F) (start count : ℕ) (a : ℕ → F) (j : ℕ) :
    chunk f start count a j = if start ≤ j ∧ j < start + count then f j (a j) else a j := by
  induction count generalizing j with
  | zero => rw [if_neg (by omega)]; rfl
  | succ count ih =>
    have hstep : chunk f start (count + 1) a = update (chunk f start count a)
        (start + count) (f (start + count) (chunk f start count a (start + count))) := by
      rw [chunk, range'_1_concat, foldl_append]
      rfl
    rw [hstep]
    by_cases hj : j = start + count
    · rw [hj, update_self, if_pos (by omega), ih, if_neg (by omega)]
    · rw [update_of_ne hj, ih]
      by_cases hin : start ≤ j ∧ j < start + count
      · rw [if_pos hin, if_pos (by omega)]
      · rw [if_neg hin, if_neg (by omega)]

theorem chunks_apply (f : ℕ → F → F) (size last threads k : ℕ) (hk : k < threads) (a : ℕ → F)
    (j : ℕ) : (range k).foldl (fun a i =>
      chunk f (i * size) (if i = threads - 1 then last else size) a) a j =
        if j < k * size then f j (a j) else a j := by
  induction k generalizing j with
  | zero => rw [if_neg (by omega)]; rfl
  | succ k ih =>
    have hsucc : (k + 1) * size = k * size + size := Nat.succ_mul k size
    rw [range_succ, foldl_append, foldl_cons, foldl_nil, chunk_apply,
      if_neg (show k ≠ threads - 1 by omega), ih (by omega)]
    by_cases hlow : j < k * size
    · rw [if_neg (by omega), if_pos hlow, if_pos (by omega)]
    · by_cases hin : j < (k + 1) * size
      · rw [if_pos (by omega), if_neg hlow, if_pos hin]
      · rw [if_neg (by omega), if_neg hlow, if_neg hin]

theorem parallelFor_apply {threads : ℕ} (hthreads : 0 < threads) (size last : ℕ)
    (f : ℕ → F → F) (a : ℕ → F) (j : ℕ) : parallelFor threads size last f a j =
      if j < (threads - 1) * size + last then f j (a j) else a j := by
  obtain ⟨k, rfl⟩ : ∃ k, threads = k + 1 := ⟨threads - 1, by omega⟩
  rw [parallelFor, range_succ, foldl_append, foldl_cons, foldl_nil,
    chunk_apply, if_pos (show k = k + 1 - 1 by omega), Nat.add_sub_cancel]
  have hfirst := chunks_apply f size last (k + 1) k (by omega) a j
  rw [Nat.add_sub_cancel] at hfirst
  rw [hfirst]
  by_cases hlow : j < k * size
  · rw [if_neg (by omega), if_pos hlow, if_pos (by omega)]
  · by_cases hin : j < k * size + last
    · rw [if_pos (by omega), if_neg hlow, if_pos hin]
    · rw [if_neg (by omega), if_neg hlow, if_neg hin]

theorem min_two_pow (a b : ℕ) : min (2 ^ a) (2 ^ b) = 2 ^ min a b :=
  ((pow_right_mono₀ (show 1 ≤ 2 by omega)).map_min).symm

theorem exists_threads (cpus k : ℕ) : ∃ b ≤ k, (if min (2 ^ k / 64) (2 ^ Nat.log2 cpus) ≠ 0 then
      min (2 ^ k / 64) (2 ^ Nat.log2 cpus) else 1) = 2 ^ b := by
  by_cases hk : k < 6
  · refine ⟨0, Nat.zero_le k, ?_⟩
    have hlt : 2 ^ k < 64 := Nat.pow_lt_pow_right (by omega) hk
    rw [Nat.div_eq_of_lt hlt, Nat.zero_min, if_neg (not_not.2 rfl), pow_zero]
  · refine ⟨min (k - 6) (Nat.log2 cpus), by omega, ?_⟩
    have hdiv : 2 ^ k / 64 = 2 ^ (k - 6) := Nat.pow_div (show 6 ≤ k by omega) Nat.two_pos
    rw [hdiv, min_two_pow, if_pos (Nat.two_pow_pos _).ne']

theorem chunks_cover {b k : ℕ} (hb : b ≤ k) :
    (2 ^ b - 1) * (2 ^ k / 2 ^ b) + 2 ^ k / 2 ^ b = 2 ^ k := by
  rw [← Nat.succ_mul, Nat.succ_eq_add_one, Nat.sub_add_cancel Nat.one_le_two_pow,
    Nat.mul_div_cancel' (Nat.pow_dvd_pow 2 hb)]

theorem fill_foldl (offset : ℕ) (value : (ℕ → F) → ℕ → F) (v t : ℕ → F) (M : ℕ)
    (h : ∀ i < M, ∀ s : ℕ → F, (∀ y, (∀ i' < i, y ≠ offset + i') → s y = t y) → value s i = v i)
    (y : ℕ) : (range M).foldl (fun s i => update s (offset + i) (value s i)) t y =
      if offset ≤ y ∧ y < offset + M then v (y - offset) else t y := by
  induction M generalizing y with
  | zero => exact (if_neg (by omega)).symm
  | succ M ih =>
    have hprev := ih fun i hi => h i (by omega)
    have hvalue : value ((range M).foldl (fun s i =>
        update s (offset + i) (value s i)) t) M = v M := by
      refine h M (Nat.lt_succ_self M) _ fun z hz => ?_
      rw [hprev z, if_neg]
      intro hin
      exact hz (z - offset) (by omega) (by omega)
    rw [range_succ, foldl_append, foldl_cons, foldl_nil, hvalue]
    by_cases hy : y = offset + M
    · rw [hy, update_self, if_pos (by omega), Nat.add_sub_cancel_left]
    · rw [update_of_ne hy, hprev y]
      by_cases hin : offset ≤ y ∧ y < offset + M
      · rw [if_pos hin, if_pos (by omega)]
      · rw [if_neg hin, if_neg (by omega)]

def calculateNumThreads (cpus numIterations minIterations : ℕ) : ℕ :=
  let numThreads := min (numIterations / minIterations) cpus
  if numThreads > 0 then numThreads else 1

theorem calculateNumThreads_pos (cpus n min : ℕ) : 0 < calculateNumThreads cpus n min := by
  rw [calculateNumThreads]
  split
  · assumption
  · exact Nat.one_pos

/-- A loop over all coefficients; the last thread has the leftovers. -/
def forCoefficients (cpus n : ℕ) (f : ℕ → F → F) (a : ℕ → F) : ℕ → F :=
  let numThreads := calculateNumThreads cpus n 16
  let rangePerThread := n / numThreads
  let leftovers := n - rangePerThread * numThreads
  parallelFor numThreads rangePerThread (rangePerThread + leftovers) f a

theorem forCoefficients_apply (cpus n : ℕ) (f : ℕ → F → F) (a : ℕ → F) (j : ℕ) :
    forCoefficients cpus n f a j = if j < n then f j (a j) else a j := by
  have hpos := calculateNumThreads_pos cpus n 16
  rw [forCoefficients]
  generalize calculateNumThreads cpus n 16 = threads at *
  obtain ⟨k, rfl⟩ : ∃ k, threads = k + 1 := ⟨threads - 1, by omega⟩
  have hle : n / (k + 1) * (k + 1) ≤ n := Nat.div_mul_le_self n (k + 1)
  have hend : k * (n / (k + 1)) + (n / (k + 1) + (n - n / (k + 1) * (k + 1))) = n := by
    rw [← Nat.add_assoc, ← Nat.succ_mul, Nat.mul_comm]
    exact Nat.add_sub_cancel' hle
  rw [parallelFor_apply hpos, Nat.add_sub_cancel, hend]

/-! ### The operations -/

variable [Field F]

/-- `Polynomial`.  The memory behind the last coefficient is zero. -/
structure ArrayPoly (F : Type) where
  size : ℕ
  coeffs : ℕ → F

namespace ArrayPoly

/-- `operator+=`. -/
def add (cpus : ℕ) (p q : ArrayPoly F) : ArrayPoly F :=
  ⟨p.size, forCoefficients cpus q.size (fun i x => x + q.coeffs i) p.coeffs⟩

/-- `operator-=`. -/
def sub (cpus : ℕ) (p q : ArrayPoly F) : ArrayPoly F :=
  ⟨p.size, forCoefficients cpus q.size (fun i x => x - q.coeffs i) p.coeffs⟩

/-- `operator*=`. -/
def scale (cpus : ℕ) (p : ArrayPoly F) (scalingFactor : F) : ArrayPoly F :=
  ⟨p.size, forCoefficients cpus p.size (fun _ x => x * scalingFactor) p.coeffs⟩

def addScaled (cpus : ℕ) (p q : ArrayPoly F) (scalingFactor : F) : ArrayPoly F :=
  ⟨p.size, forCoefficients cpus q.size (fun i x => x + scalingFactor * q.coeffs i) p.coeffs⟩

def subFirst (p : ArrayPoly F) (value : F) : ArrayPoly F :=
  ⟨p.size, Function.update p.coeffs 0 (p.coeffs 0 - value)⟩

/-- `shifted`: the last coefficient is read from the zeros behind the array. -/
def shifted (p : ArrayPoly F) : ArrayPoly F :=
  ⟨p.size, fun i => if i + 1 < p.size then p.coeffs (i + 1) else 0⟩

def factorRoots [DecidableEq F] (p : ArrayPoly F) (root : F) : ArrayPoly F :=
  ⟨p.size, PolynomialRoots.factorRoot p.size p.coeffs root⟩

def evaluate (cpus : ℕ) (p : ArrayPoly F) (z : F) : F :=
  PolynomialRoots.evaluate (Nat.log2 cpus) p.coeffs z p.size

/-- The commitment: the value at the secret point of the reference string. -/
def commit (secret : F) (p : ArrayPoly F) : F :=
  ∑ i ∈ Finset.range p.size, p.coeffs i * secret ^ i

noncomputable def denote (p : ArrayPoly F) : F[X] := ofArray p.size p.coeffs

variable (cpus : ℕ)

theorem evaluate_eq (p : ArrayPoly F) (z : F) : p.evaluate cpus z = p.denote.eval z :=
  PolynomialRoots.evaluate_eq _ _ _ _

theorem commit_eq (secret : F) (p : ArrayPoly F) : p.commit secret = p.denote.eval secret :=
  (eval_ofArray _ _ _).symm

variable {p q : ArrayPoly F}

theorem denote_addScaled (h : q.size ≤ p.size) (c : F) :
    (p.addScaled cpus q c).denote = p.denote + C c * q.denote := by
  ext i
  rw [denote, denote, denote, addScaled, coeff_add, coeff_C_mul, coeff_ofArray, coeff_ofArray,
    coeff_ofArray]
  dsimp only
  rw [forCoefficients_apply]
  by_cases hp : i < p.size
  · by_cases hq : i < q.size
    · rw [if_pos hp, if_pos hq, if_pos hp, if_pos hq]
    · rw [if_pos hp, if_neg hq, if_pos hp, if_neg hq, mul_zero, add_zero]
  · rw [if_neg hp, if_neg hp, if_neg (by omega), mul_zero, add_zero]

theorem denote_add (h : q.size ≤ p.size) : (p.add cpus q).denote = p.denote + q.denote := by
  have hscaled : p.add cpus q = p.addScaled cpus q 1 := by simp only [add, addScaled, one_mul]
  rw [hscaled, denote_addScaled cpus h, C_1, one_mul]

theorem denote_sub (h : q.size ≤ p.size) : (p.sub cpus q).denote = p.denote - q.denote := by
  have hscaled : p.sub cpus q = p.addScaled cpus q (-1) := by
    simp only [sub, addScaled, neg_one_mul, sub_eq_add_neg]
  rw [hscaled, denote_addScaled cpus h, C_neg, C_1, neg_one_mul, sub_eq_add_neg]

theorem denote_scale (p : ArrayPoly F) (c : F) : (p.scale cpus c).denote = C c * p.denote := by
  ext i
  rw [denote, denote, scale, coeff_C_mul, coeff_ofArray, coeff_ofArray]
  dsimp only
  rw [forCoefficients_apply]
  by_cases hi : i < p.size
  · rw [if_pos hi, if_pos hi, if_pos hi, mul_comm]
  · rw [if_neg hi, if_neg hi, mul_zero]

theorem denote_subFirst (hp : 0 < p.size) (v : F) : (p.subFirst v).denote = p.denote - C v :=
  (PolynomialRoots.ofArray_sub_C p.coeffs v hp).symm

theorem denote_eq_X_mul_shifted (h : p.coeffs 0 = 0) : p.denote = X * p.shifted.denote := by
  ext i
  cases i with
  | zero =>
    rw [coeff_X_mul_zero, denote, coeff_ofArray, h]
    split <;> rfl
  | succ i =>
    rw [coeff_X_mul, denote, denote, shifted, coeff_ofArray, coeff_ofArray]
    dsimp only
    by_cases hi : i + 1 < p.size
    · rw [if_pos hi, if_pos (by omega)]
    · rw [if_neg hi]
      split <;> rfl

theorem eval_factorRoots [DecidableEq F] (hsize : 1 < p.size) {root : F}
    (hroot : p.denote.eval root = 0) (y : F) :
    (y - root) * (p.factorRoots root).denote.eval y = p.denote.eval y := by
  obtain ⟨Q, hQ⟩ := dvd_iff_isRoot.2 hroot
  have hquotient : (p.factorRoots root).denote = Q := by
    refine ofArray_eq (fun i hi => PolynomialRoots.factorRoot_coeff hsize hQ i hi) fun i hi => ?_
    refine coeff_quotient_eq_zero
      (show _ = rootProduct [root] * Q by rw [rootProduct_cons, rootProduct_nil, mul_one]
                                          exact hQ) ?_
    exact Nat.le_succ_of_le hi
  rw [hquotient, hQ, eval_mul, eval_sub, eval_X, eval_C]

end ArrayPoly

/-! ### Sums with the powers of a challenge -/

section PowerSum

variable {M N : Type} [AddCommGroup M] [Module F M] [AddCommGroup N] [Module F N]

def powerSum (nu c : F) : List M → M
  | [] => 0
  | x :: xs => c • x + powerSum nu (c * nu) xs

@[simp] theorem powerSum_nil (nu c : F) : powerSum nu c ([] : List M) = 0 := rfl

theorem powerSum_cons (nu c : F) (x : M) (xs : List M) :
    powerSum nu c (x :: xs) = c • x + powerSum nu (c * nu) xs := rfl

theorem powerSum_cons_mul (nu c x : F) (xs : List F) :
    powerSum nu c (x :: xs) = c * x + powerSum nu (c * nu) xs := rfl

theorem powerSum_append (nu c : F) (xs ys : List M) :
    powerSum nu c (xs ++ ys) = powerSum nu c xs + powerSum nu (c * nu ^ xs.length) ys := by
  induction xs generalizing c with
  | nil => rw [nil_append, length_nil, pow_zero, mul_one, powerSum_nil, zero_add]
  | cons x xs ih =>
    rw [cons_append, powerSum_cons, powerSum_cons, ih, length_cons, add_assoc, mul_assoc,
      ← pow_succ']

theorem map_powerSum (f : M →ₗ[F] N) (nu c : F) (xs : List M) :
    f (powerSum nu c xs) = powerSum nu c (xs.map f) := by
  induction xs generalizing c with
  | nil => exact map_zero f
  | cons x xs ih => rw [powerSum_cons, map_add, map_smul, ih, map_cons, powerSum_cons]

theorem powerSum_sub {α : Type} (nu c : F) (f g : α → M) (l : List α) :
    powerSum nu c (l.map fun x => f x - g x) =
      powerSum nu c (l.map f) - powerSum nu c (l.map g) := by
  induction l generalizing c with
  | nil => rw [map_nil, map_nil, map_nil, powerSum_nil, sub_zero]
  | cons x l ih =>
    simp only [map_cons, powerSum_cons, ih, smul_sub]
    abel

end PowerSum

end PolynomialArrays
