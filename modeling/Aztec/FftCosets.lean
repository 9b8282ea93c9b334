/-
**The transforms over a coset, the inverses, and all variants together.**
-/

import Aztec.FftVariants
import Aztec.PolynomialArrays
import Aztec.ScalarField

open Polynomial Function
open List (foldl_append foldl_cons foldl_nil range range' range_succ)

namespace FftCosets

open LowDivision PolynomialArrays FourierTransform FftVariants

variable {F : Type} [Field F]

/-! ### The scaling -/

theorem scaleStep_foldl (start shift : F) (read : (ℕ → F) → ℕ → F) (offset s m : ℕ) (t : ℕ → F) :
    (range' s m).foldl (scaleStep shift read offset) (t, start * shift ^ s) =
      ((range' s m).foldl (fun t i =>
        update t (offset + i) (read t i * (start * shift ^ i))) t,
        start * shift ^ (s + m)) := by
  induction m with
  | zero => rfl
  | succ m ih =>
    rw [List.range'_1_concat, foldl_append, ih, foldl_append, foldl_cons,
      foldl_nil, foldl_cons, foldl_nil, scaleStep, mul_assoc start, ← pow_succ]
    rfl

theorem scaleByGenerator_eq (D : EvaluationDomain F) {read : (ℕ → F) → ℕ → F} {offset : ℕ}
    {a t : ℕ → F} (start shift : F) (size : ℕ)
    (h : ∀ i < D.numThreads * (size / D.numThreads), ∀ s : ℕ → F,
      (∀ y, (∀ i' < i, y ≠ offset + i') → s y = t y) → read s i = a i) (y : ℕ) :
    scaleByGenerator D read offset t start shift size y =
      if offset ≤ y ∧ y < offset + D.numThreads * (size / D.numThreads) then
        a (y - offset) * (start * shift ^ (y - offset)) else t y := by
  have hloop : scaleByGenerator D read offset t start shift size =
      parallelLoop D.numThreads (size / D.numThreads) (fun t i =>
        update t (offset + i) (read t i * (start * shift ^ i))) t := by
    rw [scaleByGenerator, parallelLoop]
    simp only [scaleStep_foldl]
  rw [hloop, parallelLoop_eq]
  exact fill_foldl offset (fun s i => read s i * (start * shift ^ i))
    (fun i => a i * (start * shift ^ i)) t _ (fun i hi s hs => by rw [h i hi s hs]) y

theorem scaleByGenerator_inPlace (D : EvaluationDomain F) (t : ℕ → F) (start shift : F)
    (size y : ℕ) : scaleByGenerator D inPlace 0 t start shift size y =
      if y < D.numThreads * (size / D.numThreads) then t y * (start * shift ^ y) else t y := by
  have hread : ∀ i < D.numThreads * (size / D.numThreads), ∀ s : ℕ → F,
      (∀ y, (∀ i' < i, y ≠ 0 + i') → s y = t y) → inPlace s i = t i :=
    fun i _ s hs => hs i fun i' hi' => by omega
  rw [scaleByGenerator_eq D start shift size hread]
  simp only [Nat.zero_le, true_and, Nat.zero_add, Nat.sub_zero]

/-! ### The arrays -/

/-- Coefficients spread over arrays of size `2 ^ p`. -/
def spread (p : ℕ) (a : ℕ → F) : ℕ → ℕ → F := fun i j => a (i * 2 ^ p + j)

omit [Field F] in
theorem readAt_spread (p : ℕ) (a : ℕ → F) : readAt p (spread p a) = a := by
  funext x
  rw [readAt, spread, Nat.and_two_pow_sub_one_eq_mod, Nat.shiftRight_eq_div_pow, Nat.mul_comm,
    Nat.div_add_mod]

omit [Field F] in
theorem readAt_const {k : ℕ} (a : ℕ → F) {x : ℕ} (hx : x < 2 ^ k) :
    readAt k (fun _ => a) x = a x := by
  rw [readAt, Nat.and_two_pow_sub_one_eq_mod, Nat.mod_eq_of_lt hx]

omit [Field F] in
theorem readAt_of_lt {k : ℕ} (c : ℕ → ℕ → F) {x : ℕ} (hx : x < 2 ^ k) : readAt k c x = c 0 x := by
  rw [readAt, Nat.and_two_pow_sub_one_eq_mod, Nat.mod_eq_of_lt hx, Nat.shiftRight_eq_div_pow,
    Nat.div_eq_of_lt hx]

omit [Field F] in
theorem threads_mul_div {D : EvaluationDomain F} (hD : Covered D) (p : ℕ) :
    D.numThreads * (2 ^ p / D.numThreads) = if D.numThreads ≤ 2 ^ p then 2 ^ p else 0 := by
  obtain ⟨t, -, ht⟩ := hD.threads
  rw [ht]
  by_cases htp : t ≤ p
  · rw [if_pos (Nat.pow_le_pow_right Nat.two_pos htp), Nat.pow_div htp Nat.two_pos, ← pow_add,
      Nat.add_sub_cancel' htp]
  · have hlt : 2 ^ p < 2 ^ t := Nat.pow_lt_pow_right (by omega) (by omega)
    rw [if_neg (by omega), Nat.div_eq_of_lt hlt, Nat.mul_zero]

theorem scaleArrays_foldl (D : EvaluationDomain F) (size : ℕ) (g : F) (c : ℕ → ℕ → F) (m : ℕ) :
    (range m).foldl (fun (s : (ℕ → ℕ → F) × F) i =>
      (update s.1 i (scaleByGenerator D inPlace 0 (s.1 i) s.2 g size), s.2 * g ^ size))
      (c, 1) =
    (fun i => if i < m then scaleByGenerator D inPlace 0 (c i) ((g ^ size) ^ i) g size else c i,
      (g ^ size) ^ m) := by
  induction m with
  | zero => simp
  | succ m ih =>
    rw [range_succ, foldl_append, ih, foldl_cons, foldl_nil, ← pow_succ]
    refine Prod.ext (funext fun i => ?_) rfl
    dsimp only
    by_cases hi : i = m
    · subst hi
      rw [update_self, if_neg (Nat.lt_irrefl i), if_pos (Nat.lt_succ_self i)]
    · rw [update_of_ne hi]
      by_cases him : i < m
      · rw [if_pos him, if_pos (by omega)]
      · rw [if_neg him, if_neg (by omega)]

theorem scaleArrays_eq {D : EvaluationDomain F} (hD : Covered D) {l : ℕ} (hl : l ≤ D.log2Size)
    (g : F) (c : ℕ → ℕ → F) {x : ℕ} (hx : x < D.size) :
    readAt (D.log2Size - l) (scaleArrays D l g c) x =
      if D.numThreads ≤ 2 ^ (D.log2Size - l) then readAt (D.log2Size - l) c x * g ^ x
      else readAt (D.log2Size - l) c x := by
  have hsize : D.size / 2 ^ l = 2 ^ (D.log2Size - l) := by
    rw [EvaluationDomain.size, Nat.pow_div hl Nat.two_pos]
  have hdiv : x / 2 ^ (D.log2Size - l) < 2 ^ l := by
    rw [Nat.div_lt_iff_lt_mul (Nat.two_pow_pos _), ← pow_add, Nat.add_sub_cancel' hl]
    exact hx
  have hmod : x % 2 ^ (D.log2Size - l) < 2 ^ (D.log2Size - l) :=
    Nat.mod_lt _ (Nat.two_pow_pos _)
  rw [scaleArrays, hsize, scaleArrays_foldl, readAt, readAt, Nat.and_two_pow_sub_one_eq_mod,
    Nat.shiftRight_eq_div_pow]
  dsimp only
  rw [if_pos hdiv, scaleByGenerator_inPlace, threads_mul_div hD]
  by_cases hthreads : D.numThreads ≤ 2 ^ (D.log2Size - l)
  · rw [if_pos hthreads, if_pos hthreads, if_pos hmod, ← pow_mul, ← pow_add, Nat.div_add_mod]
  · rw [if_neg hthreads, if_neg hthreads, if_neg (Nat.not_lt_zero _)]

/-! ### The roots -/

/-- The field's roots of unity, of which the bits of an index can be reversed in a word, and the
generator of the cosets. -/
structure Roots (F : Type) [Field F] where
  primitiveRoot : F
  primitiveRootLogSize : ℕ
  cosetGenerator : F
  isPrimitiveRoot : IsPrimitiveRoot primitiveRoot (2 ^ primitiveRootLogSize)
  logSize_le : primitiveRootLogSize ≤ 32
  generator_ne_zero : cosetGenerator ≠ 0

namespace Roots

variable (P : Roots F)

def domain (cpus k targetGeneratorSize : ℕ) : EvaluationDomain F :=
  EvaluationDomain.make cpus P.primitiveRoot P.primitiveRootLogSize P.cosetGenerator k
    targetGeneratorSize

def root (k : ℕ) : F := getRootOfUnity P.primitiveRoot P.primitiveRootLogSize k

variable {P} {k : ℕ}

theorem root_eq (k : ℕ) : P.root k = P.primitiveRoot ^ 2 ^ (P.primitiveRootLogSize - k) := by
  have hsquares : ∀ m, (range m).foldl (fun r _ => r ^ 2) P.primitiveRoot =
      P.primitiveRoot ^ 2 ^ m := by
    intro m
    induction m with
    | zero => rw [pow_zero, pow_one]; rfl
    | succ m ih =>
      rw [range_succ, foldl_append, foldl_cons, foldl_nil, ih, ← pow_mul, ← pow_succ]
  rw [root, getRootOfUnity, hsquares]

theorem isPrimitiveRoot_root (hk : k ≤ P.primitiveRootLogSize) :
    IsPrimitiveRoot (P.root k) (2 ^ k) := by
  rw [root_eq]
  refine P.isPrimitiveRoot.pow (Nat.two_pow_pos _) ?_
  rw [← pow_add, Nat.sub_add_cancel hk]

theorem root_pow_half (hk : 0 < k) (hle : k ≤ P.primitiveRootLogSize) :
    P.root k ^ 2 ^ (k - 1) = -1 := by
  refine ((isPrimitiveRoot_root hle).pow (Nat.two_pow_pos _) ?_).eq_neg_one_of_two_right
  rw [← pow_succ, Nat.sub_add_cancel hk]

theorem rootInverse_pow_half (hk : 0 < k) (hle : k ≤ P.primitiveRootLogSize) :
    (P.root k)⁻¹ ^ 2 ^ (k - 1) = -1 := by
  rw [inv_pow, root_pow_half hk hle, inv_neg, inv_one]

theorem size_ne_zero (hle : k ≤ P.primitiveRootLogSize) : ((2 ^ k : ℕ) : F) ≠ 0 := by
  have : NeZero (2 ^ k) := ⟨(Nat.two_pow_pos k).ne'⟩
  exact (isPrimitiveRoot_root hle).neZero'.out

theorem covered_domain (cpus gs : ℕ) (hk : 0 < k) (hle : k ≤ P.primitiveRootLogSize) :
    Covered (P.domain cpus k gs) :=
  covered_make cpus _ _ _ gs hk (hle.trans P.logSize_le)

theorem root_extension (e : ℕ) (hle : k + e ≤ P.primitiveRootLogSize) :
    P.root (k + e) ^ 2 ^ e = P.root k := by
  rw [root_eq, root_eq, ← pow_mul, ← pow_add]
  congr 2
  omega

end Roots

theorem dft_congr {w : F} {n : ℕ} {a b : ℕ → F} (h : ∀ i < n, a i = b i) (x : ℕ) :
    dft w n a x = dft w n b x :=
  Finset.sum_congr rfl fun i hi => by rw [h i (Finset.mem_range.1 hi)]

theorem dft_scaled (w g : F) (n : ℕ) (a : ℕ → F) (x : ℕ) :
    dft w n (fun i => a i * g ^ i) x = (ofArray n a).eval (g * w ^ x) := by
  rw [dft, eval_ofArray]
  refine Finset.sum_congr rfl fun i _ => ?_
  rw [mul_pow, ← pow_mul, mul_assoc]

/-! ### The inverse -/

theorem scaled_foldl (c : F) (t : ℕ → F) (M y : ℕ) :
    (range M).foldl (fun s i => update s i (s i * c)) t y =
      if y < M then t y * c else t y := by
  have hfill := fill_foldl 0 (fun s i => s i * c) (fun i => t i * c) t M
    (fun i _ s hs => by rw [hs i fun i' hi' => by omega]) y
  simpa using hfill

section Variants

variable {P : Roots F} {k : ℕ} (hk : 0 < k) (hle : k ≤ P.primitiveRootLogSize) (cpus gs : ℕ)
include hk hle

variable {l x : ℕ} {a : ℕ → F}

theorem fftArrays_eq (hl : l ≤ k) (hsmall : ¬(k = 1 ∧ l = 1)) (scratch : ℕ → F) (c : ℕ → ℕ → F) :
    ∃ c', fftArrays (P.domain cpus k gs) l scratch c = some c' ∧ ∀ x < 2 ^ k,
      readAt (k - l) c' x = dft (P.root k) (2 ^ k) (readAt (k - l) c) x :=
  fftInnerParallel_eq (Roots.covered_domain cpus gs hk hle) (Roots.root_pow_half hk hle) hl hsmall
    scratch c

theorem ifftArrays_eq (hl : l ≤ k) (hsmall : ¬(k = 1 ∧ l = 1)) (scratch : ℕ → F) {c : ℕ → ℕ → F}
    (hc : ∀ x < 2 ^ k, readAt (k - l) c x = dft (P.root k) (2 ^ k) a x) :
    ∃ c', ifftArrays (P.domain cpus k gs) l scratch c = some c' ∧ ∀ x < 2 ^ k,
      readAt (k - l) c' x = a x := by
  have hcovered := Roots.covered_domain cpus gs hk hle
  obtain ⟨c', hc', hvalues⟩ : ∃ c', fftInnerParallel (P.domain cpus k gs) (P.root k)⁻¹ l scratch c =
      some c' ∧ ∀ x < 2 ^ k, readAt (k - l) c' x = dft (P.root k)⁻¹ (2 ^ k) (readAt (k - l) c) x :=
    fftInnerParallel_eq hcovered (Roots.rootInverse_pow_half hk hle) hl hsmall scratch c
  have hlog : Nat.log2 ((P.domain cpus k gs).size / 2 ^ l) = k - l := log2_polySize hl
  have hinverse : (P.domain cpus k gs).domainInverse = ((2 ^ k : ℕ) : F)⁻¹ := rfl
  have hbind : ifftArrays (P.domain cpus k gs) l scratch c =
      some (parallelLoop (P.domain cpus k gs).numThreads (P.domain cpus k gs).threadSize (fun c i =>
        writeAt (k - l) c i (readAt (k - l) c i * ((2 ^ k : ℕ) : F)⁻¹)) c') := by
    rw [← hlog, ← hinverse]
    exact congrArg (Option.bind · _) hc'
  refine ⟨_, hbind, fun x hx => ?_⟩
  have hread : readAt (k - l) ((range (2 ^ k)).foldl (fun c i =>
      writeAt (k - l) c i (readAt (k - l) c i * ((2 ^ k : ℕ) : F)⁻¹)) c') =
        (range (2 ^ k)).foldl (fun s i =>
          update s i (s i * ((2 ^ k : ℕ) : F)⁻¹)) (readAt (k - l) c') :=
    (List.foldl_hom (readAt (k - l)) fun c i => (readAt_writeAt (k - l) c i _).symm).symm
  have hall : (P.domain cpus k gs).numThreads * (P.domain cpus k gs).threadSize = 2 ^ k := hcovered.all
  rw [parallelLoop_eq, hall, hread, scaled_foldl, if_pos hx, hvalues x hx, dft_congr hc,
    dft_inv_dft (Roots.isPrimitiveRoot_root hle) a hx, mul_comm, ← mul_assoc,
    inv_mul_cancel₀ (Roots.size_ne_zero hle), one_mul]

theorem ifftInto_eq (target : ℕ → F) {v : ℕ → F}
    (hv : ∀ x < 2 ^ k, v x = dft (P.root k) (2 ^ k) a x) (hx : x < 2 ^ k) :
    (ifftInto (P.domain cpus k gs) v target).2 x = a x := by
  have hcovered := Roots.covered_domain cpus gs hk hle
  have hvalues : (fftInnerInto (P.domain cpus k gs) (P.domain cpus k gs).rootInverse v target).2 x =
      dft (P.root k)⁻¹ (2 ^ k) v x :=
    fftInnerInto_eq hcovered (Roots.rootInverse_pow_half hk hle) v target hx
  have hinverse : (P.domain cpus k gs).domainInverse = ((2 ^ k : ℕ) : F)⁻¹ := rfl
  have hall : (P.domain cpus k gs).numThreads * (P.domain cpus k gs).threadSize = 2 ^ k := hcovered.all
  rw [ifftInto]
  dsimp only
  rw [parallelLoop_eq, hall, scaled_foldl, if_pos hx, hvalues, dft_congr hv,
    dft_inv_dft (Roots.isPrimitiveRoot_root hle) a hx, hinverse, mul_comm, ← mul_assoc,
    inv_mul_cancel₀ (Roots.size_ne_zero hle), one_mul]

theorem scaled_eq (a : ℕ → F) (g : F) (hx : x < 2 ^ k) :
    scaleByGenerator (P.domain cpus k gs) inPlace 0 a 1 g (P.domain cpus k gs).size x = a x * g ^ x := by
  have hall : (P.domain cpus k gs).numThreads * ((P.domain cpus k gs).size / (P.domain cpus k gs).numThreads)
      = 2 ^ k := (Roots.covered_domain cpus gs hk hle).all
  rw [scaleByGenerator_inPlace, hall, if_pos hx, one_mul]

/-! ### The extension of the domain -/

omit hk hle in
theorem cosetGenerator_eq (g root : F) (i : ℕ) :
    (range i).foldl (fun g _ => g * root) g = g * root ^ i := by
  induction i with
  | zero => rw [pow_zero, mul_one]; rfl
  | succ i ih =>
    rw [range_succ, foldl_append, ih, foldl_cons, foldl_nil, pow_succ, mul_assoc]

theorem scaleCopies_foldl (gens a : ℕ → F) (m : ℕ) {s : ℕ → F} (hs : ∀ x < 2 ^ k, s x = a x)
    (y : ℕ) :
    (range m).reverse.foldl (fun c i => scaleByGenerator (P.domain cpus k gs) inPlace (i * 2 ^ k)
      c 1 (gens i) (2 ^ k)) s y =
        if y < m * 2 ^ k then a (y % 2 ^ k) * gens (y / 2 ^ k) ^ (y % 2 ^ k) else s y := by
  have hall : (P.domain cpus k gs).numThreads * (2 ^ k / (P.domain cpus k gs).numThreads) = 2 ^ k :=
    (Roots.covered_domain cpus gs hk hle).all
  induction m generalizing s with
  | zero => exact (if_neg (by omega)).symm
  | succ m ih =>
    have hblock : m * 2 ^ k = 0 ∨ 2 ^ k ≤ m * 2 ^ k := by
      rcases Nat.eq_zero_or_pos m with rfl | hm
      · exact Or.inl (Nat.zero_mul _)
      · exact Or.inr (Nat.le_mul_of_pos_left _ hm)
    have hread : ∀ i < (P.domain cpus k gs).numThreads * (2 ^ k / (P.domain cpus k gs).numThreads),
        ∀ t : ℕ → F, (∀ z, (∀ i' < i, z ≠ m * 2 ^ k + i') → t z = s z) → inPlace t i = a i := by
      intro i hi t ht
      rw [hall] at hi
      rw [inPlace, ht i fun i' hi' => by omega, hs i hi]
    have hscale := scaleByGenerator_eq (P.domain cpus k gs) 1 (gens m) (2 ^ k) hread
    rw [hall] at hscale
    rw [range_succ, List.reverse_append, List.reverse_singleton, List.singleton_append,
      foldl_cons, Nat.succ_mul]
    rcases hblock with hzero | hblock
    · have hm : m = 0 := by
        rcases Nat.mul_eq_zero.1 hzero with hm | hpow
        · exact hm
        · exact absurd hpow (Nat.two_pow_pos k).ne'
      subst hm
      rw [List.range_zero, List.reverse_nil, foldl_nil, hscale y, Nat.zero_mul, Nat.zero_add]
      simp only [Nat.zero_le, true_and, Nat.sub_zero, one_mul]
      by_cases hy : y < 2 ^ k
      · rw [if_pos hy, if_pos hy, Nat.mod_eq_of_lt hy, Nat.div_eq_of_lt hy]
      · rw [if_neg hy, if_neg hy]
    · have hnext : ∀ x < 2 ^ k, scaleByGenerator (P.domain cpus k gs) inPlace (m * 2 ^ k) s 1 (gens m)
          (2 ^ k) x = a x := by
        intro x hx
        rw [hscale x, if_neg (by omega), hs x hx]
      rw [ih hnext, hscale y, one_mul]
      by_cases hlow : y < m * 2 ^ k
      · rw [if_pos hlow, if_pos (by omega)]
      · rw [if_neg hlow]
        by_cases hin : y < m * 2 ^ k + 2 ^ k
        · obtain ⟨x, rfl⟩ : ∃ x, y = m * 2 ^ k + x := ⟨y - m * 2 ^ k, by omega⟩
          have hx : x < 2 ^ k := by omega
          rw [if_pos ⟨by omega, hin⟩, if_pos hin, Nat.add_sub_cancel_left, Nat.mul_comm m,
            Nat.mul_add_mod, Nat.mul_add_div (Nat.two_pow_pos k), Nat.mod_eq_of_lt hx,
            Nat.div_eq_of_lt hx, Nat.add_zero]
        · rw [if_neg (fun h => hin h.2), if_neg hin]

theorem copies_foldl (c : ℕ → F) (m : ℕ) (scratch : ℕ → F) :
    ((∀ y < m * 2 ^ k, ((range m).foldl (fun (s : (ℕ → F) × (ℕ → F)) i =>
        let result := fftInnerInto (P.domain cpus k gs) (P.root k) (slice s.1 (i * 2 ^ k))
          (slice s.2 (i * 2 ^ k))
        (replace s.1 (i * 2 ^ k) (2 ^ k) result.1, replace s.2 (i * 2 ^ k) (2 ^ k) result.2))
        (c, scratch)).2 y = dft (P.root k) (2 ^ k) (slice c (y / 2 ^ k * 2 ^ k)) (y % 2 ^ k)) ∧
      ∀ y, m * 2 ^ k ≤ y → ((range m).foldl (fun (s : (ℕ → F) × (ℕ → F)) i =>
        let result := fftInnerInto (P.domain cpus k gs) (P.root k) (slice s.1 (i * 2 ^ k))
          (slice s.2 (i * 2 ^ k))
        (replace s.1 (i * 2 ^ k) (2 ^ k) result.1, replace s.2 (i * 2 ^ k) (2 ^ k) result.2))
        (c, scratch)).1 y = c y) := by
  induction m with
  | zero => exact ⟨fun y hy => absurd hy (by omega), fun y _ => rfl⟩
  | succ m ih =>
    obtain ⟨hscratch, hcoeffs⟩ := ih
    rw [range_succ, foldl_append, foldl_cons, foldl_nil, Nat.succ_mul]
    generalize (range m).foldl _ (c, scratch) = s at hscratch hcoeffs ⊢
    dsimp only
    refine ⟨fun y hy => ?_, fun y hy => ?_⟩
    · by_cases hlow : y < m * 2 ^ k
      · rw [replace, if_neg (by omega), hscratch y hlow]
      · obtain ⟨x, rfl⟩ : ∃ x, y = m * 2 ^ k + x := ⟨y - m * 2 ^ k, by omega⟩
        have hx : x < 2 ^ k := by omega
        have hfft : (fftInnerInto (P.domain cpus k gs) (P.root k) (slice s.1 (m * 2 ^ k))
            (slice s.2 (m * 2 ^ k))).2 x = dft (P.root k) (2 ^ k) (slice s.1 (m * 2 ^ k)) x :=
          fftInnerInto_eq (Roots.covered_domain cpus gs hk hle) (Roots.root_pow_half hk hle) _ _ hx
        have hdiv : (m * 2 ^ k + x) / 2 ^ k = m := by
          rw [Nat.mul_comm, Nat.mul_add_div (Nat.two_pow_pos k), Nat.div_eq_of_lt hx, Nat.add_zero]
        have hmod : (m * 2 ^ k + x) % 2 ^ k = x := by
          rw [Nat.mul_comm, Nat.mul_add_mod, Nat.mod_eq_of_lt hx]
        rw [replace, if_pos ⟨by omega, hy⟩, Nat.add_sub_cancel_left, hfft, hdiv, hmod]
        exact dft_congr (fun i _ => hcoeffs _ (by omega)) x
    · have hpos := Nat.two_pow_pos k
      rw [replace, if_neg (by omega), hcoeffs y (by omega)]

omit [Field F] P hk hle in
theorem interleave_foldl (k e n : ℕ) (scratch c : ℕ → F) (y : ℕ) :
    (range n).foldl (fun c i => (range (2 ^ e)).foldl (fun c j =>
      Function.update c ((i <<< e) + j) (scratch (i + (j <<< k)))) c) c y =
        if y < n * 2 ^ e then scratch (y / 2 ^ e + y % 2 ^ e * 2 ^ k) else c y := by
  have hinner : ∀ (c : ℕ → F) (i : ℕ), (range (2 ^ e)).foldl (fun c j =>
      Function.update c ((i <<< e) + j) (scratch (i + (j <<< k)))) c =
        (range' (i * 2 ^ e) (2 ^ e)).foldl (fun c y =>
          Function.update c y (scratch (y / 2 ^ e + y % 2 ^ e * 2 ^ k))) c := by
    intro c i
    rw [List.range'_eq_map_range, List.foldl_map]
    refine List.foldl_ext _ _ _ fun c j hj => ?_
    have hj : j < 2 ^ e := List.mem_range.1 hj
    rw [Nat.shiftLeft_eq, Nat.shiftLeft_eq, Nat.mul_comm i, Nat.mul_add_div (Nat.two_pow_pos e),
      Nat.mul_add_mod, Nat.div_eq_of_lt hj, Nat.mod_eq_of_lt hj, Nat.add_zero]
  have hloop := fill_foldl 0 (fun _ y => scratch (y / 2 ^ e + y % 2 ^ e * 2 ^ k))
    (fun y => scratch (y / 2 ^ e + y % 2 ^ e * 2 ^ k)) c (n * 2 ^ e) (fun _ _ _ _ => rfl) y
  simp only [Nat.zero_add, Nat.zero_le, true_and, Nat.sub_zero] at hloop
  simp only [hinner]
  rw [← hloop, ← parallelLoop_eq, parallelLoop]

theorem cosetFftExtension_eq {e : ℕ} (hke : k + e ≤ P.primitiveRootLogSize) (scratch a : ℕ → F)
    {y : ℕ} (hy : y < 2 ^ k * 2 ^ e) :
    cosetFftExtension (P.domain cpus k gs) P.primitiveRoot P.primitiveRootLogSize e scratch a y =
      (ofArray (2 ^ k) a).eval (P.cosetGenerator * P.root (k + e) ^ y) := by
  have hdiv : y / 2 ^ e < 2 ^ k := (Nat.div_lt_iff_lt_mul (Nat.two_pow_pos e)).2 hy
  have hmod : y % 2 ^ e < 2 ^ e := Nat.mod_lt _ (Nat.two_pow_pos e)
  -- The entry of the scratch space with the value `y`: its block is the coset.
  have hblock : (y / 2 ^ e + y % 2 ^ e * 2 ^ k) / 2 ^ k = y % 2 ^ e := by
    rw [Nat.add_mul_div_right _ _ (Nat.two_pow_pos k), Nat.div_eq_of_lt hdiv, Nat.zero_add]
  have hplace : (y / 2 ^ e + y % 2 ^ e * 2 ^ k) % 2 ^ k = y / 2 ^ e := by
    rw [Nat.add_mul_mod_self_right, Nat.mod_eq_of_lt hdiv]
  have hlt : y / 2 ^ e + y % 2 ^ e * 2 ^ k < 2 ^ e * 2 ^ k := by
    have hle := Nat.mul_le_mul_right (2 ^ k) hmod
    rw [Nat.succ_mul] at hle
    omega
  have hpoint : P.cosetGenerator * P.root (k + e) ^ y =
      P.cosetGenerator * P.root (k + e) ^ (y % 2 ^ e) * P.root k ^ (y / 2 ^ e) := by
    rw [← Roots.root_extension e hke, ← pow_mul, mul_assoc, ← pow_add, Nat.mod_add_div]
  obtain ⟨copies, hcopies⟩ : ∃ c, (range (2 ^ e)).reverse.foldl (fun c i =>
      scaleByGenerator (P.domain cpus k gs) inPlace (i * 2 ^ k) c 1
        (P.cosetGenerator * P.root (k + e) ^ i) (2 ^ k)) a = c := ⟨_, rfl⟩
  have hcopy : ∀ x < 2 ^ k, slice copies (y % 2 ^ e * 2 ^ k) x =
      a x * (P.cosetGenerator * P.root (k + e) ^ (y % 2 ^ e)) ^ x := by
    intro x hx
    have hlast := Nat.mul_le_mul_right (2 ^ k) hmod
    rw [Nat.succ_mul] at hlast
    rw [slice, ← hcopies, scaleCopies_foldl hk hle cpus gs _ a _ (fun _ _ => rfl), if_pos (by omega),
      Nat.mul_comm _ (2 ^ k), Nat.mul_add_mod, Nat.mul_add_div (Nat.two_pow_pos k),
      Nat.mod_eq_of_lt hx, Nat.div_eq_of_lt hx, Nat.add_zero]
  have hvalue := (copies_foldl hk hle cpus gs copies (2 ^ e) scratch).1 _ hlt
  rw [hblock, hplace, dft_congr hcopy, dft_scaled, ← hpoint] at hvalue
  rw [← hvalue, ← hcopies, cosetFftExtension]
  simp only [cosetGenerator_eq]
  have hentry : y < (P.domain cpus k gs).size * 2 ^ e := hy
  rw [interleave_foldl, if_pos hentry]
  rfl

end Variants

/-! ### All variants -/

inductive Variant
  | fft
  | fftInto
  | fftArrays
  | fftInnerSerial
  | ifft
  | ifftInto
  | ifftArrays
  | cosetFft
  | cosetFftInto
  | cosetFftArrays
  | cosetIfft
  | cosetIfftArrays
  | cosetFftExtension

/-- What a variant is called with: a domain of size `2 ^ log2Size`, coefficients that may be spread
over `2 ^ logPolys` arrays, and what the scratch space and the second array hold. -/
structure Setting (P : Roots F) where
  cpus : ℕ
  log2Size : ℕ
  targetGeneratorSize : ℕ
  logPolys : ℕ
  logExtension : ℕ
  scratch : ℕ → F
  target : ℕ → F
  coeffs : ℕ → F
  log2Size_pos : 0 < log2Size
  logPolys_le : logPolys ≤ log2Size
  extension_le : log2Size + logExtension ≤ P.primitiveRootLogSize

namespace Setting

variable {P : Roots F} (S : Setting P)

def domain : EvaluationDomain F := P.domain S.cpus S.log2Size S.targetGeneratorSize

/-- The values at the points `g * w ^ i`, in order. -/
def Values (g : F) (v : ℕ → F) : Prop :=
  ∀ i < 2 ^ S.log2Size, v i = (ofArray (2 ^ S.log2Size) S.coeffs).eval (g * P.root S.log2Size ^ i)

def IsCoeffs (r : ℕ → F) : Prop := ∀ i < 2 ^ S.log2Size, r i = S.coeffs i

def logPoly : ℕ := S.log2Size - S.logPolys

def Right : Variant → Prop
  | .fft => ∃ r, fft S.domain S.scratch S.coeffs = some r ∧ S.Values 1 r
  | .fftInto => S.Values 1 (fftInto S.domain S.coeffs S.target).2
  | .fftArrays => ∃ r, fftArrays S.domain S.logPolys S.scratch (spread S.logPoly S.coeffs) =
      some r ∧ S.Values 1 (readAt S.logPoly r)
  | .fftInnerSerial => ∃ r, fftInnerSerial S.log2Size S.domain.root S.logPolys
      (spread S.logPoly S.coeffs) = some r ∧ S.Values 1 (readAt S.logPoly r)
  | .ifft => ∀ v, S.Values 1 v → ∃ r, ifft S.domain S.scratch v = some r ∧ S.IsCoeffs r
  | .ifftInto => ∀ v, S.Values 1 v → S.IsCoeffs (ifftInto S.domain v S.target).2
  | .ifftArrays => ∀ v, S.Values 1 v → ∃ r, ifftArrays S.domain S.logPolys S.scratch
      (spread S.logPoly v) = some r ∧ S.IsCoeffs (readAt S.logPoly r)
  | .cosetFft => ∃ r, cosetFft S.domain S.scratch S.coeffs = some r ∧ S.Values P.cosetGenerator r
  | .cosetFftInto => S.Values P.cosetGenerator (cosetFftInto S.domain S.coeffs S.target).2
  | .cosetFftArrays => ∃ r, cosetFftArrays S.domain S.logPolys S.scratch
      (spread S.logPoly S.coeffs) = some r ∧ S.Values P.cosetGenerator (readAt S.logPoly r)
  | .cosetIfft => ∀ v, S.Values P.cosetGenerator v → ∃ r,
      cosetIfft S.domain S.scratch v = some r ∧ S.IsCoeffs r
  | .cosetIfftArrays => ∀ v, S.Values P.cosetGenerator v → ∃ r, cosetIfftArrays S.domain S.logPolys
      S.scratch (spread S.logPoly v) = some r ∧ S.IsCoeffs (readAt S.logPoly r)
  | .cosetFftExtension => ∀ y < 2 ^ S.log2Size * 2 ^ S.logExtension,
      cosetFftExtension S.domain P.primitiveRoot P.primitiveRootLogSize S.logExtension S.scratch
        S.coeffs y = (ofArray (2 ^ S.log2Size) S.coeffs).eval
          (P.cosetGenerator * P.root (S.log2Size + S.logExtension) ^ y)

/-- The coefficients that the powers of the generator do not change. -/
def Fixed : Prop := ∀ i < 2 ^ S.log2Size, S.coeffs i * P.cosetGenerator ^ i = S.coeffs i

/-- The coefficients `coset_fft` scales in place. -/
def scaled : ℕ := S.domain.numThreads * (S.domain.generatorSize / S.domain.numThreads)

/-- The powers of the generator do not change the coefficients beyond those that are scaled. -/
def FixedBeyond : Prop :=
  ∀ i < 2 ^ S.log2Size, S.scaled ≤ i → S.coeffs i * P.cosetGenerator ^ i = S.coeffs i

/-- The two coefficients of a domain of size two in two arrays. -/
def Split : Prop := S.log2Size = 1 ∧ S.logPolys = 1

def HoldsFor : Variant → Prop
  | .fftArrays | .ifftArrays => ¬S.Split
  | .fftInnerSerial => S.logPolys < S.log2Size
  | .cosetFft => S.FixedBeyond
  | .cosetFftInto => S.Fixed
  | .cosetFftArrays | .cosetIfftArrays =>
    ¬S.Split ∧ (S.domain.numThreads ≤ 2 ^ S.logPoly ∨ S.Fixed)
  | _ => True

variable {S}

theorem le_logSize : S.log2Size ≤ P.primitiveRootLogSize :=
  (Nat.le_add_right _ _).trans S.extension_le

theorem values_iff (g : F) (v : ℕ → F) : S.Values g v ↔ ∀ i < 2 ^ S.log2Size,
    v i = dft (P.root S.log2Size) (2 ^ S.log2Size) (fun i => S.coeffs i * g ^ i) i := by
  refine forall₂_congr fun i _ => ?_
  rw [dft_scaled]

theorem values_one_iff (v : ℕ → F) : S.Values 1 v ↔ ∀ i < 2 ^ S.log2Size,
    v i = dft (P.root S.log2Size) (2 ^ S.log2Size) S.coeffs i := by
  rw [values_iff]
  simp only [one_pow, mul_one]

variable {v : ℕ → F} {g : F}

theorem values_iff_of_dft {b : ℕ → F} (hv : ∀ i < 2 ^ S.log2Size,
      v i = dft (P.root S.log2Size) (2 ^ S.log2Size) b i) :
    S.Values P.cosetGenerator v ↔
      ∀ i < 2 ^ S.log2Size, S.coeffs i * P.cosetGenerator ^ i = b i := by
  rw [values_iff]
  constructor
  · intro h i hi
    exact dft_injective (a := fun i => S.coeffs i * P.cosetGenerator ^ i)
      (Roots.isPrimitiveRoot_root le_logSize) (Roots.size_ne_zero le_logSize)
      (fun j hj => by rw [← hv j hj, h j hj]) hi
  · intro h i hi
    rw [hv i hi]
    exact dft_congr (fun j hj => (h j hj).symm) i

theorem values_iff_fixed (hv : S.Values 1 v) : S.Values P.cosetGenerator v ↔ S.Fixed :=
  values_iff_of_dft ((values_one_iff v).1 hv)

theorem fftArrays_values (hsplit : ¬S.Split) {c : ℕ → ℕ → F}
    (hc : ∀ x < 2 ^ S.log2Size, readAt S.logPoly c x = S.coeffs x * g ^ x) :
    ∃ r, fftArrays S.domain S.logPolys S.scratch c = some r ∧ S.Values g (readAt S.logPoly r) := by
  obtain ⟨r, hr, hvalues⟩ := fftArrays_eq S.log2Size_pos le_logSize S.cpus S.targetGeneratorSize S.logPolys_le hsplit
    S.scratch c
  refine ⟨r, hr, (values_iff g _).2 fun i hi => ?_⟩
  rw [logPoly, hvalues i hi]
  exact dft_congr hc i

theorem fftArrays_none (hsplit : S.Split) (c : ℕ → ℕ → F) :
    fftArrays S.domain S.logPolys S.scratch c = none := by
  obtain ⟨hlog, hpolys⟩ := hsplit
  rw [hpolys]
  exact fftInnerParallel_eq_none hlog S.scratch c

theorem fft_dft (a : ℕ → F) : ∃ r, fft S.domain S.scratch a = some r ∧
    ∀ i < 2 ^ S.log2Size, r i = dft (P.root S.log2Size) (2 ^ S.log2Size) a i := by
  obtain ⟨r, hr, hvalues⟩ := fftArrays_eq S.log2Size_pos le_logSize S.cpus S.targetGeneratorSize
    (Nat.zero_le _) (by omega) S.scratch fun _ => a
  refine ⟨r 0, congrArg (Option.map fun r : ℕ → ℕ → F => r 0) hr, fun i hi => ?_⟩
  rw [← readAt_of_lt r hi]
  refine (hvalues i hi).trans (dft_congr (fun j hj => ?_) i)
  rw [Nat.sub_zero, readAt_const a hj]

theorem right_fft : S.Right .fft := by
  obtain ⟨r, hr, hdft⟩ := fft_dft (S := S) S.coeffs
  exact ⟨r, hr, (values_one_iff r).2 hdft⟩

theorem right_fftInto : S.Values 1 (fftInto S.domain S.coeffs S.target).2 :=
  (values_one_iff _).2 fun _ hi =>
    fftInnerInto_eq (Roots.covered_domain S.cpus S.targetGeneratorSize S.log2Size_pos le_logSize)
      (Roots.root_pow_half S.log2Size_pos le_logSize) S.coeffs S.target hi

theorem right_fftArrays : S.Right .fftArrays ↔ ¬S.Split := by
  constructor
  · rintro ⟨r, hr, -⟩ hsplit
    rw [fftArrays_none hsplit] at hr
    cases hr
  · intro hsplit
    refine fftArrays_values hsplit fun x _ => ?_
    rw [readAt_spread, one_pow, mul_one]

theorem right_fftInnerSerial : S.Right .fftInnerSerial ↔ S.logPolys < S.log2Size := by
  constructor
  · rintro ⟨r, hr, -⟩
    by_contra hlt
    rw [show S.logPolys = S.log2Size from le_antisymm S.logPolys_le (not_lt.1 hlt),
      fftInnerSerial_eq_none] at hr
    cases hr
  · intro hlt
    obtain ⟨r, hr, hvalues⟩ := fftInnerSerial_eq (le_logSize.trans P.logSize_le)
      (Roots.root_pow_half S.log2Size_pos le_logSize) hlt (spread S.logPoly S.coeffs)
    refine ⟨r, hr, (values_one_iff _).2 fun i hi => ?_⟩
    rw [logPoly, hvalues i hi, ← logPoly, readAt_spread]

theorem ifftArrays_scaled (hsplit : ¬S.Split) (hv : S.Values g v) :
    ∃ r, ifftArrays S.domain S.logPolys S.scratch (spread S.logPoly v) = some r ∧
      ∀ i < 2 ^ S.log2Size, readAt S.logPoly r i = S.coeffs i * g ^ i := by
  refine ifftArrays_eq S.log2Size_pos le_logSize S.cpus S.targetGeneratorSize S.logPolys_le hsplit S.scratch
    fun x hx => ?_
  rw [← logPoly, readAt_spread]
  exact (values_iff g v).1 hv x hx

theorem ifft_scaled (hv : S.Values g v) : ∃ r, ifft S.domain S.scratch v = some r ∧
      ∀ i < 2 ^ S.log2Size, r i = S.coeffs i * g ^ i := by
  obtain ⟨r, hr, hvalues⟩ := ifftArrays_eq (c := fun _ => v) S.log2Size_pos le_logSize S.cpus S.targetGeneratorSize
    (Nat.zero_le _) (by omega) S.scratch fun x hx => by
      rw [Nat.sub_zero, readAt_const v hx]
      exact (values_iff g v).1 hv x hx
  refine ⟨r 0, congrArg (Option.map fun r : ℕ → ℕ → F => r 0) hr, fun i hi => ?_⟩
  rw [← readAt_of_lt r hi]
  exact hvalues i hi

theorem ifftArrays_none (hsplit : S.Split) (c : ℕ → ℕ → F) :
    ifftArrays S.domain S.logPolys S.scratch c = none := by
  obtain ⟨hlog, hpolys⟩ := hsplit
  rw [ifftArrays, hpolys, fftInnerParallel_eq_none hlog]
  rfl

theorem exists_values (g : F) : ∃ v, S.Values g v :=
  ⟨fun i => (ofArray (2 ^ S.log2Size) S.coeffs).eval (g * P.root S.log2Size ^ i), fun _ _ => rfl⟩

theorem right_ifftArrays : S.Right .ifftArrays ↔ ¬S.Split := by
  constructor
  · intro h hsplit
    obtain ⟨v, hv⟩ := exists_values (S := S) 1
    obtain ⟨r, hr, -⟩ := h v hv
    rw [ifftArrays_none hsplit] at hr
    cases hr
  · intro hsplit v hv
    obtain ⟨r, hr, hcoeffs⟩ := ifftArrays_scaled hsplit hv
    refine ⟨r, hr, fun i hi => ?_⟩
    rw [hcoeffs i hi, one_pow, mul_one]

theorem right_ifft : S.Right .ifft := by
  intro v hv
  obtain ⟨r, hr, hcoeffs⟩ := ifft_scaled hv
  refine ⟨r, hr, fun i hi => ?_⟩
  rw [hcoeffs i hi, one_pow, mul_one]

theorem right_cosetFft : S.Right .cosetFft ↔ S.FixedBeyond := by
  obtain ⟨r, hr, hdft⟩ := fft_dft (S := S) (scaleByGenerator S.domain inPlace 0 S.coeffs 1
    S.domain.generator S.domain.generatorSize)
  have hvalues : S.Right .cosetFft ↔ S.Values P.cosetGenerator r := by
    constructor
    · rintro ⟨r', hr', hvalues⟩
      cases hr.symm.trans hr'
      exact hvalues
    · exact fun hvalues => ⟨r, hr, hvalues⟩
  rw [hvalues, values_iff_of_dft hdft]
  refine forall₂_congr fun i _ => ?_
  rw [scaleByGenerator_inPlace, one_mul, scaled]
  by_cases hi : i < S.domain.numThreads * (S.domain.generatorSize / S.domain.numThreads)
  · exact iff_of_true (if_pos hi).symm fun hle => absurd hi (not_lt.2 hle)
  · rw [if_neg hi]
    exact ⟨fun h _ => h, fun h => h (not_lt.1 hi)⟩

theorem right_cosetFftInto : S.Right .cosetFftInto ↔ S.Fixed := by
  refine values_iff_fixed ((values_one_iff _).2 fun i hi => ?_)
  exact fftInnerInto_eq (Roots.covered_domain S.cpus S.targetGeneratorSize S.log2Size_pos le_logSize)
    (Roots.root_pow_half S.log2Size_pos le_logSize) S.coeffs _ hi

theorem readAt_scaleArrays (g : F) (c : ℕ → ℕ → F) {x : ℕ} (hx : x < 2 ^ S.log2Size) :
    readAt S.logPoly (scaleArrays S.domain S.logPolys g c) x =
      if S.domain.numThreads ≤ 2 ^ S.logPoly then readAt S.logPoly c x * g ^ x
      else readAt S.logPoly c x :=
  scaleArrays_eq (Roots.covered_domain S.cpus S.targetGeneratorSize S.log2Size_pos le_logSize) S.logPolys_le g c hx

theorem right_cosetFftArrays : S.Right .cosetFftArrays ↔
    ¬S.Split ∧ (S.domain.numThreads ≤ 2 ^ S.logPoly ∨ S.Fixed) := by
  by_cases hsplit : S.Split
  · refine iff_of_false ?_ fun h => h.1 hsplit
    rintro ⟨r, hr, -⟩
    rw [cosetFftArrays, fftArrays_none hsplit] at hr
    cases hr
  by_cases hthreads : S.domain.numThreads ≤ 2 ^ S.logPoly
  · refine iff_of_true ?_ ⟨hsplit, Or.inl hthreads⟩
    refine fftArrays_values hsplit fun x hx => ?_
    rw [readAt_scaleArrays _ _ hx, if_pos hthreads, readAt_spread]
    rfl
  · have hscaled : ∀ x < 2 ^ S.log2Size, readAt S.logPoly (scaleArrays S.domain S.logPolys
        P.cosetGenerator (spread S.logPoly S.coeffs)) x = S.coeffs x * 1 ^ x := by
      intro x hx
      rw [readAt_scaleArrays _ _ hx, if_neg hthreads, readAt_spread, one_pow, mul_one]
    obtain ⟨r, hr, hvalues⟩ := fftArrays_values hsplit hscaled
    rw [← values_iff_fixed hvalues]
    constructor
    · rintro ⟨r', hr', hvalues'⟩
      cases hr.symm.trans hr'
      exact ⟨hsplit, Or.inr hvalues'⟩
    · rintro ⟨-, hthreads' | hvalues'⟩
      · exact absurd hthreads' hthreads
      · exact ⟨r, hr, hvalues'⟩

theorem right_cosetIfft : S.Right .cosetIfft := by
  intro v hv
  obtain ⟨r, hr, hcoeffs⟩ := ifft_scaled hv
  refine ⟨_, by rw [cosetIfft, hr]; rfl, fun i hi => ?_⟩
  refine (scaled_eq S.log2Size_pos le_logSize S.cpus S.targetGeneratorSize r P.cosetGenerator⁻¹ hi).trans ?_
  rw [hcoeffs i hi, mul_assoc, ← mul_pow, mul_inv_cancel₀ P.generator_ne_zero, one_pow, mul_one]

theorem right_cosetIfftArrays : S.Right .cosetIfftArrays ↔
    ¬S.Split ∧ (S.domain.numThreads ≤ 2 ^ S.logPoly ∨ S.Fixed) := by
  obtain ⟨v₀, hv₀⟩ := exists_values (S := S) P.cosetGenerator
  by_cases hsplit : S.Split
  · refine iff_of_false ?_ fun h => h.1 hsplit
    intro h
    obtain ⟨r, hr, -⟩ := h v₀ hv₀
    rw [cosetIfftArrays, ifftArrays_none hsplit] at hr
    cases hr
  have hinverse : ∀ v, S.Values P.cosetGenerator v → ∃ r, cosetIfftArrays S.domain S.logPolys
      S.scratch (spread S.logPoly v) = some r ∧ ∀ i < 2 ^ S.log2Size, readAt S.logPoly r i =
        if S.domain.numThreads ≤ 2 ^ S.logPoly then S.coeffs i
        else S.coeffs i * P.cosetGenerator ^ i := by
    intro v hv
    obtain ⟨r, hr, hcoeffs⟩ := ifftArrays_scaled hsplit hv
    refine ⟨_, by rw [cosetIfftArrays, hr]; rfl, fun i hi => ?_⟩
    refine (readAt_scaleArrays P.cosetGenerator⁻¹ r hi).trans ?_
    rw [hcoeffs i hi, mul_assoc, ← mul_pow, mul_inv_cancel₀ P.generator_ne_zero, one_pow, mul_one]
  constructor
  · intro h
    obtain ⟨r, hr, hcoeffs⟩ := h v₀ hv₀
    obtain ⟨r', hr', hvalues⟩ := hinverse v₀ hv₀
    rw [hr] at hr'
    cases hr'
    by_cases hthreads : S.domain.numThreads ≤ 2 ^ S.logPoly
    · exact ⟨hsplit, Or.inl hthreads⟩
    · refine ⟨hsplit, Or.inr fun i hi => ?_⟩
      have hvalue := hvalues i hi
      rw [if_neg hthreads, hcoeffs i hi] at hvalue
      exact hvalue.symm
  · rintro ⟨-, hcases⟩ v hv
    obtain ⟨r, hr, hvalues⟩ := hinverse v hv
    refine ⟨r, hr, fun i hi => ?_⟩
    rw [hvalues i hi]
    by_cases hthreads : S.domain.numThreads ≤ 2 ^ S.logPoly
    · rw [if_pos hthreads]
    · rw [if_neg hthreads, hcases.resolve_left hthreads i hi]

theorem right_cosetFftExtension : S.Right .cosetFftExtension := fun _ hy =>
  cosetFftExtension_eq S.log2Size_pos le_logSize S.cpus S.targetGeneratorSize S.extension_le S.scratch S.coeffs hy

theorem right_iff (V : Variant) : S.Right V ↔ S.HoldsFor V := by
  cases V with
  | fft => exact iff_of_true right_fft trivial
  | fftInto => exact iff_of_true right_fftInto trivial
  | fftArrays => exact right_fftArrays
  | fftInnerSerial => exact right_fftInnerSerial
  | ifft => exact iff_of_true right_ifft trivial
  | ifftInto =>
    refine iff_of_true (fun v hv i hi => ?_) trivial
    exact ifftInto_eq S.log2Size_pos le_logSize S.cpus S.targetGeneratorSize S.target ((values_one_iff v).1 hv) hi
  | ifftArrays => exact right_ifftArrays
  | cosetFft => exact right_cosetFft
  | cosetFftInto => exact right_cosetFftInto
  | cosetFftArrays => exact right_cosetFftArrays
  | cosetIfft => exact iff_of_true right_cosetIfft trivial
  | cosetIfftArrays => exact right_cosetIfftArrays
  | cosetFftExtension => exact iff_of_true right_cosetFftExtension trivial

end Setting

/-- **All variants**: the two that split badly, and the transforms over a coset: in place it scales
as many coefficients as the domain says, and into a second array it transforms those it was given. -/
theorem variants_iff {P : Roots F} (S : Setting P) :
    (IsPrimitiveRoot S.domain.root (2 ^ S.log2Size) ∧
      IsPrimitiveRoot (P.root (S.log2Size + S.logExtension)) (2 ^ (S.log2Size + S.logExtension))) ∧
    (∀ V, S.Right V ↔ S.HoldsFor V) ∧ ((∀ V, S.Right V) ↔ S.logPolys < S.log2Size ∧ S.Fixed) := by
  refine ⟨⟨Roots.isPrimitiveRoot_root Setting.le_logSize,
    Roots.isPrimitiveRoot_root S.extension_le⟩, Setting.right_iff, ?_⟩
  constructor
  · intro h
    exact ⟨Setting.right_fftInnerSerial.1 (h .fftInnerSerial),
      Setting.right_cosetFftInto.1 (h .cosetFftInto)⟩
  · rintro ⟨hlt, hfixed⟩ V
    have hsplit : ¬S.Split := fun h => absurd hlt (by rw [h.1, h.2]; exact lt_irrefl 1)
    refine (Setting.right_iff V).2 ?_
    cases V with
    | fftArrays => exact hsplit
    | fftInnerSerial => exact hlt
    | ifftArrays => exact hsplit
    | cosetFft => exact fun i hi _ => hfixed i hi
    | cosetFftInto => exact hfixed
    | cosetFftArrays => exact ⟨hsplit, Or.inr hfixed⟩
    | cosetIfftArrays => exact ⟨hsplit, Or.inr hfixed⟩
    | _ => trivial

/-! ### The scalar field of the curve -/

/-- `primitive_root` of the scalar field, out of the Montgomery form. -/
def primitiveRootFF : ℕ :=
  19103219067921713944291392827692070036145651957329286315305642004821462161904

theorem isPrimitiveRoot_FF : IsPrimitiveRoot (primitiveRootFF : FF) (2 ^ 28) := by
  have hp : 2 ≤ Kernel.fieldModulus := FF.fieldModulus_prime.two_le
  have hone : (primitiveRootFF : FF) ^ 2 ^ 28 = 1 :=
    (Lucas.powMod_digits_eq_one_iff hp (by decide +kernel)).1 (by decide +kernel)
  have hhalf : ¬(primitiveRootFF : FF) ^ 2 ^ 27 = 1 := fun h =>
    absurd ((Lucas.powMod_digits_eq_one_iff hp (by decide +kernel)).2 h) (by decide +kernel)
  have : Fact (Nat.Prime 2) := ⟨Nat.prime_two⟩
  have horder := orderOf_eq_prime_pow hhalf hone
  exact horder ▸ IsPrimitiveRoot.orderOf _

/-- The roots and the first coset generator of the scalar field. -/
def rootsFF : Roots FF where
  primitiveRoot := primitiveRootFF
  primitiveRootLogSize := 28
  cosetGenerator := 5
  isPrimitiveRoot := isPrimitiveRoot_FF
  logSize_le := by norm_num
  generator_ne_zero := by decide

/-- The coefficients of `X` over a domain of size four. -/
def linearSetting : Setting rootsFF where
  cpus := 1
  log2Size := 2
  targetGeneratorSize := 0
  logPolys := 1
  logExtension := 0
  scratch := fun _ => 0
  target := fun _ => 0
  coeffs := fun i => if i = 1 then 1 else 0
  log2Size_pos := by norm_num
  logPolys_le := by norm_num
  extension_le := by norm_num [rootsFF]

/-- Not every variant is right. -/
theorem not_variantsRight : ¬∀ (P : Roots FF) (S : Setting P) (V : Variant), S.Right V := by
  intro h
  have hfixed := Setting.right_cosetFftInto.1 (h rootsFF linearSetting .cosetFftInto) 1
    (by decide)
  exact absurd hfixed (by decide)

end FftCosets
