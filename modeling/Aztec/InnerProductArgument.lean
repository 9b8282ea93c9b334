/-
**The inner product argument.**

The prover folds the coefficients of a polynomial, the powers of the opening point and the points
of the reference string in halves, one round for each bit of the size.  The verifier gets the same
challenges from the messages, and computes the last folded power and the last folded point from
closed formulas.  Group operations and multi-scalar multiplications are those of a module over the
scalar field.
-/

import Mathlib.Algebra.BigOperators.Module
import Mathlib.Algebra.BigOperators.Ring.Finset
import Mathlib.Algebra.Field.Basic
import Mathlib.Algebra.Module.Torsion.Field
import Mathlib.Data.Nat.Log
import Mathlib.Tactic.LinearCombination
import Mathlib.Tactic.Module

open List

namespace InnerProductArgument

variable {F G : Type}

/-! ### Messages -/

inductive Message (F G : Type) where
  | size (n : ℕ)
  | point (g : G)
  | scalar (a : F)

/-- How the data of a message is read as another type than it was written. -/
structure Decoding (F G : Type) where
  size : Message F G → ℕ
  point : Message F G → G
  scalar : Message F G → F

variable (decoding : Decoding F G)

def Message.asSize : Message F G → ℕ
  | .size n => n
  | m => decoding.size m

def Message.asPoint : Message F G → G
  | .point g => g
  | m => decoding.point m

def Message.asScalar : Message F G → F
  | .scalar a => a
  | m => decoding.scalar m

abbrev Transcript (F G : Type) := List (Message F G) → F

/-! ### The prover -/

section Protocol

variable [Field F] [AddCommGroup G] [Module F G]

structure Vectors (F G : Type) where
  a : ℕ → F
  b : ℕ → F
  g : ℕ → G

/-- `L_i`: the low half of `a` on the high halves of the others. -/
def roundL (auxGenerator : G) (s : Vectors F G) (roundSize : ℕ) : G :=
  ∑ j ∈ Finset.range roundSize, s.a j • s.g (roundSize + j) +
    (∑ j ∈ Finset.range roundSize, s.a j * s.b (roundSize + j)) • auxGenerator

/-- `R_i`: the high half of `a` on the low halves of the others. -/
def roundR (auxGenerator : G) (s : Vectors F G) (roundSize : ℕ) : G :=
  ∑ j ∈ Finset.range roundSize, s.a (roundSize + j) • s.g j +
    (∑ j ∈ Finset.range roundSize, s.a (roundSize + j) * s.b j) • auxGenerator

/-- The update of the vectors, of which the first `roundSize` entries are used afterwards. -/
def foldVectors (challenge : F) (s : Vectors F G) (roundSize : ℕ) : Vectors F G where
  a j := s.a j + challenge * s.a (roundSize + j)
  b j := s.b j + challenge⁻¹ * s.b (roundSize + j)
  g j := s.g j + challenge⁻¹ • s.g (roundSize + j)

/-- The rounds of `compute_opening_proof`: the messages so far grow by two points a round, and the
last message is the only coefficient left. -/
def proveRounds (transcript : Transcript F G) (auxGenerator : G) :
    ℕ → ℕ → Vectors F G → List (Message F G) → List (Message F G)
  | 0, _, s, sent => sent ++ [.scalar (s.a 0)]
  | rounds + 1, size, s, sent =>
    let roundSize := size / 2
    let sent := sent ++ [.point (roundL auxGenerator s roundSize),
      .point (roundR auxGenerator s roundSize)]
    proveRounds transcript auxGenerator rounds roundSize
      (foldVectors (transcript sent) s roundSize) sent

def computeOpeningProof (transcript : Transcript F G) (one : G) (srs : ℕ → G) (x : F) (p : ℕ → F)
    (polyDegree : ℕ) : List (Message F G) :=
  let sent := [.size (polyDegree % 2 ^ 32)]
  proveRounds transcript (transcript sent • one) (Nat.log2 polyDegree) polyDegree
    ⟨p, fun i => x ^ i, srs⟩ sent

/-! ### The verifier -/

def receive (proof : List (Message F G)) : Message F G := proof.headD (.scalar 0)

/-- The loop over the rounds: what has been received, the points with their scalars summed up, and
the inverted challenges. -/
def receiveRounds (transcript : Transcript F G) :
    ℕ → List (Message F G) → List (Message F G) → G × List F × List (Message F G)
  | 0, _, proof => (0, [], proof)
  | rounds + 1, received, proof =>
    let elementL := receive proof
    let elementR := receive proof.tail
    let received := received ++ [elementL, elementR]
    let challenge := transcript received
    let rest := receiveRounds transcript rounds received proof.tail.tail
    (challenge⁻¹ • elementL.asPoint decoding + challenge • elementR.asPoint decoding + rest.1,
      challenge⁻¹ :: rest.2.1, rest.2.2)

def bZero (challengesInv : List F) (x : F) : F :=
  let log := challengesInv.length
  (List.range log).foldl
    (fun b i => b * (1 + challengesInv.getD (log - 1 - i) 0 * x ^ 2 ^ i)) 1

/-- An entry of `s_vec`. -/
def sScalar (challengesInv : List F) (i : ℕ) : F :=
  let log := challengesInv.length
  (List.range log).reverse.foldl
    (fun s j => if i.testBit j then s * challengesInv.getD (log - 1 - j) 0 else s) 1

def verify [DecidableEq G] (transcript : Transcript F G) (one : G) (srs : ℕ → G) (commitment : G)
    (x evaluation : F) (proof : List (Message F G)) : Bool :=
  let first := receive proof
  let polyDegree := first.asSize decoding % 2 ^ 32
  let auxGenerator := transcript [first] • one
  let rounds := receiveRounds decoding transcript (Nat.log2 polyDegree) [first] proof.tail
  let cZero := commitment + evaluation • auxGenerator + rounds.1
  let gZero := ∑ i ∈ Finset.range polyDegree, sScalar rounds.2.1 i • srs i
  let aZero := (receive rounds.2.2).asScalar decoding
  decide (cZero = aZero • gZero + (aZero * bZero rounds.2.1 x) • auxGenerator)

def commit (srs : ℕ → G) (p : ℕ → F) (n : ℕ) : G := ∑ i ∈ Finset.range n, p i • srs i

def evaluate (p : ℕ → F) (n : ℕ) (x : F) : F := ∑ i ∈ Finset.range n, p i * x ^ i

def roundChallenges (transcript : Transcript F G) :
    ℕ → List (Message F G) → List (Message F G) → List F
  | 0, _, _ => []
  | rounds + 1, received, proof =>
    let received := received ++ [receive proof, receive proof.tail]
    transcript received :: roundChallenges transcript rounds received proof.tail.tail

/-! ### The closed formulas of the verifier -/

/-- The only entry left of a vector that is folded with inverted challenges. -/
def foldAll {M : Type} [AddCommGroup M] [Module F M] : List F → (ℕ → M) → M
  | [], h => h 0
  | v :: invs, h => foldAll invs fun j => h j + v • h (2 ^ invs.length + j)

def factor : List F → ℕ → F
  | [], _ => 1
  | v :: invs, i => (if i.testBit invs.length then v else 1) * factor invs i

theorem factor_two_pow_add {n : ℕ} (invs : List F) (hn : invs.length ≤ n) (i : ℕ) :
    factor invs (2 ^ n + i) = factor invs i := by
  induction invs with
  | nil => rfl
  | cons v invs ih =>
    rw [length_cons] at hn
    rw [factor, factor, ih (by omega), Nat.testBit_two_pow_add_gt (by omega)]

theorem foldAll_eq_sum {M : Type} [AddCommGroup M] [Module F M] (invs : List F) (h : ℕ → M) :
    foldAll invs h = ∑ i ∈ Finset.range (2 ^ invs.length), factor invs i • h i := by
  induction invs generalizing h with
  | nil => simp [foldAll, factor]
  | cons v invs ih =>
    rw [foldAll, ih, length_cons, pow_succ, Nat.mul_two, Finset.sum_range_add,
      ← Finset.sum_add_distrib]
    refine Finset.sum_congr rfl fun i hi => ?_
    have hi := Finset.mem_range.1 hi
    rw [factor, factor, factor_two_pow_add invs le_rfl, Nat.testBit_lt_two_pow hi,
      Nat.testBit_two_pow_add_eq, Nat.testBit_lt_two_pow hi]
    simp only [Bool.false_eq_true, if_false, Bool.not_false, if_true, one_mul, smul_add, smul_smul]
    rw [mul_comm v]

theorem getD_cons_sub {v : F} {invs : List F} {j : ℕ} (hj : j < invs.length) :
    (v :: invs).getD (invs.length + 1 - 1 - j) 0 = invs.getD (invs.length - 1 - j) 0 := by
  rw [show invs.length + 1 - 1 - j = (invs.length - 1 - j) + 1 by omega, getD_cons_succ]

theorem sScalar_eq (invs : List F) (i : ℕ) : sScalar invs i = factor invs i := by
  have hloop : ∀ s : F, (range invs.length).reverse.foldl
      (fun s j => if i.testBit j then s * invs.getD (invs.length - 1 - j) 0 else s) s =
        s * factor invs i := by
    induction invs with
    | nil => intro s; rw [factor, mul_one]; rfl
    | cons v invs ih =>
      intro s
      have hrest : ∀ s : F, (range invs.length).reverse.foldl
          (fun s j => if i.testBit j then s * (v :: invs).getD (invs.length + 1 - 1 - j) 0 else s)
            s = s * factor invs i := by
        intro s
        rw [← ih s]
        refine foldl_ext _ _ _ fun t j hj => ?_
        rw [getD_cons_sub (by simpa using hj)]
      rw [length_cons, range_succ, reverse_append, reverse_singleton, singleton_append, foldl_cons,
        hrest, factor, Nat.add_sub_cancel, Nat.sub_self, getD_cons_zero]
      split
      · rw [mul_assoc]
      · rw [one_mul]
  rw [sScalar, hloop 1, one_mul]

theorem bZero_cons (v : F) (invs : List F) (x : F) :
    bZero (v :: invs) x = bZero invs x * (1 + v * x ^ 2 ^ invs.length) := by
  have hrest : (range invs.length).foldl
      (fun b i => b * (1 + (v :: invs).getD (invs.length + 1 - 1 - i) 0 * x ^ 2 ^ i)) 1 =
        bZero invs x := by
    refine foldl_ext _ _ _ fun t j hj => ?_
    rw [getD_cons_sub (by simpa using hj)]
  rw [bZero, length_cons, range_succ, foldl_append, hrest, foldl_cons,
    foldl_nil, Nat.add_sub_cancel, Nat.sub_self, getD_cons_zero]

theorem foldAll_pow (invs : List F) (c x : F) :
    foldAll invs (fun i => c * x ^ i) = c * bZero invs x := by
  induction invs generalizing c with
  | nil => simp [foldAll, bZero]
  | cons v invs ih =>
    have hnext : (fun j => c * x ^ j + v • (c * x ^ (2 ^ invs.length + j))) =
        fun j => c * (1 + v * x ^ 2 ^ invs.length) * x ^ j := by
      funext j
      rw [smul_eq_mul, pow_add]
      ring
    rw [foldAll, hnext, ih, bZero_cons]
    ring

/-! ### The rounds -/

/-- The value that the rounds keep up to the points they send. -/
def roundValue (auxGenerator : G) (s : Vectors F G) (size : ℕ) : G :=
  ∑ j ∈ Finset.range size, s.a j • s.g j + (∑ j ∈ Finset.range size, s.a j * s.b j) • auxGenerator

theorem roundValue_fold (auxGenerator : G) (s : Vectors F G) {u : F} (hu : u ≠ 0) (m : ℕ) :
    roundValue auxGenerator (foldVectors u s m) m = roundValue auxGenerator s (m + m) +
      (u⁻¹ • roundL auxGenerator s m + u • roundR auxGenerator s m) := by
  have huu : u * u⁻¹ = 1 := mul_inv_cancel₀ hu
  have hpoints : ∑ j ∈ Finset.range m, (foldVectors u s m).a j • (foldVectors u s m).g j =
      ∑ j ∈ Finset.range (m + m), s.a j • s.g j + (u⁻¹ • ∑ j ∈ Finset.range m, s.a j • s.g (m + j) +
          u • ∑ j ∈ Finset.range m, s.a (m + j) • s.g j) := by
    rw [Finset.sum_range_add, Finset.smul_sum, Finset.smul_sum, ← Finset.sum_add_distrib,
      ← Finset.sum_add_distrib, ← Finset.sum_add_distrib]
    refine Finset.sum_congr rfl fun j _ => ?_
    have hhigh : (u * s.a (m + j)) • u⁻¹ • s.g (m + j) = s.a (m + j) • s.g (m + j) := by
      rw [smul_smul, mul_right_comm, huu, one_mul]
    rw [foldVectors, add_smul, smul_add, smul_add, hhigh]
    module
  have hscalars : ∑ j ∈ Finset.range m, (foldVectors u s m).a j * (foldVectors u s m).b j =
      ∑ j ∈ Finset.range (m + m), s.a j * s.b j + (u⁻¹ * ∑ j ∈ Finset.range m, s.a j * s.b (m + j) +
          u * ∑ j ∈ Finset.range m, s.a (m + j) * s.b j) := by
    rw [Finset.sum_range_add, Finset.mul_sum, Finset.mul_sum, ← Finset.sum_add_distrib,
      ← Finset.sum_add_distrib, ← Finset.sum_add_distrib]
    refine Finset.sum_congr rfl fun j _ => ?_
    rw [foldVectors]
    linear_combination s.a (m + j) * s.b (m + j) * huu
  rw [roundValue, hpoints, hscalars, roundValue, roundL, roundR]
  module

def roundMessages (transcript : Transcript F G) (auxGenerator : G) :
    ℕ → ℕ → Vectors F G → List (Message F G) → List (Message F G)
  | 0, _, s, _ => [.scalar (s.a 0)]
  | rounds + 1, size, s, sent =>
    let roundSize := size / 2
    let elementL := Message.point (roundL auxGenerator s roundSize)
    let elementR := Message.point (roundR auxGenerator s roundSize)
    elementL :: elementR :: roundMessages transcript auxGenerator rounds roundSize
      (foldVectors (transcript (sent ++ [elementL, elementR])) s roundSize)
      (sent ++ [elementL, elementR])

variable {transcript : Transcript F G} {auxGenerator : G}

theorem proveRounds_eq (rounds size : ℕ) (s : Vectors F G) (sent : List (Message F G)) :
    proveRounds transcript auxGenerator rounds size s sent =
      sent ++ roundMessages transcript auxGenerator rounds size s sent := by
  induction rounds generalizing size s sent with
  | zero => rfl
  | succ rounds ih =>
    rw [proveRounds, ih, roundMessages]
    simp

theorem receiveRounds_roundMessages (k : ℕ) (s : Vectors F G) (sent : List (Message F G))
    (hne : ∀ u ∈ roundChallenges transcript k sent
      (roundMessages transcript auxGenerator k (2 ^ k) s sent), u ≠ 0) :
    ∃ sum invs a, receiveRounds decoding transcript k sent
        (roundMessages transcript auxGenerator k (2 ^ k) s sent) = (sum, invs, [.scalar a]) ∧
      invs.length = k ∧ roundValue auxGenerator s (2 ^ k) + sum =
        a • foldAll invs s.g + (a * foldAll invs s.b) • auxGenerator := by
  induction k generalizing s sent with
  | zero =>
    refine ⟨0, [], s.a 0, rfl, rfl, ?_⟩
    simp [roundValue, foldAll]
  | succ k ih =>
    have hsize : 2 ^ (k + 1) / 2 = 2 ^ k := by
      rw [pow_succ, Nat.mul_div_cancel _ (by norm_num)]
    rw [roundMessages, hsize] at hne ⊢
    obtain ⟨hu, hrest⟩ := forall_mem_cons.1 hne
    dsimp only [receive, headD_cons, tail_cons] at hu
    obtain ⟨sum, invs, a, hrun, hlength, hvalue⟩ := ih _ _ hrest
    rw [receiveRounds]
    dsimp only [receive, headD_cons, tail_cons] at hrun ⊢
    rw [hrun]
    refine ⟨_, _, a, rfl, by rw [length_cons, hlength], ?_⟩
    rw [roundValue_fold auxGenerator s hu, ← Nat.two_mul, ← pow_succ'] at hvalue
    rw [foldAll, foldAll, hlength]
    exact (add_assoc _ _ _).symm.trans hvalue

/-! ### Proofs -/

variable [DecidableEq G] {decoding} {one : G} {srs : ℕ → G} {p : ℕ → F} {x : F}

theorem verify_computeOpeningProof {k : ℕ} (hk : k < 32)
    (hne : ∀ u ∈ roundChallenges transcript k [.size (2 ^ k)]
      (computeOpeningProof transcript one srs x p (2 ^ k)).tail, u ≠ 0) (e : F) :
    verify decoding transcript one srs (commit srs p (2 ^ k)) x e
        (computeOpeningProof transcript one srs x p (2 ^ k)) = true ↔
      (e - evaluate p (2 ^ k) x) • transcript [.size (2 ^ k)] • one = 0 := by
  have hmod : 2 ^ k % 2 ^ 32 = 2 ^ k :=
    Nat.mod_eq_of_lt (Nat.pow_lt_pow_right (by norm_num) hk)
  have hproof : computeOpeningProof transcript one srs x p (2 ^ k) =
      Message.size (2 ^ k) :: roundMessages transcript (transcript [.size (2 ^ k)] • one) k (2 ^ k)
        ⟨p, fun i => x ^ i, srs⟩ [.size (2 ^ k)] := by
    rw [computeOpeningProof, hmod, Nat.log2_two_pow]
    exact proveRounds_eq ..
  rw [hproof, tail_cons] at hne
  obtain ⟨sum, invs, a, hrun, hlength, hvalue⟩ :=
    receiveRounds_roundMessages decoding k ⟨p, fun i => x ^ i, srs⟩ [.size (2 ^ k)] hne
  have hpowers : foldAll invs (fun i => x ^ i) = bZero invs x := by
    have h := foldAll_pow invs 1 x
    simpa only [one_mul] using h
  have hpoints : ∑ i ∈ Finset.range (2 ^ k), sScalar invs i • srs i = foldAll invs srs := by
    rw [foldAll_eq_sum, hlength]
    exact Finset.sum_congr rfl fun i _ => by rw [sScalar_eq]
  rw [hproof, verify, decide_eq_true_iff]
  dsimp only [receive, headD_cons, tail_cons, Message.asSize]
  rw [hmod, Nat.log2_two_pow, hrun]
  dsimp only [headD_cons, Message.asScalar]
  rw [hpoints, ← hpowers, ← hvalue, sub_smul, sub_eq_zero]
  -- both sides are the commitment and the sum of the rounds, but for the evaluation
  change commit srs p (2 ^ k) + e • transcript [.size (2 ^ k)] • one + sum =
    commit srs p (2 ^ k) + evaluate p (2 ^ k) x • transcript [.size (2 ^ k)] • one + sum ↔ _
  rw [add_left_inj, add_right_inj]

/-- **A proof is accepted for the value of the polynomial, and with a generator challenge other than
zero for no other value.** -/
theorem opening_sound {k : ℕ} (hk : k < 32) (hone : one ≠ 0)
    (hne : ∀ u ∈ roundChallenges transcript k [.size (2 ^ k)]
      (computeOpeningProof transcript one srs x p (2 ^ k)).tail, u ≠ 0) :
    verify decoding transcript one srs (commit srs p (2 ^ k)) x (evaluate p (2 ^ k) x)
        (computeOpeningProof transcript one srs x p (2 ^ k)) = true ∧
      ∀ e, e ≠ evaluate p (2 ^ k) x → transcript [.size (2 ^ k)] ≠ 0 →
        verify decoding transcript one srs (commit srs p (2 ^ k)) x e
          (computeOpeningProof transcript one srs x p (2 ^ k)) = false := by
  constructor
  · rw [verify_computeOpeningProof hk hne, sub_self, zero_smul]
  · intro e he hgenerator
    rw [← Bool.not_eq_true, verify_computeOpeningProof hk hne]
    exact smul_ne_zero (sub_ne_zero.2 he) (smul_ne_zero hgenerator hone)

omit [AddCommGroup G] [Module F G] [DecidableEq G] in
theorem ne_zero_of_mem_roundChallenges (htranscript : ∀ sent, transcript sent ≠ 0) (rounds : ℕ)
    (received proof : List (Message F G)) {u : F}
    (hu : u ∈ roundChallenges transcript rounds received proof) : u ≠ 0 := by
  induction rounds generalizing received proof with
  | zero => cases hu
  | succ rounds ih =>
    rw [roundChallenges] at hu
    obtain rfl | hu := mem_cons.1 hu
    · exact htranscript _
    · exact ih _ _ hu

end Protocol

namespace FourCoefficients

def zeroDecoding : Decoding ℚ ℚ := ⟨fun _ => 0, fun _ => 0, fun _ => 0⟩

def transcript : Transcript ℚ ℚ := fun sent => sent.length + 1

def points (i : ℕ) : ℚ := i + 3

def coefficients (i : ℕ) : ℚ := i + 1

/-- Two rounds, with another challenge in each. -/
theorem opening_sound_twoRounds :
    verify zeroDecoding transcript 1 points (commit points coefficients (2 ^ 2)) 2
        (evaluate coefficients (2 ^ 2) 2)
        (computeOpeningProof transcript 1 points 2 coefficients (2 ^ 2)) = true ∧
      ∀ e, e ≠ evaluate coefficients (2 ^ 2) 2 →
        verify zeroDecoding transcript 1 points (commit points coefficients (2 ^ 2)) 2 e
          (computeOpeningProof transcript 1 points 2 coefficients (2 ^ 2)) = false := by
  have htranscript : ∀ sent, transcript sent ≠ 0 := fun sent => Nat.cast_add_one_ne_zero _
  have hne : ∀ u ∈ roundChallenges transcript 2 [.size (2 ^ 2)]
      (computeOpeningProof transcript 1 points 2 coefficients (2 ^ 2)).tail, u ≠ 0 := fun u =>
    ne_zero_of_mem_roundChallenges htranscript 2 _ _
  obtain ⟨haccepted, hrefused⟩ := opening_sound (by decide) one_ne_zero hne
  exact ⟨haccepted, fun e he => hrefused e he (htranscript _)⟩

end FourCoefficients

/-! ### A size of thirty-three bits -/

namespace LongPolynomial

/-- Points that cancel in the first message of a constant polynomial. -/
def srs (i : ℕ) : ℚ := if i = 2 ^ 31 then -1 else 0

def constant (c : ℚ) (i : ℕ) : ℚ := if i = 0 then c else 0

theorem sum_constant (c : ℚ) {n : ℕ} (hn : 0 < n) (f : ℕ → ℚ) :
    ∑ i ∈ Finset.range n, constant c i * f i = c * f 0 := by
  rw [Finset.sum_eq_single_of_mem 0 (Finset.mem_range.2 hn)]
  · rfl
  · intro i _ hi
    rw [constant, if_neg hi, zero_mul]

theorem verify_constant (decoding : Decoding ℚ ℚ) (c : ℚ) :
    verify decoding (fun _ => 1) 1 srs (commit srs (constant c) (2 ^ 32)) 1
        (evaluate (constant c) (2 ^ 32) 1)
        (computeOpeningProof (fun _ => 1) 1 srs 1 (constant c) (2 ^ 32)) = true ↔
      c = decoding.scalar (.point 0) := by
  have hcommit : commit srs (constant c) (2 ^ 32) = 0 := by
    have h := sum_constant c (show 0 < 2 ^ 32 by norm_num) srs
    rw [commit]
    simp only [smul_eq_mul]
    rw [h, srs, if_neg (by norm_num), mul_zero]
  have hevaluate : evaluate (constant c) (2 ^ 32) 1 = c := by
    rw [evaluate, sum_constant c (by norm_num), one_pow, mul_one]
  have hfirst : roundL ((1 : ℚ) • (1 : ℚ)) ⟨constant c, fun i => 1 ^ i, srs⟩ (2 ^ 31) = 0 := by
    have h := sum_constant c (show 0 < 2 ^ 31 by norm_num) fun j => srs (2 ^ 31 + j)
    have h' := sum_constant c (show 0 < 2 ^ 31 by norm_num) fun j => (1 : ℚ) ^ (2 ^ 31 + j)
    rw [roundL]
    simp only [smul_eq_mul] at h ⊢
    rw [h, h', srs, if_pos (by norm_num)]
    norm_num
  obtain ⟨rest, hproof⟩ : ∃ rest, computeOpeningProof (fun _ => (1 : ℚ)) (1 : ℚ) srs 1 (constant c)
      (2 ^ 32) = .size 0 :: .point 0 :: rest := by
    apply Exists.intro
    rw [computeOpeningProof, Nat.mod_self, Nat.log2_two_pow, proveRounds_eq, roundMessages,
      show 2 ^ 32 / 2 = 2 ^ 31 by norm_num]
    rw [hfirst]
    rfl
  rw [hcommit, hevaluate, hproof, verify, decide_eq_true_iff]
  dsimp only [receive, headD_cons, tail_cons, Message.asSize]
  rw [Nat.zero_mod, Nat.log2_zero, receiveRounds]
  dsimp only [headD_cons, Message.asScalar]
  rw [Finset.range_zero, Finset.sum_empty]
  simp [bZero]

end LongPolynomial

/-- **A polynomial of `2 ^ 32` coefficients**, whose size is sent as zero: however a point is read
as a scalar, the proof of some constant polynomial is refused. -/
theorem not_accepted : ¬ ∃ decoding : Decoding ℚ ℚ, ∀ (transcript : Transcript ℚ ℚ) (one : ℚ)
    (srs p : ℕ → ℚ) (x : ℚ) (k : ℕ), one ≠ 0 → x ≠ 0 → (∀ sent, transcript sent ≠ 0) →
      verify decoding transcript one srs (commit srs p (2 ^ k)) x (evaluate p (2 ^ k) x)
        (computeOpeningProof transcript one srs x p (2 ^ k)) = true := by
  rintro ⟨decoding, h⟩
  have hconstant : ∀ c, c = decoding.scalar (.point 0) := fun c =>
    (LongPolynomial.verify_constant decoding c).1
      (h _ 1 _ _ 1 32 one_ne_zero one_ne_zero fun _ => one_ne_zero)
  exact zero_ne_one ((hconstant 0).trans (hconstant 1).symm)

end InnerProductArgument
