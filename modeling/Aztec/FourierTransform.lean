/-
**The discrete Fourier transform in rounds.**

The transform of `2 ^ k` coefficients is computed from the coefficients in the order of the
reversed bits of their indices by `k` rounds, each of which combines the entries of two halves of a
block.
-/

import Aztec.Multilinear
import Mathlib.RingTheory.RootsOfUnity.PrimitiveRoots
import Mathlib.Tactic.Ring

open Finset

namespace FourierTransform

/-! ### The reversal of bits -/

/-- The lowest `k` bits of an index in the reversed order. -/
def rev : ℕ → ℕ → ℕ
  | 0, _ => 0
  | k + 1, i => 2 ^ k * (i % 2) + rev k (i / 2)

theorem rev_lt (k i : ℕ) : rev k i < 2 ^ k := by
  induction k generalizing i with
  | zero => exact Nat.one_pos
  | succ k ih =>
    have hrest := ih (i / 2)
    have hbit : i % 2 = 0 ∨ i % 2 = 1 := by omega
    rw [rev, pow_succ]
    rcases hbit with hbit | hbit
    · rw [hbit]
      omega
    · rw [hbit]
      omega

theorem testBit_rev (k i j : ℕ) :
    (rev k i).testBit j = (decide (j < k) && i.testBit (k - 1 - j)) := by
  induction k generalizing i with
  | zero => simp [rev]
  | succ k ih =>
    rw [rev, Nat.testBit_two_pow_mul_add _ (rev_lt k (i / 2))]
    rcases Nat.lt_trichotomy j k with hj | hj | hj
    · have hbit : (i / 2).testBit (k - 1 - j) = i.testBit (k + 1 - 1 - j) := by
        rw [← Nat.testBit_succ]
        congr 1
        omega
      rw [if_pos hj, ih, hbit, decide_eq_true hj, decide_eq_true (Nat.lt_succ_of_lt hj)]
    · rw [hj, if_neg (Nat.lt_irrefl k), Nat.sub_self, decide_eq_true (Nat.lt_succ_self k),
        Bool.true_and, Nat.add_sub_cancel, Nat.sub_self, Nat.testBit_zero, Nat.testBit_zero,
        Nat.mod_mod]
    · have hsmall : i % 2 < 2 ^ (j - k) :=
        lt_of_lt_of_le (Nat.mod_lt i Nat.two_pos)
          (Nat.pow_le_pow_right Nat.two_pos (show 1 ≤ j - k by omega))
      rw [if_neg (by omega), Nat.testBit_lt_two_pow hsmall, decide_eq_false (by omega),
        Bool.false_and]

theorem rev_rev {k i : ℕ} (hi : i < 2 ^ k) : rev k (rev k i) = i := by
  refine Nat.eq_of_testBit_eq fun j => ?_
  rw [testBit_rev, testBit_rev]
  by_cases hj : j < k
  · rw [decide_eq_true hj, decide_eq_true (show k - 1 - j < k by omega), Bool.true_and,
      Bool.true_and]
    congr 1
    omega
  · have hsmall : i < 2 ^ j := lt_of_lt_of_le hi (Nat.pow_le_pow_right Nat.two_pos (by omega))
    rw [decide_eq_false hj, Bool.false_and, Nat.testBit_lt_two_pow hsmall]

theorem rev_double (d q : ℕ) : rev (d + 1) (2 * q) = rev d q := by
  rw [rev, Nat.mul_mod_right, Nat.mul_zero, Nat.zero_add, Nat.mul_div_cancel_left q Nat.two_pos]

theorem rev_double_add_one (d q : ℕ) : rev (d + 1) (2 * q + 1) = 2 ^ d + rev d q := by
  rw [rev, show (2 * q + 1) % 2 = 1 by omega, show (2 * q + 1) / 2 = q by omega, Nat.mul_one]

/-! ### The transform -/

variable {F : Type} [Field F]

/-- The value of a polynomial with `n` coefficients at the power `x` of `w`. -/
def dft (w : F) (n : ℕ) (a : ℕ → F) (x : ℕ) : F := ∑ t ∈ Finset.range n, a t * w ^ (x * t)

/-- The entry `x` after `r` rounds, with `d` rounds left: a transform of the coefficients whose
index ends in the reversed number of the block. -/
def partialDft (w : F) (r d : ℕ) (a : ℕ → F) (x : ℕ) : F :=
  ∑ t ∈ Finset.range (2 ^ r),
    a (rev d (x / 2 ^ r) + t * 2 ^ d) * w ^ (2 ^ d * (x % 2 ^ r) * t)

theorem partialDft_zero (w : F) (k : ℕ) (a : ℕ → F) (x : ℕ) :
    partialDft w 0 k a x = a (rev k x) := by
  simp [partialDft]

variable {x n : ℕ}

theorem partialDft_all (w : F) (k : ℕ) (a : ℕ → F) (hx : x < 2 ^ k) :
    partialDft w k 0 a x = dft w (2 ^ k) a x := by
  refine sum_congr rfl fun t _ => ?_
  rw [Nat.div_eq_of_lt hx, Nat.mod_eq_of_lt hx, rev, Nat.zero_add, pow_zero, Nat.mul_one,
    Nat.one_mul]

section Round

variable {w : F} {r d : ℕ} (a : ℕ → F) (q : ℕ) {j : ℕ}

section

variable (hj : j < 2 ^ r)
include hj

theorem block_low :
    (q * 2 ^ (r + 1) + j) / 2 ^ (r + 1) = q ∧ (q * 2 ^ (r + 1) + j) % 2 ^ (r + 1) = j ∧
      (q * 2 ^ (r + 1) + j) / 2 ^ r = 2 * q ∧ (q * 2 ^ (r + 1) + j) % 2 ^ r = j := by
  have hpos := Nat.two_pow_pos r
  have hj' : j < 2 ^ (r + 1) := by
    rw [pow_succ]
    omega
  refine ⟨?_, ?_, ?_, ?_⟩
  · rw [Nat.mul_comm, Nat.mul_add_div (Nat.two_pow_pos _), Nat.div_eq_of_lt hj', Nat.add_zero]
  · rw [Nat.mul_comm, Nat.mul_add_mod, Nat.mod_eq_of_lt hj']
  · rw [show q * 2 ^ (r + 1) = 2 ^ r * (2 * q) by ring, Nat.mul_add_div hpos,
      Nat.div_eq_of_lt hj, Nat.add_zero]
  · rw [show q * 2 ^ (r + 1) = 2 ^ r * (2 * q) by ring, Nat.mul_add_mod, Nat.mod_eq_of_lt hj]

theorem block_high : (q * 2 ^ (r + 1) + j + 2 ^ r) / 2 ^ (r + 1) = q ∧
      (q * 2 ^ (r + 1) + j + 2 ^ r) % 2 ^ (r + 1) = j + 2 ^ r ∧
      (q * 2 ^ (r + 1) + j + 2 ^ r) / 2 ^ r = 2 * q + 1 ∧
      (q * 2 ^ (r + 1) + j + 2 ^ r) % 2 ^ r = j := by
  have hpos := Nat.two_pow_pos r
  have hj' : j + 2 ^ r < 2 ^ (r + 1) := by
    rw [pow_succ]
    omega
  refine ⟨?_, ?_, ?_, ?_⟩
  · rw [Nat.add_assoc, Nat.mul_comm, Nat.mul_add_div (Nat.two_pow_pos _), Nat.div_eq_of_lt hj',
      Nat.add_zero]
  · rw [Nat.add_assoc, Nat.mul_comm, Nat.mul_add_mod, Nat.mod_eq_of_lt hj']
  · rw [show q * 2 ^ (r + 1) + j + 2 ^ r = 2 ^ r * (2 * q + 1) + j by ring, Nat.mul_add_div hpos,
      Nat.div_eq_of_lt hj, Nat.add_zero]
  · rw [show q * 2 ^ (r + 1) + j + 2 ^ r = 2 ^ r * (2 * q + 1) + j by ring, Nat.mul_add_mod,
      Nat.mod_eq_of_lt hj]

theorem partialDft_even : partialDft w r (d + 1) a (q * 2 ^ (r + 1) + j) =
      ∑ s ∈ range (2 ^ r), a (rev d q + s * 2 ^ (d + 1)) * w ^ (2 ^ (d + 1) * j * s) := by
  obtain ⟨-, -, hdiv, hmod⟩ := block_low q hj
  rw [partialDft, hdiv, hmod, rev_double]

theorem partialDft_odd : partialDft w r (d + 1) a (q * 2 ^ (r + 1) + j + 2 ^ r) =
      ∑ s ∈ range (2 ^ r), a (2 ^ d + rev d q + s * 2 ^ (d + 1)) * w ^ (2 ^ (d + 1) * j * s) := by
  obtain ⟨-, -, hdiv, hmod⟩ := block_high q hj
  rw [partialDft, hdiv, hmod, rev_double_add_one]

theorem partialDft_low : partialDft w (r + 1) d a (q * 2 ^ (r + 1) + j) =
      partialDft w r (d + 1) a (q * 2 ^ (r + 1) + j) +
        w ^ (2 ^ d * j) * partialDft w r (d + 1) a (q * 2 ^ (r + 1) + j + 2 ^ r) := by
  obtain ⟨hdiv, hmod, -⟩ := block_low q hj
  rw [partialDft_even a q hj, partialDft_odd a q hj, partialDft, hdiv, hmod, pow_succ, mul_comm,
    Multilinear.sum_range_double, sum_add_distrib, mul_sum]
  congr 1
  · refine sum_congr rfl fun s _ => ?_
    rw [show 2 * s * 2 ^ d = s * 2 ^ (d + 1) by ring,
      show 2 ^ d * j * (2 * s) = 2 ^ (d + 1) * j * s by ring]
  · refine sum_congr rfl fun s _ => ?_
    rw [show rev d q + (2 * s + 1) * 2 ^ d = 2 ^ d + rev d q + s * 2 ^ (d + 1) by ring,
      show 2 ^ d * j * (2 * s + 1) = 2 ^ d * j + 2 ^ (d + 1) * j * s by ring, pow_add]
    ring

end

theorem partialDft_high (hw : w ^ 2 ^ (r + d) = -1) (hj : j < 2 ^ r) :
    partialDft w (r + 1) d a (q * 2 ^ (r + 1) + j + 2 ^ r) =
      partialDft w r (d + 1) a (q * 2 ^ (r + 1) + j) -
        w ^ (2 ^ d * j) * partialDft w r (d + 1) a (q * 2 ^ (r + 1) + j + 2 ^ r) := by
  obtain ⟨hdiv, hmod, -⟩ := block_high q hj
  have hone : w ^ (2 ^ (r + d) * 2) = 1 := by rw [pow_mul, hw, neg_one_sq]
  rw [partialDft_even a q hj, partialDft_odd a q hj, partialDft, hdiv, hmod, pow_succ 2 r, mul_comm,
    Multilinear.sum_range_double, sum_add_distrib, sub_eq_add_neg, mul_sum, ← sum_neg_distrib]
  congr 1
  · refine sum_congr rfl fun s _ => ?_
    rw [show 2 * s * 2 ^ d = s * 2 ^ (d + 1) by ring,
      show 2 ^ d * (j + 2 ^ r) * (2 * s) = 2 ^ (d + 1) * j * s + 2 ^ (r + d) * 2 * s by ring,
      pow_add w, pow_mul w (2 ^ (r + d) * 2), hone, one_pow, mul_one]
  · refine sum_congr rfl fun s _ => ?_
    rw [show rev d q + (2 * s + 1) * 2 ^ d = 2 ^ d + rev d q + s * 2 ^ (d + 1) by ring,
      show 2 ^ d * (j + 2 ^ r) * (2 * s + 1) =
        2 ^ d * j + 2 ^ (d + 1) * j * s + 2 ^ (r + d) + 2 ^ (r + d) * 2 * s by ring,
      pow_add w, pow_add w, pow_add w, pow_mul w (2 ^ (r + d) * 2), hone, one_pow, hw]
    ring

end Round

/-! ### The inverse -/

theorem dft_inv_dft {w : F} (hw : IsPrimitiveRoot w n) (a : ℕ → F) (hx : x < n) :
    dft w⁻¹ n (dft w n a) x = n * a x := by
  have hw₀ : w ≠ 0 := hw.ne_zero (by omega)
  have hinner : ∀ t < n, ∑ i ∈ range n, w ^ (i * t) * w⁻¹ ^ (x * i) =
      if t = x then (n : F) else 0 := by
    intro t ht
    have hterm : ∀ i, w ^ (i * t) * w⁻¹ ^ (x * i) = (w ^ t * (w⁻¹) ^ x) ^ i := by
      intro i
      rw [mul_pow, ← pow_mul, ← pow_mul, Nat.mul_comm t]
    rw [sum_congr rfl fun i _ => hterm i]
    by_cases htx : t = x
    · rw [if_pos htx, htx, ← mul_pow, mul_inv_cancel₀ hw₀, one_pow]
      simp
    · rw [if_neg htx]
      have hne : w ^ t * w⁻¹ ^ x ≠ 1 := by
        intro h
        rw [inv_pow, mul_inv_eq_one₀ (pow_ne_zero x hw₀)] at h
        exact htx (hw.pow_inj ht hx h)
      have hpow : (w ^ t * w⁻¹ ^ x) ^ n = 1 := by
        rw [mul_pow, ← pow_mul, ← pow_mul, Nat.mul_comm t, Nat.mul_comm x, pow_mul, pow_mul,
          inv_pow, hw.pow_eq_one, one_pow, inv_one, one_pow, mul_one]
      have hsum := geom_sum_mul (w ^ t * w⁻¹ ^ x) n
      rw [hpow, sub_self] at hsum
      exact (mul_eq_zero.1 hsum).resolve_right (sub_ne_zero.2 hne)
  have hexchange : dft w⁻¹ n (dft w n a) x =
      ∑ t ∈ range n, a t * ∑ i ∈ range n, w ^ (i * t) * w⁻¹ ^ (x * i) := by
    simp only [dft, sum_mul, mul_sum]
    rw [sum_comm]
    refine sum_congr rfl fun t _ => sum_congr rfl fun i _ => ?_
    ring
  rw [hexchange, sum_congr rfl fun t ht => by rw [hinner t (mem_range.1 ht)]]
  simp only [mul_ite, mul_zero, sum_ite_eq', mem_range, if_pos hx]
  ring

theorem dft_injective {w : F} (hw : IsPrimitiveRoot w n) (hn : (n : F) ≠ 0) {a b : ℕ → F}
    (h : ∀ i < n, dft w n a i = dft w n b i) (hx : x < n) : a x = b x := by
  have hinv : dft w⁻¹ n (dft w n a) x = dft w⁻¹ n (dft w n b) x :=
    sum_congr rfl fun i hi => by rw [h i (mem_range.1 hi)]
  rw [dft_inv_dft hw a hx, dft_inv_dft hw b hx] at hinv
  exact mul_left_cancel₀ hn hinv

end FourierTransform
