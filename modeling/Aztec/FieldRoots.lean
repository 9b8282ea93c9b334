/-
**Powers, square roots and inverses in a prime field.**

`pow` goes down the bits of the exponent, square roots are a power where the prime is three modulo
four and the algorithm of Tonelli and Shanks elsewhere, and the inverses of an array come from one
inverse and the products of the elements before each.
-/

import Aztec.Uint256
import Aztec.PolynomialRoots
import Mathlib.NumberTheory.LegendreSymbol.Basic

namespace FieldRoots

open Uint256

section Definitions

variable {F : Type} [Field F] [DecidableEq F]

/-! ### Powers and inverses -/

/-- The loop of `pow` over the bits below `n`. -/
def powLoop (toMul : F) (exponent : Uint256) : ℕ → F → F
  | 0, accumulator => accumulator
  | i + 1, accumulator =>
    let squared := accumulator * accumulator
    powLoop toMul exponent i
      (if exponent.getBit (BitVec.ofNat 64 i) then squared * toMul else squared)

def pow (a : F) (exponent : Uint256) : F :=
  let accumulator := powLoop a exponent exponent.getMsb.toNat a
  if exponent.eq (ofUint64 0) then 1
  else if a = 0 then 0 else accumulator

/-- `none` is the error that zero has no inverse. -/
def invert (modulus : Uint256) (a : F) : Option F :=
  if a = 0 then none else some (pow a (modulus.sub (ofUint64 2)))

def batchInvert (modulus : Uint256) (coeffs : List F) : Option (List F) := do
  let products := PolynomialRoots.batchProducts 1 coeffs
  let accumulator ← invert modulus products.2
  return (PolynomialRoots.batchInverses accumulator (coeffs.zip products.1)).1

/-! ### Square roots -/

def logSizeLoop (target : Uint256) : ℕ → ℕ → Option ℕ
  | 0, _ => none
  | fuel + 1, result =>
    if target.getBit (BitVec.ofNat 64 result) then some result
    else logSizeLoop target fuel (result + 1)

def primitiveRootLogSize (fuel : ℕ) (modulus : Uint256) : Option ℕ :=
  logSizeLoop (modulus.sub (ofUint64 1)) fuel 0

def squareTimes : ℕ → F → F
  | 0, b => b
  | j + 1, b => squareTimes j (b * b)

/-- The search for the first `i` with `t ^ 2 ^ i = 1`. -/
def orderLoop : ℕ → F → ℕ → Option ℕ
  | 0, _, _ => none
  | fuel + 1, t2m, i => if t2m = 1 then some i else orderLoop fuel (t2m * t2m) (i + 1)

/-- The loop of `tonelli_shanks_sqrt`. -/
def tonelliLoop : ℕ → F → F → F → ℕ → Option F
  | 0, _, _, _, _ => none
  | fuel + 1, c, t, r, m =>
    if t = 1 then some r
    else do
      let i ← orderLoop fuel t 0
      let b := squareTimes (m - i - 1) c
      let c := b * b
      tonelliLoop fuel c (t * c) (r * b) i

def tonelliShanksSqrt (fuel : ℕ) (modulus : Uint256) (z a : F) : Option F := do
  let s ← primitiveRootLogSize fuel modulus
  let Q := (modulus.sub (ofUint64 1)).shr (BitVec.ofNat 64 s - 1)
  let qMinusOneOverTwo := (Q.sub (ofUint64 1)).shr 2
  let b := pow a qMinusOneOverTwo
  let r := a * b
  let t := r * b
  if squareTimes (s - 1) t ≠ 1 then return 0
  let t1 := pow z qMinusOneOverTwo
  let t2 := t1 * z
  tonelliLoop fuel (t2 * t1) t r s

/-- `sqrt`, with the generator `z` of the first coset. -/
def sqrt (fuel : ℕ) (modulus : Uint256) (z a : F) : Option (Bool × F) := do
  let root ←
    if modulus.data0 &&& 3 = 3 then some (pow a ((modulus.add (ofUint64 1)).shr 2))
    else tonelliShanksSqrt fuel modulus z a
  return if root * root = a then (true, root) else (false, 0)

end Definitions

section Powers

variable {F : Type} [Field F] [DecidableEq F]

theorem div_two_pow_eq (n i : ℕ) : n / 2 ^ i = 2 * (n / 2 ^ (i + 1)) + (n.testBit i).toNat := by
  rw [Nat.toNat_testBit, pow_succ, ← Nat.div_div_eq_div_mul, Nat.div_add_mod]

theorem getBit_ofNat (a : Uint256) {i : ℕ} (hi : i < 256) :
    a.getBit (BitVec.ofNat 64 i) = a.toNat.testBit i := by
  have hindex : (BitVec.ofNat 64 i).toNat = i := by
    rw [BitVec.toNat_ofNat, Nat.mod_eq_of_lt (by omega)]
  rw [getBit_eq _ _ (by rw [hindex]; exact hi), hindex]

omit [DecidableEq F] in
theorem powLoop_eq (a : F) (exponent : Uint256) {i : ℕ} (hi : i ≤ 256) :
    powLoop a exponent i (a ^ (exponent.toNat / 2 ^ i)) = a ^ exponent.toNat := by
  induction i with
  | zero => rw [powLoop, pow_zero, Nat.div_one]
  | succ i ih =>
    rw [← ih (by omega), powLoop, getBit_ofNat exponent (by omega), div_two_pow_eq exponent.toNat i]
    generalize exponent.toNat / 2 ^ (i + 1) = half
    cases exponent.toNat.testBit i with
    | false =>
      rw [if_neg Bool.false_ne_true, Bool.toNat_false, Nat.add_zero, two_mul, pow_add]
    | true =>
      rw [if_pos rfl, Bool.toNat_true, pow_succ, two_mul, pow_add]

theorem pow_eq (a : F) (exponent : Uint256) : pow a exponent = a ^ exponent.toNat := by
  rw [pow]
  by_cases hzero : exponent.toNat = 0
  · rw [if_pos ((eq_iff _ _).2 (by rw [hzero, toNat_ofUint64]; rfl)), hzero, pow_zero]
  · rw [if_neg (by rw [eq_iff, toNat_ofUint64]; exact hzero)]
    by_cases ha : a = 0
    · rw [if_pos ha, ha, zero_pow hzero]
    · have hlog : Nat.log2 exponent.toNat < 256 := (Nat.log2_lt hzero).2 exponent.toNat_lt
      have htop : exponent.toNat / 2 ^ Nat.log2 exponent.toNat = 1 :=
        Nat.div_eq_of_lt_le (by rw [one_mul]; exact Nat.log2_self_le hzero)
          (by rw [one_add_one_eq_two, ← pow_succ']; exact Nat.lt_log2_self)
      have hloop := powLoop_eq a exponent hlog.le
      rw [htop, pow_one] at hloop
      rw [if_neg ha, toNat_getMsb, hloop]

omit [DecidableEq F] in
theorem squareTimes_eq (j : ℕ) (b : F) : squareTimes j b = b ^ 2 ^ j := by
  induction j generalizing b with
  | zero => rw [squareTimes, pow_zero, pow_one]
  | succ j ih => rw [squareTimes, ih, pow_succ', pow_mul, pow_two]

theorem orderLoop_eq {t : F} (n : ℕ) {i fuel : ℕ} (hfuel : n < fuel) (h : t ^ 2 ^ (i + n) = 1) :
    ∃ k ≤ n, orderLoop fuel (t ^ 2 ^ i) i = some (i + k) ∧ t ^ 2 ^ (i + k) = 1 ∧
      ∀ j < k, t ^ 2 ^ (i + j) ≠ 1 := by
  induction n generalizing i fuel with
  | zero =>
    obtain ⟨fuel, rfl⟩ : ∃ k, fuel = k + 1 := ⟨fuel - 1, by omega⟩
    rw [Nat.add_zero] at h
    exact ⟨0, le_refl 0, by rw [orderLoop, if_pos h, Nat.add_zero], h,
      fun j hj => absurd hj (Nat.not_lt_zero j)⟩
  | succ n ih =>
    obtain ⟨fuel, rfl⟩ : ∃ k, fuel = k + 1 := ⟨fuel - 1, by omega⟩
    by_cases hone : t ^ 2 ^ i = 1
    · exact ⟨0, Nat.zero_le _, by rw [orderLoop, if_pos hone, Nat.add_zero], hone,
        fun j hj => absurd hj (Nat.not_lt_zero j)⟩
    · obtain ⟨k, hk, hloop, hpower, hbefore⟩ := ih (show n < fuel by omega) (i := i + 1)
        (by rw [Nat.add_right_comm]; exact h)
      have hshift : i + 1 + k = i + (k + 1) := by omega
      rw [hshift] at hloop hpower
      refine ⟨k + 1, by omega, ?_, hpower, fun j hj => ?_⟩
      · rw [orderLoop, if_neg hone, ← hloop, pow_succ 2, pow_mul, pow_two]
      · cases j with
        | zero => exact hone
        | succ j =>
          rw [show i + (j + 1) = i + 1 + j by omega]
          exact hbefore j (by omega)

/-- **The loop of Tonelli and Shanks.**  The square of `r` is `a * t`, the order of `t` divides half
of that of `c`, and both get smaller until `t` is one. -/
theorem tonelliLoop_eq {a : F} {m fuel : ℕ} (hfuel : m < fuel) (hm : 0 < m) {c t r : F}
    (hroot : r * r = a * t) (hc : c ^ 2 ^ (m - 1) = -1) (ht : t ^ 2 ^ (m - 1) = 1) :
    ∃ root, tonelliLoop fuel c t r m = some root ∧ root * root = a := by
  induction fuel generalizing m c t r with
  | zero => exact absurd hfuel (Nat.not_lt_zero m)
  | succ fuel ih =>
    by_cases hone : t = 1
    · exact ⟨r, by rw [tonelliLoop, if_pos hone], by rw [hroot, hone, mul_one]⟩
    obtain ⟨i, hi, horder, hpower, hbefore⟩ := orderLoop_eq (m - 1) (show m - 1 < fuel by omega)
      (i := 0) (t := t) (by rw [Nat.zero_add]; exact ht)
    rw [Nat.zero_add, pow_zero, pow_one] at horder
    rw [Nat.zero_add] at hpower
    -- `t` is not one, so that its order is even and its half a square root of one
    obtain ⟨k, rfl⟩ : ∃ k, i = k + 1 := by
      refine Nat.exists_eq_succ_of_ne_zero fun h => hone ?_
      rwa [h, pow_zero, pow_one] at hpower
    have hhalf : t ^ 2 ^ k = -1 := by
      have hne := hbefore k (Nat.lt_succ_self k)
      rw [Nat.zero_add] at hne
      rw [pow_succ, pow_mul, pow_two] at hpower
      exact (mul_self_eq_one_iff.1 hpower).resolve_left hne
    have hsquare : squareTimes (m - (k + 1) - 1) c * squareTimes (m - (k + 1) - 1) c =
        c ^ 2 ^ (m - (k + 1)) := by
      rw [squareTimes_eq, ← pow_two, ← pow_mul, ← pow_succ]
      congr 2
      omega
    have hnext : (c ^ 2 ^ (m - (k + 1))) ^ 2 ^ k = -1 := by
      rw [← pow_mul, ← pow_add, show m - (k + 1) + k = m - 1 by omega, hc]
    obtain ⟨root, hloop, hresult⟩ := ih (m := k + 1) (by omega) (Nat.succ_pos k)
      (c := c ^ 2 ^ (m - (k + 1))) (t := t * c ^ 2 ^ (m - (k + 1)))
      (r := r * squareTimes (m - (k + 1) - 1) c)
      (by rw [mul_mul_mul_comm, hroot, hsquare, mul_assoc]) hnext
      (by rw [Nat.add_sub_cancel, mul_pow, hhalf, hnext, neg_one_mul, neg_neg])
    refine ⟨root, ?_, hresult⟩
    rw [tonelliLoop, if_neg hone, horder]
    change tonelliLoop fuel (_ * _) (t * (_ * _)) _ _ = _
    rw [hsquare]
    exact hloop

end Powers

/-! ### The prime field -/

section PrimeField

variable {modulus : Uint256}

theorem toNat_sub_ofUint64 {a : Uint256} {w : Word} (h : w.toNat ≤ a.toNat) :
    (a.sub (ofUint64 w)).toNat = a.toNat - w.toNat := by
  have hw := toNat_ofUint64 w
  have hle : (ofUint64 w).toNat ≤ a.toNat := hw ▸ h
  have hsub : (a.sub (ofUint64 w)).toNat = a.toNat - (ofUint64 w).toNat :=
    LawfulUint.toNat_sub_of_le (x := a) (y := ofUint64 w) hle
  rw [hsub, hw]

variable [hp : Fact modulus.toNat.Prime]

variable {a z : ZMod modulus.toNat} {fuel s : ℕ}

theorem invert_eq (ha : a ≠ 0) : invert modulus a = some a⁻¹ := by
  have htwo := hp.out.two_le
  have hexponent : (modulus.sub (ofUint64 2)).toNat = modulus.toNat - 2 :=
    toNat_sub_ofUint64 htwo
  rw [invert, if_neg ha, pow_eq, hexponent, Option.some_inj]
  refine eq_inv_of_mul_eq_one_left ?_
  rw [← pow_succ, show modulus.toNat - 2 + 1 = modulus.toNat - 1 by omega,
    ZMod.pow_card_sub_one_eq_one ha]

theorem batchProducts_ne_zero {F : Type} [Field F] [DecidableEq F] (coeffs : List F)
    {accumulator : F} (h : accumulator ≠ 0) :
    (PolynomialRoots.batchProducts accumulator coeffs).2 ≠ 0 := by
  induction coeffs generalizing accumulator with
  | nil => exact h
  | cons c coeffs ih =>
    rw [PolynomialRoots.batchProducts]
    refine ih ?_
    split
    · exact h
    · rename_i hc
      exact mul_ne_zero h hc

theorem batchInvert_eq (coeffs : List (ZMod modulus.toNat)) :
    batchInvert modulus coeffs = some (coeffs.map fun c => c⁻¹) := by
  have hne := batchProducts_ne_zero coeffs (one_ne_zero : (1 : ZMod modulus.toNat) ≠ 0)
  rw [batchInvert, invert_eq hne]
  change some (PolynomialRoots.batchInverses _ _).1 = _
  rw [PolynomialRoots.batchInverses_batchProducts coeffs one_ne_zero]

theorem logSizeLoop_eq {target : Uint256} (n : ℕ) {result : ℕ} (hfuel : n < fuel)
    (hbit : target.toNat.testBit (result + n) = true) (hfit : result + n < 256)
    (hbelow : ∀ j < result, target.toNat.testBit j = false) :
    ∃ s ≤ result + n, logSizeLoop target fuel result = some s ∧ target.toNat.testBit s = true ∧
      ∀ j < s, target.toNat.testBit j = false := by
  induction n generalizing result fuel with
  | zero =>
    obtain ⟨fuel, rfl⟩ : ∃ k, fuel = k + 1 := ⟨fuel - 1, by omega⟩
    rw [Nat.add_zero] at hbit hfit
    exact ⟨result, le_refl _, by rw [logSizeLoop, getBit_ofNat target hfit, if_pos hbit], hbit,
      hbelow⟩
  | succ n ih =>
    obtain ⟨fuel, rfl⟩ : ∃ k, fuel = k + 1 := ⟨fuel - 1, by omega⟩
    rw [logSizeLoop, getBit_ofNat target (by omega)]
    by_cases hset : target.toNat.testBit result = true
    · exact ⟨result, by omega, by rw [if_pos hset], hset, hbelow⟩
    have hbelow' : ∀ j < result + 1, target.toNat.testBit j = false := by
      intro j hj
      obtain hj | rfl := Nat.lt_succ_iff_lt_or_eq.1 hj
      · exact hbelow j hj
      · exact eq_false_of_ne_true hset
    obtain ⟨s, hs, hloop, hresult⟩ := ih (show n < fuel by omega)
      (by rw [Nat.add_right_comm]; exact hbit) (by omega) hbelow'
    exact ⟨s, by omega, by rw [if_neg hset, hloop], hresult⟩

theorem eq_two_pow_mul_odd {n : ℕ} (hset : n.testBit s = true)
    (hbelow : ∀ j < s, n.testBit j = false) : ∃ k, n = 2 ^ s * (2 * k + 1) := by
  have hmod : n % 2 ^ s = 0 := by
    refine Nat.eq_of_testBit_eq fun j => ?_
    rw [Nat.testBit_mod_two_pow, Nat.zero_testBit]
    by_cases hj : j < s
    · rw [hbelow j hj, Bool.and_false]
    · rw [decide_eq_false hj, Bool.false_and]
  have hodd : n / 2 ^ s = 2 * (n / 2 ^ (s + 1)) + 1 := by
    rw [div_two_pow_eq, hset, Bool.toNat_true]
  exact ⟨n / 2 ^ (s + 1), by rw [← hodd, Nat.mul_div_cancel' (Nat.dvd_of_mod_eq_zero hmod)]⟩

theorem primitiveRootLogSize_eq (hfuel : 256 < fuel) (hodd : modulus.toNat ≠ 2) :
    ∃ s k, primitiveRootLogSize fuel modulus = some s ∧ 0 < s ∧ s < 256 ∧
      modulus.toNat = 2 ^ s * (2 * k + 1) + 1 := by
  have htwo := hp.out.two_le
  have hlt := modulus.toNat_lt
  have hpred : (modulus.sub (ofUint64 1)).toNat = modulus.toNat - 1 :=
    toNat_sub_ofUint64 (show (1 : Word).toNat ≤ modulus.toNat from by
      rw [show (1 : Word).toNat = 1 from rfl]; omega)
  have hne : modulus.toNat - 1 ≠ 0 := by omega
  have hlog : Nat.log2 (modulus.toNat - 1) < 256 := (Nat.log2_lt hne).2 (by omega)
  obtain ⟨s, hs, hloop, hset, hbelow⟩ := logSizeLoop_eq
    (Nat.log2 (modulus.toNat - 1)) (show Nat.log2 (modulus.toNat - 1) < fuel by omega)
    (show (modulus.sub (ofUint64 1)).toNat.testBit (0 + Nat.log2 (modulus.toNat - 1)) = true by
      rw [hpred, Nat.zero_add]
      exact Nat.testBit_log2 hne)
    (by omega) (fun j hj => absurd hj (Nat.not_lt_zero j))
  rw [hpred] at hset hbelow
  obtain ⟨k, hk⟩ := eq_two_pow_mul_odd hset hbelow
  have hpos : 0 < s := by
    refine Nat.pos_of_ne_zero fun hzero => ?_
    have hmod := hp.out.eq_two_or_odd
    rw [hzero, pow_zero, one_mul] at hk
    omega
  exact ⟨s, k, hloop, hpos, by omega, by omega⟩

omit hp in
theorem toNat_exponent {k : ℕ} (hpos : 0 < s) (hlt : s < 256)
    (hmodulus : modulus.toNat = 2 ^ s * (2 * k + 1) + 1) :
    ((((modulus.sub (ofUint64 1)).shr (BitVec.ofNat 64 s - 1)).sub (ofUint64 1)).shr 2).toNat =
      k := by
  have hone : (1 : Word).toNat = 1 := rfl
  have hpred : (modulus.sub (ofUint64 1)).toNat = 2 ^ s * (2 * k + 1) := by
    rw [toNat_sub_ofUint64 (by omega), hmodulus, hone, Nat.add_sub_cancel]
  have hamount : (BitVec.ofNat 64 s - 1).toNat = s - 1 := by
    have hs : (BitVec.ofNat 64 s).toNat = s := by
      rw [BitVec.toNat_ofNat, Nat.mod_eq_of_lt (by omega)]
    rw [BitVec.toNat_sub_of_le (by rw [BitVec.le_def, hs, hone]; exact hpos), hs, hone]
  have hQ : ((modulus.sub (ofUint64 1)).shr (BitVec.ofNat 64 s - 1)).toNat = 2 * (2 * k + 1) := by
    obtain ⟨n, rfl⟩ : ∃ n, s = n + 1 := ⟨s - 1, by omega⟩
    rw [toNat_shr, hpred, hamount, Nat.add_sub_cancel, pow_succ, mul_assoc,
      Nat.mul_div_cancel_left _ (Nat.two_pow_pos n)]
  rw [toNat_shr, toNat_sub_ofUint64 (by omega), hQ, hone, show (2 : Word).toNat = 2 from rfl]
  omega

theorem two_ne_of_nonresidue (hz : ¬IsSquare z) : modulus.toNat ≠ 2 := by
  intro h
  exact hz (FiniteField.isSquare_of_char_two (by rw [ZMod.ringChar_zmod_n, h]) z)

theorem tonelliShanksSqrt_eq (hfuel : 256 < fuel) (hz : ¬IsSquare z) (a : ZMod modulus.toNat) :
    ∃ root, tonelliShanksSqrt fuel modulus z a = some root ∧ (IsSquare a → root * root = a) := by
  obtain ⟨s, k, hsize, hpos, hlt, hmodulus⟩ :=
    primitiveRootLogSize_eq hfuel (two_ne_of_nonresidue hz)
  have hz0 : z ≠ 0 := fun h => hz (h ▸ IsSquare.zero)
  have hhalf : modulus.toNat / 2 = (2 * k + 1) * 2 ^ (s - 1) := by
    obtain ⟨n, rfl⟩ : ∃ n, s = n + 1 := ⟨s - 1, by omega⟩
    rw [hmodulus, Nat.add_sub_cancel, pow_succ, show 2 ^ n * 2 * (2 * k + 1) + 1 =
      1 + 2 * ((2 * k + 1) * 2 ^ n) by ring]
    omega
  have hexponent := toNat_exponent hpos hlt hmodulus
  have hnonresidue : z ^ (modulus.toNat / 2) = -1 :=
    (ZMod.pow_div_two_eq_neg_one_or_one modulus.toNat hz0).resolve_left
      ((ZMod.euler_criterion modulus.toNat hz0).not.1 hz)
  rw [hhalf, pow_mul] at hnonresidue
  have hodd : ∀ x : ZMod modulus.toNat, x ^ k * x * x ^ k = x ^ (2 * k + 1) := by
    intro x
    rw [pow_succ, two_mul, pow_add]
    ring
  have ht : a * a ^ k * a ^ k = a ^ (2 * k + 1) := by rw [← hodd, mul_comm a]
  rw [tonelliShanksSqrt, hsize]
  change ∃ root, (if squareTimes (s - 1) _ ≠ 1 then some 0 else tonelliLoop fuel _ _ _ s) = _ ∧ _
  simp only [pow_eq, hexponent, hodd, ht, squareTimes_eq]
  by_cases hcheck : (a ^ (2 * k + 1)) ^ 2 ^ (s - 1) = 1
  · rw [if_neg (not_not.2 hcheck)]
    obtain ⟨root, hloop, hroot⟩ := tonelliLoop_eq (a := a) (show s < fuel by omega) hpos
      (r := a * a ^ k) (by rw [← ht]; ring) hnonresidue hcheck
    exact ⟨root, hloop, fun _ => hroot⟩
  · rw [if_pos hcheck]
    refine ⟨0, rfl, fun hsquare => ?_⟩
    -- a square that fails the criterion is zero
    by_contra hne
    have ha : a ≠ 0 := fun h => hne (by rw [h, mul_zero])
    have heuler := (ZMod.euler_criterion modulus.toNat ha).1 hsquare
    rw [hhalf, pow_mul] at heuler
    exact hcheck heuler

theorem pow_quarter (hmod : modulus.toNat % 4 = 3) (ha : IsSquare a) :
    a ^ ((modulus.toNat + 1) / 4) * a ^ ((modulus.toNat + 1) / 4) = a := by
  rw [← pow_add, show (modulus.toNat + 1) / 4 + (modulus.toNat + 1) / 4 =
    modulus.toNat / 2 + 1 by omega, pow_succ]
  by_cases hzero : a = 0
  · rw [hzero, mul_zero]
  · rw [(ZMod.euler_criterion modulus.toNat hzero).1 ha, one_mul]

theorem data0_and_three (a : Uint256) : a.data0 &&& 3 = 3 ↔ a.toNat % 4 = 3 := by
  rw [← BitVec.toNat_inj, BitVec.toNat_and, show (3 : Word).toNat = 2 ^ 2 - 1 from rfl,
    Nat.and_two_pow_sub_one_eq_mod, toNat_eq]
  omega

theorem succ_modulus_lt (modulus : Uint256) [hp : Fact modulus.toNat.Prime] :
    modulus.toNat + 1 < 2 ^ 256 := by
  have hlt := modulus.toNat_lt
  have hne : modulus.toNat ≠ 2 ^ 256 - 1 := by
    intro h
    have hdvd : 3 ∣ modulus.toNat := by
      rw [h]
      norm_num
    have hthree := (hp.out.eq_one_or_self_of_dvd 3 hdvd).resolve_left (by norm_num)
    omega
  omega

theorem sqrt_eq (hfuel : 256 < fuel) (hz : ¬IsSquare z) (a : ZMod modulus.toNat) :
    (IsSquare a ∧ ∃ r, sqrt fuel modulus z a = some (true, r) ∧ r * r = a) ∨
      (¬IsSquare a ∧ sqrt fuel modulus z a = some (false, 0)) := by
  -- every root that is tried is a root of every square
  obtain ⟨root, hroot, hsquare⟩ : ∃ root : ZMod modulus.toNat,
      sqrt fuel modulus z a = some (if root * root = a then (true, root) else (false, 0)) ∧
        (IsSquare a → root * root = a) := by
    rw [sqrt]
    by_cases hmod : modulus.data0 &&& 3 = 3
    · rw [if_pos hmod]
      refine ⟨_, rfl, fun ha => ?_⟩
      have hexponent : ((modulus.add (ofUint64 1)).shr 2).toNat = (modulus.toNat + 1) / 4 := by
        rw [toNat_shr, toNat_add, toNat_ofUint64, show (1 : Word).toNat = 1 from rfl,
          Nat.mod_eq_of_lt (succ_modulus_lt modulus)]
        rfl
      rw [pow_eq, hexponent]
      exact pow_quarter ((data0_and_three modulus).1 hmod) ha
    · rw [if_neg hmod]
      obtain ⟨root, htonelli, hsquare⟩ := tonelliShanksSqrt_eq hfuel hz a
      rw [htonelli]
      exact ⟨root, rfl, hsquare⟩
  rw [hroot]
  by_cases ha : IsSquare a
  · exact .inl ⟨ha, root, by rw [if_pos (hsquare ha)], hsquare ha⟩
  · exact .inr ⟨ha, by rw [if_neg fun h => ha ⟨root, h.symm⟩]⟩

end PrimeField

/-- **Square roots, powers and inverses are right in every prime field**, with any element that is
no square for the generator, and with enough fuel for the loops. -/
theorem field_roots (modulus : Uint256) [hp : Fact modulus.toNat.Prime] :
    (∀ z : ZMod modulus.toNat, ¬IsSquare z → ∀ fuel > 256, ∀ a : ZMod modulus.toNat,
      (IsSquare a ∧ ∃ r, sqrt fuel modulus z a = some (true, r) ∧ r * r = a) ∨
        (¬IsSquare a ∧ sqrt fuel modulus z a = some (false, 0))) ∧
    (∀ (a : ZMod modulus.toNat) (e : Uint256), pow a e = a ^ e.toNat) ∧
    (∀ coeffs : List (ZMod modulus.toNat), ∃ inverses, batchInvert modulus coeffs = some inverses ∧
      List.Forall₂ (fun c d => (c ≠ 0 → c * d = 1) ∧ (c = 0 → d = 0)) coeffs inverses) := by
  refine ⟨fun z hz fuel hfuel a => sqrt_eq hfuel hz a, pow_eq, fun coeffs => ?_⟩
  refine ⟨_, batchInvert_eq coeffs, ?_⟩
  rw [List.forall₂_map_right_iff, List.forall₂_same]
  exact fun c _ => ⟨mul_inv_cancel₀, fun h => by rw [h, inv_zero]⟩

instance prime_five : Fact (ofUint64 5).toNat.Prime := ⟨Nat.prime_five⟩

theorem not_isSquare_two {n : ℕ} (h : n = 5) : ¬IsSquare (2 : ZMod n) := by
  subst h
  decide

theorem field_roots_five : ∃ r : ZMod (ofUint64 5).toNat,
    sqrt 257 (ofUint64 5) 2 4 = some (true, r) ∧ r * r = 4 := by
  have hsquare : IsSquare (4 : ZMod (ofUint64 5).toNat) := ⟨2, by norm_num⟩
  exact ((field_roots (ofUint64 5)).1 2 (not_isSquare_two rfl) 257 (by norm_num) 4).elim And.right
    fun h => absurd hsquare h.1

end FieldRoots
