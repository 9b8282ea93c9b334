/-
**The sparse form of words.**

The bits of a word become the digits of a number in a base, so that sums of such numbers count bits,
and the parities of the digits are the exclusive or.  The digits are found from the top, by
thresholds.
-/

import Aztec.WideArithmetic

open List
open Nat (mod_eq_of_lt mod_lt ofDigits)

namespace SparseForm

open Uint256

/-! ### Slices -/

/-- The loop of `slice_input` that is counted. -/
def sliceCounted (base : Word) : ℕ → Uint256 → Option (List Word)
  | 0, _ => some []
  | k + 1, target => do
    let (q, r) ← target.divmod (ofUint64 base)
    let slices ← sliceCounted base k q
    return r.data0 :: slices

/-- The loop of `slice_input` that runs until nothing is left. -/
def sliceWhile (base : Word) : ℕ → Uint256 → Option (List Word)
  | 0, _ => none
  | fuel + 1, target =>
    if target.gt (ofUint64 0) then do
      let (q, r) ← target.divmod (ofUint64 base)
      let slices ← sliceWhile base fuel q
      return r.data0 :: slices
    else some []

def sliceInput (fuel : ℕ) (input : Uint256) (base : Word) (numSlices : ℕ) : Option (List Word) :=
  if numSlices > 0 then sliceCounted base numSlices input else sliceWhile base fuel input

/-- `none` is the error that the last slice is too large. -/
def sliceInputUsingVariableBases : Uint256 → List Word → Option (List Word)
  | _, [] => some []
  | target, base :: bases =>
    if UintOps.ge target (ofUint64 base) && bases.isEmpty then none
    else do
      let (q, r) ← target.divmod (ofUint64 base)
      let slices ← sliceInputUsingVariableBases q bases
      return r.data0 :: slices

theorem divmod_toNat (a : Uint256) {b : Uint256} (hb : b.toNat ≠ 0) :
    ∃ q r, a.divmod b = some (q, r) ∧ q.toNat = a.toNat / b.toNat ∧
      r.toNat = a.toNat % b.toNat := by
  obtain ⟨q, r, hdivmod, heq, hlt⟩ := Uint256.divmod_eq a hb
  have hpos : 0 < b.toNat := Nat.pos_of_ne_zero hb
  refine ⟨q, r, hdivmod, ?_, ?_⟩
  · rw [← heq, add_comm, Nat.add_mul_div_right _ _ hpos, Nat.div_eq_of_lt hlt, zero_add]
  · rw [← heq, add_comm, Nat.add_mul_mod_self_right, mod_eq_of_lt hlt]

theorem toNat_data0 {r : Uint256} (h : r.toNat < 2 ^ 64) : r.data0.toNat = r.toNat := by
  rw [toNat_eq] at h ⊢
  omega

variable {base : Word} {n i : ℕ} {digit : ℕ → ℕ} {target : Uint256} {xs : List Word}

theorem divmod_word (target : Uint256) (hbase : base.toNat ≠ 0) :
    ∃ q r, target.divmod (ofUint64 base) = some (q, r) ∧ q.toNat = target.toNat / base.toNat ∧
      r.data0.toNat = target.toNat % base.toNat := by
  obtain ⟨q, r, hdivmod, hq, hr⟩ := divmod_toNat target (b := ofUint64 base)
    (by rw [toNat_ofUint64]; exact hbase)
  rw [toNat_ofUint64] at hq hr
  refine ⟨q, r, hdivmod, hq, ?_⟩
  rw [toNat_data0, hr]
  exact hr ▸ (mod_lt _ (Nat.pos_of_ne_zero hbase)).trans base.isLt

/-- The number that digits with their own bases stand for. -/
def mixedValue : List ℕ → List ℕ → ℕ
  | d :: digits, b :: bases => d + b * mixedValue digits bases
  | _, _ => 0

theorem sliceCounted_eq (hbase : base.toNat ≠ 0) (k : ℕ) (target : Uint256) :
    ∃ slices, sliceCounted base k target = some slices ∧ slices.length = k ∧
      (∀ d ∈ slices, d.toNat < base.toNat) ∧
      ofDigits base.toNat (slices.map BitVec.toNat) = target.toNat % base.toNat ^ k := by
  induction k generalizing target with
  | zero =>
    exact ⟨[], rfl, rfl, fun _ h => absurd h not_mem_nil, by
      rw [pow_zero, Nat.mod_one]
      rfl⟩
  | succ k ih =>
    obtain ⟨q, r, hdivmod, hq, hr⟩ := divmod_word target hbase
    obtain ⟨slices, hslices, hlength, hdigits, hvalue⟩ := ih q
    refine ⟨r.data0 :: slices, ?_, by rw [length_cons, hlength],
      forall_mem_cons.2 ⟨hr ▸ mod_lt _ (Nat.pos_of_ne_zero hbase), hdigits⟩, ?_⟩
    · rw [sliceCounted, hdivmod]
      change (sliceCounted base k q).bind _ = _
      rw [hslices]
      rfl
    · rw [map_cons, Nat.ofDigits_cons, hvalue, hr, hq, pow_succ', Nat.mod_mul]

theorem sliceWhile_eq (hbase : 2 ≤ base.toNat) (k : ℕ) {fuel : ℕ} (hfuel : k < fuel)
    (target : Uint256) (htarget : target.toNat < 2 ^ k) :
    ∃ slices, sliceWhile base fuel target = some slices ∧ (∀ d ∈ slices, d.toNat < base.toNat) ∧
      ofDigits base.toNat (slices.map BitVec.toNat) = target.toNat := by
  induction k generalizing fuel target with
  | zero =>
    obtain ⟨fuel, rfl⟩ : ∃ n, fuel = n + 1 := ⟨fuel - 1, by omega⟩
    rw [pow_zero, Nat.lt_one_iff] at htarget
    refine ⟨[], ?_, fun _ h => absurd h not_mem_nil, htarget.symm⟩
    rw [sliceWhile, if_neg (by rw [gt_iff, htarget]; exact Nat.not_lt_zero _)]
  | succ k ih =>
    obtain ⟨fuel, rfl⟩ : ∃ n, fuel = n + 1 := ⟨fuel - 1, by omega⟩
    by_cases hzero : target.toNat = 0
    · refine ⟨[], ?_, fun _ h => absurd h not_mem_nil, hzero.symm⟩
      rw [sliceWhile, if_neg (by rw [gt_iff, hzero]; exact Nat.not_lt_zero _)]
    have hpos : (ofUint64 0).toNat < target.toNat := by
      rw [toNat_ofUint64]
      exact Nat.pos_of_ne_zero hzero
    obtain ⟨q, r, hdivmod, hq, hr⟩ := divmod_word target (show base.toNat ≠ 0 by omega)
    have hqlt : q.toNat < 2 ^ k := by
      rw [hq, Nat.div_lt_iff_lt_mul (by omega)]
      exact htarget.trans_le (by rw [pow_succ]; exact Nat.mul_le_mul_left _ hbase)
    obtain ⟨slices, hslices, hdigits, hvalue⟩ := ih (show k < fuel by omega) q hqlt
    refine ⟨r.data0 :: slices, ?_, forall_mem_cons.2 ⟨hr ▸ mod_lt _ (by omega), hdigits⟩, ?_⟩
    · rw [sliceWhile, if_pos ((gt_iff _ _).2 hpos), hdivmod]
      change (sliceWhile base fuel q).bind _ = _
      rw [hslices]
      rfl
    · rw [map_cons, Nat.ofDigits_cons, hvalue, hr, hq, Nat.mod_add_div]

theorem variableBases_eq (bases : List Word) (hbases : ∀ b ∈ bases, b.toNat ≠ 0)
    (target : Uint256) : (∀ slices, sliceInputUsingVariableBases target bases = some slices →
      List.Forall₂ (fun d b => d.toNat < b.toNat) slices bases) ∧
    (target.toNat < (bases.map BitVec.toNat).prod → ∃ slices,
      sliceInputUsingVariableBases target bases = some slices ∧
      mixedValue (slices.map BitVec.toNat) (bases.map BitVec.toNat) = target.toNat) := by
  induction bases generalizing target with
  | nil =>
    refine ⟨fun slices h => ?_, fun hlt => ⟨[], rfl, ?_⟩⟩
    · cases h
      exact .nil
    · rw [map_nil, prod_nil, Nat.lt_one_iff] at hlt
      rw [hlt]
      rfl
  | cons base bases ih =>
    obtain ⟨hbase, hrest⟩ := forall_mem_cons.1 hbases
    obtain ⟨q, r, hdivmod, hq, hr⟩ := divmod_word target hbase
    obtain ⟨hdigits, hvalue⟩ := ih hrest q
    constructor
    · intro slices h
      rw [sliceInputUsingVariableBases] at h
      split at h
      · cases h
      · rw [hdivmod] at h
        change (sliceInputUsingVariableBases q bases).bind _ = _ at h
        obtain ⟨rest, hslices, hcons⟩ := Option.bind_eq_some_iff.1 h
        cases hcons
        exact .cons (hr ▸ mod_lt _ (Nat.pos_of_ne_zero hbase)) (hdigits rest hslices)
    · intro hlt
      rw [map_cons, prod_cons] at hlt
      obtain ⟨slices, hslices, hmixed⟩ := hvalue (by
        rw [hq]
        exact Nat.div_lt_of_lt_mul hlt)
      refine ⟨r.data0 :: slices, ?_, ?_⟩
      · rw [sliceInputUsingVariableBases, if_neg, hdivmod]
        · change (sliceInputUsingVariableBases q bases).bind _ = _
          rw [hslices]
          rfl
        · rw [Bool.and_eq_true]
          rintro ⟨hge, hempty⟩
          have hge' : base.toNat ≤ target.toNat := by
            have := (LawfulUint.ge_iff _ _).1 hge
            rwa [show UintValue.toNat (ofUint64 base) = base.toNat from toNat_ofUint64 base] at this
          rw [List.isEmpty_iff.1 hempty, map_nil, prod_nil, mul_one] at hlt
          omega
      · rw [map_cons, map_cons, mixedValue, hmixed, hr, hq, Nat.mod_add_div]

/-! ### The sparse form -/

/-- `get_base_powers`. -/
def basePower (base : Word) : ℕ → Uint256
  | 0 => ofUint64 1
  | i + 1 => (basePower base i).mul (ofUint64 base)

/-- The loop over the bits below `n`. -/
def mapIntoLoop (base input : Word) : ℕ → Uint256
  | 0 => ofUint64 0
  | i + 1 =>
    let out := mapIntoLoop base input i
    if (input >>> i) &&& 1 ≠ 0 then out.add (basePower base i) else out

def mapIntoSparseForm (base input : Word) : Uint256 := mapIntoLoop base input 32

/-- The search for the digit of a power, with the threshold before the first of `k` more. -/
def digitLoop (target basePower : Uint256) : ℕ → ℕ → Uint256 → Option (ℕ × Uint256)
  | 0, _, _ => none
  | k + 1, j, prevThreshold =>
    let threshold := prevThreshold.add basePower
    if threshold.gt target then some (j, prevThreshold)
    else digitLoop target basePower k (j + 1) threshold

/-- The loop over the powers below `n`, from the top. -/
def mapFromLoop (base : Word) : ℕ → Uint256 → Word → Word
  | 0, _, output => output
  | i + 1, target, output =>
    match digitLoop target (basePower base i) base.toNat 1 (ofUint64 0) with
    | none => mapFromLoop base i target output
    | some (j, prevThreshold) =>
      mapFromLoop base i (if j > 1 then target.sub prevThreshold else target)
        (if (j - 1) % 2 = 1 then output + ((1 : Word) <<< i) else output)

def mapFromSparseForm (base : Word) (input : Uint256) : Word := mapFromLoop base 32 input 0

theorem toNat_basePower (h : base.toNat ^ n < 2 ^ 256) (hbase : 2 ≤ base.toNat) (hi : i ≤ n) :
    (basePower base i).toNat = base.toNat ^ i := by
  induction i with
  | zero => exact toNat_ofUint64 1
  | succ i ih =>
    rw [basePower, toNat_mul, ih (by omega), toNat_ofUint64, ← pow_succ, mod_eq_of_lt]
    exact (Nat.pow_le_pow_right (by omega) hi).trans_lt h

/-- The number whose digits are the bits of `x` below `n`. -/
def spread (base : ℕ) (digit : ℕ → ℕ) (n : ℕ) : ℕ := ∑ i ∈ Finset.range n, digit i * base ^ i

theorem spread_lt {base : ℕ} (hdigit : ∀ i, digit i < base) (n : ℕ) :
    spread base digit n < base ^ n := by
  induction n with
  | zero => exact Nat.one_pos
  | succ n ih =>
    rw [spread, Finset.sum_range_succ, pow_succ', ← spread]
    calc spread base digit n + digit n * base ^ n < (digit n + 1) * base ^ n := by
          rw [add_mul, one_mul, add_comm]
          exact Nat.add_lt_add_left ih _
      _ ≤ base * base ^ n := Nat.mul_le_mul_right _ (hdigit n)

def bitDigit (x : ℕ) (i : ℕ) : ℕ := (x.testBit i).toNat

theorem bitDigit_lt {base : ℕ} (hbase : 2 ≤ base) (x i : ℕ) : bitDigit x i < base :=
  (Bool.toNat_lt _).trans_le hbase

theorem toNat_mapIntoLoop (h : base.toNat ^ 32 < 2 ^ 256) (hbase : 2 ≤ base.toNat) (input : Word)
    (hn : n ≤ 32) :
    (mapIntoLoop base input n).toNat = spread base.toNat (bitDigit input.toNat) n := by
  induction n with
  | zero => exact toNat_ofUint64 0
  | succ n ih =>
    have hlt := spread_lt (bitDigit_lt hbase input.toNat) (n + 1)
    have hwhole : base.toNat ^ (n + 1) ≤ base.toNat ^ 32 := Nat.pow_le_pow_right (by omega) hn
    rw [spread, Finset.sum_range_succ, ← spread] at hlt ⊢
    have hbit := Uint256.bit_eq input n
    rw [mapIntoLoop]
    by_cases hset : input.toNat.testBit n = true
    · rw [if_pos (of_decide_eq_true (hbit.trans hset)), toNat_add, ih (by omega),
        toNat_basePower h hbase (by omega)]
      rw [bitDigit, hset, Bool.toNat_true, one_mul] at hlt ⊢
      rw [mod_eq_of_lt (by omega)]
    · have hclear := eq_false_of_ne_true hset
      rw [if_neg (of_decide_eq_false (hbit.trans hclear)), ih (by omega), bitDigit, hclear,
        Bool.toNat_false, zero_mul, add_zero]

theorem digitLoop_eq {basePower : Uint256} (k j : ℕ) {prevThreshold : Uint256}
    (hprev : prevThreshold.toNat = j * basePower.toNat) (hle : j * basePower.toNat ≤ target.toNat)
    (hlt : target.toNat < (j + k) * basePower.toNat) (hfit : (j + k) * basePower.toNat < 2 ^ 256) :
    ∃ threshold, digitLoop target basePower k (j + 1) prevThreshold =
        some (target.toNat / basePower.toNat + 1, threshold) ∧
      threshold.toNat = target.toNat / basePower.toNat * basePower.toNat := by
  induction k generalizing j prevThreshold with
  | zero => exact absurd hlt (Nat.not_lt.2 hle)
  | succ k ih =>
    have hsum : j + (k + 1) = j + 1 + k := by ring
    have hsucc : (prevThreshold.add basePower).toNat = (j + 1) * basePower.toNat := by
      rw [toNat_add, hprev, ← Nat.succ_mul, mod_eq_of_lt]
      exact (Nat.mul_le_mul_right _ (by omega)).trans_lt hfit
    rw [digitLoop]
    by_cases hstop : target.toNat < (j + 1) * basePower.toNat
    · have hdigit : target.toNat / basePower.toNat = j := Nat.div_eq_of_lt_le hle hstop
      rw [if_pos ((gt_iff _ _).2 (hsucc ▸ hstop)), hdigit]
      exact ⟨prevThreshold, rfl, hprev⟩
    · rw [if_neg (by rw [gt_iff, hsucc]; exact hstop)]
      exact ih (j + 1) hsucc (Nat.not_lt.1 hstop) (hsum ▸ hlt) (hsum ▸ hfit)

theorem toNat_add_bit (output : Word) (hi : i < 64) :
    (output + ((1 : Word) <<< i)).toNat = (output.toNat + 2 ^ i) % 2 ^ 64 := by
  have hpow : 2 ^ i < 2 ^ 64 := Nat.pow_lt_pow_right (by omega) hi
  rw [BitVec.toNat_add, BitVec.toNat_shiftLeft, Nat.shiftLeft_eq,
    show (1 : Word).toNat = 1 from rfl, one_mul, mod_eq_of_lt hpow]

theorem mapFromLoop_eq (h : base.toNat ^ 32 < 2 ^ 256) (hbase : 2 ≤ base.toNat)
    (hdigit : ∀ i, digit i < base.toNat) (hn : n ≤ 32)
    (htarget : target.toNat = spread base.toNat digit n) (output : Word) :
    (mapFromLoop base n target output).toNat =
      (output.toNat + spread 2 (fun i => digit i % 2) n) % 2 ^ 64 := by
  induction n generalizing target output with
  | zero =>
    rw [mapFromLoop, spread, Finset.range_zero, Finset.sum_empty, add_zero,
      mod_eq_of_lt output.isLt]
  | succ n ih =>
    have hpower := toNat_basePower h hbase (i := n) (by omega)
    have hpos : 0 < base.toNat ^ n := Nat.pow_pos (by omega)
    have hlow := spread_lt hdigit n
    rw [spread, Finset.sum_range_succ, ← spread] at htarget
    have hquot : target.toNat / base.toNat ^ n = digit n := by
      rw [htarget, Nat.add_mul_div_right _ _ hpos, Nat.div_eq_of_lt hlow, zero_add]
    have hwhole : base.toNat * base.toNat ^ n < 2 ^ 256 := by
      rw [← pow_succ']
      exact (Nat.pow_le_pow_right (by omega) hn).trans_lt h
    have htop : target.toNat < base.toNat * base.toNat ^ n := by
      rw [← Nat.div_lt_iff_lt_mul hpos, hquot]
      exact hdigit n
    have hstart : (ofUint64 0).toNat = 0 * (basePower base n).toNat := by
      rw [toNat_ofUint64, zero_mul]
      rfl
    obtain ⟨threshold, hloop, hthreshold⟩ := digitLoop_eq base.toNat 0 hstart
      (by rw [zero_mul]; exact Nat.zero_le target.toNat) (by rw [zero_add, hpower]; exact htop)
      (by rw [zero_add, hpower]; exact hwhole)
    rw [hpower, hquot] at hloop hthreshold
    -- subtracting the threshold leaves the lower digits
    have hnext : (if digit n + 1 > 1 then target.sub threshold else target).toNat =
        spread base.toNat digit n := by
      split
      · have hle : threshold.toNat ≤ target.toNat := by
          rw [htarget, hthreshold]
          exact Nat.le_add_left _ _
        have hsub : (target.sub threshold).toNat = target.toNat - threshold.toNat :=
          LawfulUint.toNat_sub_of_le (x := target) (y := threshold) hle
        rw [hsub, htarget, hthreshold, Nat.add_sub_cancel]
      · rw [htarget, show digit n = 0 by omega, zero_mul, add_zero]
    rw [mapFromLoop]
    rw [hloop]
    dsimp only
    rw [ih (by omega) hnext, Nat.add_sub_cancel, spread, spread, Finset.sum_range_succ, ← spread]
    rcases Nat.mod_two_eq_zero_or_one (digit n) with hzero | hone
    · rw [hzero, zero_mul, add_zero, if_neg zero_ne_one]
    · rw [hone, one_mul, if_pos rfl, toNat_add_bit _ (by omega)]
      rw [Nat.mod_add_mod, add_assoc, add_comm (2 ^ n)]

/-! ### Sums of sparse forms -/

def sparseSum (base : Word) (xs : List Word) : Uint256 :=
  (xs.map (mapIntoSparseForm base)).foldl add (ofUint64 0)

def countBits (xs : List Word) (i : ℕ) : ℕ := (xs.map fun x => bitDigit x.toNat i).sum

theorem countBits_cons (x : Word) (xs : List Word) (i : ℕ) :
    countBits (x :: xs) i = bitDigit x.toNat i + countBits xs i := by
  rw [countBits, map_cons, sum_cons, countBits]

theorem countBits_le (xs : List Word) (i : ℕ) : countBits xs i ≤ xs.length := by
  induction xs with
  | nil => exact le_refl _
  | cons x xs ih =>
    have hbit := Bool.toNat_le (x.toNat.testBit i)
    rw [countBits_cons, length_cons, bitDigit]
    omega

theorem spread_add (base : ℕ) (f g : ℕ → ℕ) (n : ℕ) :
    spread base (fun i => f i + g i) n = spread base f n + spread base g n := by
  rw [spread, spread, spread, ← Finset.sum_add_distrib]
  exact Finset.sum_congr rfl fun i _ => add_mul _ _ _

theorem toNat_foldl_add (as : List Uint256) (a : Uint256) :
    (as.foldl add a).toNat = (a.toNat + (as.map toNat).sum) % 2 ^ 256 := by
  induction as generalizing a with
  | nil => rw [foldl_nil, map_nil, sum_nil, add_zero, mod_eq_of_lt (toNat_lt a)]
  | cons b as ih =>
    rw [foldl_cons, ih, toNat_add, Nat.mod_add_mod, map_cons, sum_cons, add_assoc]

theorem sum_mapIntoSparseForm (h : base.toNat ^ 32 < 2 ^ 256) (hbase : 2 ≤ base.toNat)
    (xs : List Word) :
    ((xs.map (mapIntoSparseForm base)).map toNat).sum = spread base.toNat (countBits xs) 32 := by
  induction xs with
  | nil =>
    rw [spread]
    exact (Finset.sum_eq_zero fun i _ => Nat.zero_mul _).symm
  | cons x xs ih =>
    rw [map_cons, map_cons, sum_cons, ih, funext (countBits_cons x xs), spread_add,
      mapIntoSparseForm, toNat_mapIntoLoop h hbase x (le_refl 32)]

theorem toNat_sparseSum (h : base.toNat ^ 32 < 2 ^ 256) (hbase : 2 ≤ base.toNat)
    (hlength : xs.length < base.toNat) :
    (sparseSum base xs).toNat = spread base.toNat (countBits xs) 32 := by
  have hlt := spread_lt (fun i => (countBits_le xs i).trans_lt hlength) 32
  rw [sparseSum, toNat_foldl_add, toNat_ofUint64, sum_mapIntoSparseForm h hbase,
    show (0 : Word).toNat = 0 from rfl, zero_add, mod_eq_of_lt (hlt.trans h)]

theorem testBit_foldl_xor (xs : List Word) (a : Word) (i : ℕ) :
    bitDigit (xs.foldl (· ^^^ ·) a).toNat i = (bitDigit a.toNat i + countBits xs i) % 2 := by
  induction xs generalizing a with
  | nil => rw [foldl_nil, countBits, map_nil, sum_nil, add_zero, bitDigit,
      mod_eq_of_lt (Bool.toNat_lt _)]
  | cons x xs ih =>
    rw [foldl_cons, ih, countBits_cons, BitVec.toNat_xor, bitDigit, Nat.testBit_xor, bitDigit,
      bitDigit]
    cases a.toNat.testBit i <;> cases x.toNat.testBit i <;>
      simp only [Bool.xor_false, Bool.xor_true, Bool.not_false, Bool.not_true, Bool.toNat_true,
        Bool.toNat_false] <;> omega

theorem toNat_foldl_xor_lt (hxs : ∀ x ∈ xs, x.toNat < 2 ^ 32) {a : Word} (ha : a.toNat < 2 ^ 32) :
    (xs.foldl (· ^^^ ·) a).toNat < 2 ^ 32 := by
  induction xs generalizing a with
  | nil => exact ha
  | cons x xs ih =>
    obtain ⟨hx, hrest⟩ := forall_mem_cons.1 hxs
    rw [foldl_cons]
    exact ih hrest (by rw [BitVec.toNat_xor]; exact Nat.xor_lt_two_pow ha hx)

theorem spread_bitDigit (y n : ℕ) : spread 2 (bitDigit y) n = y % 2 ^ n := by
  induction n with
  | zero => rw [pow_zero, Nat.mod_one]; rfl
  | succ n ih =>
    rw [spread, Finset.sum_range_succ, ← spread, ih, bitDigit, Nat.toNat_testBit, Nat.mod_pow_succ,
      mul_comm]

theorem mapFromSparseForm_sum (h : base.toNat ^ 32 < 2 ^ 256) (hbase : 2 ≤ base.toNat)
    (hlength : xs.length < base.toNat) (hxs : ∀ x ∈ xs, x.toNat < 2 ^ 32) :
    mapFromSparseForm base (sparseSum base xs) = xs.foldl (· ^^^ ·) 0 := by
  have hlt := toNat_foldl_xor_lt hxs (a := 0) (Nat.pow_pos (by omega))
  have hdigits : (fun i => countBits xs i % 2) = bitDigit (xs.foldl (· ^^^ ·) 0).toNat := by
    funext i
    rw [testBit_foldl_xor, bitDigit, show (0 : Word).toNat = 0 from rfl, Nat.zero_testBit,
      Bool.toNat_false, zero_add]
  refine BitVec.eq_of_toNat_eq ?_
  rw [mapFromSparseForm, mapFromLoop_eq h hbase (fun i => (countBits_le xs i).trans_lt hlength)
    (le_refl 32) (toNat_sparseSum h hbase hlength), hdigits, spread_bitDigit,
    show (0 : Word).toNat = 0 from rfl, zero_add, mod_eq_of_lt hlt, mod_eq_of_lt]
  exact hlt.trans (Nat.pow_lt_pow_right (by omega) (by omega))

/-! ### Sparse integers -/

structure SparseInt where
  limbs : List Word
  value : Word
  deriving DecidableEq

namespace SparseInt

def ofInput (numBits : ℕ) (input : Word) : SparseInt where
  limbs := (List.range numBits).map fun i => (input >>> i) &&& 1
  value := input

/-- The limbs of a sum, with the carry put on the next limb. -/
def addLimbs (base : Word) : List Word → List Word → List Word
  | a :: as, b :: bs =>
    match as with
    | [] => [(a + b) % base]
    | next :: as =>
      if a + b ≥ base then (a + b - base) :: addLimbs base ((next + 1) :: as) bs
      else (a + b) :: addLimbs base (next :: as) bs
  | _, _ => []

def add (base : Word) (s t : SparseInt) : SparseInt where
  limbs := addLimbs base s.limbs t.limbs
  value := s.value + t.value

/-- A sparse integer that adds up inputs, and the sum of their digits with weights. -/
inductive IsSum (base : Word) (numBits : ℕ) : SparseInt → ℕ → Prop
  | input (x : Word) :
      IsSum base numBits (ofInput numBits x) (spread base.toNat (bitDigit x.toNat) numBits)
  | add {s t : SparseInt} {m n : ℕ} :
      IsSum base numBits s m → IsSum base numBits t n → IsSum base numBits (s.add base t) (m + n)

def Represents (base : Word) (numBits : ℕ) (limbs : List Word) (n : ℕ) : Prop :=
  limbs.length = numBits ∧ (∀ limb ∈ limbs, limb.toNat < base.toNat) ∧
    Nat.ofDigits base.toNat (limbs.map BitVec.toNat) = n % base.toNat ^ numBits

theorem toNat_bit (input : Word) (i : ℕ) :
    ((input >>> i) &&& 1).toNat = bitDigit input.toNat i := by
  rw [BitVec.toNat_and, BitVec.toNat_ushiftRight, show (1 : Word).toNat = 1 from rfl,
    Nat.and_one_is_mod, Nat.shiftRight_eq_div_pow, bitDigit, Nat.toNat_testBit]

theorem ofDigits_range (base : ℕ) (digit : ℕ → ℕ) (n : ℕ) :
    ofDigits base ((List.range n).map digit) = spread base digit n := by
  induction n with
  | zero => rfl
  | succ n ih =>
    rw [range_succ, map_append, Nat.ofDigits_append, ih, length_map, length_range, map_singleton,
      Nat.ofDigits_singleton, spread, spread, Finset.sum_range_succ, mul_comm (digit n)]

theorem represents_ofInput {base : Word} (hbase : 2 ≤ base.toNat) (numBits : ℕ) (x : Word) :
    Represents base numBits (ofInput numBits x).limbs
      (spread base.toNat (bitDigit x.toNat) numBits) := by
  refine ⟨by rw [ofInput, length_map, length_range], fun limb h => ?_, ?_⟩
  · obtain ⟨i, -, rfl⟩ := mem_map.1 h
    rw [toNat_bit]
    exact bitDigit_lt hbase _ _
  · rw [ofInput, List.map_map, show BitVec.toNat ∘ (fun i => (x >>> i) &&& 1) = bitDigit x.toNat
      from funext (toNat_bit x), ofDigits_range,
      mod_eq_of_lt (spread_lt (bitDigit_lt hbase _) _)]

theorem add_mod_pow_succ {base : ℕ} (hpos : 0 < base) (a b m n k : ℕ) :
    (a + base * m + (b + base * n)) % base ^ (k + 1) =
      (a + b) % base + base * (((a + b) / base + (m + n)) % base ^ k) := by
  rw [show a + base * m + (b + base * n) = a + b + base * (m + n) by ring, pow_succ', Nat.mod_mul,
    Nat.add_mul_mod_self_left, Nat.add_mul_div_left _ _ hpos]

theorem ofDigits_map_cons (base : ℕ) (limb : Word) (limbs : List Word) :
    ofDigits base ((limb :: limbs).map BitVec.toNat) =
      limb.toNat + base * ofDigits base (limbs.map BitVec.toNat) := by
  rw [map_cons, Nat.ofDigits_cons]

theorem addLimbs_nil (base : Word) (bs : List Word) : addLimbs base [] bs = [] := by
  cases bs <;> rfl

section

variable {base : Word} (hbase : 2 ≤ base.toNat) (hfit : base.toNat ≤ 2 ^ 63)
include hbase hfit

theorem represents_addLimbs (bs as : List Word) (a b : Word) (ha : a.toNat ≤ base.toNat) (hb : b.toNat < base.toNat)
    (has : ∀ limb ∈ as, limb.toNat < base.toNat) (hbs : ∀ limb ∈ bs, limb.toNat < base.toNat)
    (hlength : as.length = bs.length) :
    Represents base (bs.length + 1) (addLimbs base (a :: as) (b :: bs))
      (ofDigits base.toNat ((a :: as).map BitVec.toNat) +
        ofDigits base.toNat ((b :: bs).map BitVec.toNat)) := by
  have hpos : 0 < base.toNat := by omega
  have hsum : (a + b).toNat = a.toNat + b.toNat := by
    rw [BitVec.toNat_add, mod_eq_of_lt (by omega)]
  induction bs generalizing as a b with
  | nil =>
    rw [length_nil, length_eq_zero_iff] at hlength
    subst hlength
    refine ⟨rfl, ?_, ?_⟩
    · rw [addLimbs, forall_mem_singleton, BitVec.toNat_umod]
      exact mod_lt _ hpos
    · rw [addLimbs, map_singleton, map_singleton, map_singleton,
        Nat.ofDigits_singleton, Nat.ofDigits_singleton, Nat.ofDigits_singleton, BitVec.toNat_umod,
        hsum, length_nil, zero_add, pow_one]
  | cons b' bs ih =>
    obtain ⟨next, as, rfl⟩ : ∃ next rest, as = next :: rest :=
      exists_cons_of_ne_nil fun h => by simp [h] at hlength
    obtain ⟨hnext, has⟩ := forall_mem_cons.1 has
    obtain ⟨hb', hbs⟩ := forall_mem_cons.1 hbs
    have hlength' : as.length = bs.length := Nat.succ_injective hlength
    have hsucc : (next + 1).toNat = next.toNat + 1 := by
      rw [BitVec.toNat_add, show (1 : Word).toNat = 1 from rfl, mod_eq_of_lt (by omega)]
    rw [addLimbs]
    by_cases hcarry : a + b ≥ base
    · have hge : base.toNat ≤ a.toNat + b.toNat := by
        rw [← hsum]
        exact hcarry
      have hsub : (a + b - base).toNat = a.toNat + b.toNat - base.toNat := by
        rw [BitVec.toNat_sub_of_le hcarry, hsum]
      obtain ⟨hlen, hdigits, hvalue⟩ := ih as (next + 1) b' (by omega) hb' has hbs hlength'
        (by rw [BitVec.toNat_add, mod_eq_of_lt (by omega)])
      rw [if_pos hcarry]
      refine ⟨by rw [length_cons, hlen, length_cons], forall_mem_cons.2 ⟨by omega, hdigits⟩, ?_⟩
      have hquot : (a.toNat + b.toNat) / base.toNat = 1 :=
        Nat.div_eq_of_lt_le (by omega) (by omega)
      have hrem : (a.toNat + b.toNat) % base.toNat = a.toNat + b.toNat - base.toNat := by
        rw [Nat.mod_eq_sub_mod hge, mod_eq_of_lt (by omega)]
      rw [ofDigits_map_cons _ a, ofDigits_map_cons _ b, length_cons, add_mod_pow_succ hpos,
        hquot, hrem, ofDigits_map_cons, hvalue, hsub, ofDigits_map_cons _ (next + 1),
        ofDigits_map_cons _ next, hsucc]
      congr 3
      ring
    · obtain ⟨hlen, hdigits, hvalue⟩ := ih as next b' hnext.le hb' has hbs hlength'
        (by rw [BitVec.toNat_add, mod_eq_of_lt (by omega)])
      have hlt : a.toNat + b.toNat < base.toNat := by
        rw [← hsum]
        exact Nat.not_le.1 hcarry
      rw [if_neg hcarry]
      refine ⟨by rw [length_cons, hlen, length_cons], forall_mem_cons.2 ⟨by omega, hdigits⟩, ?_⟩
      rw [ofDigits_map_cons _ a, ofDigits_map_cons _ b, length_cons, add_mod_pow_succ hpos,
        Nat.div_eq_of_lt hlt, mod_eq_of_lt hlt, ofDigits_map_cons, hvalue, hsum, zero_add]

theorem represents_of_isSum {numBits : ℕ} {s : SparseInt} {n : ℕ} (h : IsSum base numBits s n) :
    Represents base numBits s.limbs n := by
  induction h with
  | input x => exact represents_ofInput hbase numBits x
  | @add s t m n _ _ hs ht =>
    obtain ⟨hslength, hsdigits, hsvalue⟩ := hs
    obtain ⟨htlength, htdigits, htvalue⟩ := ht
    cases hslimbs : s.limbs with
    | nil =>
      rw [hslimbs] at hslength
      have hnil : (s.add base t).limbs = [] := by rw [add, hslimbs, addLimbs_nil]
      rw [hnil, ← hslength]
      refine ⟨rfl, fun limb hlimb => absurd hlimb not_mem_nil, ?_⟩
      rw [length_nil, pow_zero, Nat.mod_one]
      rfl
    | cons a as =>
      obtain ⟨b, bs, htlimbs⟩ : ∃ b bs, t.limbs = b :: bs := by
        refine exists_cons_of_ne_nil fun hnil => ?_
        rw [hnil, ← hslength, hslimbs] at htlength
        exact absurd htlength (Nat.succ_ne_zero _).symm
      rw [hslimbs] at hslength hsdigits hsvalue
      rw [htlimbs] at htlength htdigits htvalue
      obtain ⟨ha, has⟩ := forall_mem_cons.1 hsdigits
      obtain ⟨hb, hbs⟩ := forall_mem_cons.1 htdigits
      obtain ⟨hlength, hdigits, hvalue⟩ := represents_addLimbs hbase hfit bs as a b ha.le hb has hbs
        (Nat.succ_injective (hslength.trans htlength.symm))
      rw [show bs.length + 1 = numBits from htlength] at hlength hvalue
      rw [Represents, add, hslimbs, htlimbs]
      exact ⟨hlength, hdigits, by rw [hvalue, hsvalue, htvalue, ← Nat.add_mod]⟩

end

end SparseInt

/-- **Sparse forms count digits.**  With a base whose 32nd power fits, sums of fewer sparse forms
than the base decode to the exclusive or of the words.  Slices are digits below their bases, and
give the input back where it fits, and limbs of sums of sparse integers are the digits of the sum
of their digits, modulo the power of the base that the number of bits gives. -/
theorem sparse_form {base : Word} (hbase : 2 ≤ base.toNat) :
    (base.toNat ^ 32 < 2 ^ 256 → ∀ xs : List Word, xs.length < base.toNat →
      (∀ x ∈ xs, x.toNat < 2 ^ 32) →
      mapFromSparseForm base (sparseSum base xs) = xs.foldl (· ^^^ ·) 0) ∧
    (∀ (v : Uint256) (k fuel : ℕ), 0 < k → ∃ slices, sliceInput fuel v base k = some slices ∧
      slices.length = k ∧ (∀ d ∈ slices, d.toNat < base.toNat) ∧ (v.toNat < base.toNat ^ k →
        v.toNat = Nat.ofDigits base.toNat (slices.map BitVec.toNat))) ∧
    (∀ (v : Uint256) (fuel : ℕ), 256 < fuel → ∃ slices, sliceInput fuel v base 0 = some slices ∧
      (∀ d ∈ slices, d.toNat < base.toNat) ∧
      v.toNat = Nat.ofDigits base.toNat (slices.map BitVec.toNat)) ∧
    (∀ (v : Uint256) (bases : List Word), (∀ b ∈ bases, b.toNat ≠ 0) →
      (∀ slices, sliceInputUsingVariableBases v bases = some slices →
        List.Forall₂ (fun d b => d.toNat < b.toNat) slices bases) ∧
      (v.toNat < (bases.map BitVec.toNat).prod → ∃ slices,
        sliceInputUsingVariableBases v bases = some slices ∧
        v.toNat = mixedValue (slices.map BitVec.toNat) (bases.map BitVec.toNat))) ∧
    (base.toNat ≤ 2 ^ 63 → ∀ (numBits : ℕ) (s : SparseInt) (n : ℕ), 0 < numBits → numBits ≤ 64 →
      SparseInt.IsSum base numBits s n →
      s.limbs.length = numBits ∧ (∀ limb ∈ s.limbs, limb.toNat < base.toNat) ∧
        Nat.ofDigits base.toNat (s.limbs.map BitVec.toNat) = n % base.toNat ^ numBits) := by
  refine ⟨fun h xs hlength hxs => mapFromSparseForm_sum h hbase hlength hxs,
    fun v k fuel hk => ?_, fun v fuel hfuel => ?_, fun v bases hbases => ?_,
    fun hfit numBits s n _ _ h => SparseInt.represents_of_isSum hbase hfit h⟩
  · obtain ⟨slices, hslices, hlength, hdigits, hvalue⟩ :=
      sliceCounted_eq (show base.toNat ≠ 0 by omega) k v
    exact ⟨slices, by rw [sliceInput, if_pos hk, hslices], hlength, hdigits,
      fun hv => by rw [hvalue, Nat.mod_eq_of_lt hv]⟩
  · obtain ⟨slices, hslices, hdigits, hvalue⟩ := sliceWhile_eq hbase 256 hfuel v (toNat_lt v)
    exact ⟨slices, by rw [sliceInput, if_neg (Nat.lt_irrefl 0), hslices], hdigits, hvalue.symm⟩
  · obtain ⟨hdigits, hvalue⟩ := variableBases_eq bases hbases v
    exact ⟨hdigits, fun hv => (hvalue hv).imp fun slices h => ⟨h.1, h.2.symm⟩⟩

theorem sparse_form_seven : mapFromSparseForm 7 (sparseSum 7 [5, 3, 6]) = 0 :=
  (sparse_form (show 2 ≤ (7 : Word).toNat by decide)).1
    (by rw [show (7 : Word).toNat = 7 from rfl]; norm_num) [5, 3, 6] (by decide) (by simp)

end SparseForm
