/-
**Fixed-window signed digits of scalars.**

A scalar is cut into windows, and every window is made odd: an even one gets one more, and the
window below it gets a whole window less.  The first window has none below, and the skew says that
the scalar got one more.  An entry holds half of the absolute value of its digit, the sign, and the
number of the point.
-/

import Aztec.Words
import Mathlib.Data.Nat.Bitwise

open Function List
open Nat (add_sub_cancel div_one log2 mod_eq_of_lt mul_succ pow_le_pow_right shiftLeft_eq sub_add_cancel)
open BitVec (allOnes getLsbD_and lt_def testBit_toNat toNat_add toNat_and toNat_inj toNat_or toNat_shiftLeft)

namespace Wnaf

open Words

/-! ### The encoders -/

def scalarBits : ℕ := 127

def getWnafBits (scalar : ℕ → Word) (bits bitPosition : ℕ) : Word :=
  let loLimbIdx := bitPosition / 64
  let hiLimbIdx := (bitPosition + bits - 1) / 64
  let bitMask : Word := ((1 : Word) <<< bits) - 1
  let lo := scalar loLimbIdx >>> (bitPosition % 64)
  let hiShift := if bitPosition ≠ 0 then 64 - bitPosition % 64 else 0
  let hi := scalar hiLimbIdx <<< hiShift
  let hiMask := bitMask &&& (0 - ofBool (loLimbIdx ≠ hiLimbIdx))
  (lo &&& bitMask) ||| (hi &&& hiMask)

def getWnafBitsConst (scalar : ℕ → Word) (bits bitPosition : ℕ) : Word :=
  if bits = 0 then 0
  else
    let loLimbIdx := bitPosition / 64
    let hiLimbIdx := (bitPosition + bits - 1) / 64
    let bitMask : Word := ((1 : Word) <<< bits) - 1
    let lo := scalar loLimbIdx >>> (bitPosition % 64)
    if loLimbIdx = hiLimbIdx then lo &&& bitMask
    else (lo ||| (scalar hiLimbIdx <<< (64 - bitPosition % 64))) &&& bitMask

def predicate (slice : Word) : Word := ofBool (slice &&& 1 = 0)

def skewOf (scalar : ℕ → Word) : Bool := scalar 0 &&& 1 = 0

/-- The entry of a window, whose digit is `previous` or a whole window less. -/
def entry (previous pred pointIndex : Word) (wnafBits : ℕ) : Word :=
  (((previous - (pred <<< wnafBits)) ^^^ (0 - pred)) >>> 1 ||| (pred <<< 31)) ||| pointIndex

def roundLoop (slices : ℕ → Word) (pointIndex : Word) (wnafBits wnafEntries : ℕ)
    (address : ℕ → ℕ) : ℕ → ℕ → (ℕ → Word) × Word → (ℕ → Word) × Word
  | 0, _, s => s
  | n + 1, round, s =>
    let slice := slices round
    let pred := predicate slice
    roundLoop slices pointIndex wnafBits wnafEntries address n (round + 1)
      (Function.update s.1 (address (wnafEntries - round)) (entry s.2 pred pointIndex wnafBits),
        slice + pred)

/-- The rounds of all encoders.  The first window is in `previous`, and `address` is where the
entries lie. -/
def encode (slices : ℕ → Word) (lastSlice pointIndex : Word) (wnafBits wnafEntries : ℕ)
    (address : ℕ → ℕ) (wnaf : ℕ → Word) (previous : Word) : ℕ → Word :=
  let s := roundLoop slices pointIndex wnafBits wnafEntries address (wnafEntries - 2) 1
    (wnaf, previous)
  let pred := predicate lastSlice
  Function.update
    (Function.update s.1 (address 1) (entry s.2 pred pointIndex wnafBits))
    (address 0) (((lastSlice + pred) >>> 1) ||| pointIndex)

/-- `fixed_wnaf` and `fixed_wnaf_packed`, which put the entries at other places. -/
def fixedWnafAt (address : ℕ → ℕ) (scalar wnaf : ℕ → Word) (pointIndex : Word) (wnafBits : ℕ) :
    (ℕ → Word) × Bool :=
  let skew := skewOf scalar
  let previous := getWnafBits scalar wnafBits 0 + ofBool skew
  let wnafEntries := (scalarBits + wnafBits - 1) / wnafBits
  let finalBits := scalarBits - wnafBits * (wnafEntries - 1)
  (encode (fun round => getWnafBits scalar wnafBits (round * wnafBits))
    (getWnafBits scalar finalBits ((wnafEntries - 1) * wnafBits)) pointIndex wnafBits wnafEntries
    address wnaf previous, skew)

def fixedWnafPacked : (ℕ → Word) → (ℕ → Word) → Word → ℕ → (ℕ → Word) × Bool := fixedWnafAt id

def fixedWnaf (scalar wnaf : ℕ → Word) (pointIndex : Word) (numPoints wnafBits : ℕ) :
    (ℕ → Word) × Bool :=
  fixedWnafAt (· * numPoints) scalar wnaf pointIndex wnafBits

/-- The addresses of the templates: entries are a power of two apart, but for the second one. -/
def templateAddress (numPoints k : ℕ) : ℕ :=
  if k = 1 then numPoints else k <<< Nat.log2 (numPoints % 2 ^ 32)

def wnafRound (scalar wnaf : ℕ → Word) (pointIndex : Word) (numPoints wnafBits : ℕ) :
    (ℕ → Word) × Bool :=
  let skew := skewOf scalar
  let previous := getWnafBitsConst scalar wnafBits 0 + ofBool skew
  let wnafEntries := (scalarBits + wnafBits - 1) / wnafBits
  let finalBits := scalarBits - scalarBits / wnafBits * wnafBits
  (encode (fun round => getWnafBits scalar wnafBits (round * wnafBits))
    (getWnafBits scalar finalBits ((wnafEntries - 1) * wnafBits)) (pointIndex <<< 32) wnafBits
    wnafEntries (templateAddress numPoints) wnaf previous, skew)

def wnafRoundBits (scalar wnaf : ℕ → Word) (pointIndex : Word)
    (numBits numPoints wnafBits : ℕ) : (ℕ → Word) × Bool :=
  let skew := skewOf scalar
  let previous := getWnafBitsConst scalar wnafBits 0 + ofBool skew
  let wnafEntries := (numBits + wnafBits - 1) / wnafBits
  let finalBits :=
    if numBits / wnafBits * wnafBits = numBits then wnafBits
    else numBits - numBits / wnafBits * wnafBits
  (encode (fun round => getWnafBitsConst scalar wnafBits (round * wnafBits))
    (getWnafBitsConst scalar finalBits ((wnafEntries - 1) * wnafBits)) (pointIndex <<< 32) wnafBits
    wnafEntries (templateAddress numPoints) wnaf previous, skew)

def wnafRoundPacked (scalar wnaf : ℕ → Word) (pointIndex previous : Word) (wnafBits : ℕ) :
    ℕ → Word :=
  let wnafEntries := (scalarBits + wnafBits - 1) / wnafBits
  let finalBits := scalarBits - scalarBits / wnafBits * wnafBits
  encode (fun round => getWnafBits scalar wnafBits (round * wnafBits))
    (getWnafBits scalar finalBits ((wnafEntries - 1) * wnafBits)) pointIndex wnafBits wnafEntries
    id wnaf previous

def getNumScalarBits (scalar : ℕ → Word) : Word :=
  let msb1 := getMsb64 (scalar 1)
  let msb0 := getMsb64 (scalar 0)
  let scalar1Mask := 0 - ofBool (scalar 1 > 0)
  let scalar0Mask := (0 - ofBool (scalar 0 > 0)) &&& ~~~scalar1Mask
  (scalar1Mask &&& (msb1 + 64)) ||| (scalar0Mask &&& msb0)

def unusedEntry : Word := 0xffffffffffffffff

def fillUnused (wnaf : ℕ → Word) (addresses : List ℕ) : ℕ → Word :=
  addresses.foldl (fun wnaf a => Function.update wnaf a unusedEntry) wnaf

def increment (counts : ℕ → Word) (k : ℕ) : ℕ → Word := Function.update counts k (counts k + 1)

def fixedWnafWithCounts (scalar wnaf wnafRoundCounts : ℕ → Word) (pointIndex : Word)
    (numPoints wnafBits : ℕ) : (ℕ → Word) × Bool × (ℕ → Word) :=
  let maxWnafEntries := (scalarBits + wnafBits - 1) / wnafBits
  if scalar 0 ||| scalar 1 = 0 then
    (fillUnused wnaf ((List.range maxWnafEntries).map (· * numPoints)), false, wnafRoundCounts)
  else
    let currentScalarBits := (getNumScalarBits scalar + 1).toNat
    let skew := skewOf scalar
    let previous := getWnafBits scalar wnafBits 0 + ofBool skew
    let wnafEntries := (currentScalarBits + wnafBits - 1) / wnafBits
    let unused := (List.range' wnafEntries (maxWnafEntries - wnafEntries)).map
      fun j => (maxWnafEntries - 1 - j) * numPoints
    if wnafEntries = 1 then
      let wnaf := Function.update wnaf ((maxWnafEntries - 1) * numPoints)
        ((previous >>> 1) ||| pointIndex)
      (fillUnused wnaf unused, skew, increment wnafRoundCounts (maxWnafEntries - 1))
    else
      let finalBits := currentScalarBits - wnafBits * (wnafEntries - 1)
      let wnaf := encode (fun round => getWnafBits scalar wnafBits (round * wnafBits))
        (getWnafBits scalar finalBits ((wnafEntries - 1) * wnafBits)) pointIndex wnafBits
        wnafEntries (fun k => (maxWnafEntries - wnafEntries + k) * numPoints) wnaf previous
      let counts := (List.range' 1 (wnafEntries - 2)).foldl
        (fun counts round => increment counts (maxWnafEntries - round)) wnafRoundCounts
      let counts := increment counts (maxWnafEntries - wnafEntries + 1)
      let counts := increment counts (maxWnafEntries - wnafEntries)
      (fillUnused wnaf unused, skew, counts)

/-! ### What entries stand for -/

def digit (e : Word) : ℤ :=
  (if e &&& 0x80000000 = 0 then 1 else -1) * (2 * ((e &&& 0x7fffffff).toNat : ℤ) + 1)

def entryValue (e : Word) : ℤ := if e = unusedEntry then 0 else digit e

/-- The sum of the digits with the weights of their windows.  The last entry has the lowest one. -/
def decode (wnafBits entries : ℕ) (address : ℕ → ℕ) (wnaf : ℕ → Word) : ℤ :=
  ∑ position ∈ Finset.range entries,
    entryValue (wnaf (address (entries - 1 - position))) * 2 ^ (wnafBits * position)

def Represents (wnafBits entries : ℕ) (address : ℕ → ℕ) (r : (ℕ → Word) × Bool) (v : ℕ) : Prop :=
  decode wnafBits entries address r.1 - r.2.toNat = v ∧
    ∀ k < entries, r.1 (address k) ≠ unusedEntry → |digit (r.1 (address k))| < 2 ^ wnafBits

/-! ### Windows -/

def Limbs (n : ℕ) (scalar : ℕ → Word) (v : ℕ) : Prop :=
  ∀ i < n, (scalar i).toNat = v / 2 ^ (64 * i) % 2 ^ 64

variable {j bits : ℕ} {previous pred : Word}

theorem Limbs.testBit {n : ℕ} {scalar : ℕ → Word} {v : ℕ} (h : Limbs n scalar v) {i : ℕ}
    (hi : i < n) : (scalar i).getLsbD j = (decide (j < 64) && v.testBit (64 * i + j)) := by
  rw [← testBit_toNat, h i hi, Nat.testBit_mod_two_pow, Nat.testBit_div_two_pow, add_comm]

theorem getLsbD_mask (hbits : bits < 64) (j : ℕ) :
    (((1 : Word) <<< bits) - 1).getLsbD j = decide (j < bits) := by
  have hpow : 2 ^ bits < 2 ^ 64 := Nat.pow_lt_pow_right (by omega) hbits
  have hone : (1 : Word).toNat = 1 := rfl
  have hshift : ((1 : Word) <<< bits).toNat = 2 ^ bits := by
    rw [toNat_shiftLeft, shiftLeft_eq, hone, one_mul, mod_eq_of_lt hpow]
  have hle : (1 : Word) ≤ (1 : Word) <<< bits := by
    rw [BitVec.le_def, hshift, hone]
    exact Nat.one_le_two_pow
  rw [← testBit_toNat, BitVec.toNat_sub_of_le hle, hshift, hone, Nat.testBit_two_pow_sub_one]

theorem getLsbD_zero_sub_ofBool (b : Bool) (hj : j < 64) :
    ((0 : Word) - ofBool b).getLsbD j = b := by
  cases b with
  | false => simp [ofBool]
  | true =>
    rw [show (0 : Word) - ofBool true = allOnes 64 from rfl, BitVec.getLsbD_allOnes,
      decide_eq_true hj]

theorem getWnafBits_eq {n : ℕ} {scalar : ℕ → Word} {v : ℕ} (h : Limbs n scalar v) (hpos : 0 < bits)
    (hbits : bits < 64) {bitPosition : ℕ} (hfit : bitPosition + bits ≤ 64 * n) :
    (getWnafBits scalar bits bitPosition).toNat = v / 2 ^ bitPosition % 2 ^ bits := by
  refine Nat.eq_of_testBit_eq fun j => ?_
  rw [Nat.testBit_mod_two_pow, Nat.testBit_div_two_pow, testBit_toNat, getWnafBits]
  rw [BitVec.getLsbD_or, getLsbD_and, getLsbD_and, getLsbD_and,
    getLsbD_mask hbits, BitVec.getLsbD_ushiftRight, BitVec.getLsbD_shiftLeft,
    h.testBit (show bitPosition / 64 < n by omega),
    h.testBit (show (bitPosition + bits - 1) / 64 < n by omega)]
  by_cases hj : j < bits
  · rw [decide_eq_true hj, Bool.and_true, Bool.true_and, Bool.true_and]
    by_cases hlow : bitPosition % 64 + j < 64
    · -- the bit is in the lower limb
      rw [decide_eq_true hlow, Bool.true_and,
        show 64 * (bitPosition / 64) + (bitPosition % 64 + j) = j + bitPosition by omega,
        getLsbD_zero_sub_ofBool _ (by omega)]
      by_cases hlimb : bitPosition / 64 = (bitPosition + bits - 1) / 64
      · simp [hlimb]
      · have hshift : j < if bitPosition ≠ 0 then 64 - bitPosition % 64 else 0 := by
          split <;> omega
        rw [decide_eq_true hshift]
        simp
    · have hne : bitPosition / 64 ≠ (bitPosition + bits - 1) / 64 := by omega
      rw [decide_eq_false hlow, Bool.false_and, Bool.false_or,
        getLsbD_zero_sub_ofBool _ (by omega), if_pos (by omega), decide_eq_true hne,
        decide_eq_true (show j < 64 by omega), decide_eq_false (by omega),
        decide_eq_true (by omega),
        show 64 * ((bitPosition + bits - 1) / 64) + (j - (64 - bitPosition % 64)) =
          j + bitPosition by omega]
      simp
  · rw [decide_eq_false hj, Bool.and_false, Bool.false_and, Bool.and_false, Bool.false_or,
      Bool.false_and]

theorem getWnafBitsConst_eq (scalar : ℕ → Word) (hpos : 0 < bits) (hbits : bits < 64)
    (bitPosition : ℕ) :
    getWnafBitsConst scalar bits bitPosition = getWnafBits scalar bits bitPosition := by
  rw [getWnafBitsConst, getWnafBits, if_neg (by omega)]
  dsimp only
  by_cases hlimb : bitPosition / 64 = (bitPosition + bits - 1) / 64
  · rw [if_pos hlimb, decide_eq_false (not_not.2 hlimb)]
    simp [ofBool]
  · rw [if_neg hlimb, if_pos (by omega), decide_eq_true hlimb]
    refine BitVec.eq_of_getLsbD_eq fun j hj => ?_
    simp only [BitVec.getLsbD_or, getLsbD_and, getLsbD_zero_sub_ofBool _ hj, Bool.and_true,
      Bool.and_or_distrib_right]

/-! ### Digits of entries -/

theorem toNat_parts {x s p : Word} (hx : x.toNat < 2 ^ 31) (hs : s.toNat ≤ 1)
    (hp : p.toNat % 2 ^ 32 = 0) :
    ((x ||| (s <<< 31)) ||| p).toNat = x.toNat + 2 ^ 31 * s.toNat + p.toNat := by
  have hshift : (s <<< 31).toNat = 2 ^ 31 * s.toNat := by
    rw [toNat_shiftLeft, shiftLeft_eq, mul_comm, mod_eq_of_lt (by omega)]
  have hlow : (x ||| (s <<< 31)).toNat = 2 ^ 31 * s.toNat + x.toNat := by
    rw [toNat_or, hshift, Nat.or_comm, ← Nat.two_pow_add_eq_or_of_lt hx]
  obtain ⟨q, hq⟩ := Nat.dvd_of_mod_eq_zero hp
  rw [toNat_or, hlow, hq, Nat.or_comm, ← Nat.two_pow_add_eq_or_of_lt (by omega)]
  omega

theorem digit_parts {e : Word} {x s q : ℕ} (he : e.toNat = x + 2 ^ 31 * s + 2 ^ 32 * q)
    (hx : x < 2 ^ 31) (hs : s ≤ 1) : digit e = if s = 0 then 2 * (x : ℤ) + 1 else -(2 * x + 1) := by
  have hvalue : (e &&& 0x7fffffff).toNat = x := by
    rw [toNat_and, show (0x7fffffff : Word).toNat = 2 ^ 31 - 1 from rfl,
      Nat.and_two_pow_sub_one_eq_mod]
    omega
  have hsign : e &&& 0x80000000 = 0 ↔ s = 0 := by
    have hbit : (e.toNat.testBit 31).toNat = s := by
      rw [Nat.toNat_testBit]
      omega
    rw [← toNat_inj, toNat_and, show (0x80000000 : Word).toNat = 2 ^ 31 from rfl,
      Nat.and_two_pow, hbit, show (0 : Word).toNat = 0 from rfl]
    omega
  rw [digit, hvalue]
  simp only [hsign]
  split
  · rw [one_mul]
  · rw [neg_one_mul]

theorem toNat_predicate (slice : Word) :
    (predicate slice).toNat = if slice.toNat % 2 = 0 then 1 else 0 := by
  have hbit : slice &&& 1 = 0 ↔ slice.toNat % 2 = 0 := by
    rw [← toNat_inj, toNat_and, show (1 : Word).toNat = 1 from rfl, Nat.and_one_is_mod]
    rfl
  rw [predicate, toNat_ofBool]
  simp only [hbit, decide_eq_true_eq]

theorem toNat_predicate_le (slice : Word) : (predicate slice).toNat ≤ 1 := by
  rw [toNat_predicate]
  split <;> omega

variable {pointIndex : Word}

variable {w : ℕ}

section

variable (hw : 0 < w) (hw32 : w ≤ 32) (hprevious : previous.toNat < 2 ^ w)
  (hodd : previous.toNat % 2 = 1) (hpred : pred.toNat ≤ 1) (hpoint : pointIndex.toNat % 2 ^ 32 = 0)
include hw hw32 hprevious hodd hpred hpoint

theorem entry_parts : ∃ x < 2 ^ (w - 1), (entry previous pred pointIndex w).toNat =
        x + 2 ^ 31 * pred.toNat + pointIndex.toNat ∧
      2 * x + 1 = if pred.toNat = 0 then previous.toNat else 2 ^ w - previous.toNat := by
  have hhalf : 2 ^ w = 2 * 2 ^ (w - 1) := by
    rw [← pow_succ', sub_add_cancel hw]
  have htop : 2 ^ (w - 1) ≤ 2 ^ 31 := pow_le_pow_right (by omega) (by omega)
  have hshift : ((1 : Word) <<< w).toNat = 2 ^ w := by
    rw [toNat_shiftLeft, shiftLeft_eq, show (1 : Word).toNat = 1 from rfl, one_mul,
      mod_eq_of_lt (by omega)]
  obtain rfl | rfl : pred = 0 ∨ pred = 1 := by
    obtain h | h : pred.toNat = 0 ∨ pred.toNat = 1 := by omega
    · exact .inl (BitVec.eq_of_toNat_eq h)
    · exact .inr (BitVec.eq_of_toNat_eq h)
  · -- the window is odd, and the digit positive
    have hvalue : (((previous - ((0 : Word) <<< w)) ^^^ (0 - 0)) >>> 1).toNat =
        previous.toNat / 2 := by
      simp [Nat.shiftRight_eq_div_pow]
    refine ⟨previous.toNat / 2, by omega, ?_, ?_⟩
    · rw [entry, toNat_parts (by omega) hpred hpoint, hvalue]
    · rw [if_pos (show (0 : Word).toNat = 0 from rfl)]
      omega
  · have hneg : ((previous - ((1 : Word) <<< w)) ^^^ (0 - 1)).toNat =
        2 ^ w - 1 - previous.toNat := by
      rw [show (0 : Word) - 1 = allOnes 64 from rfl, BitVec.xor_allOnes, BitVec.toNat_not,
        BitVec.toNat_sub, hshift]
      omega
    have hvalue : (((previous - ((1 : Word) <<< w)) ^^^ (0 - 1)) >>> 1).toNat =
        (2 ^ w - 1 - previous.toNat) / 2 := by
      rw [BitVec.toNat_ushiftRight, Nat.shiftRight_eq_div_pow, hneg, pow_one]
    refine ⟨(2 ^ w - 1 - previous.toNat) / 2, by omega, ?_, ?_⟩
    · rw [entry, toNat_parts (by omega) hpred hpoint, hvalue]
    · rw [if_neg (by decide)]
      omega

theorem digit_entry : digit (entry previous pred pointIndex w) =
      (previous.toNat : ℤ) - pred.toNat * 2 ^ w := by
  obtain ⟨x, hx, hparts, hvalue⟩ := entry_parts hw hw32 hprevious hodd hpred hpoint
  have htop : 2 ^ (w - 1) ≤ 2 ^ 31 := pow_le_pow_right (by omega) (by omega)
  obtain ⟨q, hq⟩ := Nat.dvd_of_mod_eq_zero hpoint
  rw [hq] at hparts
  rw [digit_parts hparts (by omega) hpred]
  obtain h | h : pred.toNat = 0 ∨ pred.toNat = 1 := by omega
  · rw [if_pos h] at hvalue ⊢
    rw [h, ← hvalue]
    push_cast
    ring
  · rw [if_neg (by omega)] at hvalue ⊢
    rw [h, Nat.cast_one, one_mul]
    have hcast : (2 * x + 1 : ℤ) = 2 ^ w - previous.toNat := by
      zify [hprevious.le] at hvalue
      exact hvalue
    linarith

theorem entry_ne_unused (hmark : w < 32 ∨ pointIndex ≠ unusedEntry <<< 32) :
    entry previous pred pointIndex w ≠ unusedEntry := by
  intro h
  obtain ⟨x, hx, hparts, -⟩ := entry_parts hw hw32 hprevious hodd hpred hpoint
  have htop : 2 ^ (w - 1) ≤ 2 ^ 31 := pow_le_pow_right (by omega) (by omega)
  rw [h, show unusedEntry.toNat = 2 ^ 64 - 1 from rfl] at hparts
  obtain hsmall | hne := hmark
  · have hlow : 2 ^ (w - 1) ≤ 2 ^ 30 := pow_le_pow_right (by omega) (by omega)
    omega
  · refine hne (BitVec.eq_of_toNat_eq ?_)
    rw [show (unusedEntry <<< 32).toNat = 2 ^ 64 - 2 ^ 32 from rfl]
    omega

end

/-! ### The rounds -/

section Rounds

variable {slices : ℕ → Word} {pointIndex : Word} {w e : ℕ} {address : ℕ → ℕ}

/-- What a round hands to the next one: its window, made odd. -/
def carry (slices : ℕ → Word) (previous : Word) (i : ℕ) : Word :=
  if i = 0 then previous else slices i + predicate (slices i)

theorem roundLoop_spec (pointIndex : Word) (w : ℕ)
    (haddress : ∀ i < e, ∀ j < e, address i = address j → i = j) (previous : Word) (n round : ℕ)
    (hround : 0 < round) (hn : round + n < e)
    (s : (ℕ → Word) × Word) (hs : s.2 = carry slices previous (round - 1)) :
    (∀ i, round ≤ i → i < round + n →
      (roundLoop slices pointIndex w e address n round s).1 (address (e - i)) =
        entry (carry slices previous (i - 1)) (predicate (slices i)) pointIndex w) ∧
    (∀ a, (∀ i, round ≤ i → i < round + n → a ≠ address (e - i)) →
      (roundLoop slices pointIndex w e address n round s).1 a = s.1 a) ∧
    (roundLoop slices pointIndex w e address n round s).2 =
      carry slices previous (round + n - 1) := by
  induction n generalizing round s with
  | zero =>
    exact ⟨fun i hle hlt => absurd hle (by omega), fun a _ => rfl, hs⟩
  | succ n ih =>
    have hcarry : slices round + predicate (slices round) =
        carry slices previous (round + 1 - 1) := by
      rw [carry, add_sub_cancel, if_neg (by omega)]
    obtain ⟨hwrites, hframe, hlast⟩ := ih (round + 1) (by omega) (by omega)
      (update s.1 (address (e - round)) (entry s.2 (predicate (slices round)) pointIndex w),
        slices round + predicate (slices round)) hcarry
    rw [roundLoop]
    refine ⟨fun i hle hlt => ?_, fun a ha => ?_, ?_⟩
    · obtain rfl | hne := eq_or_ne i round
      · -- the entry of this round stays through the later ones
        have hother : ∀ j, i + 1 ≤ j → j < i + 1 + n → address (e - i) ≠ address (e - j) := by
          intro j hj hj' h
          have := haddress _ (by omega) _ (by omega) h
          omega
        rw [hframe _ hother, hs]
        exact update_self _ _ _
      · exact hwrites i (by omega) (by omega)
    · rw [hframe a fun i hi hi' => ha i (by omega) (by omega)]
      exact update_of_ne (ha round (le_refl _) (by omega)) _ _
    · rw [hlast]
      congr 1
      omega

def windows (slices : ℕ → Word) (lastSlice : Word) (e i : ℕ) : Word :=
  if i + 1 = e then lastSlice else slices i

theorem encode_writes (slices : ℕ → Word) (pointIndex : Word) (w : ℕ) (he : 2 ≤ e)
    (haddress : ∀ i < e, ∀ j < e, address i = address j → i = j)
    (lastSlice previous : Word) (wnaf : ℕ → Word) : (∀ i, 0 < i → i < e →
      encode slices lastSlice pointIndex w e address wnaf previous (address (e - i)) =
        entry (carry slices previous (i - 1)) (predicate (windows slices lastSlice e i))
          pointIndex w) ∧ encode slices lastSlice pointIndex w e address wnaf previous (address 0) =
      ((lastSlice + predicate lastSlice) >>> 1) ||| pointIndex ∧ (∀ a, (∀ i < e, a ≠ address i) →
      encode slices lastSlice pointIndex w e address wnaf previous a = wnaf a) := by
  obtain ⟨hwrites, hframe, hlast⟩ := roundLoop_spec pointIndex w haddress previous (e - 2)
    1 Nat.one_pos (by omega) (wnaf, previous) (show previous = carry slices previous 0 by
      rw [carry, if_pos rfl])
  have hzero : ∀ i, 0 < i → i < e → address i ≠ address 0 := fun i hi hie h =>
    absurd (haddress i hie 0 (by omega) h) (by omega)
  refine ⟨fun i hi hie => ?_, ?_, fun a ha => ?_⟩
  · rw [encode, update_of_ne (hzero _ (by omega) (by omega))]
    by_cases hend : i + 1 = e
    · rw [show e - i = 1 by omega, update_self, hlast, windows, if_pos hend,
        show 1 + (e - 2) - 1 = i - 1 by omega]
    · have hne : address (e - i) ≠ address 1 := fun h =>
        absurd (haddress _ (by omega) 1 (by omega) h) (by omega)
      rw [update_of_ne hne, hwrites i hi (by omega), windows, if_neg hend]
  · rw [encode, update_self]
  · rw [encode, update_of_ne (ha 0 (by omega)), update_of_ne (ha 1 (by omega)),
      hframe a fun i _ _ => ha (e - i) (by omega)]

theorem toNat_add_predicate (hw : 0 < w) (hw32 : w ≤ 32) {slice : Word} (h : slice.toNat < 2 ^ w) :
    (slice + predicate slice).toNat = slice.toNat + (predicate slice).toNat ∧
      (slice.toNat + (predicate slice).toNat) % 2 = 1 ∧
      slice.toNat + (predicate slice).toNat < 2 ^ w := by
  have hhalf : 2 ^ w = 2 * 2 ^ (w - 1) := by
    rw [← pow_succ', sub_add_cancel hw]
  have htop : 2 ^ (w - 1) ≤ 2 ^ 31 := pow_le_pow_right (by omega) (by omega)
  rw [toNat_add, toNat_predicate]
  split <;> omega

theorem sum_borrows (c q : ℕ → ℤ) (n : ℕ) :
    ∑ i ∈ Finset.range n, (c i + q i - q (i + 1) * 2 ^ w) * 2 ^ (w * i) =
      ∑ i ∈ Finset.range n, c i * 2 ^ (w * i) + q 0 - q n * 2 ^ (w * n) := by
  induction n with
  | zero => simp
  | succ n ih =>
    rw [Finset.sum_range_succ, Finset.sum_range_succ, ih, show w * (n + 1) = w * n + w by ring,
      pow_add]
    ring

theorem sum_windows (v n : ℕ) :
    ∑ i ∈ Finset.range n, v / 2 ^ (w * i) % 2 ^ w * 2 ^ (w * i) = v % 2 ^ (w * n) := by
  induction n with
  | zero => rw [Finset.range_zero, Finset.sum_empty, mul_zero, pow_zero, Nat.mod_one]
  | succ n ih =>
    rw [Finset.sum_range_succ, ih, show w * (n + 1) = w * n + w by ring, pow_add, Nat.mod_mul,
      mul_comm (2 ^ (w * n))]

def borrows (slices : ℕ → Word) (lastSlice : Word) (skew : Bool) (e i : ℕ) : ℕ :=
  if i = 0 then skew.toNat
  else if i < e then (predicate (windows slices lastSlice e i)).toNat else 0

variable {skew : Bool} {lastSlice previous : Word}

theorem skew_bounds (hw : 0 < w) {v : ℕ} (hskew : skew = decide (v % 2 = 0)) :
    (v % 2 ^ w + skew.toNat) % 2 = 1 ∧ v % 2 ^ w + skew.toNat < 2 ^ w := by
  have hhalf : 2 ^ w = 2 * 2 ^ (w - 1) := by
    rw [← pow_succ', sub_add_cancel hw]
  have hparity : v % 2 ^ w % 2 = v % 2 := Nat.mod_mod_of_dvd v ⟨_, hhalf⟩
  subst hskew
  by_cases h : v % 2 = 0
  · rw [decide_eq_true h, Bool.toNat_true]
    omega
  · rw [decide_eq_false h, Bool.toNat_false]
    omega

theorem entry_zero (x pointIndex : Word) (w : ℕ) :
    entry x 0 pointIndex w = (x >>> 1) ||| pointIndex := by
  simp [entry]

section

variable (hw : 0 < w) (hw32 : w ≤ 32) (he : 2 ≤ e)
  (haddress : ∀ i < e, ∀ j < e, address i = address j → i = j)
  (hpoint : pointIndex.toNat % 2 ^ 32 = 0) (hmark : w < 32 ∨ pointIndex ≠ unusedEntry <<< 32)
  {v : ℕ}
include hw hw32 he haddress hpoint hmark

theorem encode_digits (hskew : skew = decide (v % 2 = 0))
    (hprevious : previous.toNat = v % 2 ^ w + skew.toNat)
    (hwindows : ∀ i, 0 < i → i < e → (windows slices lastSlice e i).toNat = v / 2 ^ (w * i) % 2 ^ w)
    (wnaf : ℕ → Word) {i : ℕ} (hi : i < e) :
    encode slices lastSlice pointIndex w e address wnaf previous (address (e - 1 - i)) ≠
        unusedEntry ∧
      digit (encode slices lastSlice pointIndex w e address wnaf previous (address (e - 1 - i))) =
        (v / 2 ^ (w * i) % 2 ^ w : ℕ) + borrows slices lastSlice skew e i -
          borrows slices lastSlice skew e (i + 1) * 2 ^ w ∧
      |digit (encode slices lastSlice pointIndex w e address wnaf previous
        (address (e - 1 - i)))| < 2 ^ w := by
  obtain ⟨hwrites, hfirst, -⟩ := encode_writes slices pointIndex w he haddress lastSlice previous
    wnaf
  -- the window with its borrow is odd
  obtain ⟨x, hx, hodd, hlt, hentry⟩ : ∃ x : Word,
      x.toNat = v / 2 ^ (w * i) % 2 ^ w + borrows slices lastSlice skew e i ∧ x.toNat % 2 = 1 ∧
      x.toNat < 2 ^ w ∧ ∃ pred : Word, pred.toNat ≤ 1 ∧
        pred.toNat = borrows slices lastSlice skew e (i + 1) ∧
        encode slices lastSlice pointIndex w e address wnaf previous (address (e - 1 - i)) =
          entry x pred pointIndex w := by
    have hborrow : ∀ j, 0 < j → j < e → borrows slices lastSlice skew e j =
        (predicate (windows slices lastSlice e j)).toNat := fun j hj hje => by
      rw [borrows, if_neg (by omega), if_pos hje]
    have hwrite : ∀ j, 0 < j → j < e →
        encode slices lastSlice pointIndex w e address wnaf previous (address (e - j)) =
          entry (carry slices previous (j - 1)) (predicate (windows slices lastSlice e j))
            pointIndex w := hwrites
    obtain rfl | hpos := Nat.eq_zero_or_pos i
    · obtain ⟨hodd, hlt⟩ := skew_bounds (w := w) hw hskew
      refine ⟨previous, ?_, hprevious ▸ hodd, hprevious ▸ hlt, _, toNat_predicate_le _,
        (hborrow 1 Nat.one_pos (by omega)).symm, hwrite 1 Nat.one_pos (by omega)⟩
      rw [hprevious, mul_zero, pow_zero, div_one, borrows, if_pos rfl]
    have hwindow := hwindows i hpos hi
    have hbound : (windows slices lastSlice e i).toNat < 2 ^ w :=
      hwindow ▸ Nat.mod_lt _ (Nat.two_pow_pos w)
    obtain ⟨hadd, hodd, hlt⟩ := toNat_add_predicate hw hw32 hbound
    refine ⟨windows slices lastSlice e i + predicate (windows slices lastSlice e i), ?_,
      hadd ▸ hodd, hadd ▸ hlt, ?_⟩
    · rw [hadd, hwindow, hborrow i hpos hi]
    by_cases hend : i + 1 = e
    · refine ⟨0, Nat.zero_le 1, ?_, ?_⟩
      · rw [borrows, if_neg (by omega), if_neg (by omega)]
        rfl
      · rw [show e - 1 - i = 0 by omega, hfirst, windows, if_pos hend, entry_zero]
    · refine ⟨_, toNat_predicate_le _, (hborrow (i + 1) (by omega) (by omega)).symm, ?_⟩
      rw [show e - 1 - i = e - (i + 1) by omega, hwrite (i + 1) (by omega) (by omega),
        add_sub_cancel, carry, if_neg (by omega)]
      congr 2 <;> rw [windows, if_neg hend]
  obtain ⟨pred, hpred, hborrow, hentry⟩ := hentry
  have hdigit := digit_entry hw hw32 hlt hodd hpred hpoint
  rw [hentry]
  refine ⟨entry_ne_unused hw hw32 hlt hodd hpred hpoint hmark, ?_, ?_⟩
  · rw [hdigit, hx, hborrow]
    push_cast
    ring
  · have hlt' : (x.toNat : ℤ) < 2 ^ w := by exact_mod_cast hlt
    have hpos : (0 : ℤ) < x.toNat := by omega
    rw [hdigit, abs_lt]
    obtain h | h : pred.toNat = 0 ∨ pred.toNat = 1 := by omega
    · rw [h]
      constructor <;> push_cast <;> linarith
    · rw [h]
      constructor <;> push_cast <;> linarith

theorem encode_represents (hv : v < 2 ^ (w * e)) (hskew : skew = decide (v % 2 = 0))
    (hprevious : previous.toNat = v % 2 ^ w + skew.toNat)
    (hwindows : ∀ i, 0 < i → i < e → (windows slices lastSlice e i).toNat = v / 2 ^ (w * i) % 2 ^ w)
    (wnaf : ℕ → Word) : Represents w e address
      (encode slices lastSlice pointIndex w e address wnaf previous, skew) v ∧
    ∀ k < e, encode slices lastSlice pointIndex w e address wnaf previous (address k) ≠
      unusedEntry := by
  have hdigits := fun i (hi : i < e) => encode_digits hw hw32 he haddress hpoint hmark hskew
    hprevious hwindows wnaf hi
  refine ⟨⟨?_, fun k hk _ => ?_⟩, fun k hk => ?_⟩
  · have hsum : decode w e address (encode slices lastSlice pointIndex w e address wnaf previous) =
        ∑ i ∈ Finset.range e, (((v / 2 ^ (w * i) % 2 ^ w : ℕ) : ℤ) +
          borrows slices lastSlice skew e i - borrows slices lastSlice skew e (i + 1) * 2 ^ w) *
            2 ^ (w * i) := by
      refine Finset.sum_congr rfl fun i hi => ?_
      obtain ⟨hne, hdigit, -⟩ := hdigits i (Finset.mem_range.1 hi)
      rw [entryValue, if_neg hne, hdigit]
    have hlow := sum_windows (w := w) v e
    rw [mod_eq_of_lt hv] at hlow
    rw [hsum, sum_borrows (fun i => ((v / 2 ^ (w * i) % 2 ^ w : ℕ) : ℤ))
      (fun i => (borrows slices lastSlice skew e i : ℤ))]
    have hfirst : borrows slices lastSlice skew e 0 = skew.toNat := by rw [borrows, if_pos rfl]
    have hlast : borrows slices lastSlice skew e e = 0 := by
      rw [borrows, if_neg (by omega), if_neg (lt_irrefl e)]
    rw [hfirst, hlast]
    have hcast : ∑ i ∈ Finset.range e, ((v / 2 ^ (w * i) % 2 ^ w : ℕ) : ℤ) * 2 ^ (w * i) = v := by
      exact_mod_cast hlow
    rw [hcast]
    push_cast
    ring
  · have := (hdigits (e - 1 - k) (by omega)).2.2
    rwa [show e - 1 - (e - 1 - k) = k by omega] at this
  · have := (hdigits (e - 1 - k) (by omega)).1
    rwa [show e - 1 - (e - 1 - k) = k by omega] at this

end

end Rounds

/-! ### The encoders represent the scalar -/

section Encoders

variable {n : ℕ} {scalar : ℕ → Word} {v : ℕ}

theorem skewOf_eq (h : Limbs n scalar v) (hn : 0 < n) : skewOf scalar = decide (v % 2 = 0) := by
  have hlimb := h 0 hn
  rw [mul_zero, pow_zero, div_one] at hlimb
  have hbit : scalar 0 &&& 1 = 0 ↔ v % 2 = 0 := by
    rw [← toNat_inj, toNat_and, show (1 : Word).toNat = 1 from rfl,
      Nat.and_one_is_mod, hlimb, Nat.mod_mod_of_dvd v (by norm_num : 2 ∣ 2 ^ 64)]
    rfl
  rw [skewOf]
  simp only [hbit]

theorem toNat_previous (h : Limbs n scalar v) (hw : 0 < w) (hw32 : w ≤ 32) (hn : 0 < n) :
    (getWnafBits scalar w 0 + ofBool (skewOf scalar)).toNat =
      v % 2 ^ w + (skewOf scalar).toNat := by
  have hwindow := getWnafBits_eq h hw (by omega) (show 0 + w ≤ 64 * n by omega)
  have hlt := (skew_bounds (w := w) hw (skewOf_eq h hn)).2
  have htop : 2 ^ w ≤ 2 ^ 32 := pow_le_pow_right (by omega) hw32
  have hbool : (ofBool (skewOf scalar)).toNat = (skewOf scalar).toNat := by
    cases skewOf scalar <;> rfl
  rw [pow_zero, div_one] at hwindow
  rw [toNat_add, hwindow, hbool, mod_eq_of_lt (by omega)]

theorem entries_bounds (hw : 0 < w) (b : ℕ) (hb : 0 < b) :
    ∃ k, (b + w - 1) / w = k + 1 ∧ w * k < b ∧ b ≤ w * k + w := by
  have hdiv := Nat.div_add_mod (b + w - 1) w
  have hmod := Nat.mod_lt (b + w - 1) hw
  obtain hzero | ⟨k, hk⟩ : (b + w - 1) / w = 0 ∨ ∃ k, (b + w - 1) / w = k + 1 := by
    cases (b + w - 1) / w with
    | zero => exact .inl rfl
    | succ k => exact .inr ⟨k, rfl⟩
  · rw [hzero, mul_zero] at hdiv
    omega
  · rw [hk, mul_succ] at hdiv
    exact ⟨k, hk, by omega, by omega⟩

variable {b numPoints : ℕ} {p : Word} {e : ℕ}

theorem encode_scalar (h : Limbs n scalar v) (hv : v < 2 ^ b) (hn : b ≤ 64 * n) (hw : 0 < w)
    (hw32 : w ≤ 32) (hb : w < b) (he : e = (b + w - 1) / w) {finalBits : ℕ}
    (hfinal : finalBits = b - w * (e - 1)) {address : ℕ → ℕ}
    (haddress : ∀ i < e, ∀ j < e, address i = address j → i = j)
    (hpoint : pointIndex.toNat % 2 ^ 32 = 0) (hmark : w < 32 ∨ pointIndex ≠ unusedEntry <<< 32)
    (wnaf : ℕ → Word) : Represents w e address
      (encode (fun round => getWnafBits scalar w (round * w))
        (getWnafBits scalar finalBits ((e - 1) * w)) pointIndex w e address wnaf
        (getWnafBits scalar w 0 + ofBool (skewOf scalar)), skewOf scalar) v ∧
    ∀ k < e, encode (fun round => getWnafBits scalar w (round * w))
      (getWnafBits scalar finalBits ((e - 1) * w)) pointIndex w e address wnaf
      (getWnafBits scalar w 0 + ofBool (skewOf scalar)) (address k) ≠ unusedEntry := by
  obtain ⟨k, hk, hlow, hhigh⟩ := entries_bounds hw b (by omega)
  rw [hk] at he
  subst he
  rw [add_sub_cancel] at hfinal ⊢
  have hkpos : 0 < k := Nat.pos_of_ne_zero fun hzero => by
    rw [hzero, mul_zero] at hhigh
    omega
  have hvk : v < 2 ^ (w * (k + 1)) :=
    hv.trans_le (pow_le_pow_right (by omega) (by rw [mul_succ]; exact hhigh))
  refine encode_represents hw hw32 (by omega) haddress hpoint hmark hvk (skewOf_eq h (by omega))
    (toNat_previous h hw hw32 (by omega)) (fun i hi hie => ?_) wnaf
  rw [windows]
  split
  · -- the last window holds all bits that are left
    rename_i hend
    obtain rfl : i = k := by omega
    have htop : v / 2 ^ (w * i) < 2 ^ finalBits := by
      rw [Nat.div_lt_iff_lt_mul (Nat.two_pow_pos _), ← pow_add]
      exact hv.trans_le (pow_le_pow_right (by omega) (by omega))
    rw [getWnafBits_eq h (by omega) (by omega) (by rw [mul_comm]; omega), mul_comm i,
      mod_eq_of_lt htop, mod_eq_of_lt]
    exact htop.trans_le (pow_le_pow_right (by omega) (by omega))
  · have hstep : w * (i + 1) ≤ w * k := Nat.mul_le_mul_left w (by omega)
    rw [mul_succ] at hstep
    rw [getWnafBits_eq h hw (by omega) (by rw [mul_comm]; omega), mul_comm i]

theorem final_bits_eq (hw : 0 < w) (hb : 0 < b) (hdvd : b / w * w ≠ b) :
    b - b / w * w = b - w * ((b + w - 1) / w - 1) := by
  obtain ⟨k, hk, hlow, hhigh⟩ := entries_bounds hw b hb
  have hquot : b / w = k := by
    refine Nat.div_eq_of_lt_le (by rw [mul_comm]; exact hlow.le) ?_
    rw [mul_comm, mul_succ]
    refine lt_of_le_of_ne hhigh fun heq => hdvd ?_
    have hsucc : b / w = k + 1 := by
      rw [heq, ← mul_succ, Nat.mul_div_cancel_left _ hw]
    rw [hsucc, mul_comm, mul_succ, ← heq]
  rw [hk, hquot, add_sub_cancel, mul_comm]

theorem scalarBits_ne (hw : 2 ≤ w) (hw32 : w ≤ 32) : scalarBits / w * w ≠ scalarBits := by
  intro h
  have hprime : Nat.Prime 127 := by norm_num
  have hdvd : w ∣ 127 := ⟨127 / w, by rw [mul_comm]; exact h.symm⟩
  obtain hone | hself := hprime.eq_one_or_self_of_dvd w hdvd
  · omega
  · omega

theorem id_injective : ∀ i < e, ∀ j < e, id i = id j → i = j := fun _ _ _ _ h => h

theorem mul_injective (hpoints : 0 < numPoints) :
    ∀ i < e, ∀ j < e, i * numPoints = j * numPoints → i = j :=
  fun _ _ _ _ h => Nat.eq_of_mul_eq_mul_right hpoints h

theorem templateAddress_injective (hpoints : 0 < numPoints) (hfit : numPoints < 2 ^ 32) :
    ∀ i < e, ∀ j < e, templateAddress numPoints i = templateAddress numPoints j → i = j := by
  have hhigh : numPoints < 2 ^ (log2 numPoints + 1) := Nat.lt_log2_self
  have hpos := Nat.two_pow_pos (log2 numPoints)
  -- no other entry lies where the second one does
  have hother : ∀ k, k ≠ 1 → k * 2 ^ log2 numPoints ≠ numPoints := by
    intro k hk h
    obtain rfl | htwo : k = 0 ∨ 2 ≤ k := by omega
    · omega
    · have := Nat.mul_le_mul_right (2 ^ log2 numPoints) htwo
      omega
  intro i _ j _ h
  rw [templateAddress, templateAddress, mod_eq_of_lt hfit, shiftLeft_eq, shiftLeft_eq] at h
  by_cases hi : i = 1 <;> by_cases hj : j = 1
  · rw [hi, hj]
  · rw [if_pos hi, if_neg hj] at h
    exact absurd h.symm (hother j hj)
  · rw [if_neg hi, if_pos hj] at h
    exact absurd h (hother i hi)
  · rw [if_neg hi, if_neg hj] at h
    exact Nat.eq_of_mul_eq_mul_right hpos h

theorem toNat_point (p : Word) : (p <<< 32).toNat % 2 ^ 32 = 0 := by
  rw [toNat_shiftLeft, shiftLeft_eq]
  omega

def wnafEntries (w : ℕ) : ℕ := (scalarBits + w - 1) / w

section

variable (h : Limbs n scalar v)
include h

section

variable (hn : 2 ≤ n) (hv : v < 2 ^ 127) (hw : 2 ≤ w) (hw32 : w ≤ 32)
include hn hv hw hw32

section

variable (hpoint : pointIndex.toNat % 2 ^ 32 = 0) (hmark : w < 32 ∨ pointIndex ≠ unusedEntry <<< 32)
include hpoint hmark

theorem fixedWnafAt_represents {address : ℕ → ℕ} (haddress : ∀ i < wnafEntries w,
    ∀ j < wnafEntries w, address i = address j → i = j) (wnaf : ℕ → Word) :
    Represents w (wnafEntries w) address (fixedWnafAt address scalar wnaf pointIndex w) v :=
  (encode_scalar h (b := scalarBits) hv (by rw [scalarBits]; omega) (by omega) hw32
    (by rw [scalarBits]; omega) rfl rfl haddress hpoint hmark wnaf).1

end

theorem wnafRound_represents (hmark : w < 32 ∨ p <<< 32 ≠ unusedEntry <<< 32) (hpoints : 0 < numPoints)
    (hfit : numPoints < 2 ^ 32) (wnaf : ℕ → Word) :
    Represents w (wnafEntries w) (templateAddress numPoints)
      (wnafRound scalar wnaf p numPoints w) v := by
  rw [wnafRound, getWnafBitsConst_eq scalar (by omega) (by omega)]
  exact (encode_scalar h (b := scalarBits) hv (by rw [scalarBits]; omega) (by omega) hw32
    (by rw [scalarBits]; omega) rfl
    (final_bits_eq (by omega) (by rw [scalarBits]; omega) (scalarBits_ne hw hw32))
    (templateAddress_injective hpoints hfit) (toNat_point p) hmark wnaf).1

theorem wnafRoundPacked_represents (hpoint : pointIndex.toNat % 2 ^ 32 = 0)
    (hmark : w < 32 ∨ pointIndex ≠ unusedEntry <<< 32) (wnaf : ℕ → Word) :
    Represents w (wnafEntries w) id (wnafRoundPacked scalar wnaf pointIndex
        (getWnafBits scalar w 0 + ofBool (skewOf scalar)) w, skewOf scalar) v := by
  rw [wnafRoundPacked]
  exact (encode_scalar h (b := scalarBits) hv (by rw [scalarBits]; omega) (by omega) hw32
    (by rw [scalarBits]; omega) rfl
    (final_bits_eq (by omega) (by rw [scalarBits]; omega) (scalarBits_ne hw hw32))
    id_injective hpoint hmark wnaf).1

end

theorem wnafRoundBits_represents {numBits : ℕ} (hn : numBits ≤ 64 * n) (hv : v < 2 ^ numBits) (hw : 2 ≤ w) (hw32 : w ≤ 32) (hb : w < numBits)
    (hmark : w < 32 ∨ p <<< 32 ≠ unusedEntry <<< 32) (hpoints : 0 < numPoints)
    (hfit : numPoints < 2 ^ 32) (wnaf : ℕ → Word) :
    Represents w ((numBits + w - 1) / w) (templateAddress numPoints)
      (wnafRoundBits scalar wnaf p numBits numPoints w) v := by
  obtain ⟨k, hk, hlow, hhigh⟩ := entries_bounds (show 0 < w by omega) numBits (by omega)
  have hfinal : (if numBits / w * w = numBits then w else numBits - numBits / w * w) =
      numBits - w * ((numBits + w - 1) / w - 1) := by
    split
    · rename_i hdvd
      have hquot : numBits / w = k + 1 := by
        have hlt : k < numBits / w := Nat.lt_of_mul_lt_mul_right (a := w)
          (by rw [hdvd, mul_comm]; exact hlow)
        have hle : numBits / w < k + 2 := Nat.lt_of_mul_lt_mul_right (a := w) (by
          rw [hdvd, mul_comm, mul_succ, mul_succ]
          omega)
        omega
      rw [hquot, mul_comm, mul_succ] at hdvd
      rw [hk, add_sub_cancel]
      omega
    · rename_i hdvd
      exact final_bits_eq (by omega) (by omega) hdvd
  have hconst : ∀ bits bitPosition, 0 < bits → bits < 64 →
      getWnafBitsConst scalar bits bitPosition = getWnafBits scalar bits bitPosition :=
    fun bits bitPosition hpos hlt => getWnafBitsConst_eq scalar hpos hlt bitPosition
  have hleft : numBits - w * ((numBits + w - 1) / w - 1) = numBits - w * k := by
    rw [hk, add_sub_cancel]
  rw [wnafRoundBits, hfinal, hconst w 0 (by omega) (by omega),
    hconst _ _ (by rw [hleft]; omega) (by rw [hleft]; omega),
    funext fun round => hconst w (round * w) (by omega) (by omega)]
  exact (encode_scalar h hv hn (by omega) hw32 hb rfl rfl
    (templateAddress_injective hpoints hfit) (toNat_point p) hmark wnaf).1

end

/-! ### Counts -/

theorem fillUnused_apply (addresses : List ℕ) (wnaf : ℕ → Word) (a : ℕ) :
    fillUnused wnaf addresses a = if a ∈ addresses then unusedEntry else wnaf a := by
  induction addresses generalizing wnaf with
  | nil => rfl
  | cons b addresses ih =>
    have hrest := ih (update wnaf b unusedEntry)
    rw [fillUnused] at hrest ⊢
    rw [foldl_cons, hrest]
    by_cases hmem : a ∈ addresses
    · rw [if_pos hmem, if_pos (mem_cons_of_mem b hmem)]
    · rw [if_neg hmem, update_apply]
      simp [hmem]

theorem foldl_increment (keys : List ℕ) (hkeys : keys.Nodup) (counts : ℕ → Word) (k : ℕ) :
    keys.foldl increment counts k = counts k + if k ∈ keys then 1 else 0 := by
  induction keys generalizing counts with
  | nil => simp
  | cons key keys ih =>
    obtain ⟨hkey, hrest⟩ := nodup_cons.1 hkeys
    rw [foldl_cons, ih hrest, increment, update_apply]
    by_cases heq : k = key
    · subst heq
      simp [hkey]
    · simp [heq]

theorem log2_add {lo hi : ℕ} (hlo : lo < 2 ^ 64) (hhi : hi ≠ 0) :
    log2 (lo + 2 ^ 64 * hi) = log2 hi + 64 := by
  have hlow := Nat.log2_self_le hhi
  have hhigh : hi < 2 ^ (log2 hi + 1) := Nat.lt_log2_self
  have hpow : 2 ^ (log2 hi + 64) = 2 ^ 64 * 2 ^ log2 hi := by rw [pow_add, mul_comm]
  rw [pow_succ] at hhigh
  rw [Nat.log2_eq_iff (by omega), pow_succ _ (log2 hi + 64), hpow]
  omega

theorem toNat_getNumScalarBits (h : Limbs n scalar v) (hn : 2 ≤ n) (hv : v < 2 ^ 127)
    (hne : v ≠ 0) : (getNumScalarBits scalar + 1).toNat = log2 v + 1 := by
  have hlog : log2 v < 127 := (Nat.log2_lt hne).2 hv
  have hlo := h 0 (by omega)
  have hhi := h 1 (by omega)
  rw [mul_zero, pow_zero, div_one] at hlo
  rw [mul_one, mod_eq_of_lt (a := v / 2 ^ 64) (by omega)] at hhi
  have hone : (1 : Word).toNat = 1 := rfl
  have hbits : (getNumScalarBits scalar).toNat = log2 v := by
    have hmask : ∀ b : Bool, (0 : Word) - ofBool b = if b then allOnes 64 else 0 := by
      decide
    rw [getNumScalarBits, hmask, hmask]
    by_cases hpos : scalar 1 > 0
    · have hpos' : (scalar 1).toNat ≠ 0 := by
        rw [gt_iff_lt, lt_def, show (0 : Word).toNat = 0 from rfl] at hpos
        omega
      have hsum := log2_add (scalar 0).isLt hpos'
      rw [show (scalar 0).toNat + 2 ^ 64 * (scalar 1).toNat = v by omega] at hsum
      have hadd : (getMsb64 (scalar 1) + 64).toNat = log2 v := by
        rw [toNat_add, toNat_getMsb64, show (64 : Word).toNat = 64 from rfl, hsum]
        omega
      rw [decide_eq_true hpos, if_pos rfl, BitVec.allOnes_and, BitVec.not_allOnes, BitVec.and_zero,
        BitVec.zero_and, BitVec.or_zero, hadd]
    · have hzero : (scalar 1).toNat = 0 := by
        rw [gt_iff_lt, lt_def, show (0 : Word).toNat = 0 from rfl] at hpos
        omega
      have hpos0 : scalar 0 > 0 := by
        rw [gt_iff_lt, lt_def, show (0 : Word).toNat = 0 from rfl]
        omega
      rw [decide_eq_false hpos, decide_eq_true hpos0, if_neg Bool.false_ne_true, if_pos rfl,
        show v = (scalar 0).toNat by omega, ← toNat_getMsb64,
        show ~~~(0 : Word) = allOnes 64 from rfl, BitVec.and_allOnes, BitVec.allOnes_and]
      simp
  rw [toNat_add, hbits, hone]
  omega

theorem represents_fill {w d e : ℕ} {wnaf : ℕ → Word} {skew : Bool}
    (h : Represents w e (fun k => (d + k) * numPoints) (wnaf, skew) v) {addresses : List ℕ}
    (haddresses : ∀ k, k * numPoints ∈ addresses ↔ k < d) :
    Represents w (d + e) (· * numPoints) (fillUnused wnaf addresses, skew) v ∧
      ∀ k < d + e, fillUnused wnaf addresses (k * numPoints) =
        if k < d then unusedEntry else wnaf (k * numPoints) := by
  have hfill : ∀ k, fillUnused wnaf addresses (k * numPoints) =
      if k < d then unusedEntry else wnaf (k * numPoints) := by
    intro k
    rw [fillUnused_apply]
    simp only [haddresses]
  refine ⟨⟨?_, fun k hk hne => ?_⟩, fun k _ => hfill k⟩
  · rw [← h.1, decode, decode]
    congr 1
    refine (Finset.sum_subset (Finset.range_subset_range.2 (Nat.le_add_left e d))
      fun position hposition hout => ?_).symm.trans
        (Finset.sum_congr rfl fun position hposition => ?_)
    · rw [Finset.mem_range] at hposition hout
      dsimp only
      rw [hfill, if_pos (by omega), entryValue, if_pos rfl, zero_mul]
    · rw [Finset.mem_range] at hposition
      dsimp only
      rw [hfill, if_neg (by omega), show d + e - 1 - position = d + (e - 1 - position) by omega]
  · dsimp only at hne ⊢
    rw [hfill] at hne ⊢
    by_cases hlt : k < d
    · rw [if_pos hlt] at hne
      exact absurd rfl hne
    · rw [if_neg hlt] at hne ⊢
      have := h.2 (k - d) (by omega)
      dsimp only at this
      rw [show d + (k - d) = k by omega] at this
      exact this hne

theorem counts_eq {e m : ℕ} (he : 2 ≤ e) (hm : e ≤ m) (counts : ℕ → Word) (k : ℕ) :
    increment (increment ((range' 1 (e - 2)).foldl
      (fun counts round => increment counts (m - round)) counts) (m - e + 1)) (m - e) k =
      counts k + if m - e ≤ k ∧ k < m then 1 else 0 := by
  have hfold : increment (increment ((range' 1 (e - 2)).foldl
      (fun counts round => increment counts (m - round)) counts) (m - e + 1)) (m - e) =
      ((range' 1 (e - 2)).map (m - ·) ++ [m - e + 1, m - e]).foldl increment counts := by
    rw [foldl_append, foldl_map]
    rfl
  have hmem : ∀ j, j ∈ (range' 1 (e - 2)).map (m - ·) ↔ m - e + 1 < j ∧ j < m := by
    intro j
    rw [mem_map]
    constructor
    · rintro ⟨i, hi, rfl⟩
      rw [mem_range'_1] at hi
      omega
    · intro hj
      exact ⟨m - j, by rw [mem_range'_1]; omega, by omega⟩
  have hnodup : ((range' 1 (e - 2)).map (m - ·) ++ [m - e + 1, m - e]).Nodup := by
    refine List.Nodup.append ?_ (by simp) fun j hj hj' => ?_
    · refine List.Nodup.map_on (fun i hi j hj h => ?_) nodup_range'
      rw [mem_range'_1] at hi hj
      omega
    · rw [hmem] at hj
      simp at hj'
      omega
  have hkeys : k ∈ (range' 1 (e - 2)).map (m - ·) ++ [m - e + 1, m - e] ↔ m - e ≤ k ∧ k < m := by
    rw [mem_append, hmem]
    simp
    omega
  rw [hfold, foldl_increment _ hnodup]
  simp only [hkeys]

theorem single_represents (h : Limbs n scalar v) (hn : 0 < n) (hw : 0 < w) (hw32 : w ≤ 32)
    (hv : v < 2 ^ w) (hpoint : pointIndex.toNat % 2 ^ 32 = 0)
    (hmark : w < 32 ∨ pointIndex ≠ unusedEntry <<< 32) (wnaf : ℕ → Word) (address : ℕ → ℕ) :
    Represents w 1 address (update wnaf (address 0)
      (((getWnafBits scalar w 0 + ofBool (skewOf scalar)) >>> 1) ||| pointIndex), skewOf scalar) v ∧
      (((getWnafBits scalar w 0 + ofBool (skewOf scalar)) >>> 1) ||| pointIndex) ≠ unusedEntry := by
  have hprevious := toNat_previous h hw hw32 hn
  obtain ⟨hodd, hlt⟩ := skew_bounds (w := w) hw (skewOf_eq h hn)
  rw [← hprevious] at hodd hlt
  rw [mod_eq_of_lt hv] at hprevious
  have hne := entry_ne_unused hw hw32 hlt hodd (show (0 : Word).toNat ≤ 1 by decide) hpoint hmark
  have hdigit := digit_entry hw hw32 hlt hodd (show (0 : Word).toNat ≤ 1 by decide) hpoint
  rw [entry_zero] at hne hdigit
  rw [show (0 : Word).toNat = 0 from rfl, Nat.cast_zero, zero_mul, sub_zero] at hdigit
  refine ⟨⟨?_, fun k hk _ => ?_⟩, hne⟩
  · rw [decode, Finset.sum_range_one]
    dsimp only
    rw [update_self, entryValue, if_neg hne, hdigit, hprevious, mul_zero, pow_zero]
    push_cast
    ring
  · obtain rfl : k = 0 := by omega
    dsimp only
    rw [update_self, hdigit, abs_of_nonneg (by positivity)]
    exact_mod_cast hlt

theorem mem_unused (hpoints : 0 < numPoints) (e m k : ℕ) :
    k * numPoints ∈ (range' e (m - e)).map (fun j => (m - 1 - j) * numPoints) ↔ k < m - e := by
  rw [mem_map]
  constructor
  · rintro ⟨j, hj, heq⟩
    rw [mem_range'_1] at hj
    have := Nat.eq_of_mul_eq_mul_right hpoints heq
    omega
  · intro hk
    refine ⟨m - 1 - k, by rw [mem_range'_1]; omega, ?_⟩
    rw [show m - 1 - (m - 1 - k) = k by omega]

section

variable (h : Limbs n scalar v) (hn : 2 ≤ n) (hv : v < 2 ^ 127)
include h hn hv

theorem or_limbs_eq_zero : scalar 0 ||| scalar 1 = 0 ↔ v = 0 := by
  have hlo := h 0 (by omega)
  have hhi := h 1 (by omega)
  rw [mul_zero, pow_zero, div_one] at hlo
  rw [mul_one, mod_eq_of_lt (a := v / 2 ^ 64) (by omega)] at hhi
  rw [← toNat_inj, toNat_or, show (0 : Word).toNat = 0 from rfl, Nat.or_eq_zero_iff, hlo, hhi]
  omega

theorem fixedWnafWithCounts_of_ne_zero (hne : v ≠ 0) (hw : 2 ≤ w) (hw32 : w ≤ 32)
    (hpoint : pointIndex.toNat % 2 ^ 32 = 0) (hmark : w < 32 ∨ pointIndex ≠ unusedEntry <<< 32)
    (hpoints : 0 < numPoints) (wnaf counts : ℕ → Word) :
    ∃ wnaf' counts', fixedWnafWithCounts scalar wnaf counts pointIndex numPoints w =
        (wnaf', skewOf scalar, counts') ∧
      Represents w (wnafEntries w) (· * numPoints) (wnaf', skewOf scalar) v ∧ ∃ d ≤ wnafEntries w,
        (∀ k, counts' k = counts k + if d ≤ k ∧ k < wnafEntries w then 1 else 0) ∧
        ∀ k < wnafEntries w, wnaf' (k * numPoints) = unusedEntry ↔ k < d := by
  have hbits := toNat_getNumScalarBits h hn hv hne
  have hlog : log2 v < 127 := (Nat.log2_lt hne).2 hv
  have hvb : v < 2 ^ (log2 v + 1) := Nat.lt_log2_self
  obtain ⟨k, hk, hlow, hhigh⟩ := entries_bounds (show 0 < w by omega) (log2 v + 1) (by omega)
  have hle : k + 1 ≤ wnafEntries w := by
    rw [← hk, wnafEntries, scalarBits]
    exact Nat.div_le_div_right (by omega)
  rw [fixedWnafWithCounts, if_neg ((or_limbs_eq_zero h hn hv).not.2 hne)]
  simp only [hbits, hk]
  rw [show (scalarBits + w - 1) / w = wnafEntries w from rfl]
  generalize hm : wnafEntries w = m at *
  obtain rfl | hkpos := Nat.eq_zero_or_pos k
  · -- one window holds the whole scalar
    rw [mul_zero, zero_add] at hhigh
    have hvw : v < 2 ^ w := hvb.trans_le (pow_le_pow_right (by omega) hhigh)
    obtain ⟨hrepr, hused⟩ := single_represents h (by omega) (show 0 < w by omega) hw32 hvw hpoint
      hmark wnaf (fun k => (m - 1 + k) * numPoints)
    obtain ⟨hfill, hvalues⟩ := represents_fill hrepr (mem_unused hpoints 1 m)
    rw [sub_add_cancel hle] at hfill hvalues
    rw [if_pos rfl]
    refine ⟨_, _, rfl, hfill, m - 1, by omega, fun k => ?_, fun k hkm => ?_⟩
    · rw [increment, update_apply]
      by_cases hlast : k = m - 1
      · rw [if_pos hlast, if_pos (by omega), hlast]
      · rw [if_neg hlast, if_neg (by omega)]
        simp
    · refine (Eq.congr_left (hvalues k hkm)).trans ?_
      by_cases hlt : k < m - 1
      · rw [if_pos hlt]
        exact iff_of_true rfl hlt
      · rw [if_neg hlt, show k * numPoints = (m - 1 + 0) * numPoints by
          rw [show k = m - 1 + 0 by omega], update_self]
        exact iff_of_false hused hlt
  · rw [if_neg (by omega)]
    obtain ⟨hrepr, hused⟩ := encode_scalar h hvb (by omega) (show 0 < w by omega) hw32
      (hlow.trans_le' (Nat.le_mul_of_pos_right w hkpos)) hk.symm rfl
      (show ∀ i < k + 1, ∀ j < k + 1,
        (m - (k + 1) + i) * numPoints = (m - (k + 1) + j) * numPoints → i = j from
          fun i _ j _ heq => by
        have := Nat.eq_of_mul_eq_mul_right hpoints heq
        omega) hpoint hmark wnaf
    obtain ⟨hfill, hvalues⟩ := represents_fill hrepr (mem_unused hpoints (k + 1) m)
    rw [sub_add_cancel hle] at hfill hvalues
    refine ⟨_, _, rfl, hfill, m - (k + 1), by omega, fun j => ?_, fun j hj => ?_⟩
    · exact counts_eq (by omega) hle counts j
    · refine (Eq.congr_left (hvalues j hj)).trans ?_
      by_cases hlt : j < m - (k + 1)
      · rw [if_pos hlt]
        exact iff_of_true rfl hlt
      · have hne' := hused (j - (m - (k + 1))) (by omega)
        rw [show m - (k + 1) + (j - (m - (k + 1))) = j by omega] at hne'
        rw [if_neg hlt]
        exact iff_of_false hne' hlt

theorem fixedWnafWithCounts_represents (hw : 2 ≤ w) (hw32 : w ≤ 32)
    (hpoint : pointIndex.toNat % 2 ^ 32 = 0) (hmark : w < 32 ∨ pointIndex ≠ unusedEntry <<< 32)
    (hpoints : 0 < numPoints) (wnaf counts : ℕ → Word) :
    ∃ wnaf' skew counts', fixedWnafWithCounts scalar wnaf counts pointIndex numPoints w =
        (wnaf', skew, counts') ∧ Represents w (wnafEntries w) (· * numPoints) (wnaf', skew) v ∧
      ∀ k, counts' k = counts k +
        if k < wnafEntries w ∧ wnaf' (k * numPoints) ≠ unusedEntry then 1 else 0 := by
  by_cases hne : v = 0
  · -- nothing is used
    subst hne
    have hfill : ∀ k < wnafEntries w, fillUnused wnaf
        ((range (wnafEntries w)).map (· * numPoints)) (k * numPoints) = unusedEntry := by
      intro k hk
      rw [fillUnused_apply, if_pos]
      exact mem_map.2 ⟨k, mem_range.2 hk, rfl⟩
    refine ⟨fillUnused wnaf ((range (wnafEntries w)).map (· * numPoints)), false, counts,
      by rw [fixedWnafWithCounts, if_pos ((or_limbs_eq_zero h hn hv).2 rfl), wnafEntries],
      ⟨?_, fun k hk hused => absurd (hfill k hk) hused⟩, fun k => ?_⟩
    · have hzero : decode w (wnafEntries w) (· * numPoints) (fillUnused wnaf
          ((range (wnafEntries w)).map (· * numPoints))) = 0 := by
        refine Finset.sum_eq_zero fun position hposition => ?_
        rw [Finset.mem_range] at hposition
        rw [hfill _ (by omega), entryValue, if_pos rfl, zero_mul]
      dsimp only
      rw [hzero]
      rfl
    · rw [if_neg fun hk => hk.2 (hfill k hk.1)]
      simp
  · obtain ⟨wnaf', counts', heq, hrepr, d, hd, hcounts, hunused⟩ :=
      fixedWnafWithCounts_of_ne_zero h hn hv hne hw hw32 hpoint hmark hpoints wnaf counts
    refine ⟨wnaf', _, counts', heq, hrepr, fun k => ?_⟩
    have hiff : k < wnafEntries w ∧ wnaf' (k * numPoints) ≠ unusedEntry ↔
        d ≤ k ∧ k < wnafEntries w := by
      constructor
      · rintro ⟨hk, hused⟩
        exact ⟨Nat.not_lt.1 ((hunused k hk).not.1 hused), hk⟩
      · rintro ⟨hdk, hk⟩
        exact ⟨hk, (hunused k hk).not.2 (Nat.not_lt.2 hdk)⟩
    rw [hcounts]
    simp only [hiff]

end

end Encoders

theorem limbs_of_words (lo hi : Word) :
    Limbs 2 (fun i => if i = 0 then lo else hi) (lo.toNat + 2 ^ 64 * hi.toNat) := by
  intro i hi'
  have hlo := lo.isLt
  obtain rfl | rfl : i = 0 ∨ i = 1 := by omega
  · dsimp only
    rw [if_pos rfl]
    omega
  · dsimp only
    rw [if_neg one_ne_zero]
    omega

/-- **Every encoder represents every scalar**, for windows of at most 32 bits: the digits of the
entries that are used add up to the scalar and the skew, they are smaller than a window, and the
counts go up by one where an entry is used.  The mark of unused slots is an entry of windows of 32
bits for the last point. -/
theorem wnaf_represents {n : ℕ} {scalar : ℕ → Word} {v : ℕ} (h : Limbs n scalar v) (hn : 2 ≤ n)
    (hv : v < 2 ^ 127) {w : ℕ} (hw : 2 ≤ w) (hw32 : w ≤ 32) {p : Word}
    (hmark : w < 32 ∨ p <<< 32 ≠ unusedEntry <<< 32) {numPoints : ℕ} (hpoints : 0 < numPoints)
    (wnaf counts : ℕ → Word) : Represents w (wnafEntries w) (· * numPoints)
      (fixedWnaf scalar wnaf (p <<< 32) numPoints w) v ∧
    Represents w (wnafEntries w) id (fixedWnafPacked scalar wnaf (p <<< 32) w) v ∧
    (numPoints < 2 ^ 32 → Represents w (wnafEntries w) (templateAddress numPoints)
      (wnafRound scalar wnaf p numPoints w) v) ∧
    (numPoints < 2 ^ 32 → ∀ numBits, w < numBits → numBits ≤ 64 * n → v < 2 ^ numBits →
      Represents w ((numBits + w - 1) / w) (templateAddress numPoints)
        (wnafRoundBits scalar wnaf p numBits numPoints w) v) ∧ Represents w (wnafEntries w) id
      (wnafRoundPacked scalar wnaf (p <<< 32)
        (getWnafBits scalar w 0 + ofBool (skewOf scalar)) w, skewOf scalar) v ∧
    ∃ wnaf' skew counts', fixedWnafWithCounts scalar wnaf counts (p <<< 32) numPoints w =
        (wnaf', skew, counts') ∧ Represents w (wnafEntries w) (· * numPoints) (wnaf', skew) v ∧
      ∀ k, counts' k = counts k +
        if k < wnafEntries w ∧ wnaf' (k * numPoints) ≠ unusedEntry then 1 else 0 :=
  ⟨fixedWnafAt_represents h hn hv hw hw32 (toNat_point p) hmark (mul_injective hpoints) wnaf,
    fixedWnafAt_represents h hn hv hw hw32 (toNat_point p) hmark id_injective wnaf,
    fun hfit => wnafRound_represents h hn hv hw hw32 hmark hpoints hfit wnaf,
    fun hfit _ hb hfits hvb =>
      wnafRoundBits_represents h hfits hvb hw hw32 hb hmark hpoints hfit wnaf,
    wnafRoundPacked_represents h hn hv hw hw32 (toNat_point p) hmark wnaf,
    fixedWnafWithCounts_represents h hn hv hw hw32 (toNat_point p) hmark hpoints wnaf counts⟩

theorem wnaf_represents_six : Represents 5 (wnafEntries 5) id
    (fixedWnafPacked (fun i => if i = 0 then 6 else 0) (fun _ => 0) ((3 : Word) <<< 32) 5)
    ((6 : Word).toNat + 2 ^ 64 * (0 : Word).toNat) :=
  (wnaf_represents (limbs_of_words 6 0) (le_refl 2) (by decide) (by norm_num) (by norm_num)
    (.inl (by norm_num)) Nat.one_pos (fun _ => 0) (fun _ => 0)).2.1

/-- With windows of 33 bits, half a digit does not fit. -/
theorem not_represents : ¬∀ (w : ℕ) (lo hi : Word), 2 ≤ w → lo.toNat + 2 ^ 64 * hi.toNat < 2 ^ 127 →
    Represents w (wnafEntries w) id
      (fixedWnafPacked (fun i => if i = 0 then lo else hi) (fun _ => 0) 0 w)
      (lo.toNat + 2 ^ 64 * hi.toNat) := by
  intro h
  have hdecode := (h 33 1 0 (by norm_num) (by decide)).1
  revert hdecode
  decide

end Wnaf
