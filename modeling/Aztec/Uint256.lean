/-
**Integers of 256 bits.**

`uint256_t` is four words.  Its operations pass carries and borrows from limb to limb, its shifts
move limbs and then the bits within them.
-/

import Aztec.WideIntegers

@[ext] structure Uint256 where
  data0 : Word
  data1 : Word
  data2 : Word
  data3 : Word
  deriving DecidableEq

namespace Uint256

open Words Digits

/-! ### The operations -/

def ofUint64 (a : Word) : Uint256 := ⟨a, 0, 0, 0⟩

def mulExtended (a b : Uint256) : Uint256 × Uint256 :=
  let (r0, t0) := mulWide a.data0 b.data0
  let (q0, t1) := mac t0 a.data0 b.data1 0
  let (q1, t2) := mac t1 a.data0 b.data2 0
  let (q2, z0) := mac t2 a.data0 b.data3 0
  let (r1, t3) := mac q0 a.data1 b.data0 0
  let (q3, t4) := mac q1 a.data1 b.data1 t3
  let (q4, t5) := mac q2 a.data1 b.data2 t4
  let (q5, z1) := mac z0 a.data1 b.data3 t5
  let (r2, t6) := mac q3 a.data2 b.data0 0
  let (q6, t7) := mac q4 a.data2 b.data1 t6
  let (q7, t8) := mac q5 a.data2 b.data2 t7
  let (q8, z2) := mac z1 a.data2 b.data3 t8
  let (r3, t9) := mac q6 a.data3 b.data0 0
  let (r4, t10) := mac q7 a.data3 b.data1 t9
  let (r5, t11) := mac q8 a.data3 b.data2 t10
  let (r6, r7) := mac z2 a.data3 b.data3 t11
  (⟨r0, r1, r2, r3⟩, ⟨r4, r5, r6, r7⟩)

def getBit (a : Uint256) (bitIndex : Word) : Bool :=
  if bitIndex > 255 then false
  else
    let idx := bitIndex >>> 6
    let shift := bitIndex &&& 63
    let limb := if idx = 0 then a.data0 else if idx = 1 then a.data1
      else if idx = 2 then a.data2 else a.data3
    decide ((limb >>> shift.toNat) &&& 1 ≠ 0)

def getMsb (a : Uint256) : Word :=
  let idx := getMsb64 a.data3
  let idx := if idx = 0 ∧ a.data3 = 0 then getMsb64 a.data2 else idx + 64
  let idx := if idx = 0 ∧ a.data2 = 0 then getMsb64 a.data1 else idx + 64
  if idx = 0 ∧ a.data1 = 0 then getMsb64 a.data0 else idx + 64

def add (a b : Uint256) : Uint256 :=
  let (r0, t0) := addc a.data0 b.data0 0
  let (r1, t1) := addc a.data1 b.data1 t0
  let (r2, t2) := addc a.data2 b.data2 t1
  let r3 := addcDiscardHi a.data3 b.data3 t2
  ⟨r0, r1, r2, r3⟩

def sub (a b : Uint256) : Uint256 :=
  let (r0, t0) := sbb a.data0 b.data0 0
  let (r1, t1) := sbb a.data1 b.data1 t0
  let (r2, t2) := sbb a.data2 b.data2 t1
  let r3 := sbbDiscardHi a.data3 b.data3 t2
  ⟨r0, r1, r2, r3⟩

def mul (a b : Uint256) : Uint256 :=
  let (r0, t0) := mac 0 a.data0 b.data0 0
  let (q0, t1) := mac 0 a.data0 b.data1 t0
  let (q1, t2) := mac 0 a.data0 b.data2 t1
  let q2 := macDiscardHi 0 a.data0 b.data3 t2
  let (r1, t3) := mac q0 a.data1 b.data0 0
  let (q3, t4) := mac q1 a.data1 b.data1 t3
  let q4 := macDiscardHi q2 a.data1 b.data2 t4
  let (r2, t5) := mac q3 a.data2 b.data0 0
  let q5 := macDiscardHi q4 a.data2 b.data1 t5
  let r3 := macDiscardHi q5 a.data3 b.data0 0
  ⟨r0, r1, r2, r3⟩

def and (a b : Uint256) : Uint256 :=
  ⟨a.data0 &&& b.data0, a.data1 &&& b.data1, a.data2 &&& b.data2, a.data3 &&& b.data3⟩

def xor (a b : Uint256) : Uint256 :=
  ⟨a.data0 ^^^ b.data0, a.data1 ^^^ b.data1, a.data2 ^^^ b.data2, a.data3 ^^^ b.data3⟩

def or (a b : Uint256) : Uint256 :=
  ⟨a.data0 ||| b.data0, a.data1 ||| b.data1, a.data2 ||| b.data2, a.data3 ||| b.data3⟩

def not (a : Uint256) : Uint256 := ⟨~~~a.data0, ~~~a.data1, ~~~a.data2, ~~~a.data3⟩

def eq (a b : Uint256) : Bool :=
  a.data0 = b.data0 && a.data1 = b.data1 && a.data2 = b.data2 && a.data3 = b.data3

def gt (a b : Uint256) : Bool :=
  let t0 := decide (a.data3 > b.data3)
  let t1 := decide (a.data3 = b.data3) && decide (a.data2 > b.data2)
  let t2 := decide (a.data3 = b.data3) && decide (a.data2 = b.data2) && decide (a.data1 > b.data1)
  let t3 := decide (a.data3 = b.data3) && decide (a.data2 = b.data2) &&
    decide (a.data1 = b.data1) && decide (a.data0 > b.data0)
  t0 || t1 || t2 || t3

def dropLimbs (x : Uint256) (numShiftedLimbs : Word) : Uint256 :=
  if numShiftedLimbs = 0 then x
  else if numShiftedLimbs = 1 then ⟨x.data1, x.data2, x.data3, 0⟩
  else if numShiftedLimbs = 2 then ⟨x.data2, x.data3, 0, 0⟩
  else ⟨x.data3, 0, 0, 0⟩

def raiseLimbs (x : Uint256) (numShiftedLimbs : Word) : Uint256 :=
  if numShiftedLimbs = 0 then x
  else if numShiftedLimbs = 1 then ⟨0, x.data0, x.data1, x.data2⟩
  else if numShiftedLimbs = 2 then ⟨0, 0, x.data0, x.data1⟩
  else ⟨0, 0, 0, x.data0⟩

/-- `operator>>`. -/
def shrWide (a other : Uint256) : Uint256 :=
  let totalShift := other.data0
  if totalShift ≥ 256 ∨ other.data1 ≠ 0 ∨ other.data2 ≠ 0 ∨ other.data3 ≠ 0 then ofUint64 0
  else if totalShift = 0 then a
  else
    let numShiftedLimbs := totalShift >>> 6
    let limbShift := totalShift &&& 63
    let shiftedLimbs : Uint256 :=
      if limbShift = 0 then a
      else
        let remainderShift := 64 - limbShift
        ⟨(a.data0 >>> limbShift.toNat) + (a.data1 <<< remainderShift.toNat),
          (a.data1 >>> limbShift.toNat) + (a.data2 <<< remainderShift.toNat),
          (a.data2 >>> limbShift.toNat) + (a.data3 <<< remainderShift.toNat),
          a.data3 >>> limbShift.toNat⟩
    shiftedLimbs.dropLimbs numShiftedLimbs

/-- `operator<<`. -/
def shlWide (a other : Uint256) : Uint256 :=
  let totalShift := other.data0
  if totalShift ≥ 256 ∨ other.data1 ≠ 0 ∨ other.data2 ≠ 0 ∨ other.data3 ≠ 0 then ofUint64 0
  else if totalShift = 0 then a
  else
    let numShiftedLimbs := totalShift >>> 6
    let limbShift := totalShift &&& 63
    let shiftedLimbs : Uint256 :=
      if limbShift = 0 then a
      else
        let remainderShift := 64 - limbShift
        ⟨a.data0 <<< limbShift.toNat,
          (a.data1 <<< limbShift.toNat) + (a.data0 >>> remainderShift.toNat),
          (a.data2 <<< limbShift.toNat) + (a.data1 >>> remainderShift.toNat),
          (a.data3 <<< limbShift.toNat) + (a.data2 >>> remainderShift.toNat)⟩
    shiftedLimbs.raiseLimbs numShiftedLimbs

/-- A shift by a `uint64_t`, which is converted. -/
def shr (a : Uint256) (s : Word) : Uint256 := a.shrWide (ofUint64 s)

def shl (a : Uint256) (s : Word) : Uint256 := a.shlWide (ofUint64 s)

instance : UintOps Uint256 where
  length := 256
  ofUint64 := ofUint64
  add := add
  sub := sub
  mul := mul
  mulExtended := mulExtended
  and := and
  xor := xor
  or := or
  not := not
  eq := eq
  gt := gt
  shr := shr
  shl := shl
  getBit := getBit
  getMsb := getMsb

def divmod (a b : Uint256) : Option (Uint256 × Uint256) :=
  if a.eq (ofUint64 0) || b.eq (ofUint64 0) then some (ofUint64 0, ofUint64 0)
  else UintOps.longDivision a b

def slice (a : Uint256) (start stop : Word) : Uint256 :=
  let range := stop - start
  let mask := if range = 256 then UintOps.neg (ofUint64 1)
    else ((ofUint64 1).shl range).sub (ofUint64 1)
  (a.shr start).and mask

/-- The loop of `pow` over the bits below `n`. -/
def powLoop (toMul exponent : Uint256) : ℕ → Uint256 → Uint256
  | 0, accumulator => accumulator
  | i + 1, accumulator =>
    let squared := accumulator.mul accumulator
    powLoop toMul exponent i
      (if exponent.getBit (BitVec.ofNat 64 i) then squared.mul toMul else squared)

def pow (a exponent : Uint256) : Uint256 :=
  let accumulator := powLoop a exponent exponent.getMsb.toNat a
  if exponent.eq (ofUint64 0) then ofUint64 1
  else if a.eq (ofUint64 0) then ofUint64 0 else accumulator

/-! ### The value -/

def toNat (a : Uint256) : ℕ :=
  a.data0.toNat + 2 ^ 64 * a.data1.toNat + 2 ^ 128 * a.data2.toNat + 2 ^ 192 * a.data3.toNat

variable (a : Uint256)

theorem toNat_lt : a.toNat < 2 ^ 256 := by
  have h0 := a.data0.isLt
  have h1 := a.data1.isLt
  have h2 := a.data2.isLt
  have h3 := a.data3.isLt
  rw [toNat]
  omega

theorem toNat_injective : Function.Injective toNat := by
  intro a b h
  have hb1 := b.data1.isLt
  have hb2 := b.data2.isLt
  have hb3 := b.data3.isLt
  rw [toNat, toNat] at h
  ext1 <;> apply BitVec.eq_of_toNat_eq <;> omega

theorem toNat_ofUint64 (w : Word) : (ofUint64 w).toNat = w.toNat := by
  simp [ofUint64, toNat]

/-! ### Arithmetic -/

theorem toNat_add (a b : Uint256) : (a.add b).toNat = (a.toNat + b.toNat) % 2 ^ 256 := by
  obtain ⟨h0, hc0⟩ := addc_spec a.data0 b.data0 0 (by decide)
  obtain ⟨h1, hc1⟩ := addc_spec a.data1 b.data1 _ hc0
  obtain ⟨h2, hc2⟩ := addc_spec a.data2 b.data2 _ hc1
  have hr0 := (addc a.data0 b.data0 0).1.isLt
  have hr1 := (addc a.data1 b.data1 (addc a.data0 b.data0 0).2).1.isLt
  have hr2 := (addc a.data2 b.data2 (addc a.data1 b.data1 (addc a.data0 b.data0 0).2).2).1.isLt
  simp only [add, addcDiscardHi, toNat, BitVec.toNat_add]
  generalize addc a.data2 b.data2 _ = x2 at *
  generalize addc a.data1 b.data1 _ = x1 at *
  generalize addc a.data0 b.data0 0 = x0 at *
  have hzero : (0 : Word).toNat = 0 := rfl
  omega

theorem toNat_sub (a b : Uint256) :
    (a.sub b).toNat = (a.toNat + (2 ^ 256 - b.toNat)) % 2 ^ 256 := by
  have hb := b.toNat_lt
  have h0 := sbb_spec a.data0 b.data0 0
  have h1 := sbb_spec a.data1 b.data1 (sbb a.data0 b.data0 0).2
  have h2 := sbb_spec a.data2 b.data2 (sbb a.data1 b.data1 (sbb a.data0 b.data0 0).2).2
  have hr0 := (sbb a.data0 b.data0 0).1.isLt
  have hr1 := (sbb a.data1 b.data1 (sbb a.data0 b.data0 0).2).1.isLt
  have hr2 := (sbb a.data2 b.data2 (sbb a.data1 b.data1 (sbb a.data0 b.data0 0).2).2).1.isLt
  have hdiscard : ∀ x y c : Word, (sbbDiscardHi x y c).toNat =
      (x.toNat + (2 ^ 64 - y.toNat) + (2 ^ 64 - borrow c)) % 2 ^ 64 := by
    intro x y c
    have hc : borrow c < 2 ^ 64 := (c >>> 63).isLt
    simp only [sbbDiscardHi, BitVec.toNat_sub]
    rw [← borrow]
    omega
  have hbits : ∀ c : Word, borrow c ≤ 1 := by
    intro c
    rw [borrow, BitVec.toNat_ushiftRight, Nat.shiftRight_eq_div_pow]
    have := c.isLt
    omega
  have hb2 := hbits (sbb a.data2 b.data2 (sbb a.data1 b.data1 (sbb a.data0 b.data0 0).2).2).2
  have hborrow : borrow 0 = 0 := rfl
  rw [toNat] at hb
  simp only [sub, toNat, hdiscard]
  generalize sbb a.data2 b.data2 _ = x2 at *
  generalize sbb a.data1 b.data1 _ = x1 at *
  generalize sbb a.data0 b.data0 0 = x0 at *
  have ha3 := a.data3.isLt
  have hb3 := b.data3.isLt
  omega

theorem toNat_eq : a.toNat = a.data0.toNat +
    2 ^ 64 * (a.data1.toNat + 2 ^ 64 * (a.data2.toNat + 2 ^ 64 * a.data3.toNat)) := by
  rw [toNat]
  ring

theorem toNat_mk (a b c d : Word) : (Uint256.mk a b c d).toNat =
    a.toNat + 2 ^ 64 * (b.toNat + 2 ^ 64 * (c.toNat + 2 ^ 64 * d.toNat)) := toNat_eq _

theorem two_pow_eq : (2 : ℕ) ^ 256 = (2 ^ 64) ^ 4 := by rw [← pow_mul]

theorem mulExtended_eq (a b : Uint256) :
    (a.mulExtended b).1.toNat + 2 ^ 256 * (a.mulExtended b).2.toNat = a.toNat * b.toNat := by
  obtain ⟨a0, a1, a2, a3⟩ := a
  obtain ⟨b0, b1, b2, b3⟩ := b
  simp only [toNat_eq, mulExtended, two_pow_eq]
  have h00 := mulWide_spec a0 b0
  generalize mulWide a0 b0 = m00 at *
  have h01 := mac_spec m00.2 a0 b1 0
  generalize mac m00.2 a0 b1 0 = m01 at *
  have h02 := mac_spec m01.2 a0 b2 0
  generalize mac m01.2 a0 b2 0 = m02 at *
  have h03 := mac_spec m02.2 a0 b3 0
  generalize mac m02.2 a0 b3 0 = m03 at *
  have h10 := mac_spec m01.1 a1 b0 0
  generalize mac m01.1 a1 b0 0 = m10 at *
  have h11 := mac_spec m02.1 a1 b1 m10.2
  generalize mac m02.1 a1 b1 m10.2 = m11 at *
  have h12 := mac_spec m03.1 a1 b2 m11.2
  generalize mac m03.1 a1 b2 m11.2 = m12 at *
  have h13 := mac_spec m03.2 a1 b3 m12.2
  generalize mac m03.2 a1 b3 m12.2 = m13 at *
  have h20 := mac_spec m11.1 a2 b0 0
  generalize mac m11.1 a2 b0 0 = m20 at *
  have h21 := mac_spec m12.1 a2 b1 m20.2
  generalize mac m12.1 a2 b1 m20.2 = m21 at *
  have h22 := mac_spec m13.1 a2 b2 m21.2
  generalize mac m13.1 a2 b2 m21.2 = m22 at *
  have h23 := mac_spec m13.2 a2 b3 m22.2
  generalize mac m13.2 a2 b3 m22.2 = m23 at *
  have h30 := mac_spec m21.1 a3 b0 0
  generalize mac m21.1 a3 b0 0 = m30 at *
  have h31 := mac_spec m22.1 a3 b1 m30.2
  generalize mac m22.1 a3 b1 m30.2 = m31 at *
  have h32 := mac_spec m23.1 a3 b2 m31.2
  generalize mac m23.1 a3 b2 m31.2 = m32 at *
  have h33 := mac_spec m23.2 a3 b3 m32.2
  generalize mac m23.2 a3 b3 m32.2 = m33 at *
  simp only [show (0 : Word).toNat = 0 from rfl, Nat.add_zero] at *
  generalize (2 : ℕ) ^ 64 = base at *
  zify at *
  linear_combination h00 + base * (h01 + h10) + base ^ 2 * (h02 + h11 + h20) +
    base ^ 3 * (h03 + h12 + h21 + h30) + base ^ 4 * (h13 + h22 + h31) + base ^ 5 * (h23 + h32) +
    base ^ 6 * h33

theorem macDiscardHi_spec (a b c d : Word) : ∃ carry, (macDiscardHi a b c d).toNat +
    2 ^ 64 * carry = a.toNat + b.toNat * c.toNat + d.toNat := by
  rw [toNat_macDiscardHi]
  exact ⟨_, Nat.mod_add_div _ _⟩

theorem toNat_mul (a b : Uint256) : (a.mul b).toNat = a.toNat * b.toNat % 2 ^ 256 := by
  have hlt := (a.mul b).toNat_lt
  obtain ⟨a0, a1, a2, a3⟩ := a
  obtain ⟨b0, b1, b2, b3⟩ := b
  suffices hexact : ∃ high, (Uint256.mk a0 a1 a2 a3).toNat * (Uint256.mk b0 b1 b2 b3).toNat =
      ((Uint256.mk a0 a1 a2 a3).mul (Uint256.mk b0 b1 b2 b3)).toNat + 2 ^ 256 * high by
    obtain ⟨high, hhigh⟩ := hexact
    rw [hhigh, Nat.add_mul_mod_self_left, Nat.mod_eq_of_lt hlt]
  clear hlt
  simp only [toNat_eq, mul, two_pow_eq]
  have h00 := mac_spec 0 a0 b0 0
  generalize mac 0 a0 b0 0 = m00 at *
  have h01 := mac_spec 0 a0 b1 m00.2
  generalize mac 0 a0 b1 m00.2 = m01 at *
  have h02 := mac_spec 0 a0 b2 m01.2
  generalize mac 0 a0 b2 m01.2 = m02 at *
  obtain ⟨c03, h03⟩ := macDiscardHi_spec 0 a0 b3 m02.2
  generalize macDiscardHi 0 a0 b3 m02.2 = m03 at *
  have h10 := mac_spec m01.1 a1 b0 0
  generalize mac m01.1 a1 b0 0 = m10 at *
  have h11 := mac_spec m02.1 a1 b1 m10.2
  generalize mac m02.1 a1 b1 m10.2 = m11 at *
  obtain ⟨c12, h12⟩ := macDiscardHi_spec m03 a1 b2 m11.2
  generalize macDiscardHi m03 a1 b2 m11.2 = m12 at *
  have h20 := mac_spec m11.1 a2 b0 0
  generalize mac m11.1 a2 b0 0 = m20 at *
  obtain ⟨c21, h21⟩ := macDiscardHi_spec m12 a2 b1 m20.2
  generalize macDiscardHi m12 a2 b1 m20.2 = m21 at *
  obtain ⟨c30, h30⟩ := macDiscardHi_spec m21 a3 b0 0
  generalize macDiscardHi m21 a3 b0 0 = m30 at *
  simp only [show (0 : Word).toNat = 0 from rfl, Nat.add_zero, Nat.zero_add] at *
  generalize (2 : ℕ) ^ 64 = base at *
  refine ⟨c03 + c12 + c21 + c30 + a1.toNat * b3.toNat + a2.toNat * b2.toNat + a3.toNat * b1.toNat +
    base * (a2.toNat * b3.toNat + a3.toNat * b2.toNat) + base ^ 2 * (a3.toNat * b3.toNat), ?_⟩
  zify at *
  linear_combination -(h00 + base * (h01 + h10) + base ^ 2 * (h02 + h11 + h20) +
    base ^ 3 * (h03 + h12 + h21 + h30))

/-! ### The order -/

theorem eq_iff (a b : Uint256) : a.eq b = true ↔ a.toNat = b.toNat := by
  rw [toNat_injective.eq_iff]
  simp only [eq, Bool.and_eq_true, decide_eq_true_eq, Uint256.ext_iff]
  tauto

theorem gt_iff (a b : Uint256) : a.gt b = true ↔ b.toNat < a.toNat := by
  rw [toNat_eq, toNat_eq, lt_digits a.data0.isLt b.data0.isLt, lt_digits a.data1.isLt b.data1.isLt,
    lt_digits a.data2.isLt b.data2.isLt, eq_digits a.data1.isLt b.data1.isLt,
    eq_digits a.data2.isLt b.data2.isLt]
  simp only [gt, Bool.or_eq_true, Bool.and_eq_true, decide_eq_true_eq, GT.gt, BitVec.lt_def,
    ← BitVec.toNat_inj]

/-! ### Bits -/

theorem testBit_toNat (i : ℕ) : a.toNat.testBit i = if i < 64 then a.data0.toNat.testBit i
    else if i - 64 < 64 then a.data1.toNat.testBit (i - 64)
    else if i - 64 - 64 < 64 then a.data2.toNat.testBit (i - 64 - 64)
    else a.data3.toNat.testBit (i - 64 - 64 - 64) := by
  rw [toNat_eq, testBit_digits a.data0.isLt, testBit_digits a.data1.isLt,
    testBit_digits a.data2.isLt]

theorem toNat_and (a b : Uint256) : (a.and b).toNat = a.toNat &&& b.toNat := by
  refine Nat.eq_of_testBit_eq fun i => ?_
  simp only [Nat.testBit_and, testBit_toNat, and, BitVec.toNat_and]
  split_ifs <;> rfl

theorem toNat_or (a b : Uint256) : (a.or b).toNat = a.toNat ||| b.toNat := by
  refine Nat.eq_of_testBit_eq fun i => ?_
  simp only [Nat.testBit_or, testBit_toNat, or, BitVec.toNat_or]
  split_ifs <;> rfl

theorem toNat_xor (a b : Uint256) : (a.xor b).toNat = a.toNat ^^^ b.toNat := by
  refine Nat.eq_of_testBit_eq fun i => ?_
  simp only [Nat.testBit_xor, testBit_toNat, xor, BitVec.toNat_xor]
  split_ifs <;> rfl

theorem toNat_not : a.not.toNat = 2 ^ 256 - 1 - a.toNat := by
  have h0 := a.data0.isLt
  have h1 := a.data1.isLt
  have h2 := a.data2.isLt
  have h3 := a.data3.isLt
  simp only [not, toNat, BitVec.toNat_not]
  omega

theorem bit_eq (x : Word) (s : ℕ) : decide ((x >>> s) &&& 1 ≠ 0) = x.toNat.testBit s := by
  rw [Nat.testBit, Nat.and_comm, Bool.eq_iff_iff, decide_eq_true_eq, bne_iff_ne, ne_eq, ne_eq,
    ← BitVec.toNat_inj, BitVec.toNat_and, BitVec.toNat_ushiftRight]
  rfl

theorem toNat_and_63 (s : Word) : (s &&& 63).toNat = s.toNat % 64 := by
  rw [BitVec.toNat_and]
  exact Nat.and_two_pow_sub_one_eq_mod s.toNat 6

theorem toNat_shift_6 (s : Word) : (s >>> 6).toNat = s.toNat / 64 := by
  rw [BitVec.toNat_ushiftRight, Nat.shiftRight_eq_div_pow]

theorem getBit_eq (i : Word) (hi : i.toNat < 256) : a.getBit i = a.toNat.testBit i.toNat := by
  have hle : ¬i > 255 := by
    rw [GT.gt, BitVec.lt_def, show (255 : Word).toNat = 255 from rfl]
    omega
  have hidx : ∀ c : Word, i >>> 6 = c ↔ i.toNat / 64 = c.toNat := by
    intro c
    rw [← BitVec.toNat_inj, toNat_shift_6]
  rw [getBit, if_neg hle, testBit_toNat]
  simp only [hidx, bit_eq, toNat_and_63]
  rw [show (0 : Word).toNat = 0 from rfl, show (1 : Word).toNat = 1 from rfl,
    show (2 : Word).toNat = 2 from rfl]
  obtain h | h | h | h : i.toNat / 64 = 0 ∨ i.toNat / 64 = 1 ∨ i.toNat / 64 = 2 ∨
    i.toNat / 64 = 3 := by omega
  · rw [if_pos h, if_pos (by omega), show i.toNat % 64 = i.toNat by omega]
  · rw [if_neg (by omega), if_pos h, if_neg (by omega), if_pos (by omega),
      show i.toNat % 64 = i.toNat - 64 by omega]
  · rw [if_neg (by omega), if_neg (by omega), if_pos h, if_neg (by omega), if_neg (by omega),
      if_pos (by omega), show i.toNat % 64 = i.toNat - 64 - 64 by omega]
  · rw [if_neg (by omega), if_neg (by omega), if_neg (by omega), if_neg (by omega),
      if_neg (by omega), if_neg (by omega), show i.toNat % 64 = i.toNat - 64 - 64 - 64 by omega]

theorem toNat_getMsb : a.getMsb.toNat = Nat.log2 a.toNat := by
  obtain ⟨a0, a1, a2, a3⟩ := a
  have hzero : ∀ x : Word, x.toNat = 0 ↔ x = 0 := fun x =>
    ⟨fun h => BitVec.eq_of_toNat_eq h, fun h => h ▸ rfl⟩
  have hlog : ∀ x : Word, Nat.log2 x.toNat < 64 := by
    intro x
    by_cases hx : x.toNat = 0
    · rw [hx]
      decide
    · exact (Nat.log2_lt hx).2 x.isLt
  have hadd : ∀ x : Word, x.toNat < 512 → (x + 64).toNat = x.toNat + 64 := by
    intro x hx
    rw [BitVec.toNat_add, show (64 : Word).toNat = 64 from rfl]
    omega
  have hne : ∀ x : Word, x.toNat < 512 → x + 64 ≠ 0 := by
    intro x hx h
    have := hadd x hx
    rw [h, show (0 : Word).toNat = 0 from rfl] at this
    omega
  have hm := fun x => toNat_getMsb64 x
  have hb := fun x : Word => (hm x).trans_lt (hlog x)
  rw [toNat_eq, getMsb]
  dsimp only
  by_cases h3 : a3 = 0
  · subst h3
    rw [if_pos (⟨by decide, rfl⟩ : getMsb64 0 = 0 ∧ (0 : Word) = 0),
      show (0 : Word).toNat = 0 from rfl, Nat.mul_zero, Nat.add_zero]
    by_cases h2 : a2 = 0
    · subst h2
      rw [if_pos (⟨by decide, rfl⟩ : getMsb64 0 = 0 ∧ (0 : Word) = 0),
        show (0 : Word).toNat = 0 from rfl, Nat.mul_zero, Nat.add_zero]
      by_cases h1 : a1 = 0
      · subst h1
        rw [if_pos (⟨by decide, rfl⟩ : getMsb64 0 = 0 ∧ (0 : Word) = 0),
          show (0 : Word).toNat = 0 from rfl, Nat.mul_zero, Nat.add_zero, hm]
      · rw [if_neg (show ¬(getMsb64 a1 = 0 ∧ a1 = 0) from fun h => h1 h.2),
          log2_digits a0.isLt (mt (hzero _).1 h1), hadd _ (by have := hb a1; omega), hm]
    · have hy : a1.toNat + 2 ^ 64 * a2.toNat ≠ 0 := by
        have := mt (hzero _).1 h2
        omega
      have hbound := hb a2
      rw [if_neg (show ¬(getMsb64 a2 = 0 ∧ a2 = 0) from fun h => h2 h.2),
        if_neg (show ¬(getMsb64 a2 + 64 = 0 ∧ a1 = 0) from fun h => hne _ (by omega) h.1),
        log2_digits a0.isLt hy, log2_digits a1.isLt (mt (hzero _).1 h2),
        hadd _ (by rw [hadd _ (by have := hb a2; omega)]; have := hb a2; omega),
        hadd _ (by have := hb a2; omega), hm]
  · have hy : a2.toNat + 2 ^ 64 * a3.toNat ≠ 0 := by
      have := mt (hzero _).1 h3
      omega
    have hy' : a1.toNat + 2 ^ 64 * (a2.toNat + 2 ^ 64 * a3.toNat) ≠ 0 := by omega
    have hbound := hb a3
    have hfirst := hadd (getMsb64 a3) (by omega)
    have hsecond := hadd (getMsb64 a3 + 64) (by omega)
    have hthird := hadd (getMsb64 a3 + 64 + 64) (by omega)
    rw [if_neg (show ¬(getMsb64 a3 = 0 ∧ a3 = 0) from fun h => h3 h.2),
      if_neg (show ¬(getMsb64 a3 + 64 = 0 ∧ a2 = 0) from fun h => hne _ (by omega) h.1),
      if_neg (show ¬(getMsb64 a3 + 64 + 64 = 0 ∧ a1 = 0) from
        fun h => hne (getMsb64 a3 + 64) (by omega) h.1), log2_digits a0.isLt hy',
      log2_digits a1.isLt hy, log2_digits a2.isLt (mt (hzero _).1 h3), hthird, hsecond, hfirst, hm]

/-! ### Shifts -/

variable {r : ℕ} {k : Word}

theorem toNat_shr_limb (d e : Word) (hr : r < 64) :
    ((d >>> r) + (e <<< (64 - r))).toNat = d.toNat / 2 ^ r + e.toNat % 2 ^ r * 2 ^ (64 - r) := by
  have hbase : (2 : ℕ) ^ 64 = 2 ^ r * 2 ^ (64 - r) := by rw [← pow_add]; congr 1; omega
  rw [BitVec.toNat_add, BitVec.toNat_ushiftRight, BitVec.toNat_shiftLeft, Nat.shiftRight_eq_div_pow,
    Nat.shiftLeft_eq]
  nth_rewrite 1 [hbase]
  rw [Nat.mul_mod_mul_right, Nat.mod_eq_of_lt (shifted_lt hbase d.isLt (Nat.two_pow_pos r))]

theorem toNat_shl_limb (d e : Word) (hr : r < 64) (hpos : 0 < r) :
    ((d <<< r) + (e >>> (64 - r))).toNat = d.toNat % 2 ^ (64 - r) * 2 ^ r +
      e.toNat / 2 ^ (64 - r) := by
  have h := toNat_shr_limb e d (show 64 - r < 64 by omega)
  rwa [Nat.sub_sub_self hr.le, BitVec.add_comm, Nat.add_comm] at h

theorem lt_four (hk : k.toNat < 4) : k = 0 ∨ k = 1 ∨ k = 2 ∨ k = 3 := by
  simp only [← BitVec.toNat_inj]
  change k.toNat = 0 ∨ k.toNat = 1 ∨ k.toNat = 2 ∨ k.toNat = 3
  omega

theorem toNat_dropLimbs (x : Uint256) (hk : k.toNat < 4) :
    (x.dropLimbs k).toNat = x.toNat / 2 ^ (64 * k.toNat) := by
  have h0 := x.data0.isLt
  have h1 := x.data1.isLt
  have h2 := x.data2.isLt
  obtain rfl | rfl | rfl | rfl := lt_four hk
  · exact (Nat.div_one _).symm
  · change (Uint256.mk x.data1 x.data2 x.data3 0).toNat = x.toNat / 2 ^ 64
    rw [toNat_mk, toNat_eq, show (0 : Word).toNat = 0 from rfl]
    omega
  · change (Uint256.mk x.data2 x.data3 0 0).toNat = x.toNat / 2 ^ 128
    rw [toNat_mk, toNat_eq, show (0 : Word).toNat = 0 from rfl]
    omega
  · change (Uint256.mk x.data3 0 0 0).toNat = x.toNat / 2 ^ 192
    rw [toNat_mk, toNat_eq, show (0 : Word).toNat = 0 from rfl]
    omega

theorem toNat_raiseLimbs (x : Uint256) (hk : k.toNat < 4) :
    (x.raiseLimbs k).toNat = x.toNat * 2 ^ (64 * k.toNat) % 2 ^ 256 := by
  have h0 := x.data0.isLt
  have h1 := x.data1.isLt
  have h2 := x.data2.isLt
  have hlt := x.toNat_lt
  obtain rfl | rfl | rfl | rfl := lt_four hk
  · change x.toNat = x.toNat * 1 % 2 ^ 256
    rw [mul_one, Nat.mod_eq_of_lt hlt]
  · change (Uint256.mk 0 x.data0 x.data1 x.data2).toNat = x.toNat * 2 ^ 64 % 2 ^ 256
    rw [toNat_mk, toNat_eq, show (0 : Word).toNat = 0 from rfl]
    omega
  · change (Uint256.mk 0 0 x.data0 x.data1).toNat = x.toNat * 2 ^ 128 % 2 ^ 256
    rw [toNat_mk, toNat_eq, show (0 : Word).toNat = 0 from rfl]
    omega
  · change (Uint256.mk 0 0 0 x.data0).toNat = x.toNat * 2 ^ 192 % 2 ^ 256
    rw [toNat_mk, toNat_eq, show (0 : Word).toNat = 0 from rfl]
    omega

theorem toNat_shr_limbs (hr : r < 64) : (Uint256.mk ((a.data0 >>> r) + (a.data1 <<< (64 - r)))
      ((a.data1 >>> r) + (a.data2 <<< (64 - r))) ((a.data2 >>> r) + (a.data3 <<< (64 - r)))
      (a.data3 >>> r)).toNat = a.toNat / 2 ^ r := by
  have hbase : (2 : ℕ) ^ 64 = 2 ^ r * 2 ^ (64 - r) := by rw [← pow_add]; congr 1; omega
  have hdigit := shr_digit hbase (Nat.two_pow_pos r)
  have hmod : ∀ d y : ℕ, (d + 2 ^ 64 * y) % 2 ^ r = d % 2 ^ r := by
    intro d y
    rw [hbase, mul_assoc, Nat.add_mul_mod_self_left]
  rw [toNat_mk, toNat_eq, hdigit, hdigit, hdigit, hmod, hmod, toNat_shr_limb _ _ hr,
    toNat_shr_limb _ _ hr, toNat_shr_limb _ _ hr, BitVec.toNat_ushiftRight,
    Nat.shiftRight_eq_div_pow]

theorem toNat_shl_limbs (hr : r < 64) (hpos : 0 < r) :
    (Uint256.mk (a.data0 <<< r) ((a.data1 <<< r) + (a.data0 >>> (64 - r)))
      ((a.data2 <<< r) + (a.data1 >>> (64 - r))) ((a.data3 <<< r) + (a.data2 >>> (64 - r)))).toNat =
      a.toNat * 2 ^ r % 2 ^ 256 := by
  have hbase : (2 : ℕ) ^ 64 = 2 ^ r * 2 ^ (64 - r) := by rw [← pow_add]; congr 1; omega
  have hlast : ∀ d : ℕ, d * 2 ^ r = d % 2 ^ (64 - r) * 2 ^ r + 2 ^ 64 * (d / 2 ^ (64 - r)) := by
    intro d
    have h := shl_digit hbase d 0
    rwa [mul_zero, add_zero, zero_mul, add_zero] at h
  have hfirst : (a.data0 <<< r).toNat = a.data0.toNat % 2 ^ (64 - r) * 2 ^ r := by
    rw [BitVec.toNat_shiftLeft, Nat.shiftLeft_eq, hbase, mul_comm (2 ^ r) (2 ^ (64 - r)),
      Nat.mul_mod_mul_right]
  have hexact : a.toNat * 2 ^ r =
      (Uint256.mk (a.data0 <<< r) ((a.data1 <<< r) + (a.data0 >>> (64 - r)))
        ((a.data2 <<< r) + (a.data1 >>> (64 - r)))
        ((a.data3 <<< r) + (a.data2 >>> (64 - r)))).toNat +
        2 ^ 256 * (a.data3.toNat / 2 ^ (64 - r)) := by
    rw [toNat_mk, toNat_eq, shl_digit hbase, shl_digit hbase, shl_digit hbase,
      hlast a.data3.toNat, hfirst, toNat_shl_limb _ _ hr hpos, toNat_shl_limb _ _ hr hpos,
      toNat_shl_limb _ _ hr hpos, two_pow_eq]
    generalize (2 : ℕ) ^ 64 = base
    ring
  rw [hexact, Nat.add_mul_mod_self_left, Nat.mod_eq_of_lt (toNat_lt _)]

theorem toNat_sixtyFour_sub (s : Word) : (64 - (s &&& 63)).toNat = 64 - (s &&& 63).toNat := by
  rw [BitVec.toNat_sub, toNat_and_63, show (64 : Word).toNat = 64 from rfl]
  omega

theorem shift_iff (s : Word) : ((ofUint64 s).data0 ≥ 256 ∨ (ofUint64 s).data1 ≠ 0 ∨
    (ofUint64 s).data2 ≠ 0 ∨ (ofUint64 s).data3 ≠ 0) ↔ 256 ≤ s.toNat := by
  simp only [ofUint64, ne_eq, not_true, or_false, ge_iff_le, BitVec.le_def]
  rfl

theorem toNat_shr (s : Word) : (a.shr s).toNat = a.toNat / 2 ^ s.toNat := by
  have hlt := a.toNat_lt
  rw [shr, shrWide]
  dsimp only
  by_cases hfar : 256 ≤ s.toNat
  · rw [if_pos ((shift_iff s).2 hfar), toNat_ofUint64, Nat.div_eq_of_lt]
    · rfl
    · exact hlt.trans_le (Nat.pow_le_pow_right (by norm_num) hfar)
  rw [if_neg (mt (shift_iff s).1 hfar)]
  by_cases hzero : (ofUint64 s).data0 = 0
  · rw [if_pos hzero, show s = 0 from hzero]
    exact (Nat.div_one _).symm
  rw [if_neg hzero, toNat_dropLimbs _ (by
    change (s >>> 6).toNat < 4
    rw [toNat_shift_6]
    omega)]
  have hsum : s.toNat = s.toNat % 64 + 64 * (s.toNat / 64) := by omega
  change _ / 2 ^ (64 * (s >>> 6).toNat) = _
  rw [toNat_shift_6]
  by_cases hlimb : s &&& 63 = 0
  · have hmod : s.toNat % 64 = 0 := by
      rw [← toNat_and_63, hlimb]
      rfl
    rw [if_pos (show (ofUint64 s).data0 &&& 63 = 0 from hlimb)]
    nth_rewrite 2 [hsum]
    rw [hmod, Nat.zero_add]
  · rw [if_neg (show ¬(ofUint64 s).data0 &&& 63 = 0 from hlimb)]
    have hlimbs := toNat_shr_limbs a (show s.toNat % 64 < 64 by omega)
    rw [← toNat_and_63, ← toNat_sixtyFour_sub] at hlimbs
    refine (congrArg (· / 2 ^ (64 * (s.toNat / 64))) hlimbs).trans ?_
    rw [Nat.div_div_eq_div_mul, ← pow_add, toNat_and_63, ← hsum]

theorem toNat_shl (s : Word) : (a.shl s).toNat = a.toNat * 2 ^ s.toNat % 2 ^ 256 := by
  rw [shl, shlWide]
  dsimp only
  by_cases hfar : 256 ≤ s.toNat
  · rw [if_pos ((shift_iff s).2 hfar), toNat_ofUint64]
    exact (Nat.mod_eq_zero_of_dvd ((pow_dvd_pow 2 hfar).mul_left _)).symm
  rw [if_neg (mt (shift_iff s).1 hfar)]
  by_cases hzero : (ofUint64 s).data0 = 0
  · rw [if_pos hzero, show s = 0 from hzero, show (0 : Word).toNat = 0 from rfl, pow_zero, mul_one,
      Nat.mod_eq_of_lt a.toNat_lt]
  rw [if_neg hzero, toNat_raiseLimbs _ (by
    change (s >>> 6).toNat < 4
    rw [toNat_shift_6]
    omega)]
  have hsum : s.toNat = s.toNat % 64 + 64 * (s.toNat / 64) := by omega
  change _ * 2 ^ (64 * (s >>> 6).toNat) % _ = _
  rw [toNat_shift_6]
  by_cases hlimb : s &&& 63 = 0
  · have hmod : s.toNat % 64 = 0 := by
      rw [← toNat_and_63, hlimb]
      rfl
    rw [if_pos (show (ofUint64 s).data0 &&& 63 = 0 from hlimb)]
    nth_rewrite 2 [hsum]
    rw [hmod, Nat.zero_add]
  · rw [if_neg (show ¬(ofUint64 s).data0 &&& 63 = 0 from hlimb)]
    have hpos : 0 < s.toNat % 64 := by
      rw [← toNat_and_63]
      exact Nat.pos_of_ne_zero fun h => hlimb (BitVec.eq_of_toNat_eq h)
    have hlimbs := toNat_shl_limbs a (show s.toNat % 64 < 64 by omega) hpos
    rw [← toNat_and_63, ← toNat_sixtyFour_sub] at hlimbs
    refine (congrArg (· * 2 ^ (64 * (s.toNat / 64)) % 2 ^ 256) hlimbs).trans ?_
    rw [Nat.mod_mul_mod, mul_assoc, ← pow_add, toNat_and_63, ← hsum]

instance : UintValue Uint256 := ⟨toNat⟩

/-- **The operations are those of the integers modulo `2 ^ 256`.** -/
instance : LawfulUint Uint256 where
  length_eq := rfl
  sixtyFour_le_length := by decide
  length_lt := by decide
  toNat_lt := toNat_lt
  toNat_injective := toNat_injective
  toNat_ofUint64 := toNat_ofUint64
  toNat_add := toNat_add
  toNat_sub := toNat_sub
  toNat_mul := toNat_mul
  mulExtended_eq := mulExtended_eq
  toNat_and := toNat_and
  toNat_xor := toNat_xor
  toNat_or := toNat_or
  toNat_not := toNat_not
  eq_iff := eq_iff
  gt_iff := gt_iff
  toNat_shr := toNat_shr
  toNat_shl := toNat_shl
  getBit_eq := getBit_eq
  toNat_getMsb := toNat_getMsb

end Uint256
