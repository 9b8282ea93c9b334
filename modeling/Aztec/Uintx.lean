/-
**Integers of twice the width of others.**

`uintx<base_uint>` is two integers of a base type, and so are `uint512_t`, `uint1024_t` and all that
follow.  Nothing is known of the base type but its laws, and the double has them again.
-/

import Aztec.Uint256

open Nat (add_mul_div_left div_eq_of_lt log2 mod_eq_of_lt mod_mul two_pow_pos)

@[ext] structure Uintx (β : Type) where
  lo : β
  hi : β

namespace Uintx

open UintOps UintValue LawfulUint Digits LawfulUint

variable {β : Type}

/-! ### The operations -/

section Operations

variable [UintOps β]

def length (β : Type) [UintOps β] : ℕ := 2 * UintOps.length β

def ofBase (lo : β) : Uintx β := ⟨lo, ofUint64 0⟩

def ofUint64 (data : Word) : Uintx β := ⟨UintOps.ofUint64 data, UintOps.ofUint64 0⟩

/-- `base_uint(1)` or `base_uint(0)`. -/
def bit (b : Bool) : β := if b then UintOps.ofUint64 1 else UintOps.ofUint64 0

def add (a b : Uintx β) : Uintx β :=
  let resLo := UintOps.add a.lo b.lo
  let carry := lt resLo a.lo
  let resHi := UintOps.add (UintOps.add a.hi b.hi) (bit carry)
  ⟨resLo, resHi⟩

def sub (a b : Uintx β) : Uintx β :=
  let resLo := UintOps.sub a.lo b.lo
  let borrow := gt resLo a.lo
  let resHi := UintOps.sub (UintOps.sub a.hi b.hi) (bit borrow)
  ⟨resLo, resHi⟩

def mul (a b : Uintx β) : Uintx β :=
  let lolo := UintOps.mulExtended a.lo b.lo
  let lohi := UintOps.mulExtended a.lo b.hi
  let hilo := UintOps.mulExtended a.hi b.lo
  let top := UintOps.add (UintOps.add lolo.2 hilo.1) lohi.1
  ⟨lolo.1, top⟩

def mulExtended (a b : Uintx β) : Uintx β × Uintx β :=
  let lolo := UintOps.mulExtended a.lo b.lo
  let lohi := UintOps.mulExtended a.lo b.hi
  let hilo := UintOps.mulExtended a.hi b.lo
  let hihi := UintOps.mulExtended a.hi b.hi
  let t0 := lolo.1
  let t1 := lolo.2
  let t2 := hilo.2
  let t3 := hihi.2
  let t2Carry : β := UintOps.ofUint64 0
  let t3Carry : β := UintOps.ofUint64 0
  let t1 := UintOps.add t1 hilo.1
  let t2Carry := UintOps.add t2Carry (bit (lt t1 hilo.1))
  let t1 := UintOps.add t1 lohi.1
  let t2Carry := UintOps.add t2Carry (bit (lt t1 lohi.1))
  let t2 := UintOps.add t2 lohi.2
  let t3Carry := UintOps.add t3Carry (bit (lt t2 lohi.2))
  let t2 := UintOps.add t2 hihi.1
  let t3Carry := UintOps.add t3Carry (bit (lt t2 hihi.1))
  let t2 := UintOps.add t2 t2Carry
  let t3Carry := UintOps.add t3Carry (bit (lt t2 t2Carry))
  let t3 := UintOps.add t3 t3Carry
  (⟨t0, t1⟩, ⟨t2, t3⟩)

def and (a b : Uintx β) : Uintx β := ⟨UintOps.and a.lo b.lo, UintOps.and a.hi b.hi⟩

def xor (a b : Uintx β) : Uintx β := ⟨UintOps.xor a.lo b.lo, UintOps.xor a.hi b.hi⟩

def or (a b : Uintx β) : Uintx β := ⟨UintOps.or a.lo b.lo, UintOps.or a.hi b.hi⟩

def not (a : Uintx β) : Uintx β := ⟨UintOps.not a.lo, UintOps.not a.hi⟩

def eq (a b : Uintx β) : Bool := UintOps.eq a.lo b.lo && UintOps.eq a.hi b.hi

def gt (a b : Uintx β) : Bool :=
  let hiGt := UintOps.gt a.hi b.hi
  let loGt := UintOps.gt a.lo b.lo
  hiGt || (loGt && UintOps.eq a.hi b.hi)

def getBit (a : Uintx β) (bitIndex : Word) : Bool :=
  if bitIndex.toNat ≥ UintOps.length β then
    UintOps.getBit a.hi (bitIndex - BitVec.ofNat 64 (UintOps.length β))
  else UintOps.getBit a.lo bitIndex

def getMsb (a : Uintx β) : Word :=
  let hiIdx := UintOps.getMsb a.hi
  let loIdx := UintOps.getMsb a.lo
  if hiIdx ≠ 0 ∨ UintOps.gt a.hi (UintOps.ofUint64 0) = true then
    hiIdx + BitVec.ofNat 64 (UintOps.length β)
  else loIdx

/-- `total_shift >> (base_uint(base_uint::length()).get_msb())`. -/
def numShiftedLimbs (β : Type) [UintOps β] (totalShift : Word) : Word :=
  totalShift >>>
    (UintOps.getMsb (UintOps.ofUint64 (BitVec.ofNat 64 (UintOps.length β)) : β)).toNat

def limbShift (β : Type) [UintOps β] (totalShift : Word) : Word :=
  totalShift &&& BitVec.ofNat 64 (UintOps.length β - 1)

def shr (a : Uintx β) (totalShift : Word) : Uintx β :=
  if totalShift.toNat ≥ length β then ofUint64 0
  else if totalShift = 0 then a
  else
    let limbShift := limbShift β totalShift
    let shiftedLimbs : β × β :=
      if limbShift = 0 then (a.lo, a.hi)
      else
        let remainderShift := BitVec.ofNat 64 (UintOps.length β) - limbShift
        (UintOps.add (UintOps.shr a.lo limbShift) (UintOps.shl a.hi remainderShift),
          UintOps.shr a.hi limbShift)
    if numShiftedLimbs β totalShift = 0 then ⟨shiftedLimbs.1, shiftedLimbs.2⟩
    else ⟨shiftedLimbs.2, UintOps.ofUint64 0⟩

def shl (a : Uintx β) (totalShift : Word) : Uintx β :=
  if totalShift.toNat ≥ length β then ofUint64 0
  else if totalShift = 0 then a
  else
    let limbShift := limbShift β totalShift
    let shiftedLimbs : β × β :=
      if limbShift = 0 then (a.lo, a.hi)
      else
        let remainderShift := BitVec.ofNat 64 (UintOps.length β) - limbShift
        (UintOps.shl a.lo limbShift,
          UintOps.add (UintOps.shl a.hi limbShift) (UintOps.shr a.lo remainderShift))
    if numShiftedLimbs β totalShift = 0 then ⟨shiftedLimbs.1, shiftedLimbs.2⟩
    else ⟨UintOps.ofUint64 0, shiftedLimbs.1⟩

instance : UintOps (Uintx β) where
  length := length β
  ofUint64 := ofUint64
  add := add
  sub := sub
  mul := mul
  mulExtended := mulExtended
  and := and
  xor := xor
  or := or
  not := not
  eq := eq
  gt := gt
  shr := shr
  shl := shl
  getBit := getBit
  getMsb := getMsb

end Operations

/-! ### The laws -/

instance [UintOps β] [UintValue β] : UintValue (Uintx β) :=
  ⟨fun a => toNat a.lo + 2 ^ UintOps.length β * toNat a.hi⟩

variable [UintOps β] [UintValue β]

theorem toNat_eq (a : Uintx β) : toNat a = toNat a.lo + 2 ^ UintOps.length β * toNat a.hi := rfl

omit [UintValue β] in
theorem two_pow_length : 2 ^ UintOps.length (Uintx β) =
    2 ^ UintOps.length β * 2 ^ UintOps.length β := by
  rw [← pow_add, ← two_mul]
  rfl

variable [LawfulUint β]

theorem toNat_bit (b : Bool) : toNat (bit b : β) = if b then 1 else 0 := by
  cases b
  · exact toNat_ofUint64 0
  · exact toNat_ofUint64 1

theorem toNat_ofUint64_eq (w : Word) : toNat (ofUint64 w : Uintx β) = w.toNat := by
  change toNat (UintOps.ofUint64 w : β) + _ * toNat (UintOps.ofUint64 0 : β) = _
  rw [toNat_ofUint64, toNat_ofUint64, show (0 : Word).toNat = 0 from rfl, mul_zero, add_zero]

theorem toNat_lt' (a : Uintx β) : toNat a < 2 ^ UintOps.length (Uintx β) := by
  rw [two_pow_length, toNat_eq]
  have hlo := toNat_lt a.lo
  have hhi := Nat.mul_le_mul_left (2 ^ UintOps.length β) (Nat.succ_le_of_lt (toNat_lt a.hi))
  rw [Nat.mul_succ] at hhi
  omega

theorem toNat_injective' : Function.Injective (toNat : Uintx β → ℕ) := by
  intro a b h
  obtain ⟨hhi, hlo⟩ := (eq_digits (toNat_lt a.lo) (toNat_lt b.lo)).1 h
  exact Uintx.ext (toNat_injective hlo) (toNat_injective hhi)

theorem add_carry (x y : β) : toNat (UintOps.add x y) +
    2 ^ UintOps.length β * toNat (bit (lt (UintOps.add x y) y) : β) = toNat x + toNat y := by
  have hx := toNat_lt x
  have hy := toNat_lt y
  rw [toNat_bit]
  simp only [lt_iff, toNat_add]
  by_cases hover : toNat x + toNat y < 2 ^ UintOps.length β
  · rw [mod_eq_of_lt hover, if_neg (by omega), mul_zero, add_zero]
  · have hmod : (toNat x + toNat y) % 2 ^ UintOps.length β =
        toNat x + toNat y - 2 ^ UintOps.length β := by
      rw [Nat.mod_eq_sub_mod (by omega), mod_eq_of_lt (by omega)]
    rw [hmod, if_pos (by omega)]
    omega

theorem add_comm_carry (x y : β) : toNat (bit (lt (UintOps.add x y) x) : β) =
    (toNat x + toNat y) / 2 ^ UintOps.length β := by
  have hsum := add_carry y x
  have hcomm : toNat (UintOps.add y x) = toNat (UintOps.add x y) := by
    rw [toNat_add, toNat_add, add_comm]
  rw [toNat_injective hcomm, add_comm (toNat y)] at hsum
  rw [← hsum, add_mul_div_left _ _ (two_pow_pos _), div_eq_of_lt (toNat_lt _), zero_add]

variable (a b : Uintx β)

theorem toNat_add' : toNat (add a b) = (toNat a + toNat b) % 2 ^ UintOps.length (Uintx β) := by
  have hsum : toNat a + toNat b = toNat a.lo + toNat b.lo +
      2 ^ UintOps.length β * (toNat a.hi + toNat b.hi) := by
    rw [toNat_eq, toNat_eq]
    ring
  rw [two_pow_length, mod_mul, hsum, Nat.add_mul_mod_self_left,
    add_mul_div_left _ _ (two_pow_pos _)]
  change toNat (UintOps.add a.lo b.lo) + _ * toNat (UintOps.add (UintOps.add a.hi b.hi) _) = _
  rw [toNat_add, toNat_add, toNat_add, add_comm_carry, Nat.mod_add_mod, add_comm (_ / _)]

theorem toNat_sub' : toNat (sub a b) =
    (toNat a + (2 ^ UintOps.length (Uintx β) - toNat b)) % 2 ^ UintOps.length (Uintx β) := by
  have ha0 := toNat_lt a.lo
  have hb0 := toNat_lt b.lo
  have hb1 := toNat_lt b.hi
  rw [two_pow_length]
  change toNat (UintOps.sub a.lo b.lo) + _ * toNat (UintOps.sub (UintOps.sub a.hi b.hi) _) = _
  rw [toNat_sub (UintOps.sub a.hi b.hi), toNat_sub a.hi, toNat_bit]
  simp only [gt_iff, toNat_sub]
  rw [toNat_eq, toNat_eq]
  generalize toNat a.lo = a0 at *
  generalize toNat a.hi = a1 at *
  generalize toNat b.lo = b0 at *
  generalize toNat b.hi = b1 at *
  obtain ⟨y, hy⟩ : ∃ y, 2 ^ UintOps.length β = b1 + (y + 1) :=
    ⟨2 ^ UintOps.length β - b1 - 1, by omega⟩
  generalize 2 ^ UintOps.length β = base at *
  have hwhole : a0 + base * a1 + (base * base - (b0 + base * b1)) =
      a0 + (base - b0) + base * (a1 + y) := by
    have hsquare : base * base = base * b1 + base * y + base := by
      nth_rewrite 2 [hy]
      ring
    rw [hsquare, mul_add]
    omega
  rw [hwhole, mod_mul, Nat.add_mul_mod_self_left, add_mul_div_left _ _ (by omega),
    show base - b1 = y + 1 by omega]
  congr 2
  by_cases hborrow : a0 < b0
  · have hlow : (a0 + (base - b0)) % base = a0 + (base - b0) := mod_eq_of_lt (by omega)
    rw [hlow, if_pos (by omega), div_eq_of_lt (by omega), zero_add, Nat.mod_add_mod,
      show a1 + (y + 1) + (base - 1) = a1 + y + base by omega, Nat.add_mod_right]
  · have hlow : (a0 + (base - b0)) % base = a0 - b0 := by
      rw [show a0 + (base - b0) = a0 - b0 + base by omega, Nat.add_mod_right,
        mod_eq_of_lt (by omega)]
    have hquot : (a0 + (base - b0)) / base = 1 := by
      rw [show a0 + (base - b0) = a0 - b0 + base by omega, Nat.add_div_right _ (by omega),
        div_eq_of_lt (by omega)]
    rw [hlow, if_neg (by omega), Nat.sub_zero, Nat.add_mod_right, Nat.mod_mod, hquot,
      show 1 + (a1 + y) = a1 + (y + 1) by omega]

theorem toNat_mul' : toNat (mul a b) = toNat a * toNat b % 2 ^ UintOps.length (Uintx β) := by
  have hlolo := mulExtended_eq a.lo b.lo
  have hlohi := mulExtended_eq a.lo b.hi
  have hhilo := mulExtended_eq a.hi b.lo
  have hlow := toNat_lt (UintOps.mulExtended a.lo b.lo).1
  rw [two_pow_length]
  change toNat (UintOps.mulExtended a.lo b.lo).1 + _ * toNat (UintOps.add (UintOps.add _ _) _) = _
  rw [toNat_add, toNat_add, toNat_eq, toNat_eq, Nat.mod_add_mod]
  generalize UintOps.mulExtended a.lo b.lo = lolo at *
  generalize UintOps.mulExtended a.lo b.hi = lohi at *
  generalize UintOps.mulExtended a.hi b.lo = hilo at *
  generalize 2 ^ UintOps.length β = base at *
  have hproduct : (toNat a.lo + base * toNat a.hi) * (toNat b.lo + base * toNat b.hi) =
      toNat lolo.1 + base * (toNat lolo.2 + toNat hilo.1 + toNat lohi.1 +
        base * (toNat lohi.2 + toNat hilo.2 + toNat a.hi * toNat b.hi)) := by
    zify at *
    linear_combination -hlolo - base * hlohi - base * hhilo
  rw [hproduct, mod_mul, Nat.add_mul_mod_self_left, mod_eq_of_lt hlow,
    add_mul_div_left _ _ (by omega), div_eq_of_lt hlow, zero_add, Nat.add_mul_mod_self_left]

theorem toNat_bit_le (b : Bool) : toNat (bit b : β) ≤ 1 := by
  rw [toNat_bit]
  split <;> omega

theorem toNat_add_small {x y : β} (h : toNat x + toNat y ≤ 3) :
    toNat (UintOps.add x y) = toNat x + toNat y := by
  rw [toNat_add, mod_eq_of_lt]
  have hlength : 64 ≤ UintOps.length β := sixtyFour_le_length
  calc toNat x + toNat y < 2 ^ 2 := by omega
    _ ≤ 2 ^ UintOps.length β := Nat.pow_le_pow_right (by norm_num) (by omega)

theorem mulExtended_eq' : toNat (mulExtended a b).1 +
    2 ^ UintOps.length (Uintx β) * toNat (mulExtended a b).2 = toNat a * toNat b := by
  have hbound : toNat a * toNat b < 2 ^ UintOps.length (Uintx β) * 2 ^ UintOps.length (Uintx β) :=
    Nat.mul_lt_mul_of_lt_of_lt (toNat_lt' a) (toNat_lt' b)
  have hlolo := mulExtended_eq a.lo b.lo
  have hlohi := mulExtended_eq a.lo b.hi
  have hhilo := mulExtended_eq a.hi b.lo
  have hhihi := mulExtended_eq a.hi b.hi
  have hzero : toNat (UintOps.ofUint64 0 : β) = 0 := toNat_ofUint64 0
  rw [two_pow_length] at hbound ⊢
  rw [mulExtended]
  dsimp only
  rw [toNat_eq, toNat_eq]
  dsimp only
  generalize UintOps.mulExtended a.lo b.lo = lolo at *
  generalize UintOps.mulExtended a.lo b.hi = lohi at *
  generalize UintOps.mulExtended a.hi b.lo = hilo at *
  generalize UintOps.mulExtended a.hi b.hi = hihi at *
  -- the second digit, and its two carries
  have h1 := add_carry lolo.2 hilo.1
  generalize UintOps.add lolo.2 hilo.1 = s1 at *
  have hc1 : toNat (bit (lt s1 hilo.1) : β) ≤ 1 := toNat_bit_le _
  generalize (bit (lt s1 hilo.1) : β) = c1 at *
  have h2 := add_carry s1 lohi.1
  generalize UintOps.add s1 lohi.1 = s2 at *
  have hc2 : toNat (bit (lt s2 lohi.1) : β) ≤ 1 := toNat_bit_le _
  generalize (bit (lt s2 lohi.1) : β) = c2 at *
  have hcarry1 := toNat_add_small (show toNat (UintOps.ofUint64 0 : β) + toNat c1 ≤ 3 by omega)
  generalize UintOps.add (UintOps.ofUint64 0) c1 = e1 at *
  have hcarry2 := toNat_add_small (show toNat e1 + toNat c2 ≤ 3 by omega)
  generalize UintOps.add e1 c2 = e2 at *
  -- the third digit, and its three carries
  have h3 := add_carry hilo.2 lohi.2
  generalize UintOps.add hilo.2 lohi.2 = s3 at *
  have hc3 : toNat (bit (lt s3 lohi.2) : β) ≤ 1 := toNat_bit_le _
  generalize (bit (lt s3 lohi.2) : β) = c3 at *
  have h4 := add_carry s3 hihi.1
  generalize UintOps.add s3 hihi.1 = s4 at *
  have hc4 : toNat (bit (lt s4 hihi.1) : β) ≤ 1 := toNat_bit_le _
  generalize (bit (lt s4 hihi.1) : β) = c4 at *
  have h5 := add_carry s4 e2
  generalize UintOps.add s4 e2 = s5 at *
  have hc5 : toNat (bit (lt s5 e2) : β) ≤ 1 := toNat_bit_le _
  generalize (bit (lt s5 e2) : β) = c5 at *
  have hcarry3 := toNat_add_small (show toNat (UintOps.ofUint64 0 : β) + toNat c3 ≤ 3 by omega)
  generalize UintOps.add (UintOps.ofUint64 0) c3 = e3 at *
  have hcarry4 := toNat_add_small (show toNat e3 + toNat c4 ≤ 3 by omega)
  generalize UintOps.add e3 c4 = e4 at *
  have hcarry5 := toNat_add_small (show toNat e4 + toNat c5 ≤ 3 by omega)
  generalize UintOps.add e4 c5 = e5 at *
  rw [toNat_eq, toNat_eq] at hbound ⊢
  rw [toNat_add]
  generalize 2 ^ UintOps.length β = base at *
  have hexact : toNat lolo.1 + base * toNat s2 +
      base * base * (toNat s5 + base * (toNat hihi.2 + toNat e5)) =
        (toNat a.lo + base * toNat a.hi) * (toNat b.lo + base * toNat b.hi) := by
    zify at *
    linear_combination hlolo + base * hlohi + base * hhilo + base ^ 2 * hhihi + base * (h1 + h2) +
      base ^ 2 * (h3 + h4 + h5 + hcarry1 + hcarry2 + hzero) +
      base ^ 3 * (hcarry3 + hcarry4 + hcarry5 + hzero)
  rw [mod_eq_of_lt, hexact]
  by_contra hlarge
  have hmul : base * base * (base * base) ≤ base * base * (base * (toNat hihi.2 + toNat e5)) :=
    Nat.mul_le_mul_left _ (Nat.mul_le_mul_left _ (by omega))
  rw [← hexact, mul_add (base * base)] at hbound
  omega

/-! ### The order and the bits -/

theorem eq_iff' : eq a b = true ↔ toNat a = toNat b := by
  rw [toNat_eq, toNat_eq, eq_digits (toNat_lt a.lo) (toNat_lt b.lo), eq,
    Bool.and_eq_true, eq_iff, eq_iff, and_comm]

theorem gt_iff' : gt a b = true ↔ toNat b < toNat a := by
  rw [toNat_eq, toNat_eq, lt_digits (toNat_lt a.lo) (toNat_lt b.lo), gt, Bool.or_eq_true,
    Bool.and_eq_true, gt_iff, gt_iff, eq_iff, and_comm]

theorem testBit_toNat (a : Uintx β) (i : ℕ) : (toNat a).testBit i =
    if i < UintOps.length β then (toNat a.lo).testBit i
    else (toNat a.hi).testBit (i - UintOps.length β) :=
  testBit_digits (toNat_lt a.lo) _ _

theorem toNat_and' : toNat (and a b) = toNat a &&& toNat b := by
  refine Nat.eq_of_testBit_eq fun i => ?_
  simp only [Nat.testBit_and, testBit_toNat, and, toNat_and]
  split_ifs <;> rfl

theorem toNat_xor' : toNat (xor a b) = toNat a ^^^ toNat b := by
  refine Nat.eq_of_testBit_eq fun i => ?_
  simp only [Nat.testBit_xor, testBit_toNat, xor, toNat_xor]
  split_ifs <;> rfl

theorem toNat_or' : toNat (or a b) = toNat a ||| toNat b := by
  refine Nat.eq_of_testBit_eq fun i => ?_
  simp only [Nat.testBit_or, testBit_toNat, or, toNat_or]
  split_ifs <;> rfl

theorem toNat_not' (a : Uintx β) : toNat (not a) = 2 ^ UintOps.length (Uintx β) - 1 - toNat a := by
  have hlo := toNat_lt a.lo
  have hhi := Nat.mul_le_mul_left (2 ^ UintOps.length β) (Nat.succ_le_of_lt (toNat_lt a.hi))
  rw [two_pow_length, toNat_eq, toNat_eq, not, toNat_not, toNat_not,
    Nat.mul_sub, Nat.mul_sub, mul_one]
  rw [Nat.mul_succ] at hhi
  omega

/-! ### Indices and shifts -/

theorem toNat_length : (BitVec.ofNat 64 (UintOps.length β)).toNat = UintOps.length β := by
  rw [BitVec.toNat_ofNat, mod_eq_of_lt length_lt]

theorem getBit_eq' (a : Uintx β) (i : Word) (hi : i.toNat < UintOps.length (Uintx β)) :
    getBit a i = (toNat a).testBit i.toNat := by
  change i.toNat < 2 * UintOps.length β at hi
  rw [getBit, testBit_toNat]
  by_cases hlow : i.toNat < UintOps.length β
  · rw [if_neg (by omega), if_pos hlow, getBit_eq _ _ hlow]
  · have hindex : (i - BitVec.ofNat 64 (UintOps.length β)).toNat = i.toNat - UintOps.length β := by
      have hlength : UintOps.length β < 2 ^ 64 := length_lt
      rw [BitVec.toNat_sub, toNat_length]
      omega
    rw [if_pos (by omega), if_neg hlow, getBit_eq _ _ (by rw [hindex]; omega), hindex]

theorem toNat_getMsb' (h : 2 * UintOps.length β < 2 ^ 64) (a : Uintx β) :
    (getMsb a).toNat = log2 (toNat a) := by
  have hzero : toNat (UintOps.ofUint64 0 : β) = 0 := toNat_ofUint64 0
  have hcond : ((UintOps.getMsb a.hi ≠ 0 ∨ UintOps.gt a.hi (UintOps.ofUint64 0) = true) ↔
      toNat a.hi ≠ 0) := by
    rw [gt_iff, hzero]
    constructor
    · rintro (hmsb | hpos)
      · intro heq
        refine hmsb (BitVec.eq_of_toNat_eq ?_)
        rw [toNat_getMsb, heq]
        rfl
      · omega
    · exact fun hne => .inr (Nat.pos_of_ne_zero hne)
  rw [getMsb, toNat_eq]
  by_cases hhi : toNat a.hi = 0
  · rw [if_neg (mt hcond.1 (not_not.2 hhi)), hhi, mul_zero, add_zero, toNat_getMsb]
  · have hlog : log2 (toNat a.hi) < UintOps.length β :=
      (Nat.log2_lt hhi).2 (toNat_lt a.hi)
    rw [if_pos (hcond.2 hhi), log2_digits (toNat_lt a.lo) hhi, BitVec.toNat_add,
      toNat_length, toNat_getMsb, mod_eq_of_lt (by omega)]

variable (s : Word)

theorem toNat_numShiftedLimbs : (numShiftedLimbs β s).toNat = s.toNat / UintOps.length β := by
  rw [numShiftedLimbs, toNat_getMsb, toNat_ofUint64, toNat_length,
    BitVec.toNat_ushiftRight, Nat.shiftRight_eq_div_pow, ← length_eq]

theorem toNat_limbShift : (limbShift β s).toNat = s.toNat % UintOps.length β := by
  have hlength : UintOps.length β < 2 ^ 64 := length_lt
  rw [limbShift, BitVec.toNat_and, BitVec.toNat_ofNat, mod_eq_of_lt (by omega),
    length_eq, Nat.and_two_pow_sub_one_eq_mod]

theorem limbShift_lt : s.toNat % UintOps.length β < UintOps.length β := by
  have hlength : 64 ≤ UintOps.length β := sixtyFour_le_length
  exact Nat.mod_lt _ (by omega)

theorem toNat_remainderShift : (BitVec.ofNat 64 (UintOps.length β) - limbShift β s).toNat =
      UintOps.length β - s.toNat % UintOps.length β := by
  have hlength : UintOps.length β < 2 ^ 64 := length_lt
  have hmod : s.toNat % UintOps.length β < UintOps.length β := limbShift_lt s
  rw [BitVec.toNat_sub, toNat_length, toNat_limbShift]
  omega

omit [UintValue β] [LawfulUint β] in
theorem shift_eq : s.toNat = s.toNat % UintOps.length β +
    UintOps.length β * (s.toNat / UintOps.length β) := (Nat.mod_add_div _ _).symm

theorem numShiftedLimbs_eq_zero : numShiftedLimbs β s = 0 ↔ s.toNat / UintOps.length β = 0 := by
  rw [← toNat_numShiftedLimbs, ← BitVec.toNat_inj]
  rfl

theorem limbShift_eq_zero : limbShift β s = 0 ↔ s.toNat % UintOps.length β = 0 := by
  rw [← toNat_limbShift, ← BitVec.toNat_inj]
  rfl

theorem two_pow_split : 2 ^ UintOps.length β =
    2 ^ (s.toNat % UintOps.length β) * 2 ^ (UintOps.length β - s.toNat % UintOps.length β) := by
  have hlt : s.toNat % UintOps.length β < UintOps.length β := limbShift_lt s
  rw [← pow_add]
  congr 1
  omega

theorem shl_mod (d : ℕ) (s : Word) : d * 2 ^ (s.toNat % UintOps.length β) % 2 ^ UintOps.length β =
      d % 2 ^ (UintOps.length β - s.toNat % UintOps.length β) *
        2 ^ (s.toNat % UintOps.length β) := by
  rw [(two_pow_split s).trans (mul_comm _ _), Nat.mul_mod_mul_right]

theorem toNat_shr_digit (d e : β) (s : Word) : toNat (UintOps.add (UintOps.shr d (limbShift β s))
      (UintOps.shl e (BitVec.ofNat 64 (UintOps.length β) - limbShift β s))) =
        toNat d / 2 ^ (s.toNat % UintOps.length β) + toNat e % 2 ^ (s.toNat % UintOps.length β) *
            2 ^ (UintOps.length β - s.toNat % UintOps.length β) := by
  have hbase : 2 ^ UintOps.length β = _ := two_pow_split s
  have hmod : toNat e * 2 ^ (UintOps.length β - s.toNat % UintOps.length β) % 2 ^ UintOps.length β =
      toNat e % 2 ^ (s.toNat % UintOps.length β) *
        2 ^ (UintOps.length β - s.toNat % UintOps.length β) := by
    rw [hbase, Nat.mul_mod_mul_right]
  rw [toNat_add, toNat_shr, toNat_shl, toNat_limbShift, toNat_remainderShift, hmod, mod_eq_of_lt
    (shifted_lt hbase (toNat_lt d) (two_pow_pos _))]

theorem toNat_shl_digit (d e : β) (s : Word) : toNat (UintOps.add (UintOps.shl d (limbShift β s))
      (UintOps.shr e (BitVec.ofNat 64 (UintOps.length β) - limbShift β s))) =
        toNat d % 2 ^ (UintOps.length β - s.toNat % UintOps.length β) *
          2 ^ (s.toNat % UintOps.length β) +
            toNat e / 2 ^ (UintOps.length β - s.toNat % UintOps.length β) := by
  have hbase : 2 ^ UintOps.length β = _ := (two_pow_split s).trans (mul_comm _ _)
  rw [toNat_add, toNat_shr, toNat_shl, toNat_limbShift, toNat_remainderShift, shl_mod, add_comm,
    mod_eq_of_lt (shifted_lt hbase (toNat_lt e) (two_pow_pos _)), add_comm]

theorem toNat_ofUint64_zero : toNat (UintOps.ofUint64 0 : β) = 0 := toNat_ofUint64 0

theorem toNat_shr' (a : Uintx β) (s : Word) : toNat (shr a s) = toNat a / 2 ^ s.toNat := by
  have hlt := toNat_lt' a
  rw [shr]
  by_cases hfar : s.toNat ≥ length β
  · rw [if_pos hfar, toNat_ofUint64_eq, div_eq_of_lt]
    · rfl
    · exact hlt.trans_le (Nat.pow_le_pow_right (by norm_num) hfar)
  rw [if_neg hfar]
  by_cases hzero : s = 0
  · rw [if_pos hzero, hzero]
    exact (Nat.div_one _).symm
  rw [if_neg hzero]
  have hbase := two_pow_split (β := β) s
  have hsplit := shift_eq (β := β) s
  have hnum : s.toNat / UintOps.length β < 2 :=
    Nat.div_lt_of_lt_mul (by rw [length] at hfar; omega)
  -- the number shifted by the bits of a limb
  obtain ⟨x, hx⟩ : ∃ x : β × β, (if limbShift β s = 0 then (a.lo, a.hi) else
      (UintOps.add (UintOps.shr a.lo (limbShift β s))
        (UintOps.shl a.hi (BitVec.ofNat 64 (UintOps.length β) - limbShift β s)),
        UintOps.shr a.hi (limbShift β s))) = x := ⟨_, rfl⟩
  have hvalue : toNat x.1 + 2 ^ UintOps.length β * toNat x.2 =
      toNat a / 2 ^ (s.toNat % UintOps.length β) := by
    rw [← hx]
    by_cases hlimb : s.toNat % UintOps.length β = 0
    · rw [if_pos ((limbShift_eq_zero s).2 hlimb), hlimb, pow_zero, Nat.div_one]
      rfl
    · rw [if_neg (mt (limbShift_eq_zero s).1 hlimb), toNat_shr_digit, toNat_shr,
        toNat_limbShift, toNat_eq, shr_digit hbase (two_pow_pos _)]
  dsimp only
  rw [hx, hsplit, pow_add, ← Nat.div_div_eq_div_mul, ← hvalue]
  by_cases hlow : s.toNat / UintOps.length β = 0
  · rw [if_pos ((numShiftedLimbs_eq_zero s).2 hlow), hlow, mul_zero, pow_zero, Nat.div_one]
    rfl
  · have hone : s.toNat / UintOps.length β = 1 :=
      Nat.le_antisymm (Nat.lt_succ_iff.1 hnum) (Nat.pos_of_ne_zero hlow)
    rw [if_neg (mt (numShiftedLimbs_eq_zero s).1 hlow), hone, mul_one,
      add_mul_div_left _ _ (two_pow_pos _), div_eq_of_lt (toNat_lt x.1),
      zero_add, toNat_eq, toNat_ofUint64_zero, mul_zero, add_zero]

theorem toNat_shl' (a : Uintx β) (s : Word) :
    toNat (shl a s) = toNat a * 2 ^ s.toNat % 2 ^ UintOps.length (Uintx β) := by
  rw [shl]
  by_cases hfar : s.toNat ≥ length β
  · rw [if_pos hfar, toNat_ofUint64_eq]
    exact (Nat.mod_eq_zero_of_dvd ((pow_dvd_pow 2 hfar).mul_left _)).symm
  rw [if_neg hfar]
  by_cases hzero : s = 0
  · rw [if_pos hzero, hzero, show (0 : Word).toNat = 0 from rfl, pow_zero, mul_one,
      mod_eq_of_lt (toNat_lt' a)]
  rw [if_neg hzero]
  have hbase := two_pow_split (β := β) s
  have hsplit := shift_eq (β := β) s
  have hnum : s.toNat / UintOps.length β < 2 :=
    Nat.div_lt_of_lt_mul (by rw [length] at hfar; omega)
  obtain ⟨x, hx⟩ : ∃ x : β × β, (if limbShift β s = 0 then (a.lo, a.hi) else
      (UintOps.shl a.lo (limbShift β s), UintOps.add (UintOps.shl a.hi (limbShift β s))
        (UintOps.shr a.lo (BitVec.ofNat 64 (UintOps.length β) - limbShift β s)))) = x := ⟨_, rfl⟩
  have hvalue : ∃ high, toNat a * 2 ^ (s.toNat % UintOps.length β) =
      toNat x.1 + 2 ^ UintOps.length β * (toNat x.2 + 2 ^ UintOps.length β * high) := by
    rw [← hx]
    by_cases hlimb : s.toNat % UintOps.length β = 0
    · refine ⟨0, ?_⟩
      rw [if_pos ((limbShift_eq_zero s).2 hlimb), hlimb, pow_zero, mul_one, mul_zero, add_zero]
      rfl
    · refine ⟨toNat a.hi / 2 ^ (UintOps.length β - s.toNat % UintOps.length β), ?_⟩
      have hlast := shl_digit hbase (toNat a.hi) 0
      rw [mul_zero, add_zero, zero_mul, add_zero] at hlast
      rw [if_neg (mt (limbShift_eq_zero s).1 hlimb), toNat_shl_digit, toNat_shl,
        toNat_limbShift, toNat_eq, shl_digit hbase, hlast, shl_mod]
      ring
  obtain ⟨high, hvalue⟩ := hvalue
  have hx1 := toNat_lt x.1
  have hx2 := toNat_lt x.2
  dsimp only
  rw [hx, hsplit, pow_add, ← mul_assoc, hvalue, two_pow_length]
  by_cases hlow : s.toNat / UintOps.length β = 0
  · rw [if_pos ((numShiftedLimbs_eq_zero s).2 hlow), hlow, mul_zero, pow_zero, mul_one, mod_mul,
      Nat.add_mul_mod_self_left, mod_eq_of_lt hx1, add_mul_div_left _ _ (by omega),
      div_eq_of_lt hx1, zero_add, Nat.add_mul_mod_self_left, mod_eq_of_lt hx2]
    rfl
  · have hone : s.toNat / UintOps.length β = 1 :=
      Nat.le_antisymm (Nat.lt_succ_iff.1 hnum) (Nat.pos_of_ne_zero hlow)
    rw [if_neg (mt (numShiftedLimbs_eq_zero s).1 hlow), hone,
      mul_one, Nat.mul_mod_mul_right, Nat.add_mul_mod_self_left, mod_eq_of_lt hx1, toNat_eq,
      toNat_ofUint64_zero, zero_add, mul_comm]

theorem lawful (h : 2 * UintOps.length β < 2 ^ 64) : LawfulUint (Uintx β) where
  length_eq := by
    change 2 * UintOps.length β = 2 ^ log2 (2 * UintOps.length β)
    rw [mul_comm, length_eq, ← pow_succ, Nat.log2_two_pow]
  sixtyFour_le_length := by
    have hlength : 64 ≤ UintOps.length β := sixtyFour_le_length
    change 64 ≤ 2 * UintOps.length β
    omega
  length_lt := h
  toNat_lt := toNat_lt'
  toNat_injective := toNat_injective'
  toNat_ofUint64 := toNat_ofUint64_eq
  toNat_add := toNat_add'
  toNat_sub := toNat_sub'
  toNat_mul := toNat_mul'
  mulExtended_eq := mulExtended_eq'
  toNat_and := toNat_and'
  toNat_xor := toNat_xor'
  toNat_or := toNat_or'
  toNat_not := toNat_not'
  eq_iff := eq_iff'
  gt_iff := gt_iff'
  toNat_shr := toNat_shr'
  toNat_shl := toNat_shl'
  getBit_eq := getBit_eq'
  toNat_getMsb := toNat_getMsb' h

end Uintx

/-! ### The tower -/

def Uint : ℕ → Type
  | 0 => Uint256
  | n + 1 => Uintx (Uint n)

namespace Uint

@[reducible] def ops : (n : ℕ) → UintOps (Uint n)
  | 0 => inferInstanceAs (UintOps Uint256)
  | n + 1 =>
    letI := ops n
    inferInstanceAs (UintOps (Uintx (Uint n)))

instance (n : ℕ) : UintOps (Uint n) := ops n

@[reducible] def value : (n : ℕ) → UintValue (Uint n)
  | 0 => inferInstanceAs (UintValue Uint256)
  | n + 1 =>
    letI := value n
    inferInstanceAs (UintValue (Uintx (Uint n)))

instance (n : ℕ) : UintValue (Uint n) := value n

theorem length_eq (n : ℕ) : UintOps.length (Uint n) = 2 ^ (8 + n) := by
  induction n with
  | zero => rfl
  | succ n ih =>
    change 2 * UintOps.length (Uint n) = _
    rw [ih, ← add_assoc, pow_succ, mul_comm]

theorem lawful {n : ℕ} (h : 8 + n < 64) : LawfulUint (Uint n) := by
  induction n with
  | zero => exact inferInstanceAs (LawfulUint Uint256)
  | succ n ih =>
    have := ih (by omega)
    refine (Uintx.lawful ?_ : LawfulUint (Uintx (Uint n)))
    rw [length_eq, mul_comm, ← pow_succ]
    exact Nat.pow_lt_pow_right (by norm_num) h

end Uint
