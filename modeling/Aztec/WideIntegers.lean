/-
**Unsigned integers of a fixed width.**

What the integer types have in common: their operations, the laws that relate these to the natural
numbers below a power of two, and the long division that every such type has.
-/

import Aztec.Words

/-! ### Numbers of two digits -/

namespace Digits

variable {x x' y y' c n base p q : ℕ}

theorem lt_digits (hx : x < c) (hx' : x' < c) :
    x' + c * y' < x + c * y ↔ y' < y ∨ y = y' ∧ x' < x := by
  constructor
  · intro h
    rcases lt_trichotomy y' y with hy | hy | hy
    · exact .inl hy
    · exact .inr ⟨hy.symm, by rw [hy] at h; omega⟩
    · have := Nat.mul_le_mul_left c hy
      rw [Nat.mul_succ] at this
      omega
  · rintro (hy | ⟨rfl, hx⟩)
    · have := Nat.mul_le_mul_left c hy
      rw [Nat.mul_succ] at this
      omega
    · omega

theorem eq_digits (hx : x < c) (hx' : x' < c) : x + c * y = x' + c * y' ↔ y = y' ∧ x = x' := by
  refine ⟨fun h => ?_, fun ⟨hy, hx⟩ => by rw [hx, hy]⟩
  rcases lt_trichotomy y y' with hy | hy | hy
  · exact absurd h (Nat.ne_of_lt ((lt_digits hx' hx).2 (.inl hy)))
  · exact ⟨hy, by rw [hy] at h; omega⟩
  · exact absurd h (Nat.ne_of_gt ((lt_digits hx hx').2 (.inl hy)))

theorem testBit_digits (hx : x < 2 ^ n) (y i : ℕ) :
    (x + 2 ^ n * y).testBit i = if i < n then x.testBit i else y.testBit (i - n) := by
  rw [Nat.add_comm, Nat.testBit_two_pow_mul_add _ hx]

theorem log2_digits (hx : x < 2 ^ n) (hy : y ≠ 0) : Nat.log2 (x + 2 ^ n * y) = Nat.log2 y + n := by
  have hlow := Nat.log2_self_le hy
  have hhigh : y < 2 ^ (Nat.log2 y + 1) := Nat.lt_log2_self
  have hpos : 0 < 2 ^ n * y := Nat.mul_pos (Nat.two_pow_pos n) (Nat.pos_of_ne_zero hy)
  rw [Nat.log2_eq_iff (by omega), pow_add, show Nat.log2 y + n + 1 = Nat.log2 y + 1 + n by omega,
    pow_add _ (Nat.log2 y + 1)]
  constructor
  · calc 2 ^ Nat.log2 y * 2 ^ n ≤ y * 2 ^ n := Nat.mul_le_mul_right _ hlow
      _ ≤ x + 2 ^ n * y := by rw [mul_comm]; exact Nat.le_add_left _ _
  · calc x + 2 ^ n * y < (y + 1) * 2 ^ n := by rw [add_mul, mul_comm y, one_mul]; omega
      _ ≤ 2 ^ (Nat.log2 y + 1) * 2 ^ n := Nat.mul_le_mul_right _ hhigh

theorem shr_digit (hbase : base = p * q) (hp : 0 < p) (d y : ℕ) :
    (d + base * y) / p = (d / p + y % p * q) + base * (y / p) := by
  subst hbase
  have hsplit : q * y = y % p * q + p * q * (y / p) := by
    calc q * y = q * (y % p + p * (y / p)) := by rw [Nat.mod_add_div]
      _ = y % p * q + p * q * (y / p) := by ring
  rw [mul_assoc, Nat.add_mul_div_left _ _ hp, hsplit, mul_assoc, ← add_assoc]

theorem shl_digit (hbase : base = p * q) (d y : ℕ) :
    (d + base * y) * p = d % q * p + base * (d / q + y * p) := by
  subst hbase
  calc (d + p * q * y) * p = (d % q + q * (d / q)) * p + p * q * (y * p) := by
        rw [Nat.mod_add_div]
        ring
    _ = d % q * p + p * q * (d / q + y * p) := by ring

theorem shifted_lt {d e : ℕ} (hbase : base = p * q) (hd : d < base) (hp : 0 < p) :
    d / p + e % p * q < base := by
  subst hbase
  have hquot : d / p < q := Nat.div_lt_of_lt_mul hd
  have hrest : (e % p + 1) * q ≤ p * q := Nat.mul_le_mul_right _ (Nat.mod_lt _ hp)
  rw [add_mul, one_mul] at hrest
  omega

end Digits

/-! ### Operations and laws -/

class UintOps (α : Type) where
  length : ℕ
  ofUint64 : Word → α
  add : α → α → α
  sub : α → α → α
  mul : α → α → α
  mulExtended : α → α → α × α
  and : α → α → α
  xor : α → α → α
  or : α → α → α
  not : α → α
  eq : α → α → Bool
  gt : α → α → Bool
  shr : α → Word → α
  shl : α → Word → α
  getBit : α → Word → Bool
  getMsb : α → Word

class UintValue (α : Type) where
  toNat : α → ℕ

open UintValue in
class LawfulUint (α : Type) [UintOps α] [UintValue α] : Prop where
  length_eq : UintOps.length α = 2 ^ Nat.log2 (UintOps.length α)
  sixtyFour_le_length : 64 ≤ UintOps.length α
  length_lt : UintOps.length α < 2 ^ 64
  toNat_lt : ∀ x : α, toNat x < 2 ^ UintOps.length α
  toNat_injective : Function.Injective (toNat : α → ℕ)
  toNat_ofUint64 : ∀ w, toNat (UintOps.ofUint64 w : α) = w.toNat
  toNat_add : ∀ x y : α, toNat (UintOps.add x y) = (toNat x + toNat y) % 2 ^ UintOps.length α
  toNat_sub : ∀ x y : α, toNat (UintOps.sub x y) =
    (toNat x + (2 ^ UintOps.length α - toNat y)) % 2 ^ UintOps.length α
  toNat_mul : ∀ x y : α, toNat (UintOps.mul x y) = toNat x * toNat y % 2 ^ UintOps.length α
  mulExtended_eq : ∀ x y : α, toNat (UintOps.mulExtended x y).1 +
    2 ^ UintOps.length α * toNat (UintOps.mulExtended x y).2 = toNat x * toNat y
  toNat_and : ∀ x y : α, toNat (UintOps.and x y) = toNat x &&& toNat y
  toNat_xor : ∀ x y : α, toNat (UintOps.xor x y) = toNat x ^^^ toNat y
  toNat_or : ∀ x y : α, toNat (UintOps.or x y) = toNat x ||| toNat y
  toNat_not : ∀ x : α, toNat (UintOps.not x) = 2 ^ UintOps.length α - 1 - toNat x
  eq_iff : ∀ x y : α, UintOps.eq x y = true ↔ toNat x = toNat y
  gt_iff : ∀ x y : α, UintOps.gt x y = true ↔ toNat y < toNat x
  toNat_shr : ∀ (x : α) s, toNat (UintOps.shr x s) = toNat x / 2 ^ s.toNat
  toNat_shl : ∀ (x : α) s, toNat (UintOps.shl x s) = toNat x * 2 ^ s.toNat % 2 ^ UintOps.length α
  getBit_eq : ∀ (x : α) i, i.toNat < UintOps.length α →
    UintOps.getBit x i = (toNat x).testBit i.toNat
  toNat_getMsb : ∀ x : α, (UintOps.getMsb x).toNat = Nat.log2 (toNat x)

attribute [simp] LawfulUint.toNat_ofUint64 LawfulUint.eq_iff LawfulUint.gt_iff

namespace UintOps

variable {α : Type} [UintOps α]

def ge (x y : α) : Bool := gt x y || eq x y

def lt (x y : α) : Bool := gt y x

def le (x y : α) : Bool := lt x y || eq x y

def neg (x : α) : α := sub (ofUint64 0) x

/-! ### The division -/

/-- The loop of `divmod`, with the quotient and the remainder so far. -/
def divmodLoop (b : α) : ℕ → α → α → α → α → Option (α × α)
  | 0, _, _, _, _ => none
  | fuel + 1, quotient, remainder, divisor, accumulator =>
    if ge remainder b then
      if ge remainder divisor then
        divmodLoop b fuel (or quotient accumulator) (sub remainder divisor) (shr divisor 1)
          (shr accumulator 1)
      else divmodLoop b fuel quotient remainder (shr divisor 1) (shr accumulator 1)
    else some (quotient, remainder)

/-- `divmod` for a divisor that is not zero.  The loop ends within as many rounds as there are
bits. -/
def longDivision (a b : α) : Option (α × α) :=
  if eq a (ofUint64 0) then some (ofUint64 0, ofUint64 0)
  else if eq b (ofUint64 1) then some (a, ofUint64 0)
  else if eq a b then some (ofUint64 1, ofUint64 0)
  else if gt b a then some (ofUint64 0, a)
  else
    let bitDifference := getMsb a - getMsb b
    let divisor := shl b bitDifference
    let accumulator := shl (ofUint64 1) bitDifference
    if gt divisor a then
      divmodLoop b (length α + 1) (ofUint64 0) a (shr divisor 1) (shr accumulator 1)
    else divmodLoop b (length α + 1) (ofUint64 0) a divisor accumulator

end UintOps

namespace LawfulUint

open UintOps UintValue

variable {α : Type} [UintOps α] [UintValue α] [LawfulUint α]

@[simp] theorem ge_iff (x y : α) : ge x y = true ↔ toNat y ≤ toNat x := by
  rw [ge, Bool.or_eq_true, gt_iff, eq_iff]
  omega

@[simp] theorem lt_iff (x y : α) : lt x y = true ↔ toNat x < toNat y := by rw [lt, gt_iff]

@[simp] theorem le_iff (x y : α) : le x y = true ↔ toNat x ≤ toNat y := by
  rw [le, Bool.or_eq_true, lt_iff, eq_iff]
  omega

theorem toNat_sub_of_le {x y : α} (h : toNat y ≤ toNat x) :
    toNat (sub x y) = toNat x - toNat y := by
  have hx := toNat_lt x
  rw [toNat_sub, show toNat x + (2 ^ length α - toNat y) =
    toNat x - toNat y + 2 ^ length α by omega, Nat.add_mod_right, Nat.mod_eq_of_lt (by omega)]

theorem toNat_shr_one (x : α) : toNat (shr x 1) = toNat x / 2 := by
  rw [toNat_shr]
  rfl

theorem or_two_pow {q k : ℕ} (h : 2 ^ (k + 1) ∣ q) : q ||| 2 ^ k = q + 2 ^ k := by
  obtain ⟨c, rfl⟩ := h
  rw [Nat.two_pow_add_eq_or_of_lt (Nat.pow_lt_pow_right (by norm_num) (Nat.lt_succ_self k))]

theorem divmodLoop_eq {b : α} (k : ℕ) :
    ∀ {fuel : ℕ} {quotient remainder divisor accumulator : α}, k + 2 ≤ fuel →
      toNat divisor = toNat b * 2 ^ k → toNat accumulator = 2 ^ k →
      toNat remainder < toNat b * 2 ^ (k + 1) → 2 ^ (k + 1) ∣ toNat quotient →
      ∃ q r, divmodLoop b fuel quotient remainder divisor accumulator = some (q, r) ∧
        toNat q * toNat b + toNat r = toNat quotient * toNat b + toNat remainder ∧
        toNat r < toNat b := by
  induction k with
  | zero =>
    intro fuel quotient remainder divisor accumulator hfuel hdivisor haccumulator hlt hdvd
    obtain ⟨fuel, rfl⟩ : ∃ n, fuel = n + 2 := ⟨fuel - 2, by omega⟩
    rw [pow_zero, mul_one] at hdivisor
    rw [divmodLoop]
    by_cases hge : toNat b ≤ toNat remainder
    · have hsub := toNat_sub_of_le (hdivisor ▸ hge : toNat divisor ≤ toNat remainder)
      rw [if_pos ((ge_iff _ _).2 hge), if_pos ((ge_iff _ _).2 (hdivisor ▸ hge)), divmodLoop,
        if_neg (by rw [ge_iff, hsub, hdivisor]; omega)]
      refine ⟨_, _, rfl, ?_, by rw [hsub, hdivisor]; omega⟩
      rw [toNat_or, haccumulator, or_two_pow hdvd, hsub, hdivisor, pow_zero, add_mul, one_mul]
      omega
    · rw [if_neg (by rw [ge_iff]; exact hge)]
      exact ⟨_, _, rfl, rfl, by omega⟩
  | succ k ih =>
    intro fuel quotient remainder divisor accumulator hfuel hdivisor haccumulator hlt hdvd
    obtain ⟨fuel, rfl⟩ : ∃ n, fuel = n + 1 := ⟨fuel - 1, by omega⟩
    have hhalf : toNat (shr divisor 1) = toNat b * 2 ^ k := by
      rw [toNat_shr_one, hdivisor, pow_succ, ← mul_assoc, Nat.mul_div_cancel _ Nat.two_pos]
    have hhalfAcc : toNat (shr accumulator 1) = 2 ^ k := by
      rw [toNat_shr_one, haccumulator, pow_succ, Nat.mul_div_cancel _ Nat.two_pos]
    rw [divmodLoop]
    by_cases hge : toNat b ≤ toNat remainder
    · rw [if_pos ((ge_iff _ _).2 hge)]
      by_cases hdiv : toNat divisor ≤ toNat remainder
      · have hsub := toNat_sub_of_le hdiv
        have hor : toNat (or quotient accumulator) = toNat quotient + 2 ^ (k + 1) := by
          rw [toNat_or, haccumulator, or_two_pow hdvd]
        rw [if_pos ((ge_iff _ _).2 hdiv)]
        have hdouble : toNat b * 2 ^ (k + 1 + 1) =
            toNat b * 2 ^ (k + 1) + toNat b * 2 ^ (k + 1) := by
          rw [pow_succ _ (k + 1)]
          ring
        obtain ⟨q, r, hloop, heq, hr⟩ := ih (show k + 2 ≤ fuel by omega) hhalf hhalfAcc
          (show toNat (sub remainder divisor) < toNat b * 2 ^ (k + 1) by
            rw [hsub, hdivisor]; omega)
          (show 2 ^ (k + 1) ∣ toNat (or quotient accumulator) by
            rw [hor]; exact Dvd.dvd.add ((pow_dvd_pow 2 (by omega)).trans hdvd) dvd_rfl)
        refine ⟨q, r, hloop, ?_, hr⟩
        rw [heq, hor, hsub, hdivisor, add_mul, mul_comm (2 ^ (k + 1)) (toNat b)]
        rw [hdivisor] at hdiv
        omega
      · rw [if_neg (by rw [ge_iff]; exact hdiv)]
        exact ih (by omega) hhalf hhalfAcc (by rw [← hdivisor]; omega)
          ((pow_dvd_pow 2 (by omega)).trans hdvd)
    · rw [if_neg (by rw [ge_iff]; exact hge)]
      exact ⟨_, _, rfl, rfl, by omega⟩

theorem longDivision_eq (a : α) {b : α} (hb : toNat b ≠ 0) :
    ∃ q r, longDivision a b = some (q, r) ∧ toNat q * toNat b + toNat r = toNat a ∧
      toNat r < toNat b := by
  have hzero : toNat (ofUint64 0 : α) = 0 := toNat_ofUint64 0
  have hone : toNat (ofUint64 1 : α) = 1 := toNat_ofUint64 1
  rw [longDivision]
  by_cases ha : toNat a = 0
  · rw [if_pos ((eq_iff _ _).2 (ha.trans hzero.symm))]
    exact ⟨_, _, rfl, by rw [hzero, ha, zero_mul], by omega⟩
  rw [if_neg (by rw [eq_iff, hzero]; exact ha)]
  by_cases hb1 : toNat b = 1
  · rw [if_pos ((eq_iff _ _).2 (hb1.trans hone.symm))]
    exact ⟨_, _, rfl, by rw [hzero, hb1, mul_one, add_zero], by omega⟩
  rw [if_neg (by rw [eq_iff, hone]; exact hb1)]
  by_cases hab : toNat a = toNat b
  · rw [if_pos ((eq_iff _ _).2 hab)]
    exact ⟨_, _, rfl, by rw [hzero, hone, one_mul, add_zero, hab], by omega⟩
  rw [if_neg (by rw [eq_iff]; exact hab)]
  by_cases hgt : toNat a < toNat b
  · rw [if_pos ((gt_iff _ _).2 hgt)]
    exact ⟨_, _, rfl, by rw [hzero, zero_mul, zero_add], hgt⟩
  rw [if_neg (by rw [gt_iff]; exact hgt)]
  -- the divisor is shifted to the length of the dividend
  obtain ⟨n, hn⟩ : ∃ n, Nat.log2 (toNat a) - Nat.log2 (toNat b) = n := ⟨_, rfl⟩
  have hlogLe : Nat.log2 (toNat b) ≤ Nat.log2 (toNat a) :=
    (Nat.le_log2 ha).2 ((Nat.log2_self_le hb).trans (by omega))
  have hlogLt : Nat.log2 (toNat a) < length α := (Nat.log2_lt ha).2 (toNat_lt a)
  have hlength : length α < 2 ^ 64 := length_lt
  have hshift : (getMsb a - getMsb b).toNat = n := by
    rw [BitVec.toNat_sub, toNat_getMsb, toNat_getMsb]
    omega
  have hbTop : toNat b < 2 ^ (Nat.log2 (toNat b) + 1) := Nat.lt_log2_self
  have haTop : toNat a < 2 ^ (Nat.log2 (toNat a) + 1) := Nat.lt_log2_self
  have hpowSplit : 2 ^ (Nat.log2 (toNat b) + 1) * 2 ^ n = 2 ^ (Nat.log2 (toNat a) + 1) := by
    rw [← pow_add]
    congr 1
    omega
  have hdivisor : toNat (shl b (getMsb a - getMsb b)) = toNat b * 2 ^ n := by
    rw [toNat_shl, hshift, Nat.mod_eq_of_lt]
    calc toNat b * 2 ^ n < 2 ^ (Nat.log2 (toNat b) + 1) * 2 ^ n :=
          Nat.mul_lt_mul_of_pos_right hbTop (Nat.two_pow_pos n)
      _ = 2 ^ (Nat.log2 (toNat a) + 1) := hpowSplit
      _ ≤ 2 ^ length α := Nat.pow_le_pow_right Nat.two_pos hlogLt
  have haccumulator : toNat (shl (ofUint64 1 : α) (getMsb a - getMsb b)) = 2 ^ n := by
    rw [toNat_shl, hshift, hone, one_mul, Nat.mod_eq_of_lt]
    exact Nat.pow_lt_pow_right (by norm_num) (by omega)
  have hdvd : ∀ k, 2 ^ k ∣ toNat (ofUint64 0 : α) := fun k => hzero ▸ dvd_zero _
  have hlt : toNat a < toNat b * 2 ^ (n + 1) := by
    refine haTop.trans_le ?_
    rw [← hpowSplit, pow_succ 2 n, mul_comm (2 ^ n) 2, ← mul_assoc, pow_succ]
    exact Nat.mul_le_mul_right _ (Nat.mul_le_mul_right _ (Nat.log2_self_le hb))
  dsimp only
  by_cases hover : toNat a < toNat b * 2 ^ n
  · obtain ⟨k, rfl⟩ : ∃ k, n = k + 1 := by
      cases n with
      | zero => rw [pow_zero, mul_one] at hover; exact absurd hover hgt
      | succ k => exact ⟨k, rfl⟩
    rw [if_pos (by rw [gt_iff, hdivisor]; exact hover)]
    obtain ⟨q, r, hloop, heq, hr⟩ := divmodLoop_eq k (show k + 2 ≤ length α + 1 by omega)
      (by rw [toNat_shr_one, hdivisor, pow_succ, ← mul_assoc, Nat.mul_div_cancel _ Nat.two_pos])
      (by rw [toNat_shr_one, haccumulator, pow_succ, Nat.mul_div_cancel _ Nat.two_pos]) hover
      (hdvd _)
    exact ⟨q, r, hloop, by rw [heq, hzero, zero_mul, zero_add], hr⟩
  · rw [if_neg (by rw [gt_iff, hdivisor]; exact hover)]
    obtain ⟨q, r, hloop, heq, hr⟩ := divmodLoop_eq n (show n + 2 ≤ length α + 1 by omega)
      hdivisor haccumulator hlt (hdvd _)
    exact ⟨q, r, hloop, by rw [heq, hzero, zero_mul, zero_add], hr⟩

end LawfulUint
