/-
**Machine words of 64 bits.**

The primitives from which wide integers are put together: sums, differences and products of words
with a carry, each with the equation that says that nothing is lost, and the index of the highest
set bit by a multiplication and a table.
-/

import Mathlib.Data.Nat.Log
import Mathlib.Tactic

/-- `uint64_t`. -/
abbrev Word := BitVec 64

namespace Words

/-- `static_cast<uint64_t>(bool)`. -/
def ofBool (b : Bool) : Word := if b then 1 else 0

theorem toNat_ofBool (b : Bool) : (ofBool b).toNat = if b then 1 else 0 := by
  cases b <;> rfl

/-! ### Carries -/

def mulWide (a b : Word) : Word × Word :=
  let aLo := a &&& 0xffffffff
  let aHi := a >>> 32
  let bLo := b &&& 0xffffffff
  let bHi := b >>> 32
  let loLo := aLo * bLo
  let hiLo := aHi * bLo
  let loHi := aLo * bHi
  let hiHi := aHi * bHi
  let cross := (loLo >>> 32) + (hiLo &&& 0xffffffff) + loHi
  ((cross <<< 32) ||| (loLo &&& 0xffffffff), (hiLo >>> 32) + (cross >>> 32) + hiHi)

def addc (a b carryIn : Word) : Word × Word :=
  let sum := a + b
  let carryTemp := ofBool (sum < a)
  let r := sum + carryIn
  (r, carryTemp + ofBool (r < carryIn))

def addcDiscardHi (a b carryIn : Word) : Word := a + b + carryIn

def sbb (a b borrowIn : Word) : Word × Word :=
  let t1 := a - (borrowIn >>> 63)
  let borrowTemp1 := ofBool (t1 > a)
  let t2 := t1 - b
  let borrowTemp2 := ofBool (t2 > t1)
  (t2, 0 - (borrowTemp1 ||| borrowTemp2))

def sbbDiscardHi (a b borrowIn : Word) : Word := a - b - (borrowIn >>> 63)

def mac (a b c carryIn : Word) : Word × Word :=
  let wide := mulWide b c
  let first := wide.1 + a
  let overflowC := ofBool (first < a)
  let first' := first + carryIn
  let overflowCarry := ofBool (first' < carryIn)
  (first', wide.2 + (overflowC + overflowCarry))

def macDiscardHi (a b c carryIn : Word) : Word := b * c + a + carryIn

theorem toNat_and_mask (a : Word) : (a &&& 0xffffffff).toNat = a.toNat % 2 ^ 32 := by
  rw [BitVec.toNat_and]
  exact Nat.and_two_pow_sub_one_eq_mod a.toNat 32

theorem toNat_shift_or (a b : Word) :
    ((a <<< 32) ||| (b &&& 0xffffffff)).toNat = a.toNat % 2 ^ 32 * 2 ^ 32 + b.toNat % 2 ^ 32 := by
  have hlow : b.toNat % 2 ^ 32 < 2 ^ 32 := Nat.mod_lt _ (by norm_num)
  have hshift : a.toNat <<< 32 % 2 ^ 64 = (a.toNat % 2 ^ 32) <<< 32 := by
    rw [Nat.shiftLeft_eq, Nat.shiftLeft_eq]
    omega
  rw [BitVec.toNat_or, toNat_and_mask, BitVec.toNat_shiftLeft, hshift,
    ← Nat.shiftLeft_add_eq_or_of_lt hlow, Nat.shiftLeft_eq]

theorem addc_spec (a b c : Word) (hc : c.toNat ≤ 1) :
    (addc a b c).1.toNat + 2 ^ 64 * (addc a b c).2.toNat = a.toNat + b.toNat + c.toNat ∧
      (addc a b c).2.toNat ≤ 1 := by
  have ha := a.isLt
  have hb := b.isLt
  simp only [addc, BitVec.toNat_add, toNat_ofBool, BitVec.lt_def, decide_eq_true_eq]
  split <;> split <;> omega

def borrow (b : Word) : ℕ := (b >>> 63).toNat

theorem sbb_spec (a b c : Word) :
    (sbb a b c).1.toNat + b.toNat + borrow c = a.toNat + 2 ^ 64 * borrow (sbb a b c).2 := by
  have ha := a.isLt
  have hb := b.isLt
  have hc : borrow c ≤ 1 := by
    rw [borrow, BitVec.toNat_ushiftRight, Nat.shiftRight_eq_div_pow]
    have := c.isLt
    omega
  have hshift : (c >>> 63).toNat = borrow c := rfl
  have hborrow : ∀ p q : Bool, borrow (0 - (ofBool p ||| ofBool q)) = if p || q then 1 else 0 := by
    decide
  simp only [sbb, hborrow, BitVec.toNat_sub, hshift, GT.gt, BitVec.lt_def, Bool.or_eq_true,
    decide_eq_true_eq]
  split <;> omega

theorem mulWide_spec (a b : Word) :
    (mulWide a b).1.toNat + 2 ^ 64 * (mulWide a b).2.toNat = a.toNat * b.toNat := by
  have ha := a.isLt
  have hb := b.isLt
  obtain ⟨al, hal⟩ : ∃ al, a.toNat % 2 ^ 32 = al := ⟨_, rfl⟩
  obtain ⟨ah, hah⟩ : ∃ ah, a.toNat / 2 ^ 32 = ah := ⟨_, rfl⟩
  obtain ⟨bl, hbl⟩ : ∃ bl, b.toNat % 2 ^ 32 = bl := ⟨_, rfl⟩
  obtain ⟨bh, hbh⟩ : ∃ bh, b.toNat / 2 ^ 32 = bh := ⟨_, rfl⟩
  have ha' : a.toNat = al + 2 ^ 32 * ah := by omega
  have hb' : b.toNat = bl + 2 ^ 32 * bh := by omega
  have hprod : ∀ x y : ℕ, x < 2 ^ 32 → y < 2 ^ 32 → x * y ≤ (2 ^ 32 - 1) * (2 ^ 32 - 1) :=
    fun x y hx hy => Nat.mul_le_mul (by omega) (by omega)
  have h1 := hprod al bl (by omega) (by omega)
  have h2 := hprod ah bl (by omega) (by omega)
  have h3 := hprod al bh (by omega) (by omega)
  have h4 := hprod ah bh (by omega) (by omega)
  have hexpand : (al + 2 ^ 32 * ah) * (bl + 2 ^ 32 * bh) =
      al * bl + 2 ^ 32 * (ah * bl) + 2 ^ 32 * (al * bh) + 2 ^ 64 * (ah * bh) := by ring
  rw [ha', hb', hexpand]
  simp only [mulWide, toNat_shift_or, BitVec.toNat_add, BitVec.toNat_mul, BitVec.toNat_ushiftRight,
    toNat_and_mask, Nat.shiftRight_eq_div_pow, hal, hah, hbl, hbh]
  generalize al * bl = p at h1 ⊢
  generalize ah * bl = q at h2 ⊢
  generalize al * bh = r at h3 ⊢
  generalize ah * bh = t at h4 ⊢
  omega

theorem mac_spec (a b c d : Word) : (mac a b c d).1.toNat + 2 ^ 64 * (mac a b c d).2.toNat =
      a.toNat + b.toNat * c.toNat + d.toNat := by
  have ha := a.isLt
  have hd := d.isLt
  have hwide := mulWide_spec b c
  have hbound : b.toNat * c.toNat ≤ (2 ^ 64 - 1) * (2 ^ 64 - 1) :=
    Nat.mul_le_mul (by have := b.isLt; omega) (by have := c.isLt; omega)
  rw [← hwide] at hbound ⊢
  simp only [mac, BitVec.toNat_add, toNat_ofBool, BitVec.lt_def, decide_eq_true_eq]
  split <;> split <;> omega

theorem toNat_macDiscardHi (a b c d : Word) :
    (macDiscardHi a b c d).toNat = (a.toNat + b.toNat * c.toNat + d.toNat) % 2 ^ 64 := by
  simp only [macDiscardHi, BitVec.toNat_add, BitVec.toNat_mul]
  omega

/-! ### The highest set bit -/

def deBruijnSequence : Array ℕ :=
  #[0, 47, 1, 56, 48, 27, 2, 60, 57, 49, 41, 37, 28, 16, 3, 61, 54, 58, 35, 52, 50, 42, 21, 44, 38,
    32, 29, 23, 17, 11, 4, 62, 46, 55, 26, 59, 40, 36, 15, 53, 34, 51, 20, 43, 31, 22, 10, 45, 25,
    39, 14, 33, 19, 30, 9, 24, 13, 18, 8, 12, 7, 6, 5, 63]

def getMsb64 (x : Word) : Word :=
  let t := x ||| (x >>> 1)
  let t := t ||| (t >>> 2)
  let t := t ||| (t >>> 4)
  let t := t ||| (t >>> 8)
  let t := t ||| (t >>> 16)
  let t := t ||| (t >>> 32)
  BitVec.ofNat 64 (deBruijnSequence[((t * 0x03F79D71B4CB0A89) >>> 58).toNat]!)

/-- The bits of `t` are those of `x` smeared over the `n` places below. -/
def Smeared (x t : Word) (n : ℕ) : Prop :=
  ∀ i, t.getLsbD i = true ↔ ∃ j < n, x.getLsbD (i + j) = true

theorem Smeared.step {x t : Word} {n : ℕ} (h : Smeared x t n) :
    Smeared x (t ||| (t >>> n)) (2 * n) := by
  intro i
  rw [BitVec.getLsbD_or, BitVec.getLsbD_ushiftRight, Bool.or_eq_true, h, h]
  constructor
  · rintro (⟨j, hj, hx⟩ | ⟨j, hj, hx⟩)
    · exact ⟨j, by omega, hx⟩
    · exact ⟨n + j, by omega, by rwa [show i + (n + j) = n + i + j by omega]⟩
  · rintro ⟨j, hj, hx⟩
    by_cases hlow : j < n
    · exact .inl ⟨j, hlow, hx⟩
    · exact .inr ⟨j - n, by omega, by rwa [show n + i + (j - n) = i + j by omega]⟩

theorem smeared_one (x : Word) : Smeared x x 1 := by
  intro i
  constructor
  · exact fun hx => ⟨0, Nat.one_pos, hx⟩
  · rintro ⟨j, hj, hx⟩
    rwa [show i + j = i by omega] at hx

theorem Smeared.toNat_eq {x t : Word} (h : Smeared x t 64) (hx : x ≠ 0) :
    t.toNat = 2 ^ (Nat.log2 x.toNat + 1) - 1 := by
  have hpos : x.toNat ≠ 0 := fun hzero => hx (BitVec.eq_of_toNat_eq hzero)
  have hlog : Nat.log2 x.toNat < 64 := (Nat.log2_lt hpos).2 x.isLt
  have htop : x.getLsbD (Nat.log2 x.toNat) = true := Nat.testBit_log2 hpos
  refine Nat.eq_of_testBit_eq fun i => ?_
  rw [Nat.testBit_two_pow_sub_one, Bool.eq_iff_iff, decide_eq_true_eq]
  refine (h i).trans ⟨?_, fun hi => ⟨Nat.log2 x.toNat - i, by omega, ?_⟩⟩
  · rintro ⟨j, -, hbit⟩
    have hle := Nat.ge_two_pow_of_testBit hbit
    have := (Nat.le_log2 hpos).2 hle
    omega
  · rwa [show i + (Nat.log2 x.toNat - i) = Nat.log2 x.toNat by omega]

theorem table_eq : ∀ k < 64, BitVec.ofNat 64 (deBruijnSequence[((BitVec.ofNat 64
    (2 ^ (k + 1) - 1) * (0x03F79D71B4CB0A89 : Word)) >>> 58).toNat]!) = BitVec.ofNat 64 k := by
  decide

theorem toNat_getMsb64 (x : Word) : (getMsb64 x).toNat = Nat.log2 x.toNat := by
  by_cases hx : x = 0
  · subst hx
    decide
  have hpos : x.toNat ≠ 0 := fun hzero => hx (BitVec.eq_of_toNat_eq hzero)
  have hlog : Nat.log2 x.toNat < 64 := (Nat.log2_lt hpos).2 x.isLt
  have hsmeared := (smeared_one x).step.step.step.step.step.step.toNat_eq hx
  have hword := congrArg (BitVec.ofNat 64) hsmeared
  rw [BitVec.ofNat_toNat, BitVec.setWidth_eq] at hword
  rw [getMsb64, hword, table_eq _ hlog, BitVec.toNat_ofNat, Nat.mod_eq_of_lt (by omega)]

end Words
