/-
**Products of emulated field elements in the Ultra circuit builder.**

An element of an emulated field has four limbs, with weights that are powers of `2^68`.  The gates
of a product say that `a b + q neg_modulus - r` vanishes modulo `2^272`: the lower half of the sum,
with the limbs of weight up to `2^68`, is `2^136` times a returned carry, and so is the upper half
with that carry.  The two equations are in the native field, where nothing overflows when the limbs
and carries are small.

Partial products are queued, and turned into gates when the circuit is finalised.  Every call
returns fresh witnesses, but of the calls with one pair of operands only the first gets gates.
-/

import Aztec.ScalarField
import Aztec.UltraGates

open List

namespace NonNativeField

open UltraGates

/-! ### The product gates -/

/-- The witnesses of an emulated field element: four limbs, and its value in the native field. -/
structure Limbs where
  limb0 : ℕ
  limb1 : ℕ
  limb2 : ℕ
  limb3 : ℕ
  prime : ℕ
deriving DecidableEq

structure ConstantLimbs where
  limb0 : ℕ
  limb1 : ℕ
  limb2 : ℕ
  limb3 : ℕ

/-- `non_native_field_witnesses`. -/
structure Witnesses where
  a : Limbs
  b : Limbs
  q : Limbs
  r : Limbs
  negModulus : ConstantLimbs

/-- The seven product gates.  The new witnesses `lo_0`, `lo_1`, `hi_0`, `hi_1`, `hi_2` and `hi_3`
are the variables from `n` on. -/
def evaluateGates (input : Witnesses) (n : ℕ) : List (Gate FF) :=
  let p := input.negModulus
  [createBigAddGate input.q.limb0 input.q.limb1 input.r.limb1 (n + 1)
      (p.limb0 + p.limb1 * limbSize) (p.limb0 * limbSize) (-limbSize) (-limbSize ^ 2) 0 true,
    auxGate .nonNativeField1 input.a.limb1 input.b.limb1 input.r.limb0 n,
    auxGate .nonNativeField2 input.a.limb0 input.b.limb0 input.a.limb3 input.b.limb3,
    auxGate .nonNativeField3 input.a.limb2 input.b.limb2 input.r.limb3 (n + 2),
    auxGate .none input.a.limb1 input.b.limb1 input.r.limb2 (n + 3),
    createBigAddGate input.q.limb2 input.q.limb3 (n + 1) (n + 3)
      (-(p.limb1 : FF) * limbSize - p.limb0) (-(p.limb0 : FF) * limbSize) (-1) (-1) 0 true,
    createBigAddGate (n + 5) input.q.limb0 input.q.limb1 (n + 4) (-1)
      (p.limb3 * limbSize⁻¹ + p.limb2 * (limbSize ^ 2)⁻¹)
      (p.limb2 * limbSize⁻¹ + p.limb1 * (limbSize ^ 2)⁻¹) (limbSize ^ 2)⁻¹ 0 false]

/-- The values that `evaluate_non_native_field_multiplication` gives the new witnesses. -/
def honest (input : Witnesses) (n : ℕ) (v : ℕ → FF) : ℕ → FF :=
  let a := input.a
  let b := input.b
  let q := input.q
  let r := input.r
  let p := input.negModulus
  let lo_0 := v a.limb0 * v b.limb0 - v r.limb0 +
    (v a.limb1 * v b.limb0 + v a.limb0 * v b.limb1) * limbSize
  let lo_1 := (lo_0 + v q.limb0 * p.limb0 +
    (v q.limb1 * p.limb0 + v q.limb0 * p.limb1 - v r.limb1) * limbSize) * (limbSize ^ 2)⁻¹
  let hi_0 := v a.limb2 * v b.limb0 + v a.limb0 * v b.limb2 +
    (v a.limb0 * v b.limb3 + v a.limb3 * v b.limb0 - v r.limb3) * limbSize
  let hi_1 := hi_0 + v a.limb1 * v b.limb1 - v r.limb2 +
    (v a.limb1 * v b.limb2 + v a.limb2 * v b.limb1) * limbSize
  let hi_2 := hi_1 + lo_1 + v q.limb2 * p.limb0 +
    (v q.limb3 * p.limb0 + v q.limb2 * p.limb1) * limbSize
  let hi_3 := (hi_2 + (v q.limb0 * p.limb3 + v q.limb1 * p.limb2) * limbSize +
    (v q.limb0 * p.limb2 + v q.limb1 * p.limb1)) * (limbSize ^ 2)⁻¹
  fun i =>
    if i = n then lo_0
    else if i = n + 1 then lo_1
    else if i = n + 2 then hi_0
    else if i = n + 3 then hi_1
    else if i = n + 4 then hi_2
    else if i = n + 5 then hi_3
    else v i

/-- The value of limbs with weights that are powers of `2^68`. -/
def limbsValue (limb0 limb1 limb2 limb3 : ℕ) : ℤ :=
  limb0 + limb1 * 2 ^ 68 + limb2 * 2 ^ 136 + limb3 * 2 ^ 204

/-- The value of the limbs that an assignment gives an element. -/
def valueOf (v : ℕ → FF) (x : Limbs) : ℤ :=
  limbsValue (v x.limb0).val (v x.limb1).val (v x.limb2).val (v x.limb3).val

def constantValue (x : ConstantLimbs) : ℤ := limbsValue x.limb0 x.limb1 x.limb2 x.limb3

/-- The limbs that an assignment gives an element are below `2^70`. -/
structure Small (v : ℕ → FF) (x : Limbs) : Prop where
  limb0 : (v x.limb0).val < 2 ^ 70
  limb1 : (v x.limb1).val < 2 ^ 70
  limb2 : (v x.limb2).val < 2 ^ 70
  limb3 : (v x.limb3).val < 2 ^ 70

structure SmallConstant (x : ConstantLimbs) : Prop where
  limb0 : x.limb0 < 2 ^ 70
  limb1 : x.limb1 < 2 ^ 70
  limb2 : x.limb2 < 2 ^ 70
  limb3 : x.limb3 < 2 ^ 70

section Evaluate

variable {alpha eta : FF} {v : ℕ → FF} {input : Witnesses} {n : ℕ}

theorem two_ne_zero_FF : (2 : FF) ≠ 0 := by
  intro h
  have hcast : ((2 : ℕ) : FF) = (0 : ℕ) := by exact_mod_cast h
  have hnat := FF.natCast_injOn (FF.lt_fieldModulus (by norm_num))
    (FF.lt_fieldModulus (by norm_num)) hcast
  cases hnat

theorem limbSize_ne_zero : (limbSize : FF) ≠ 0 := pow_ne_zero 68 two_ne_zero_FF

theorem eq_zero_of_cast {x : ℤ} (hcast : (x : FF) = 0) (hlow : -2 ^ 250 < x) (hhigh : x < 2 ^ 250) :
    x = 0 := by
  rw [ZMod.intCast_zmod_eq_zero_iff_dvd] at hcast
  refine Int.eq_zero_of_abs_lt_dvd hcast ?_
  have hbig : (2 : ℤ) ^ 250 < Kernel.fieldModulus := by
    have : 2 ^ 250 < Kernel.fieldModulus := FF.lt_fieldModulus (by norm_num)
    exact_mod_cast this
  exact (abs_lt.2 ⟨hlow, hhigh⟩).trans hbig

structure Equations (input : Witnesses) (n : ℕ) (v : ℕ → FF) : Prop where
  lo_1 : (input.negModulus.limb0 + input.negModulus.limb1 * limbSize) * v input.q.limb0 +
    input.negModulus.limb0 * limbSize * v input.q.limb1 + -limbSize * v input.r.limb1 +
      -limbSize ^ 2 * v (n + 1) + 0 + v n = 0
  lo_0 : (v input.a.limb1 * v input.b.limb0 + v input.a.limb0 * v input.b.limb1) * limbSize +
    v input.a.limb0 * v input.b.limb0 = v input.r.limb0 + v n
  hi_0 : (v input.a.limb0 * v input.b.limb3 + v input.b.limb0 * v input.a.limb3 -
    v input.r.limb3) * limbSize + (v input.a.limb0 * v input.b.limb2 +
      v input.a.limb2 * v input.b.limb0) = v (n + 2)
  hi_1 : (v input.a.limb2 * v input.b.limb1 + v input.a.limb1 * v input.b.limb2) * limbSize +
    v input.a.limb1 * v input.b.limb1 + v (n + 2) = v input.r.limb2 + v (n + 3)
  hi_2 : (-(input.negModulus.limb1 : FF) * limbSize - input.negModulus.limb0) * v input.q.limb2 +
    -(input.negModulus.limb0 : FF) * limbSize * v input.q.limb3 + -1 * v (n + 1) +
      -1 * v (n + 3) + 0 + v (n + 4) = 0
  hi_3 : -1 * v (n + 5) + (input.negModulus.limb3 * limbSize⁻¹ +
    input.negModulus.limb2 * (limbSize ^ 2)⁻¹) * v input.q.limb0 +
      (input.negModulus.limb2 * limbSize⁻¹ + input.negModulus.limb1 * (limbSize ^ 2)⁻¹) *
        v input.q.limb1 + (limbSize ^ 2)⁻¹ * v (n + 4) + 0 = 0

theorem satisfied_evaluateGates (rest : List (Gate FF)) :
    Satisfied alpha eta v (evaluateGates input n ++ rest) ↔
      Equations input n v ∧ Satisfied alpha eta v rest := by
  simp only [evaluateGates, cons_append, nil_append, Satisfied, nextWires,
    holds_bigAddNext two_ne_zero_FF, holds_bigAdd, holds_nonNativeField1, holds_nonNativeField2,
    holds_nonNativeField3, holds_none]
  constructor
  · rintro ⟨h₁, h₂, h₃, h₄, -, h₆, h₇, hrest⟩
    exact ⟨⟨h₁, h₂, h₃, h₄, h₆, h₇⟩, hrest⟩
  · rintro ⟨⟨h₁, h₂, h₃, h₄, h₆, h₇⟩, hrest⟩
    exact ⟨h₁, h₂, h₃, h₄, trivial, h₆, h₇, hrest⟩

theorem product_bounds {x y : ℕ} (hx : x < 2 ^ 70) (hy : y < 2 ^ 70) :
    0 ≤ (x * y : ℤ) ∧ (x * y : ℤ) < 2 ^ 140 := by
  refine ⟨by positivity, ?_⟩
  have hproduct : x * y < 2 ^ 140 := (Nat.mul_lt_mul'' hx hy).trans_eq (by norm_num)
  exact_mod_cast hproduct

theorem low_eq_zero {a₀ a₁ b₀ b₁ q₀ q₁ r₀ r₁ p₀ p₁ lo : ℕ} (ha₀ : a₀ < 2 ^ 70) (ha₁ : a₁ < 2 ^ 70)
    (hb₀ : b₀ < 2 ^ 70) (hb₁ : b₁ < 2 ^ 70) (hq₀ : q₀ < 2 ^ 70) (hq₁ : q₁ < 2 ^ 70)
    (hr₀ : r₀ < 2 ^ 70) (hr₁ : r₁ < 2 ^ 70) (hp₀ : p₀ < 2 ^ 70) (hp₁ : p₁ < 2 ^ 70)
    (hlo : lo < 2 ^ 72)
    (h : (a₀ * b₀ + (a₁ * b₀ + a₀ * b₁) * limbSize - r₀ - r₁ * limbSize + q₀ * p₀ +
      (q₁ * p₀ + q₀ * p₁) * limbSize - lo * limbSize ^ 2 : FF) = 0) :
    (a₀ * b₀ + (a₁ * b₀ + a₀ * b₁) * 2 ^ 68 - r₀ - r₁ * 2 ^ 68 + q₀ * p₀ +
      (q₁ * p₀ + q₀ * p₁) * 2 ^ 68 - lo * 2 ^ 136 : ℤ) = 0 := by
  have h₁ := product_bounds ha₀ hb₀
  have h₂ := product_bounds ha₁ hb₀
  have h₃ := product_bounds ha₀ hb₁
  have h₄ := product_bounds hq₀ hp₀
  have h₅ := product_bounds hq₁ hp₀
  have h₆ := product_bounds hq₀ hp₁
  refine eq_zero_of_cast ?_ ?_ ?_
  · push_cast
    rw [← h, limbSize]
    ring
  · linarith
  · linarith

theorem high_eq_zero {a₀ a₁ a₂ a₃ b₀ b₁ b₂ b₃ q₀ q₁ q₂ q₃ p₀ p₁ p₂ p₃ r₂ r₃ lo hi : ℕ}
    (ha₀ : a₀ < 2 ^ 70) (ha₁ : a₁ < 2 ^ 70) (ha₂ : a₂ < 2 ^ 70) (ha₃ : a₃ < 2 ^ 70)
    (hb₀ : b₀ < 2 ^ 70) (hb₁ : b₁ < 2 ^ 70) (hb₂ : b₂ < 2 ^ 70) (hb₃ : b₃ < 2 ^ 70)
    (hq₀ : q₀ < 2 ^ 70) (hq₁ : q₁ < 2 ^ 70) (hq₂ : q₂ < 2 ^ 70) (hq₃ : q₃ < 2 ^ 70)
    (hp₀ : p₀ < 2 ^ 70) (hp₁ : p₁ < 2 ^ 70) (hp₂ : p₂ < 2 ^ 70) (hp₃ : p₃ < 2 ^ 70)
    (hr₂ : r₂ < 2 ^ 70) (hr₃ : r₃ < 2 ^ 70) (hlo : lo < 2 ^ 72) (hhi : hi < 2 ^ 72)
    (h : (a₂ * b₀ + a₀ * b₂ + a₁ * b₁ - r₂ + q₂ * p₀ + q₀ * p₂ + q₁ * p₁ +
      (a₀ * b₃ + a₃ * b₀ + a₁ * b₂ + a₂ * b₁ - r₃ + q₃ * p₀ + q₂ * p₁ + q₀ * p₃ + q₁ * p₂) *
        limbSize + lo - hi * limbSize ^ 2 : FF) = 0) :
    (a₂ * b₀ + a₀ * b₂ + a₁ * b₁ - r₂ + q₂ * p₀ + q₀ * p₂ + q₁ * p₁ +
      (a₀ * b₃ + a₃ * b₀ + a₁ * b₂ + a₂ * b₁ - r₃ + q₃ * p₀ + q₂ * p₁ + q₀ * p₃ + q₁ * p₂) *
        2 ^ 68 + lo - hi * 2 ^ 136 : ℤ) = 0 := by
  have h₁ := product_bounds ha₂ hb₀
  have h₂ := product_bounds ha₀ hb₂
  have h₃ := product_bounds ha₁ hb₁
  have h₄ := product_bounds hq₂ hp₀
  have h₅ := product_bounds hq₀ hp₂
  have h₆ := product_bounds hq₁ hp₁
  have h₇ := product_bounds ha₀ hb₃
  have h₈ := product_bounds ha₃ hb₀
  have h₉ := product_bounds ha₁ hb₂
  have h₁₀ := product_bounds ha₂ hb₁
  have h₁₁ := product_bounds hq₃ hp₀
  have h₁₂ := product_bounds hq₂ hp₁
  have h₁₃ := product_bounds hq₀ hp₃
  have h₁₄ := product_bounds hq₁ hp₂
  refine eq_zero_of_cast ?_ ?_ ?_
  · push_cast
    rw [← h, limbSize]
    ring
  · linarith
  · linarith

theorem evaluate_sound {rest : List (Gate FF)}
    (h : Satisfied alpha eta v (evaluateGates input n ++ rest)) (ha : Small v input.a)
    (hb : Small v input.b) (hq : Small v input.q) (hr : Small v input.r)
    (hp : SmallConstant input.negModulus) (hlo : (v (n + 1)).val < 2 ^ 72)
    (hhi : (v (n + 5)).val < 2 ^ 72) :
    valueOf v input.a * valueOf v input.b + valueOf v input.q * constantValue input.negModulus ≡
      valueOf v input.r [ZMOD 2 ^ 272] := by
  obtain ⟨heq, -⟩ := (satisfied_evaluateGates rest).1 h
  have hlimb := limbSize_ne_zero
  have hlow := low_eq_zero ha.limb0 ha.limb1 hb.limb0 hb.limb1 hq.limb0 hq.limb1 hr.limb0 hr.limb1
    hp.limb0 hp.limb1 hlo (by
      simp only [ZMod.natCast_val, ZMod.cast_id', id_eq]
      linear_combination heq.lo_1 + heq.lo_0)
  have hhigh := high_eq_zero ha.limb0 ha.limb1 ha.limb2 ha.limb3 hb.limb0 hb.limb1 hb.limb2
    hb.limb3 hq.limb0 hq.limb1 hq.limb2 hq.limb3 hp.limb0 hp.limb1 hp.limb2 hp.limb3 hr.limb2
    hr.limb3 hlo hhi (by
      have hhi_3 := heq.hi_3
      field_simp at hhi_3
      simp only [ZMod.natCast_val, ZMod.cast_id', id_eq]
      linear_combination hhi_3 - heq.hi_2 + heq.hi_1 + heq.hi_0)
  have hpow : (2 : ℤ) ^ 272 = 2 ^ 136 * 2 ^ 136 := by rw [← pow_add]
  rw [Int.modEq_iff_dvd, hpow]
  -- what is left is the carry of the upper half and the products of weight `2^272` and more
  refine ⟨-((v (n + 5)).val + (v input.a.limb1).val * (v input.b.limb3).val +
    (v input.a.limb2).val * (v input.b.limb2).val + (v input.a.limb3).val * (v input.b.limb1).val +
    (v input.q.limb1).val * input.negModulus.limb3 +
    (v input.q.limb2).val * input.negModulus.limb2 +
    (v input.q.limb3).val * input.negModulus.limb1 +
    ((v input.a.limb2).val * (v input.b.limb3).val + (v input.a.limb3).val * (v input.b.limb2).val +
      (v input.q.limb2).val * input.negModulus.limb3 +
      (v input.q.limb3).val * input.negModulus.limb2) * 2 ^ 68 +
    ((v input.a.limb3).val * (v input.b.limb3).val +
      (v input.q.limb3).val * input.negModulus.limb3) * 2 ^ 136), ?_⟩
  simp only [valueOf, constantValue, limbsValue]
  linear_combination -hlow - 2 ^ 136 * hhigh

/-- The witnesses are variables before `n`. -/
structure Before (x : Limbs) (n : ℕ) : Prop where
  limb0 : x.limb0 < n
  limb1 : x.limb1 < n
  limb2 : x.limb2 < n
  limb3 : x.limb3 < n

theorem honest_of_lt {i : ℕ} (hi : i < n) : honest input n v i = v i := by
  simp only [honest]
  rw [if_neg (by omega), if_neg (by omega), if_neg (by omega), if_neg (by omega),
    if_neg (by omega), if_neg (by omega)]

theorem evaluate_complete (ha : Before input.a n) (hb : Before input.b n) (hq : Before input.q n)
    (hr : Before input.r n) (rest : List (Gate FF))
    (hrest : Satisfied alpha eta (honest input n v) rest) :
    Satisfied alpha eta (honest input n v) (evaluateGates input n ++ rest) := by
  have hlimb := limbSize_ne_zero
  rw [satisfied_evaluateGates]
  refine ⟨?_, hrest⟩
  constructor
  all_goals
    simp only [honest_of_lt ha.limb0, honest_of_lt ha.limb1, honest_of_lt ha.limb2,
      honest_of_lt ha.limb3, honest_of_lt hb.limb0, honest_of_lt hb.limb1, honest_of_lt hb.limb2,
      honest_of_lt hb.limb3, honest_of_lt hq.limb0, honest_of_lt hq.limb1, honest_of_lt hq.limb2,
      honest_of_lt hq.limb3, honest_of_lt hr.limb0, honest_of_lt hr.limb1, honest_of_lt hr.limb2,
      honest_of_lt hr.limb3]
    simp only [honest, Nat.add_eq_left, Nat.add_left_cancel_iff, OfNat.ofNat_ne_zero, one_ne_zero,
      OfNat.ofNat_ne_one, Nat.reduceEqDiff, if_true, if_false]
    field_simp
    ring

end Evaluate

/-! ### The queue of partial products -/

/-- `cached_partial_non_native_field_multiplication`. -/
structure CachedMultiplication where
  a : Limbs
  b : Limbs
  lo_0 : ℕ
  hi_0 : ℕ
  hi_1 : ℕ

def CachedMultiplication.sameOperands (item other : CachedMultiplication) : Bool :=
  item.a = other.a && item.b = other.b

/-- The variables of a builder with their classes, of which `realVariableIndex` gives the
representative, and the queue. -/
structure Builder where
  numVariables : ℕ
  realVariableIndex : ℕ → ℕ
  cached : List CachedMultiplication

def Builder.new : Builder := ⟨1, id, []⟩

def zeroIdx : ℕ := 0

def addVariable (s : Builder) : Builder × ℕ :=
  ({ s with numVariables := s.numVariables + 1 }, s.numVariables)

def assertEqual (s : Builder) (a b : ℕ) : Builder :=
  if s.realVariableIndex a = s.realVariableIndex b then s
  else { s with realVariableIndex := fun i =>
    if s.realVariableIndex i = s.realVariableIndex b then s.realVariableIndex a
    else s.realVariableIndex i }

/-- `queue_partial_non_native_field_multiplication`.  What it returns are `lo_0` and `hi_1` of the
last entry of the queue. -/
def queueMultiplication (s : Builder) (a b : Limbs) : Builder :=
  let n := s.numVariables
  { s with numVariables := n + 3, cached := s.cached ++ [⟨a, b, n, n + 1, n + 2⟩] }

inductive Call where
  | addVariable
  | assertEqual (a b : ℕ)
  | queueMultiplication (a b : Limbs)

def step (s : Builder) : Call → Builder
  | .addVariable => (addVariable s).1
  | .assertEqual a b => assertEqual s a b
  | .queueMultiplication a b => queueMultiplication s a b

def run (calls : List Call) : Builder := calls.foldl step .new

/-! ### Finalisation -/

def Limbs.map (f : ℕ → ℕ) (x : Limbs) : Limbs :=
  ⟨f x.limb0, f x.limb1, f x.limb2, f x.limb3, f x.prime⟩

/-- The operands are replaced by the representatives of their classes. -/
def CachedMultiplication.real (s : Builder) (item : CachedMultiplication) : CachedMultiplication :=
  { item with a := item.a.map s.realVariableIndex, b := item.b.map s.realVariableIndex }

/-- `deduplicate` keeps the first of equal entries. -/
def deduplicate (vec : List CachedMultiplication) : List CachedMultiplication :=
  vec.foldl (fun uniqueVec item =>
    if uniqueVec.any (·.sameOperands item) then uniqueVec else uniqueVec ++ [item]) []

def multiplicationGates (input : CachedMultiplication) : List (Gate FF) :=
  [auxGate .nonNativeField1 input.a.limb1 input.b.limb1 zeroIdx input.lo_0,
    auxGate .nonNativeField2 input.a.limb0 input.b.limb0 input.a.limb3 input.b.limb3,
    auxGate .nonNativeField3 input.a.limb2 input.b.limb2 zeroIdx input.hi_0,
    auxGate .none input.a.limb1 input.b.limb1 zeroIdx input.hi_1]

/-- `process_non_native_field_multiplications`. -/
def processMultiplications (s : Builder) : List (Gate FF) :=
  (deduplicate (s.cached.map (·.real s))).flatMap multiplicationGates

/-- The gates of the finalised circuit: the constant zero, and the products. -/
def finalizeCircuit (s : Builder) : List (Gate FF) :=
  fixWitness zeroIdx zeroIdx 0 :: processMultiplications s

def values (s : Builder) (v : ℕ → FF) (i : ℕ) : FF := v (s.realVariableIndex i)

/-- **The witnesses that a call returned are the products of its operands.** -/
structure Exact (v : ℕ → FF) (item : CachedMultiplication) : Prop where
  lo_0 : v item.lo_0 = v item.a.limb0 * v item.b.limb0 +
    (v item.a.limb1 * v item.b.limb0 + v item.a.limb0 * v item.b.limb1) * 2 ^ 68
  hi_1 : v item.hi_1 = v item.a.limb2 * v item.b.limb0 + v item.a.limb0 * v item.b.limb2 +
    v item.a.limb1 * v item.b.limb1 + (v item.a.limb0 * v item.b.limb3 +
      v item.a.limb3 * v item.b.limb0 + v item.a.limb1 * v item.b.limb2 +
        v item.a.limb2 * v item.b.limb1) * 2 ^ 68

theorem exact_iff {v : ℕ → FF} {item : CachedMultiplication} : Exact v item ↔
    v item.lo_0 = v item.a.limb0 * v item.b.limb0 +
        (v item.a.limb1 * v item.b.limb0 + v item.a.limb0 * v item.b.limb1) * 2 ^ 68 ∧
      v item.hi_1 = v item.a.limb2 * v item.b.limb0 + v item.a.limb0 * v item.b.limb2 +
        v item.a.limb1 * v item.b.limb1 + (v item.a.limb0 * v item.b.limb3 +
          v item.a.limb3 * v item.b.limb0 + v item.a.limb1 * v item.b.limb2 +
            v item.a.limb2 * v item.b.limb1) * 2 ^ 68 :=
  ⟨fun h => ⟨h.lo_0, h.hi_1⟩, fun h => ⟨h.1, h.2⟩⟩

/-- The first entry whose operands are the same variables, up to copies. -/
def firstWithOperands (s : Builder) (item : CachedMultiplication) : Option CachedMultiplication :=
  s.cached.find? fun other => (other.real s).sameOperands (item.real s)

section Queue

variable {alpha eta : FF} {v : ℕ → FF} {s : Builder}

/-! ### The first entries -/

variable {item : CachedMultiplication}

theorem sameOperands_iff {other : CachedMultiplication} :
    item.sameOperands other = true ↔ item.a = other.a ∧ item.b = other.b := by
  simp [CachedMultiplication.sameOperands]

theorem find_deduplicate (vec : List CachedMultiplication) (item : CachedMultiplication) :
    (deduplicate vec).find? (·.sameOperands item) = vec.find? (·.sameOperands item) := by
  induction vec using reverseRecOn with
  | nil => rfl
  | append_singleton vec last ih =>
    have hlast : deduplicate (vec ++ [last]) =
        if (deduplicate vec).any (·.sameOperands last) then deduplicate vec
        else deduplicate vec ++ [last] := by
      rw [deduplicate, foldl_append]
      rfl
    rw [hlast, find?_append, ← ih]
    split
    · next hany =>
      obtain ⟨seen, hseen, hsame⟩ := any_eq_true.1 hany
      cases hitem : last.sameOperands item with
      | false => simp [hitem]
      | true =>
        -- an entry that is equal to the last one has been seen
        have hfound : ((deduplicate vec).find? (·.sameOperands item)).isSome = true := by
          rw [find?_isSome]
          refine ⟨seen, hseen, ?_⟩
          rw [sameOperands_iff] at hsame hitem ⊢
          exact ⟨hsame.1.trans hitem.1, hsame.2.trans hitem.2⟩
        obtain ⟨found, hfind⟩ := Option.isSome_iff_exists.1 hfound
        rw [hfind, Option.some_or]
    · rw [find?_append]

theorem find_map_real (item : CachedMultiplication) :
    (s.cached.map (·.real s)).find? (·.sameOperands (item.real s)) =
      (firstWithOperands s item).map (·.real s) := by
  rw [firstWithOperands, find?_map]
  rfl

theorem exists_first (hitem : item ∈ s.cached) : ∃ first, firstWithOperands s item = some first ∧
      first.real s ∈ deduplicate (s.cached.map (·.real s)) ∧
      (first.real s).a = (item.real s).a ∧ (first.real s).b = (item.real s).b := by
  have hsome : (firstWithOperands s item).isSome = true := by
    rw [firstWithOperands, find?_isSome]
    exact ⟨item, hitem, sameOperands_iff.2 ⟨rfl, rfl⟩⟩
  obtain ⟨first, hfirst⟩ := Option.isSome_iff_exists.1 hsome
  have hfind := find_deduplicate (s.cached.map (·.real s)) (item.real s)
  rw [find_map_real, hfirst, Option.map_some] at hfind
  have hfound := hfirst
  rw [firstWithOperands] at hfound
  have hsame := find?_some hfound
  exact ⟨first, hfirst, mem_of_find?_eq_some hfind, sameOperands_iff.1 hsame⟩

/-! ### The gates of a product -/

theorem satisfied_multiplicationGates (input : CachedMultiplication) (rest : List (Gate FF)) :
    Satisfied alpha eta v (multiplicationGates input ++ rest) ↔
      ((v input.a.limb1 * v input.b.limb0 + v input.a.limb0 * v input.b.limb1) * limbSize +
        v input.a.limb0 * v input.b.limb0 = v zeroIdx + v input.lo_0 ∧
      (v input.a.limb0 * v input.b.limb3 + v input.b.limb0 * v input.a.limb3 - v zeroIdx) *
        limbSize + (v input.a.limb0 * v input.b.limb2 + v input.a.limb2 * v input.b.limb0) =
          v input.hi_0 ∧
      (v input.a.limb2 * v input.b.limb1 + v input.a.limb1 * v input.b.limb2) * limbSize +
        v input.a.limb1 * v input.b.limb1 + v input.hi_0 = v zeroIdx + v input.hi_1) ∧
      Satisfied alpha eta v rest := by
  simp only [multiplicationGates, cons_append, nil_append, Satisfied, nextWires,
    holds_nonNativeField1, holds_nonNativeField2, holds_nonNativeField3, holds_none, true_and,
    and_assoc]
  rfl

theorem exact_of_satisfied {input : CachedMultiplication} {rest : List (Gate FF)}
    (h : Satisfied alpha eta v (multiplicationGates input ++ rest)) (hzero : v zeroIdx = 0) :
    Exact v input := by
  obtain ⟨⟨hlo, hhi_0, hhi_1⟩, -⟩ := (satisfied_multiplicationGates input rest).1 h
  rw [hzero, limbSize] at *
  constructor
  · linear_combination -hlo
  · linear_combination -hhi_1 - hhi_0

theorem exact_of_mem {inputs : List CachedMultiplication} (hzero : v zeroIdx = 0) :
    Satisfied alpha eta v (inputs.flatMap multiplicationGates) → ∀ input ∈ inputs,
      Exact v input := by
  induction inputs with
  | nil => exact fun _ _ hinput => absurd hinput not_mem_nil
  | cons first inputs ih =>
    intro h input hinput
    rw [flatMap_cons] at h
    rcases mem_cons.1 hinput with rfl | hinput
    · exact exact_of_satisfied h hzero
    · exact ih h.of_append input hinput

/-! ### Representatives -/

def Representatives (s : Builder) : Prop :=
  ∀ i, s.realVariableIndex (s.realVariableIndex i) = s.realVariableIndex i

theorem Representatives.assertEqual (h : Representatives s) (a b : ℕ) :
    Representatives (assertEqual s a b) := by
  intro i
  unfold NonNativeField.assertEqual
  split
  · exact h i
  · dsimp only
    by_cases hi : s.realVariableIndex i = s.realVariableIndex b
    · rw [if_pos hi, h a]
      split <;> rfl
    · rw [if_neg hi, h i, if_neg hi]

theorem Representatives.step (h : Representatives s) (call : Call) :
    Representatives (step s call) := by
  cases call with
  | addVariable => exact h
  | assertEqual a b => exact h.assertEqual a b
  | queueMultiplication a b => exact h

theorem representatives_run (calls : List Call) : Representatives (run calls) := by
  induction calls using reverseRecOn with
  | nil => exact fun _ => rfl
  | append_singleton calls call ih =>
    rw [run, foldl_append]
    exact ih.step call

theorem Representatives.values_real (h : Representatives s) (i : ℕ) :
    values s v (s.realVariableIndex i) = values s v i := congrArg v (h i)

theorem Representatives.exact_real (h : Representatives s) :
    Exact (values s v) (item.real s) ↔ Exact (values s v) item := by
  simp only [exact_iff, CachedMultiplication.real, Limbs.map, h.values_real]

theorem Exact.congr {first : CachedMultiplication} (h : Exact (values s v) (first.real s))
    (hs : Representatives s) (ha : (first.real s).a = (item.real s).a)
    (hb : (first.real s).b = (item.real s).b) : Exact (values s v) item ↔
      values s v item.lo_0 = values s v first.lo_0 ∧
        values s v item.hi_1 = values s v first.hi_1 := by
  rw [exact_iff, ha, hb] at h
  obtain ⟨hlo, hhi⟩ := h
  rw [← hs.exact_real, exact_iff, ← hlo, ← hhi]
  exact Iff.rfl

theorem queue_exact_iff (calls : List Call)
    (h : Satisfied alpha eta (values (run calls) v) (finalizeCircuit (run calls))) :
    (∀ item ∈ (run calls).cached, Exact (values (run calls) v) item) ↔
      ∀ item ∈ (run calls).cached, ∀ first, firstWithOperands (run calls) item = some first →
        values (run calls) v item.lo_0 = values (run calls) v first.lo_0 ∧
          values (run calls) v item.hi_1 = values (run calls) v first.hi_1 := by
  have hs := representatives_run calls
  have hzero : values (run calls) v zeroIdx = 0 := by
    have hfix := holds_bigAdd.1 h.1
    simp only [wiresOf, fixWitness, createBigAddGate] at hfix
    linear_combination hfix
  have hgates := exact_of_mem hzero h.2
  refine forall₂_congr fun item hitem => ?_
  obtain ⟨first, hfirst, hmem, ha, hb⟩ := exists_first hitem
  rw [(hgates _ hmem).congr hs ha hb]
  constructor
  · intro hequal other hother
    rw [hfirst, Option.some_inj] at hother
    exact hother ▸ hequal
  · exact fun hall => hall first hfirst

end Queue

/-- **Products of emulated field elements.**  The product gates are sound when the limbs and the
returned carries are small, and the values of the builder satisfy them; the queued products are
exact if and only if every call that repeats operands gets the values of the first one. -/
theorem multiplication_iff (alpha eta : FF) (v : ℕ → FF) :
    (∀ (input : Witnesses) (n : ℕ) (rest : List (Gate FF)),
      Satisfied alpha eta v (evaluateGates input n ++ rest) → Small v input.a → Small v input.b →
        Small v input.q → Small v input.r → SmallConstant input.negModulus →
          (v (n + 1)).val < 2 ^ 72 → (v (n + 5)).val < 2 ^ 72 →
            valueOf v input.a * valueOf v input.b +
              valueOf v input.q * constantValue input.negModulus ≡
                valueOf v input.r [ZMOD 2 ^ 272]) ∧
    (∀ (input : Witnesses) (n : ℕ) (rest : List (Gate FF)),
      Before input.a n → Before input.b n → Before input.q n → Before input.r n →
        Satisfied alpha eta (honest input n v) rest →
          Satisfied alpha eta (honest input n v) (evaluateGates input n ++ rest)) ∧
    ∀ calls : List Call, Satisfied alpha eta (values (run calls) v) (finalizeCircuit (run calls)) →
        ((∀ item ∈ (run calls).cached, Exact (values (run calls) v) item) ↔
          ∀ item ∈ (run calls).cached, ∀ first, firstWithOperands (run calls) item = some first →
            values (run calls) v item.lo_0 = values (run calls) v first.lo_0 ∧
              values (run calls) v item.hi_1 = values (run calls) v first.hi_1) :=
  ⟨fun _ _ _ h ha hb hq hr hp hlo hhi => evaluate_sound h ha hb hq hr hp hlo hhi,
    fun _ _ rest ha hb hq hr hrest => evaluate_complete ha hb hq hr rest hrest,
    fun calls h => queue_exact_iff calls h⟩

/-! ### Two calls with the same operands -/

namespace SameOperands

def operand : Limbs := ⟨1, 1, 1, 1, 1⟩

def calls : List Call :=
  [.addVariable, .queueMultiplication operand operand, .queueMultiplication operand operand]

/-- Zeros, but for the first witness that the second call returned. -/
def assignment (i : ℕ) : FF := if i = 5 then 1 else 0

theorem finalizeCircuit_calls : finalizeCircuit (run calls) =
    fixWitness zeroIdx zeroIdx 0 :: (multiplicationGates ⟨operand, operand, 2, 3, 4⟩ ++ []) := rfl

/-- The four limbs are two, and both calls return their products. -/
def products : ℕ → FF
  | 1 => (2 : ℕ)
  | 2 | 5 => (4 : ℕ) + (8 : ℕ) * limbSize
  | 3 | 6 => (8 : ℕ) + (8 : ℕ) * limbSize
  | 4 | 7 => (12 : ℕ) + (16 : ℕ) * limbSize
  | _ => 0

theorem satisfied_calls {v : ℕ → FF} (hzero : v 0 = 0)
    (hlo_0 : v 2 = v 1 * v 1 + 2 * (v 1 * v 1) * limbSize)
    (hhi_0 : v 3 = 2 * (v 1 * v 1) + 2 * (v 1 * v 1) * limbSize)
    (hhi_1 : v 4 = v 3 + v 1 * v 1 + 2 * (v 1 * v 1) * limbSize) :
    Satisfied 0 0 (values (run calls) v) (finalizeCircuit (run calls)) := by
  have hvalues : values (run calls) v = v := rfl
  rw [finalizeCircuit_calls, hvalues]
  refine ⟨holds_bigAdd.2 ?_, (satisfied_multiplicationGates _ _).2 ⟨⟨?_, ?_, ?_⟩, trivial⟩⟩
  · simp only [wiresOf, fixWitness, createBigAddGate, zeroIdx, hzero]
    ring
  · simp only [operand, zeroIdx, hzero, hlo_0]
    ring
  · simp only [operand, zeroIdx, hzero, hhi_0]
    ring
  · simp only [operand, zeroIdx, hzero, hhi_1]
    ring

end SameOperands

/-! ### A product with carries -/

namespace Carries

/-- The limbs of the two factors, of the quotient and of the remainder. -/
def limbs (i : ℕ) : FF :=
  ([0, 3, 5, 0, 2, 4, 1, 6, 0, 7, 2, 0, 1, 5, 91, 99, 147573952589676412981].getD i 0 : ℕ)

def input : Witnesses := ⟨⟨1, 2, 3, 4, 0⟩, ⟨5, 6, 7, 8, 0⟩, ⟨9, 10, 11, 12, 0⟩,
  ⟨13, 14, 15, 16, 0⟩, ⟨2 ^ 68 - 1, 9, 8, 2 ^ 67⟩⟩

theorem val_lt {i : ℕ} (hi : i < 17) : (honest input 17 limbs i).val < 2 ^ 70 := by
  rw [honest_of_lt hi]
  revert hi i
  decide

theorem carries_lt : (honest input 17 limbs 18).val < 2 ^ 72 ∧
    (honest input 17 limbs 22).val < 2 ^ 72 := by
  have hinverse : ((limbSize : FF) ^ 2)⁻¹ =
      12431545866584750573138504686521816626666974057179777438265775398014169840093 :=
    inv_eq_of_mul_eq_one_right (by decide)
  simp only [honest, hinverse]
  decide

end Carries

open SameOperands Carries in
/-- A product whose carries are two and four, and the product of two equal calls. -/
theorem multiplication_iff_carries :
    valueOf (honest input 17 limbs) input.a * valueOf (honest input 17 limbs) input.b +
        valueOf (honest input 17 limbs) input.q * constantValue input.negModulus ≡
      valueOf (honest input 17 limbs) input.r [ZMOD 2 ^ 272] ∧
    ∀ item ∈ (run calls).cached, Exact (values (run calls) products) item := by
  have hbefore : ∀ x ∈ [input.a, input.b, input.q, input.r], Before x 17 := by
    simp only [forall_mem_cons, not_mem_nil, false_imp_iff, implies_true, and_true]
    refine ⟨?_, ?_, ?_, ?_⟩
    all_goals constructor <;> decide
  have hsmall : ∀ x ∈ [input.a, input.b, input.q, input.r], Small (honest input 17 limbs) x :=
    fun x hx => ⟨val_lt (hbefore x hx).limb0, val_lt (hbefore x hx).limb1,
      val_lt (hbefore x hx).limb2, val_lt (hbefore x hx).limb3⟩
  have hgates := (multiplication_iff 0 0 limbs).2.1 input 17 [] (hbefore _ (by decide))
    (hbefore _ (by decide)) (hbefore _ (by decide)) (hbefore _ (by decide)) trivial
  refine ⟨(multiplication_iff 0 0 _).1 input 17 [] hgates (hsmall _ (by decide))
    (hsmall _ (by decide)) (hsmall _ (by decide)) (hsmall _ (by decide)) ?_ carries_lt.1
    carries_lt.2, ((multiplication_iff 0 0 products).2.2 calls (satisfied_calls rfl ?_ ?_ ?_)).2 ?_⟩
  · constructor <;> decide
  all_goals decide

open SameOperands in
/-- **The witnesses that the second of two equal calls returns are not constrained.** -/
theorem not_exact : ¬ ∀ (calls : List Call) (alpha eta : FF) (v : ℕ → FF),
    Satisfied alpha eta (values (run calls) v) (finalizeCircuit (run calls)) →
      ∀ item ∈ (run calls).cached, Exact (values (run calls) v) item := by
  intro h
  have hsatisfied : Satisfied 0 0 (values (run calls) assignment) (finalizeCircuit (run calls)) :=
    satisfied_calls rfl (by simp [assignment]) (by simp [assignment]) (by simp [assignment])
  have hmem : ⟨operand, operand, 5, 6, 7⟩ ∈ (run calls).cached :=
    List.mem_cons_of_mem _ (List.mem_singleton_self _)
  have hone := (h calls 0 0 assignment hsatisfied _ hmem).lo_0
  have hvalues : ∀ i, values (run calls) assignment i = assignment i := fun _ => rfl
  simp [hvalues, assignment, operand] at hone

end NonNativeField
