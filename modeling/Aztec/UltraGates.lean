/-
**Gates of the Ultra circuit builder.**

A gate has four wires, which are indices of variables, and selectors.  It holds of the values of the
variables when the identities of its selectors vanish on its wires and on those of the gate after
it; after the last gate the wires are zero.  The identities have random factors: the powers of
`alpha` keep their parts apart, and `eta` makes one value of a memory record.
-/

import Mathlib.Algebra.Field.Basic
import Mathlib.Tactic.LinearCombination
import Mathlib.Tactic.Ring

namespace UltraGates

theorem two_atLeastTwo : Nat.AtLeastTwo 2 := ⟨le_rfl⟩

/-! ### Gates -/

/-- The wires and selectors of a gate.  Those of lookups, sorting and curve operations are left
out. -/
structure Gate (F : Type) where
  w_l : ℕ
  w_r : ℕ
  w_o : ℕ
  w_4 : ℕ
  q_m : F
  q_1 : F
  q_2 : F
  q_3 : F
  q_4 : F
  q_c : F
  q_arith : F
  q_aux : F

structure Wires (F : Type) where
  w_1 : F
  w_2 : F
  w_3 : F
  w_4 : F

section Identities

variable {F : Type} [Field F]

attribute [local instance] two_atLeastTwo in
/-- `compute_arithmetic_identity`, without the random factor of the whole. -/
def computeArithmeticIdentity (alpha : F) (g : Gate F) (w shifted : Wires F) : F :=
  let arithmeticIdentity :=
    (w.w_2 * g.q_m * (g.q_arith - 3) * (-2)⁻¹ + g.q_1) * w.w_1 + w.w_2 * g.q_2 + w.w_3 * g.q_3 +
      w.w_4 * g.q_4 + g.q_c
  let extraSmallAdditionIdentity :=
    (w.w_1 + w.w_4 - shifted.w_1 + g.q_m) * alpha * (g.q_arith - 2)
  ((extraSmallAdditionIdentity + shifted.w_4) * (g.q_arith - 1) + arithmeticIdentity) * g.q_arith

attribute [local instance] two_atLeastTwo in
/-- The shift of a limb of an emulated field element. -/
def limbSize : F := 2 ^ 68

/-- The part of `compute_auxilary_identity` for products of limbs. -/
def nonNativeFieldIdentity (g : Gate F) (w shifted : Wires F) : F :=
  let limbSubproduct := w.w_1 * shifted.w_2 + shifted.w_1 * w.w_2
  let gate2 := ((w.w_1 * w.w_4 + w.w_2 * w.w_3 - shifted.w_3) * limbSize - shifted.w_4 +
    limbSubproduct) * g.q_4
  let limbSubproduct := limbSubproduct * limbSize + shifted.w_1 * shifted.w_2
  let gate1 := (limbSubproduct - (w.w_3 + w.w_4)) * g.q_3
  let gate3 := (limbSubproduct + w.w_4 - (shifted.w_3 + shifted.w_4)) * g.q_m
  (gate1 + gate2 + gate3) * g.q_2

attribute [local instance] two_atLeastTwo in
/-- The part of `compute_auxilary_identity` for sums of sublimbs. -/
def limbAccumulatorIdentity (g : Gate F) (w shifted : Wires F) : F :=
  let accumulator1 := (((shifted.w_2 * 2 ^ 14 + shifted.w_1) * 2 ^ 14 + w.w_3) * 2 ^ 14 + w.w_2) *
    2 ^ 14 + w.w_1 - w.w_4
  let accumulator2 := (((shifted.w_3 * 2 ^ 14 + shifted.w_2) * 2 ^ 14 + shifted.w_1) * 2 ^ 14 +
    w.w_4) * 2 ^ 14 + w.w_3 - shifted.w_4
  (accumulator1 * g.q_4 + accumulator2 * g.q_m) * g.q_3

/-- The part of `compute_auxilary_identity` for memory. -/
def memoryIdentity (alpha eta : F) (g : Gate F) (w shifted : Wires F) : F :=
  let partialRecordCheck := ((w.w_3 * eta + w.w_2) * eta + w.w_1) * eta + g.q_c
  let memoryRecordCheck := partialRecordCheck - w.w_4
  let indexDelta := shifted.w_1 - w.w_1
  let recordDelta := shifted.w_4 - w.w_4
  let indexIsMonotonicallyIncreasing := indexDelta ^ 2 - indexDelta
  let romConsistencyCheckIdentity :=
    ((1 - indexDelta) * recordDelta * alpha + indexIsMonotonicallyIncreasing) * alpha +
      memoryRecordCheck
  let accessType := w.w_4 - partialRecordCheck
  let accessCheck := accessType ^ 2 - accessType
  let nextGateAccessType :=
    shifted.w_4 - ((shifted.w_3 * eta + shifted.w_2) * eta + shifted.w_1) * eta
  let valueDelta := shifted.w_3 - w.w_3
  let ramConsistencyCheckIdentity :=
    (((1 - indexDelta) * valueDelta * (1 - nextGateAccessType) * alpha +
      indexIsMonotonicallyIncreasing) * alpha + (nextGateAccessType ^ 2 - nextGateAccessType)) *
        alpha + accessCheck
  let timestampDelta := shifted.w_2 - w.w_2
  let ramTimestampCheckIdentity := (1 - indexDelta) * timestampDelta - w.w_3
  (romConsistencyCheckIdentity * g.q_2 + ramTimestampCheckIdentity * g.q_4 +
    memoryRecordCheck * g.q_m) * g.q_1 + ramConsistencyCheckIdentity * g.q_arith

/-- `compute_auxilary_identity`, without the random factor of the whole. -/
def computeAuxilaryIdentity (alpha eta : F) (g : Gate F) (w shifted : Wires F) : F :=
  (memoryIdentity alpha eta g w shifted + nonNativeFieldIdentity g w shifted +
    limbAccumulatorIdentity g w shifted) * g.q_aux

def Holds (alpha eta : F) (g : Gate F) (w shifted : Wires F) : Prop :=
  computeArithmeticIdentity alpha g w shifted = 0 ∧
    computeAuxilaryIdentity alpha eta g w shifted = 0

/-! ### Circuits -/

def wiresOf (v : ℕ → F) (g : Gate F) : Wires F := ⟨v g.w_l, v g.w_r, v g.w_o, v g.w_4⟩

/-- The values on the wires of the next gate, or zeros after the last one. -/
def nextWires (v : ℕ → F) : List (Gate F) → Wires F
  | [] => ⟨0, 0, 0, 0⟩
  | g :: _ => wiresOf v g

def Satisfied (alpha eta : F) (v : ℕ → F) : List (Gate F) → Prop
  | [] => True
  | g :: gates => Holds alpha eta g (wiresOf v g) (nextWires v gates) ∧ Satisfied alpha eta v gates

variable {alpha eta : F} {v : ℕ → F}

@[simp] theorem nextWires_cons (g : Gate F) (gates : List (Gate F)) :
    nextWires v (g :: gates) = wiresOf v g :=
  rfl

variable {gates gates' : List (Gate F)}

theorem Satisfied.of_append (h : Satisfied alpha eta v (gates ++ gates')) :
    Satisfied alpha eta v gates' := by
  induction gates with
  | nil => exact h
  | cons g gates ih => exact ih h.2

theorem Satisfied.exists_holds (h : Satisfied alpha eta v gates) {g : Gate F} (hg : g ∈ gates) :
    ∃ shifted, Holds alpha eta g (wiresOf v g) shifted := by
  induction gates with
  | nil => exact absurd hg List.not_mem_nil
  | cons g' gates ih =>
    rcases List.mem_cons.1 hg with rfl | hg
    · exact ⟨_, h.1⟩
    · exact ih h.2 hg

theorem satisfied_append (h : ∀ g ∈ gates, ∀ shifted, Holds alpha eta g (wiresOf v g) shifted)
    (h' : Satisfied alpha eta v gates') : Satisfied alpha eta v (gates ++ gates') := by
  induction gates with
  | nil => exact h'
  | cons g gates ih =>
    exact ⟨h g List.mem_cons_self _, ih fun g' hg' => h g' (List.mem_cons_of_mem _ hg')⟩

/-! ### Emitting gates -/

attribute [local instance] two_atLeastTwo in
def createBigAddGate (a b c d : ℕ) (aScaling bScaling cScaling dScaling constScaling : F)
    (includeNextGateW4 : Bool) : Gate F where
  w_l := a
  w_r := b
  w_o := c
  w_4 := d
  q_m := 0
  q_1 := aScaling
  q_2 := bScaling
  q_3 := cScaling
  q_4 := dScaling
  q_c := constScaling
  q_arith := if includeNextGateW4 then 2 else 1
  q_aux := 0

def fixWitness (zeroIdx witnessIndex : ℕ) (witnessValue : F) : Gate F :=
  createBigAddGate witnessIndex zeroIdx zeroIdx zeroIdx 1 0 0 0 (-witnessValue) false

inductive AuxSelectors where
  | none
  | limbAccumulate1
  | limbAccumulate2
  | nonNativeField1
  | nonNativeField2
  | nonNativeField3
  | ramConsistencyCheck
  | romConsistencyCheck
  | ramTimestampCheck
  | romRead
  | ramRead
  | ramWrite
deriving DecidableEq

def auxGate (type : AuxSelectors) (a b c d : ℕ) : Gate F :=
  let gate (q_1 q_2 q_3 q_4 q_m q_c q_arith : F) : Gate F :=
    { w_l := a, w_r := b, w_o := c, w_4 := d, q_m := q_m, q_1 := q_1, q_2 := q_2, q_3 := q_3,
      q_4 := q_4, q_c := q_c, q_arith := q_arith, q_aux := if type = .none then 0 else 1 }
  match type with
  | .limbAccumulate1 => gate 0 0 1 1 0 0 0
  | .limbAccumulate2 => gate 0 0 1 0 1 0 0
  | .nonNativeField1 => gate 0 1 1 0 0 0 0
  | .nonNativeField2 => gate 0 1 0 1 0 0 0
  | .nonNativeField3 => gate 0 1 0 0 1 0 0
  | .romConsistencyCheck => gate 1 1 0 0 0 0 0
  | .ramConsistencyCheck => gate 0 0 0 0 0 0 1
  | .ramTimestampCheck => gate 1 0 0 1 0 0 0
  | .romRead => gate 1 0 0 0 1 0 0
  | .ramRead => gate 1 0 0 0 1 0 0
  | .ramWrite => gate 1 0 0 0 1 1 0
  | .none => gate 0 0 0 0 0 0 0

section Emitted

variable {w shifted : Wires F} {a b c d : ℕ} {aScaling bScaling cScaling dScaling constScaling : F}

theorem holds_bigAdd : Holds alpha eta
    (createBigAddGate a b c d aScaling bScaling cScaling dScaling constScaling false) w shifted ↔
      aScaling * w.w_1 + bScaling * w.w_2 + cScaling * w.w_3 + dScaling * w.w_4 + constScaling =
        0 := by
  simp only [Holds, computeArithmeticIdentity, computeAuxilaryIdentity, createBigAddGate,
    Bool.false_eq_true, if_false]
  constructor
  · rintro ⟨harithmetic, -⟩
    linear_combination harithmetic
  · intro h
    exact ⟨by linear_combination h, mul_zero _⟩

/-- The factor `2` of the whole identity is not zero. -/
theorem holds_bigAddNext (htwo : (2 : F) ≠ 0) : Holds alpha eta
    (createBigAddGate a b c d aScaling bScaling cScaling dScaling constScaling true) w shifted ↔
      aScaling * w.w_1 + bScaling * w.w_2 + cScaling * w.w_3 + dScaling * w.w_4 + constScaling +
        shifted.w_4 = 0 := by
  simp only [Holds, computeArithmeticIdentity, computeAuxilaryIdentity, createBigAddGate, if_true]
  constructor
  · rintro ⟨harithmetic, -⟩
    refine (mul_eq_zero.1 ?_).resolve_right htwo
    linear_combination harithmetic
  · intro h
    exact ⟨by linear_combination 2 * h, mul_zero _⟩

theorem holds_none : Holds alpha eta (auxGate .none a b c d) w shifted := by
  simp [Holds, computeArithmeticIdentity, computeAuxilaryIdentity, auxGate]

/-- `(a_1 b_0 + a_0 b_1) 2^68 + a_0 b_0` is the sum of the other two wires. -/
theorem holds_nonNativeField1 : Holds alpha eta (auxGate .nonNativeField1 a b c d) w shifted ↔
    (w.w_1 * shifted.w_2 + shifted.w_1 * w.w_2) * limbSize + shifted.w_1 * shifted.w_2 =
      w.w_3 + w.w_4 := by
  simp [Holds, computeArithmeticIdentity, computeAuxilaryIdentity, memoryIdentity,
    nonNativeFieldIdentity, limbAccumulatorIdentity, auxGate, sub_eq_zero]

/-- `(a_0 b_3 + a_3 b_0 - r_3) 2^68 + a_0 b_2 + a_2 b_0` is the last wire of the next gate. -/
theorem holds_nonNativeField2 : Holds alpha eta (auxGate .nonNativeField2 a b c d) w shifted ↔
    (w.w_1 * w.w_4 + w.w_2 * w.w_3 - shifted.w_3) * limbSize +
      (w.w_1 * shifted.w_2 + shifted.w_1 * w.w_2) = shifted.w_4 := by
  simp only [Holds, computeArithmeticIdentity, computeAuxilaryIdentity, memoryIdentity,
    nonNativeFieldIdentity, limbAccumulatorIdentity, auxGate]
  simp only [reduceCtorEq, if_false]
  constructor
  · rintro ⟨-, h⟩
    linear_combination h
  · intro h
    exact ⟨by ring, by linear_combination h⟩

/-- `(a_2 b_1 + a_1 b_2) 2^68 + a_1 b_1` and the last wire are the sum of the last two wires of the
next gate. -/
theorem holds_nonNativeField3 : Holds alpha eta (auxGate .nonNativeField3 a b c d) w shifted ↔
    (w.w_1 * shifted.w_2 + shifted.w_1 * w.w_2) * limbSize + shifted.w_1 * shifted.w_2 + w.w_4 =
      shifted.w_3 + shifted.w_4 := by
  simp only [Holds, computeArithmeticIdentity, computeAuxilaryIdentity, memoryIdentity,
    nonNativeFieldIdentity, limbAccumulatorIdentity, auxGate]
  simp only [reduceCtorEq, if_false]
  constructor
  · rintro ⟨-, h⟩
    linear_combination h
  · intro h
    exact ⟨by ring, by linear_combination h⟩

/-! ### Memory gates -/

/-- The record of a memory access, without the access type. -/
def partialRecord (eta : F) (w : Wires F) : F := ((w.w_3 * eta + w.w_2) * eta + w.w_1) * eta

def accessType (eta : F) (w : Wires F) : F := w.w_4 - partialRecord eta w

/-- Gates of accesses, whatever their type. -/
theorem holds_memory {type : AuxSelectors} (htype : type = .romRead ∨ type = .ramRead ∨
    type = .ramWrite) : Holds alpha eta (auxGate type a b c d) w shifted ↔
      accessType eta w = if type = .ramWrite then 1 else 0 := by
  rcases htype with rfl | rfl | rfl
  all_goals
    simp only [Holds, computeArithmeticIdentity, computeAuxilaryIdentity, memoryIdentity,
      nonNativeFieldIdentity, limbAccumulatorIdentity, auxGate, accessType, partialRecord]
    simp only [reduceCtorEq, if_false, if_true]
    constructor
    · rintro ⟨-, h⟩
      linear_combination -h
    · intro h
      exact ⟨by ring, by linear_combination -h⟩

section

variable (htwo : (2 : F) ≠ 0) (hthree : (3 : F) ≠ 0)
include htwo hthree

theorem coefficients_eq_zero {x y z t : F} :
    (∀ alpha : F, ((x * alpha + y) * alpha + z) * alpha + t = 0) ↔
      x = 0 ∧ y = 0 ∧ z = 0 ∧ t = 0 := by
  constructor
  · intro h
    have ht : t = 0 := by simpa using h 0
    have hy : y = 0 := by
      refine (mul_eq_zero.1 (?_ : 2 * y = 0)).resolve_left htwo
      linear_combination h 1 + h (-1) - 2 * ht
    have hx : x = 0 := by
      have hsix : 2 * (3 * x) = 0 := by
        linear_combination h 2 - 2 * h 1 - 2 * hy + ht
      exact (mul_eq_zero.1 ((mul_eq_zero.1 hsix).resolve_left htwo)).resolve_left hthree
    exact ⟨hx, hy, by linear_combination h 1 - hx - hy - ht, ht⟩
  · rintro ⟨rfl, rfl, rfl, rfl⟩ alpha
    ring

/-- Neighbours in the sorted list of a memory that is only read. -/
theorem holds_romConsistency :
    (∀ alpha, Holds alpha eta (auxGate .romConsistencyCheck a b c d) w shifted) ↔
      accessType eta w = 0 ∧ (shifted.w_1 - w.w_1) ^ 2 = shifted.w_1 - w.w_1 ∧
        (1 - (shifted.w_1 - w.w_1)) * (shifted.w_4 - w.w_4) = 0 := by
  have hpolynomial := coefficients_eq_zero htwo hthree (x := 0)
    (y := (1 - (shifted.w_1 - w.w_1)) * (shifted.w_4 - w.w_4))
    (z := (shifted.w_1 - w.w_1) ^ 2 - (shifted.w_1 - w.w_1)) (t := -accessType eta w)
  rw [neg_eq_zero, sub_eq_zero (b := shifted.w_1 - w.w_1)] at hpolynomial
  constructor
  · intro h
    obtain ⟨-, hrecord, hindex, htype⟩ := hpolynomial.1 fun alpha => by
      have haux := (h alpha).2
      simp only [computeAuxilaryIdentity, memoryIdentity, nonNativeFieldIdentity,
        limbAccumulatorIdentity, auxGate, reduceCtorEq, if_false] at haux
      simp only [accessType, partialRecord]
      linear_combination haux
    exact ⟨htype, hindex, hrecord⟩
  · rintro ⟨htype, hindex, hrecord⟩ alpha
    have hzero := hpolynomial.2 ⟨rfl, hrecord, hindex, htype⟩ alpha
    simp only [accessType, partialRecord] at hzero
    simp only [Holds, computeArithmeticIdentity, computeAuxilaryIdentity, memoryIdentity,
      nonNativeFieldIdentity, limbAccumulatorIdentity, auxGate, reduceCtorEq, if_false]
    exact ⟨by ring, by linear_combination hzero⟩

/-- Neighbours in the sorted list of a memory. -/
theorem holds_ramConsistency :
    (∀ alpha, Holds alpha eta (auxGate .ramConsistencyCheck a b c d) w shifted) ↔
      accessType eta w ^ 2 = accessType eta w ∧
        accessType eta shifted ^ 2 = accessType eta shifted ∧
          (shifted.w_1 - w.w_1) ^ 2 = shifted.w_1 - w.w_1 ∧
            (1 - (shifted.w_1 - w.w_1)) * (shifted.w_3 - w.w_3) * (1 - accessType eta shifted) =
              0 := by
  have hpolynomial := coefficients_eq_zero htwo hthree
    (x := (1 - (shifted.w_1 - w.w_1)) * (shifted.w_3 - w.w_3) * (1 - accessType eta shifted))
    (y := (shifted.w_1 - w.w_1) ^ 2 - (shifted.w_1 - w.w_1))
    (z := accessType eta shifted ^ 2 - accessType eta shifted)
    (t := accessType eta w ^ 2 - accessType eta w)
  rw [sub_eq_zero (b := shifted.w_1 - w.w_1), sub_eq_zero (b := accessType eta shifted),
    sub_eq_zero (b := accessType eta w)] at hpolynomial
  constructor
  · intro h
    obtain ⟨hvalue, hindex, hnext, htype⟩ := hpolynomial.1 fun alpha => by
      have haux := (h alpha).2
      simp only [computeAuxilaryIdentity, memoryIdentity, nonNativeFieldIdentity,
        limbAccumulatorIdentity, auxGate, reduceCtorEq, if_false] at haux
      simp only [accessType, partialRecord]
      linear_combination haux
    exact ⟨htype, hnext, hindex, hvalue⟩
  · rintro ⟨htype, hnext, hindex, hvalue⟩ alpha
    have hzero := hpolynomial.2 ⟨hvalue, hindex, hnext, htype⟩ alpha
    simp only [accessType, partialRecord] at hzero
    simp only [Holds, computeArithmeticIdentity, computeAuxilaryIdentity, memoryIdentity,
      nonNativeFieldIdentity, limbAccumulatorIdentity, auxGate, reduceCtorEq, if_false]
    exact ⟨by ring, by linear_combination hzero⟩

end

/-- Times of neighbours at one index. -/
theorem holds_ramTimestamp : Holds alpha eta (auxGate .ramTimestampCheck a b c d) w shifted ↔
    (1 - (shifted.w_1 - w.w_1)) * (shifted.w_2 - w.w_2) = w.w_3 := by
  simp only [Holds, computeArithmeticIdentity, computeAuxilaryIdentity, memoryIdentity,
    nonNativeFieldIdentity, limbAccumulatorIdentity, auxGate, reduceCtorEq, if_false]
  constructor
  · rintro ⟨-, h⟩
    linear_combination h
  · intro h
    exact ⟨by ring, by linear_combination h⟩

end Emitted

end Identities

end UltraGates
