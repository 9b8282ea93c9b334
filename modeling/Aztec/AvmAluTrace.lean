/-
**The ALU trace of the AVM circuit.**
-/

import Aztec.AvmTraceDeserialization
import Aztec.ScalarField

open Nat (cast mod_eq_of_lt mod_lt mul_lt_mul'')

namespace AvmTrace

/-! ### The trace builder -/

/-- An entry of the ALU trace; the slice registers hold 8, 16 and 64 bits. -/
structure AluTraceEntry where
  aluClk : ℕ := 0
  aluOpAdd : Bool := false
  aluOpSub : Bool := false
  aluOpMul : Bool := false
  aluOpNot : Bool := false
  aluOpEq : Bool := false
  aluFfTag : Bool := false
  aluU8Tag : Bool := false
  aluU16Tag : Bool := false
  aluU32Tag : Bool := false
  aluU64Tag : Bool := false
  aluU128Tag : Bool := false
  aluIa : FF := 0
  aluIb : FF := 0
  aluIc : FF := 0
  aluCf : Bool := false
  aluU8R0 : ℕ := 0
  aluU8R1 : ℕ := 0
  aluU16Reg : Vector ℕ 8 := Vector.replicate 8 0
  aluU64R0 : ℕ := 0
  aluOpEqDiffInv : FF := 0

open AluTraceEntry

def AluTraceEntry.withTag (entry : AluTraceEntry) (inTag : AvmMemoryTag) : AluTraceEntry :=
  { entry with
    aluFfTag := decide (inTag = .FF)
    aluU8Tag := decide (inTag = .U8)
    aluU16Tag := decide (inTag = .U16)
    aluU32Tag := decide (inTag = .U32)
    aluU64Tag := decide (inTag = .U64)
    aluU128Tag := decide (inTag = .U128) }

/-- The decomposition of a 128-bit number into two 8-bit and seven 16-bit registers. -/
def AluTraceEntry.withSlices (entry : AluTraceEntry) (cU128 : ℕ) : AluTraceEntry :=
  { entry with
    aluU8R0 := cU128 % 2 ^ 8
    aluU8R1 := cU128 / 2 ^ 8 % 2 ^ 8
    aluU16Reg := Vector.ofFn fun i =>
      if i.1 < 7 then cU128 / 2 ^ (16 + 16 * i.1) % 2 ^ 16 else 0 }

def u16Registers (aU128 : ℕ) : Vector ℕ 8 :=
  Vector.ofFn fun i => aU128 / 2 ^ (16 * i.1) % 2 ^ 16

/-- The truncation of a 128-bit number to an integer type. -/
def staticCast (inTag : AvmMemoryTag) (cU128 : ℕ) : FF :=
  match inTag with
  | .U8 => (cU128 % 2 ^ 8 : ℕ)
  | .U16 => (cU128 % 2 ^ 16 : ℕ)
  | .U32 => (cU128 % 2 ^ 32 : ℕ)
  | .U64 => (cU128 % 2 ^ 64 : ℕ)
  | .U128 => (cU128 : ℕ)
  | .U0 | .FF => 0

structure AvmAluTraceBuilder where
  aluTrace : List AluTraceEntry := []

namespace AvmAluTraceBuilder

def pushBack (builder : AvmAluTraceBuilder) (entry : AluTraceEntry) : AvmAluTraceBuilder :=
  { builder with aluTrace := builder.aluTrace ++ [entry] }

/-- Build the ALU trace of an addition and compute its result. -/
def opAdd (builder : AvmAluTraceBuilder) (a b : FF) (inTag : AvmMemoryTag) (clk : ℕ) :
    FF × AvmAluTraceBuilder :=
  let cU128 : ℕ := (a.uint128 + b.uint128) % 2 ^ 128
  let entry (c : FF) (carry : Bool) : AluTraceEntry :=
    { aluClk := clk, aluOpAdd := true, aluIa := a, aluIb := b, aluIc := c, aluCf := carry }
  match inTag with
  -- Unsupported as instruction tag.
  | .U0 => (0, builder)
  | .FF => (a + b, builder.pushBack ((entry (a + b) false).withTag .FF))
  | inTag =>
    let c := staticCast inTag cU128
    let carry := decide (cU128 < a.uint128)
    (c, builder.pushBack (((entry c carry).withTag inTag).withSlices cU128))

/-- Build the ALU trace of a subtraction and compute its result. -/
def opSub (builder : AvmAluTraceBuilder) (a b : FF) (inTag : AvmMemoryTag) (clk : ℕ) :
    FF × AvmAluTraceBuilder :=
  let cU128 : ℕ := (a.uint128 + 2 ^ 128 - b.uint128) % 2 ^ 128
  let entry (c : FF) (carry : Bool) : AluTraceEntry :=
    { aluClk := clk, aluOpSub := true, aluIa := a, aluIb := b, aluIc := c, aluCf := carry }
  match inTag with
  | .U0 => (0, builder)
  | .FF => (a - b, builder.pushBack ((entry (a - b) false).withTag .FF))
  | inTag =>
    let c := staticCast inTag cU128
    let carry := decide (a.uint128 < b.uint128)
    (c, builder.pushBack (((entry c carry).withTag inTag).withSlices cU128))

/-- Build the ALU trace of a multiplication and compute its result. -/
def opMul (builder : AvmAluTraceBuilder) (a b : FF) (inTag : AvmMemoryTag) (clk : ℕ) :
    FF × AvmAluTraceBuilder :=
  let cU128 : ℕ := a.uint128 * b.uint128 % 2 ^ 128
  let entry (c : FF) : AluTraceEntry :=
    { aluClk := clk, aluOpMul := true, aluIa := a, aluIb := b, aluIc := c }
  match inTag with
  | .U0 => (0, builder)
  | .FF => (a * b, builder.pushBack ((entry (a * b)).withTag .FF))
  | .U128 =>
    let aU256 : ℕ := a.val
    let bU256 : ℕ := b.val
    let cU256 := aU256 * bU256 % 2 ^ 256
    let cHigh := (aU256 / 2 ^ 64) * (bU256 / 2 ^ 64) % 2 ^ 256 * 2 ^ 128 % 2 ^ 256
    let cross := (cU256 + 2 ^ 256 - cHigh) % 2 ^ 256
    let carry := decide (0 < cross / 2 ^ 192)
    let aluU64R0 := cross / 2 ^ 128 % 2 ^ 64
    let c : FF := cU128
    -- Two rows: the registers of `a` are in the first and those of `b` in the second.
    (c, (builder.pushBack
      { (entry c).withTag .U128 with
        aluCf := carry, aluU16Reg := u16Registers a.uint128, aluU64R0 := aluU64R0 }).pushBack
      { aluU16Reg := u16Registers b.uint128 })
  | inTag =>
    let c := staticCast inTag cU128
    (c, builder.pushBack (((entry c).withTag inTag).withSlices cU128))

/-- Build the ALU trace of a bitwise not and compute its result. -/
def opNot (builder : AvmAluTraceBuilder) (a : FF) (inTag : AvmMemoryTag) (clk : ℕ) :
    FF × AvmAluTraceBuilder :=
  let cU128 : ℕ := 2 ^ 128 - 1 - a.uint128
  match inTag with
  | .FF | .U0 => (0, builder)
  | inTag =>
    let c := staticCast inTag cU128
    (c, builder.pushBack
      (withTag { aluClk := clk, aluOpNot := true, aluIa := a, aluIc := c } inTag))

/-- Build the ALU trace of an equality and return its bit. -/
def opEq (builder : AvmAluTraceBuilder) (a b : FF) (inTag : AvmMemoryTag) (clk : ℕ) :
    FF × AvmAluTraceBuilder :=
  let c := a - b
  let invC := if c ≠ 0 then c⁻¹ else 0
  let res : FF := if c = 0 then 1 else 0
  (res, builder.pushBack
    (withTag
      { aluClk := clk, aluOpEq := true, aluIa := a, aluIb := b, aluIc := res,
        aluOpEqDiffInv := invC } inTag))

end AvmAluTraceBuilder

/-! ### The relations of the table -/

structure AluRow where
  aluIa : FF
  aluIb : FF
  aluIc : FF
  aluOpAdd : FF
  aluOpSub : FF
  aluOpMul : FF
  aluOpNot : FF
  aluOpEq : FF
  aluFfTag : FF
  aluU8Tag : FF
  aluU16Tag : FF
  aluU32Tag : FF
  aluU64Tag : FF
  aluU128Tag : FF
  aluU8R0 : FF
  aluU8R1 : FF
  aluU16R0 : FF
  aluU16R1 : FF
  aluU16R2 : FF
  aluU16R3 : FF
  aluU16R4 : FF
  aluU16R5 : FF
  aluU16R6 : FF
  aluU16R7 : FF
  aluU64R0 : FF
  aluCf : FF
  aluOpEqDiffInv : FF

/-- The inclusion of an entry into the main trace by `finalize`. -/
def AluTraceEntry.toRow (src : AluTraceEntry) : AluRow where
  aluIa := src.aluIa
  aluIb := src.aluIb
  aluIc := src.aluIc
  aluOpAdd := FF.ofBool src.aluOpAdd
  aluOpSub := FF.ofBool src.aluOpSub
  aluOpMul := FF.ofBool src.aluOpMul
  aluOpNot := FF.ofBool src.aluOpNot
  aluOpEq := FF.ofBool src.aluOpEq
  aluFfTag := FF.ofBool src.aluFfTag
  aluU8Tag := FF.ofBool src.aluU8Tag
  aluU16Tag := FF.ofBool src.aluU16Tag
  aluU32Tag := FF.ofBool src.aluU32Tag
  aluU64Tag := FF.ofBool src.aluU64Tag
  aluU128Tag := FF.ofBool src.aluU128Tag
  aluU8R0 := src.aluU8R0
  aluU8R1 := src.aluU8R1
  aluU16R0 := src.aluU16Reg[0]
  aluU16R1 := src.aluU16Reg[1]
  aluU16R2 := src.aluU16Reg[2]
  aluU16R3 := src.aluU16Reg[3]
  aluU16R4 := src.aluU16Reg[4]
  aluU16R5 := src.aluU16Reg[5]
  aluU16R6 := src.aluU16Reg[6]
  aluU16R7 := src.aluU16Reg[7]
  aluU64R0 := src.aluU64R0
  aluCf := FF.ofBool src.aluCf
  aluOpEqDiffInv := src.aluOpEqDiffInv

namespace AluRow

variable (row : AluRow)

def sum8 : FF := row.aluU8R0

def sum16 : FF := row.sum8 + row.aluU8R1 * 2 ^ 8

def sum32 : FF := row.sum16 + row.aluU16R0 * 2 ^ 16

def sum64 : FF := row.sum32 + row.aluU16R1 * 2 ^ 32 + row.aluU16R2 * 2 ^ 48

def sum96 : FF := row.sum64 + row.aluU16R3 * 2 ^ 64 + row.aluU16R4 * 2 ^ 80

def sum128 : FF := row.sum96 + row.aluU16R5 * 2 ^ 96 + row.aluU16R6 * 2 ^ 112

def sumTagNo128 : FF :=
  row.aluU8Tag * row.sum8 + row.aluU16Tag * row.sum16 + row.aluU32Tag * row.sum32 +
    row.aluU64Tag * row.sum64

def sumTag : FF := row.sumTagNo128 + row.aluU128Tag * row.sum128

def sumLow64 : FF :=
  row.aluU16R0 + row.aluU16R1 * 2 ^ 16 + row.aluU16R2 * 2 ^ 32 + row.aluU16R3 * 2 ^ 48

def sumHigh64 : FF :=
  row.aluU16R4 + row.aluU16R5 * 2 ^ 16 + row.aluU16R6 * 2 ^ 32 + row.aluU16R7 * 2 ^ 48

def uintMax : FF :=
  row.aluU8Tag * 2 ^ 8 + row.aluU16Tag * 2 ^ 16 + row.aluU32Tag * 2 ^ 32 +
    row.aluU64Tag * 2 ^ 64 + row.aluU128Tag * 2 ^ 128 - 1

def diff : FF := row.aluIa - row.aluIb

end AluRow

structure AluRelations (row next : AluRow) : Prop where
  ffTag : row.aluFfTag * (1 - row.aluFfTag) = 0
  u8Tag : row.aluU8Tag * (1 - row.aluU8Tag) = 0
  u16Tag : row.aluU16Tag * (1 - row.aluU16Tag) = 0
  u32Tag : row.aluU32Tag * (1 - row.aluU32Tag) = 0
  u64Tag : row.aluU64Tag * (1 - row.aluU64Tag) = 0
  u128Tag : row.aluU128Tag * (1 - row.aluU128Tag) = 0
  addSub1 : (row.aluOpAdd + row.aluOpSub) *
      (row.sum128 - row.aluIa + row.aluFfTag * row.aluIc) +
    (row.aluOpAdd - row.aluOpSub) * (row.aluCf * 2 ^ 128 - row.aluIb) = 0
  addSub2 : (row.aluOpAdd + row.aluOpSub) * (row.sumTag + row.aluFfTag * row.aluIa - row.aluIc) +
    row.aluFfTag * (row.aluOpAdd - row.aluOpSub) * row.aluIb = 0
  multiplicationFf : row.aluFfTag * row.aluOpMul * (row.aluIa * row.aluIb - row.aluIc) = 0
  mulCommon1 : (1 - row.aluFfTag - row.aluU128Tag) * row.aluOpMul *
    (row.sum128 - row.aluIa * row.aluIb) = 0
  mulCommon2 : row.aluOpMul *
    (row.sumTagNo128 - (1 - row.aluFfTag - row.aluU128Tag) * row.aluIc) = 0
  multiplicationA : row.aluU128Tag * row.aluOpMul *
    (row.sumLow64 + row.sumHigh64 * 2 ^ 64 - row.aluIa) = 0
  multiplicationB : row.aluU128Tag * row.aluOpMul *
    (next.sumLow64 + next.sumHigh64 * 2 ^ 64 - row.aluIb) = 0
  multiplicationOutU128 : row.aluU128Tag * row.aluOpMul *
    (row.aluIa * next.sumLow64 + row.sumLow64 * next.sumHigh64 * 2 ^ 64 -
      (row.aluCf * 2 ^ 64 + row.aluU64R0) * 2 ^ 128 - row.aluIc) = 0
  ffNotXor : row.aluOpNot * row.aluFfTag = 0
  opNot : row.aluOpNot * (row.aluIa + row.aluIc - row.uintMax) = 0
  resIsBool : row.aluOpEq * (row.aluIc * (1 - row.aluIc)) = 0
  opEq : row.aluOpEq *
    (row.diff * (row.aluIc * (1 - row.aluOpEqDiffInv) + row.aluOpEqDiffInv) - 1 + row.aluIc) = 0

/-- Rows that satisfy the relations whatever row follows them. -/
def AluAccepted (rows : List AluTraceEntry) : Prop :=
  ∀ following : AluRow, List.IsChain AluRelations (rows.map (·.toRow) ++ [following])

/-! ### What the operations should do -/

def AvmMemoryTag.modulus : AvmMemoryTag → ℕ
  | U0 => 1
  | U8 => 2 ^ 8
  | U16 => 2 ^ 16
  | U32 => 2 ^ 32
  | U64 => 2 ^ 64
  | U128 => 2 ^ 128
  | FF => Kernel.fieldModulus

def InRange (inTag : AvmMemoryTag) (a : FF) : Prop := a.val < inTag.modulus

inductive AluOp
  | add | sub | mul | eq | not
  deriving DecidableEq, Repr

/-- One operation of the builder; the negation has no second operand. -/
def AvmAluTraceBuilder.op (builder : AvmAluTraceBuilder) :
    AluOp → FF → FF → AvmMemoryTag → ℕ → FF × AvmAluTraceBuilder
  | .add, a, b, inTag, clk => builder.opAdd a b inTag clk
  | .sub, a, b, inTag, clk => builder.opSub a b inTag clk
  | .mul, a, b, inTag, clk => builder.opMul a b inTag clk
  | .eq, a, b, inTag, clk => builder.opEq a b inTag clk
  | .not, a, _, inTag, clk => builder.opNot a inTag clk

/-- The result over the integers, reduced to the range of the tag. -/
def AluOp.mathematical (op : AluOp) (inTag : AvmMemoryTag) (a b : FF) : FF :=
  match op with
  | .add => (((a.val : ℤ) + b.val) % inTag.modulus : ℤ)
  | .sub => (((a.val : ℤ) - b.val) % inTag.modulus : ℤ)
  | .mul => (((a.val : ℤ) * b.val) % inTag.modulus : ℤ)
  | .not => ((-1 - (a.val : ℤ)) % inTag.modulus : ℤ)
  | .eq => if a = b then 1 else 0

/-- The operation returns the mathematical result and appends rows that are accepted. -/
def AluCorrect (op : AluOp) (inTag : AvmMemoryTag) (a b : FF) : Prop :=
  ∀ (builder : AvmAluTraceBuilder) (clk : ℕ),
    (builder.op op a b inTag clk).1 = op.mathematical inTag a b ∧
      ∃ rows, rows ≠ [] ∧
        (builder.op op a b inTag clk).2.aluTrace = builder.aluTrace ++ rows ∧ AluAccepted rows

/-- The tags of an operation: the bitwise negation has no field variant. -/
def AluOp.Supports (op : AluOp) (inTag : AvmMemoryTag) : Prop :=
  inTag ≠ .U0 ∧ (op = .not → inTag ≠ .FF)

/-! ### Slices -/

theorem mod_add_slice (c k w : ℕ) : c % 2 ^ k + c / 2 ^ k % 2 ^ w * 2 ^ k = c % 2 ^ (k + w) := by
  rw [pow_add, Nat.mod_mul, mul_comm (2 ^ k)]

theorem cast_mod_add_slice (c k w : ℕ) {n : ℕ} (hn : k + w = n) :
    ((c % 2 ^ k : ℕ) : FF) + (c / 2 ^ k % 2 ^ w : ℕ) * 2 ^ k = (c % 2 ^ n : ℕ) := by
  rw [← hn, ← mod_add_slice]
  push_cast
  ring

structure SlicesOf (row : AluRow) (c : ℕ) : Prop where
  u8R0 : row.aluU8R0 = (c % 2 ^ 8 : ℕ)
  u8R1 : row.aluU8R1 = (c / 2 ^ 8 % 2 ^ 8 : ℕ)
  u16R0 : row.aluU16R0 = (c / 2 ^ 16 % 2 ^ 16 : ℕ)
  u16R1 : row.aluU16R1 = (c / 2 ^ 32 % 2 ^ 16 : ℕ)
  u16R2 : row.aluU16R2 = (c / 2 ^ 48 % 2 ^ 16 : ℕ)
  u16R3 : row.aluU16R3 = (c / 2 ^ 64 % 2 ^ 16 : ℕ)
  u16R4 : row.aluU16R4 = (c / 2 ^ 80 % 2 ^ 16 : ℕ)
  u16R5 : row.aluU16R5 = (c / 2 ^ 96 % 2 ^ 16 : ℕ)
  u16R6 : row.aluU16R6 = (c / 2 ^ 112 % 2 ^ 16 : ℕ)

theorem slicesOf_withSlices (entry : AluTraceEntry) (c : ℕ) :
    SlicesOf (entry.withSlices c).toRow c := by
  constructor <;> simp [toRow, withSlices]

theorem slicesOf_default (entry : AluTraceEntry) (h0 : entry.aluU8R0 = 0) (h1 : entry.aluU8R1 = 0)
    (hreg : entry.aluU16Reg = Vector.replicate 8 0) : SlicesOf entry.toRow 0 := by
  constructor <;> simp [toRow, h0, h1, hreg]

namespace SlicesOf

variable {row : AluRow} {c : ℕ} (h : SlicesOf row c)
include h

theorem sum8 : row.sum8 = (c % 2 ^ 8 : ℕ) := h.u8R0

theorem sum16 : row.sum16 = (c % 2 ^ 16 : ℕ) := by
  rw [AluRow.sum16, h.sum8, h.u8R1, cast_mod_add_slice c 8 8 rfl]

theorem sum32 : row.sum32 = (c % 2 ^ 32 : ℕ) := by
  rw [AluRow.sum32, h.sum16, h.u16R0, cast_mod_add_slice c 16 16 rfl]

theorem sum64 : row.sum64 = (c % 2 ^ 64 : ℕ) := by
  rw [AluRow.sum64, h.sum32, h.u16R1, h.u16R2, cast_mod_add_slice c 32 16 rfl,
    cast_mod_add_slice c 48 16 rfl]

theorem sum128 : row.sum128 = (c % 2 ^ 128 : ℕ) := by
  rw [AluRow.sum128, AluRow.sum96, h.sum64, h.u16R3, h.u16R4, h.u16R5, h.u16R6,
    cast_mod_add_slice c 64 16 rfl, cast_mod_add_slice c 80 16 rfl,
    cast_mod_add_slice c 96 16 rfl, cast_mod_add_slice c 112 16 rfl]

end SlicesOf

/-! ### Tagged rows -/

structure TaggedAs (row : AluRow) (inTag : AvmMemoryTag) : Prop where
  ffTag : row.aluFfTag = FF.ofBool (decide (inTag = .FF))
  u8Tag : row.aluU8Tag = FF.ofBool (decide (inTag = .U8))
  u16Tag : row.aluU16Tag = FF.ofBool (decide (inTag = .U16))
  u32Tag : row.aluU32Tag = FF.ofBool (decide (inTag = .U32))
  u64Tag : row.aluU64Tag = FF.ofBool (decide (inTag = .U64))
  u128Tag : row.aluU128Tag = FF.ofBool (decide (inTag = .U128))

theorem taggedAs_withTag (entry : AluTraceEntry) (inTag : AvmMemoryTag) :
    TaggedAs (entry.withTag inTag).toRow inTag :=
  ⟨rfl, rfl, rfl, rfl, rfl, rfl⟩

theorem ofBool_mul_one_sub (flag : Bool) : FF.ofBool flag * (1 - FF.ofBool flag) = 0 := by
  cases flag <;> simp

namespace TaggedAs

variable {row next : AluRow} {inTag : AvmMemoryTag} (h : TaggedAs row inTag)
include h

theorem sumTag {c : ℕ} (hc : c < 2 ^ 128) (hslices : SlicesOf row c) :
    row.sumTag = staticCast inTag c := by
  rw [AluRow.sumTag, AluRow.sumTagNo128, h.u8Tag, h.u16Tag, h.u32Tag, h.u64Tag, h.u128Tag,
    hslices.sum8, hslices.sum16, hslices.sum32, hslices.sum64, hslices.sum128, mod_eq_of_lt hc]
  cases inTag <;> simp [staticCast]

theorem uintMax (hff : inTag ≠ .FF) (hzero : inTag ≠ .U0) :
    row.uintMax = (inTag.modulus : FF) - 1 := by
  rw [AluRow.uintMax, h.u8Tag, h.u16Tag, h.u32Tag, h.u64Tag, h.u128Tag]
  cases inTag <;> simp [AvmMemoryTag.modulus] at hff hzero ⊢ <;> norm_num

theorem relations_of_addSub (hmul : row.aluOpMul = 0) (hnot : row.aluOpNot = 0)
    (heq : row.aluOpEq = 0)
    (h1 : (row.aluOpAdd + row.aluOpSub) * (row.sum128 - row.aluIa + row.aluFfTag * row.aluIc) +
      (row.aluOpAdd - row.aluOpSub) * (row.aluCf * 2 ^ 128 - row.aluIb) = 0)
    (h2 : (row.aluOpAdd + row.aluOpSub) * (row.sumTag + row.aluFfTag * row.aluIa - row.aluIc) +
      row.aluFfTag * (row.aluOpAdd - row.aluOpSub) * row.aluIb = 0) : AluRelations row next := by
  constructor <;> first
    | with_reducible assumption
    | simp only [h.ffTag, h.u8Tag, h.u16Tag, h.u32Tag, h.u64Tag, h.u128Tag, ofBool_mul_one_sub,
        hmul, hnot, heq, mul_zero, zero_mul]

theorem relations_of_mul (hadd : row.aluOpAdd = 0) (hsub : row.aluOpSub = 0)
    (hnot : row.aluOpNot = 0) (heq : row.aluOpEq = 0)
    (hff : row.aluFfTag * row.aluOpMul * (row.aluIa * row.aluIb - row.aluIc) = 0)
    (hcommon1 : (1 - row.aluFfTag - row.aluU128Tag) * row.aluOpMul *
      (row.sum128 - row.aluIa * row.aluIb) = 0) (hcommon2 : row.aluOpMul *
      (row.sumTagNo128 - (1 - row.aluFfTag - row.aluU128Tag) * row.aluIc) = 0)
    (ha : row.aluU128Tag * row.aluOpMul * (row.sumLow64 + row.sumHigh64 * 2 ^ 64 - row.aluIa) = 0)
    (hb : row.aluU128Tag * row.aluOpMul * (next.sumLow64 + next.sumHigh64 * 2 ^ 64 - row.aluIb) = 0)
    (hout : row.aluU128Tag * row.aluOpMul *
      (row.aluIa * next.sumLow64 + row.sumLow64 * next.sumHigh64 * 2 ^ 64 -
        (row.aluCf * 2 ^ 64 + row.aluU64R0) * 2 ^ 128 - row.aluIc) = 0) :
    AluRelations row next := by
  constructor <;> first
    | with_reducible assumption
    | simp only [h.ffTag, h.u8Tag, h.u16Tag, h.u32Tag, h.u64Tag, h.u128Tag, ofBool_mul_one_sub,
        hadd, hsub, hnot, heq, mul_zero, zero_mul, add_zero, sub_zero]

theorem relations_of_bitwise (hadd : row.aluOpAdd = 0) (hsub : row.aluOpSub = 0)
    (hmul : row.aluOpMul = 0) (hxor : row.aluOpNot * row.aluFfTag = 0)
    (hnot : row.aluOpNot * (row.aluIa + row.aluIc - row.uintMax) = 0)
    (hbool : row.aluOpEq * (row.aluIc * (1 - row.aluIc)) = 0) (heq : row.aluOpEq *
      (row.diff * (row.aluIc * (1 - row.aluOpEqDiffInv) + row.aluOpEqDiffInv) - 1 +
        row.aluIc) = 0) : AluRelations row next := by
  constructor <;> first
    | with_reducible assumption
    | simp only [h.ffTag, h.u8Tag, h.u16Tag, h.u32Tag, h.u64Tag, h.u128Tag, ofBool_mul_one_sub,
        hadd, hsub, hmul, mul_zero, zero_mul, add_zero, sub_zero]

end TaggedAs

/-! ### Operands of integer types -/

def AvmMemoryTag.IsInteger (inTag : AvmMemoryTag) : Prop := inTag ≠ .U0 ∧ inTag ≠ .FF

variable {inTag : AvmMemoryTag}

theorem AvmMemoryTag.IsInteger.modulus_dvd (h : inTag.IsInteger) : inTag.modulus ∣ 2 ^ 128 := by
  cases inTag <;> simp [IsInteger] at h <;> exact Nat.pow_dvd_pow 2 (by norm_num)

theorem InRange.lt (hint : inTag.IsInteger) {a : FF} (h : InRange inTag a) : a.val < 2 ^ 128 :=
  lt_of_lt_of_le h (Nat.le_of_dvd (by norm_num) hint.modulus_dvd)

theorem uint128_eq {a : FF} (h : a.val < 2 ^ 128) : a.uint128 = a.val := mod_eq_of_lt h

theorem staticCast_eq (hint : inTag.IsInteger) {c : ℕ} (hc : c < 2 ^ 128)
    {z : ℤ} (hz : (c : ℤ) ≡ z [ZMOD 2 ^ 128]) :
    staticCast inTag c = ((z % inTag.modulus : ℤ) : FF) := by
  have hmod : staticCast inTag c = ((c % inTag.modulus : ℕ) : FF) := by
    obtain ⟨hzero, hff⟩ := hint
    cases inTag <;> simp_all [staticCast, AvmMemoryTag.modulus, mod_eq_of_lt]
  have hdvd : ((inTag.modulus : ℕ) : ℤ) ∣ 2 ^ 128 := by exact_mod_cast hint.modulus_dvd
  rw [hmod, ← (hz.of_dvd hdvd).eq]
  rfl

theorem intCast_emod_modulus (z : ℤ) : ((z % AvmMemoryTag.FF.modulus : ℤ) : FF) = z := by
  rw [ZMod.intCast_eq_intCast_iff]
  exact Int.mod_modEq z _

theorem cast_val (a : FF) : ((a.val : ℕ) : FF) = a := ZMod.natCast_zmod_val a

theorem natCast_mod_modEq {n : ℕ} {z : ℤ} (h : (n : ℤ) ≡ z [ZMOD 2 ^ 128]) :
    ((n % 2 ^ 128 : ℕ) : ℤ) ≡ z [ZMOD 2 ^ 128] := by
  rw [Int.natCast_mod]
  exact (Int.mod_modEq _ _).trans h

structure RegistersOf (row : AluRow) (x : ℕ) : Prop where
  u16R0 : row.aluU16R0 = (x % 2 ^ 16 : ℕ)
  u16R1 : row.aluU16R1 = (x / 2 ^ 16 % 2 ^ 16 : ℕ)
  u16R2 : row.aluU16R2 = (x / 2 ^ 32 % 2 ^ 16 : ℕ)
  u16R3 : row.aluU16R3 = (x / 2 ^ 48 % 2 ^ 16 : ℕ)
  u16R4 : row.aluU16R4 = (x / 2 ^ 64 % 2 ^ 16 : ℕ)
  u16R5 : row.aluU16R5 = (x / 2 ^ 80 % 2 ^ 16 : ℕ)
  u16R6 : row.aluU16R6 = (x / 2 ^ 96 % 2 ^ 16 : ℕ)
  u16R7 : row.aluU16R7 = (x / 2 ^ 112 % 2 ^ 16 : ℕ)

theorem registersOf_u16Registers {entry : AluTraceEntry} {x : ℕ}
    (h : entry.aluU16Reg = u16Registers x) : RegistersOf entry.toRow x := by
  constructor <;> simp [toRow, h, u16Registers]

theorem RegistersOf.sumLow64 {row : AluRow} {x : ℕ} (h : RegistersOf row x) :
    row.sumLow64 = (x % 2 ^ 64 : ℕ) := by
  rw [AluRow.sumLow64, h.u16R0, h.u16R1, h.u16R2, h.u16R3, cast_mod_add_slice x 16 16 rfl,
    cast_mod_add_slice x 32 16 rfl, cast_mod_add_slice x 48 16 rfl]

theorem RegistersOf.sumHigh64 {row : AluRow} {x : ℕ} (h : RegistersOf row x) (hx : x < 2 ^ 128) :
    row.sumHigh64 = (x / 2 ^ 64 : ℕ) := by
  have hdiv (k n : ℕ) (hn : 64 + k = n) : x / 2 ^ n = x / 2 ^ 64 / 2 ^ k := by
    rw [Nat.div_div_eq_div_mul, ← pow_add, hn]
  have hlt : x / 2 ^ 64 < 2 ^ 64 := by omega
  rw [AluRow.sumHigh64, h.u16R4, h.u16R5, h.u16R6, h.u16R7, hdiv 16 80 rfl, hdiv 32 96 rfl,
    hdiv 48 112 rfl, cast_mod_add_slice (x / 2 ^ 64) 16 16 rfl,
    cast_mod_add_slice (x / 2 ^ 64) 32 16 rfl, cast_mod_add_slice (x / 2 ^ 64) 48 16 rfl,
    mod_eq_of_lt hlt]

/-! ### Each operation -/

theorem accepted_singleton {entry : AluTraceEntry}
    (h : ∀ next, AluRelations entry.toRow next) : AluAccepted [entry] := by
  intro following
  simpa using h following

theorem add_carry {x y c : ℕ} (hx : x < 2 ^ 128) (hy : y < 2 ^ 128) (hc : c = (x + y) % 2 ^ 128) :
    c + (decide (c < x)).toNat * 2 ^ 128 = x + y := by
  rw [hc]
  by_cases h : x + y < 2 ^ 128
  · rw [mod_eq_of_lt h]
    simp
  · have hmod : (x + y) % 2 ^ 128 = x + y - 2 ^ 128 := by
      rw [Nat.mod_eq_sub_mod (by omega), mod_eq_of_lt (by omega)]
    have hlt : x + y - 2 ^ 128 < x := by omega
    rw [hmod, decide_eq_true hlt, Bool.toNat_true]
    omega

theorem relations_of_slices {row next : AluRow} (hint : inTag.IsInteger)
    (htag : TaggedAs row inTag) {c : ℕ} (hc : c < 2 ^ 128) (hslices : SlicesOf row c)
    (hic : row.aluIc = staticCast inTag c) (hmul : row.aluOpMul = 0) (hnot : row.aluOpNot = 0)
    (heq : row.aluOpEq = 0) (h : (row.aluOpAdd + row.aluOpSub) * ((c : FF) - row.aluIa) +
      (row.aluOpAdd - row.aluOpSub) * (row.aluCf * 2 ^ 128 - row.aluIb) = 0) :
    AluRelations row next := by
  have hff : row.aluFfTag = 0 := by
    rw [htag.ffTag, decide_eq_false hint.2, FF.ofBool_false]
  refine htag.relations_of_addSub hmul hnot heq ?_ ?_
  · rw [hff, zero_mul, add_zero, hslices.sum128, mod_eq_of_lt hc, h]
  · rw [hff, htag.sumTag hc hslices, hic]
    ring

theorem relations_of_field {row next : AluRow} (htag : TaggedAs row .FF) (hslices : SlicesOf row 0)
    (hcf : row.aluCf = 0) (hmul : row.aluOpMul = 0) (hnot : row.aluOpNot = 0)
    (heq : row.aluOpEq = 0) (h : (row.aluOpAdd + row.aluOpSub) * (row.aluIc - row.aluIa) =
      (row.aluOpAdd - row.aluOpSub) * row.aluIb) : AluRelations row next := by
  have hff : row.aluFfTag = 1 := htag.ffTag
  have hsum : row.sum128 = 0 := by simpa using hslices.sum128
  have htagged : row.sumTag = 0 := htag.sumTag (by norm_num) hslices
  refine htag.relations_of_addSub hmul hnot heq ?_ ?_
  · rw [hff, hsum, hcf]
    linear_combination h
  · rw [hff, htagged]
    linear_combination -h

variable {a b : FF}

theorem opAdd_correct (hzero : inTag ≠ .U0) (ha : InRange inTag a) (hb : InRange inTag b) : AluCorrect .add inTag a b := by
  intro builder clk
  by_cases hff : inTag = .FF
  · subst hff
    refine ⟨?_, _, List.cons_ne_nil _ _, rfl, accepted_singleton fun next => ?_⟩
    · rw [AluOp.mathematical, intCast_emod_modulus]
      simp [AvmAluTraceBuilder.op, AvmAluTraceBuilder.opAdd]
    · refine relations_of_field (taggedAs_withTag _ _) (slicesOf_default _ rfl rfl rfl) rfl rfl rfl
        rfl ?_
      simp [toRow, withTag]
  · have hint : inTag.IsInteger := ⟨hzero, hff⟩
    have hx := ha.lt hint
    have hy := hb.lt hint
    obtain ⟨c, hcdef⟩ : ∃ c, c = (a.val + b.val) % 2 ^ 128 := ⟨_, rfl⟩
    let entry : AluTraceEntry :=
      { aluClk := clk, aluOpAdd := true, aluIa := a, aluIb := b, aluIc := staticCast inTag c,
        aluCf := decide (c < a.val) }
    have hop : builder.op .add a b inTag clk =
        (staticCast inTag c, builder.pushBack ((entry.withTag inTag).withSlices c)) := by
      simp only [hcdef, entry, ← uint128_eq hx, ← uint128_eq hy]
      cases inTag <;> first | rfl | contradiction
    have hc : c < 2 ^ 128 := hcdef ▸ mod_lt _ (by norm_num)
    rw [hop]
    refine ⟨?_, _, List.cons_ne_nil _ _, rfl, accepted_singleton fun next => ?_⟩
    · exact staticCast_eq hint hc (hcdef ▸ natCast_mod_modEq (by push_cast; rfl))
    · refine relations_of_slices hint ⟨rfl, rfl, rfl, rfl, rfl, rfl⟩ hc (slicesOf_withSlices _ _) rfl
        rfl rfl rfl ?_
      have hsum : (c : FF) + FF.ofBool (decide (c < a.val)) * 2 ^ 128 = a + b := by
        have h := congrArg (cast (R := FF)) (add_carry hx hy hcdef)
        push_cast [cast_val] at h
        rw [FF.ofBool]
        linear_combination h
      simp only [entry, toRow, withSlices, withTag, FF.ofBool_true, FF.ofBool_false]
      linear_combination hsum

theorem sub_borrow {x y c : ℕ} (hx : x < 2 ^ 128) (hy : y < 2 ^ 128)
    (hc : c = (x + 2 ^ 128 - y) % 2 ^ 128) : c + y = x + (decide (x < y)).toNat * 2 ^ 128 := by
  rw [hc]
  by_cases h : x < y
  · rw [mod_eq_of_lt (by omega), decide_eq_true h, Bool.toNat_true]
    omega
  · rw [Nat.mod_eq_sub_mod (by omega), mod_eq_of_lt (by omega), decide_eq_false h, Bool.toNat_false]
    omega

theorem opSub_correct (hzero : inTag ≠ .U0) (ha : InRange inTag a) (hb : InRange inTag b) : AluCorrect .sub inTag a b := by
  intro builder clk
  by_cases hff : inTag = .FF
  · subst hff
    refine ⟨?_, _, List.cons_ne_nil _ _, rfl, accepted_singleton fun next => ?_⟩
    · rw [AluOp.mathematical, intCast_emod_modulus]
      simp [AvmAluTraceBuilder.op, AvmAluTraceBuilder.opSub]
    · refine relations_of_field (taggedAs_withTag _ _) (slicesOf_default _ rfl rfl rfl) rfl rfl rfl
        rfl ?_
      simp [toRow, withTag]
  · have hint : inTag.IsInteger := ⟨hzero, hff⟩
    have hx := ha.lt hint
    have hy := hb.lt hint
    obtain ⟨c, hcdef⟩ : ∃ c, c = (a.val + 2 ^ 128 - b.val) % 2 ^ 128 := ⟨_, rfl⟩
    let entry : AluTraceEntry :=
      { aluClk := clk, aluOpSub := true, aluIa := a, aluIb := b, aluIc := staticCast inTag c,
        aluCf := decide (a.val < b.val) }
    have hop : builder.op .sub a b inTag clk =
        (staticCast inTag c, builder.pushBack ((entry.withTag inTag).withSlices c)) := by
      simp only [hcdef, entry, ← uint128_eq hx, ← uint128_eq hy]
      cases inTag <;> first | rfl | contradiction
    have hc : c < 2 ^ 128 := hcdef ▸ mod_lt _ (by norm_num)
    have hborrow := sub_borrow hx hy hcdef
    rw [hop]
    refine ⟨?_, _, List.cons_ne_nil _ _, rfl, accepted_singleton fun next => ?_⟩
    · refine staticCast_eq hint hc (Int.modEq_iff_dvd.2 ⟨-(decide (a.val < b.val)).toNat, ?_⟩)
      have h : ((c + b.val : ℕ) : ℤ) = (a.val + (decide (a.val < b.val)).toNat * 2 ^ 128 : ℕ) :=
        congrArg _ hborrow
      push_cast at h ⊢
      linear_combination -h
    · refine relations_of_slices hint ⟨rfl, rfl, rfl, rfl, rfl, rfl⟩ hc (slicesOf_withSlices _ _) rfl
        rfl rfl rfl ?_
      have hdiff : (c : FF) + b = a + FF.ofBool (decide (a.val < b.val)) * 2 ^ 128 := by
        have h := congrArg (cast (R := FF)) hborrow
        push_cast [cast_val] at h
        rw [FF.ofBool]
        linear_combination h
      simp only [entry, toRow, withSlices, withTag, FF.ofBool_true, FF.ofBool_false]
      linear_combination hdiff

theorem split_cross {d : ℕ} (hd : d < 2 ^ 193) :
    ((decide (0 < d / 2 ^ 192)).toNat * 2 ^ 64 + d / 2 ^ 128 % 2 ^ 64) * 2 ^ 128 + d % 2 ^ 128 =
      d := by
  have hcarry : (decide (0 < d / 2 ^ 192)).toNat = d / 2 ^ 192 := by
    by_cases h : 0 < d / 2 ^ 192
    · rw [decide_eq_true h, Bool.toNat_true]
      omega
    · rw [decide_eq_false h, Bool.toNat_false]
      omega
  rw [hcarry]
  omega

theorem mul_eq_cross (x y : ℕ) : x * y = x * (y % 2 ^ 64) + (x % 2 ^ 64) * (y / 2 ^ 64) * 2 ^ 64 +
      (x / 2 ^ 64) * (y / 2 ^ 64) * 2 ^ 128 := by
  have hsplitY : x * y = x * (y % 2 ^ 64) + x * (y / 2 ^ 64) * 2 ^ 64 := by
    conv_lhs => rw [← Nat.mod_add_div y (2 ^ 64)]
    ring
  have hsplitX : x * (y / 2 ^ 64) =
      (x % 2 ^ 64) * (y / 2 ^ 64) + (x / 2 ^ 64) * (y / 2 ^ 64) * 2 ^ 64 := by
    conv_lhs => rw [← Nat.mod_add_div x (2 ^ 64)]
    ring
  rw [hsplitY, hsplitX]
  ring

theorem cross_eq {x y : ℕ} (hx : x < 2 ^ 128) (hy : y < 2 ^ 128) :
    (x * y % 2 ^ 256 + 2 ^ 256 - (x / 2 ^ 64) * (y / 2 ^ 64) % 2 ^ 256 * 2 ^ 128 % 2 ^ 256) %
      2 ^ 256 = x * (y % 2 ^ 64) + (x % 2 ^ 64) * (y / 2 ^ 64) * 2 ^ 64 := by
  have hxl : x % 2 ^ 64 < 2 ^ 64 := mod_lt _ (by norm_num)
  have hyl : y % 2 ^ 64 < 2 ^ 64 := mod_lt _ (by norm_num)
  have hxh : x / 2 ^ 64 < 2 ^ 64 := by omega
  have hyh : y / 2 ^ 64 < 2 ^ 64 := by omega
  have hhigh : (x / 2 ^ 64) * (y / 2 ^ 64) < 2 ^ 64 * 2 ^ 64 := mul_lt_mul'' hxh hyh
  have hprod : x * y < 2 ^ 128 * 2 ^ 128 := mul_lt_mul'' hx hy
  have hsplit := mul_eq_cross x y
  generalize x / 2 ^ 64 * (y / 2 ^ 64) = high at *
  generalize x % 2 ^ 64 * (y / 2 ^ 64) = low at *
  generalize x * (y % 2 ^ 64) = base at *
  omega

theorem cross_lt {x y : ℕ} (hx : x < 2 ^ 128) (hy : y < 2 ^ 128) :
    x * (y % 2 ^ 64) + (x % 2 ^ 64) * (y / 2 ^ 64) * 2 ^ 64 < 2 ^ 193 := by
  have hxl : x % 2 ^ 64 < 2 ^ 64 := mod_lt _ (by norm_num)
  have hyl : y % 2 ^ 64 < 2 ^ 64 := mod_lt _ (by norm_num)
  have hyh : y / 2 ^ 64 < 2 ^ 64 := by omega
  have hbase : x * (y % 2 ^ 64) < 2 ^ 128 * 2 ^ 64 := mul_lt_mul'' hx hyl
  have hlow : x % 2 ^ 64 * (y / 2 ^ 64) < 2 ^ 64 * 2 ^ 64 := mul_lt_mul'' hxl hyh
  omega

theorem mul_mod_eq_cross_mod (x y : ℕ) :
    x * y % 2 ^ 128 = (x * (y % 2 ^ 64) + (x % 2 ^ 64) * (y / 2 ^ 64) * 2 ^ 64) % 2 ^ 128 := by
  rw [mul_eq_cross, Nat.add_mul_mod_self_right]

theorem opMul_field_correct (a b : FF) : AluCorrect .mul .FF a b := by
  intro builder clk
  refine ⟨?_, _, List.cons_ne_nil _ _, rfl, accepted_singleton fun next => ?_⟩
  · rw [AluOp.mathematical, intCast_emod_modulus]
    simp [AvmAluTraceBuilder.op, AvmAluTraceBuilder.opMul]
  · refine (taggedAs_withTag _ _).relations_of_mul rfl rfl rfl rfl ?_ ?_ ?_ ?_ ?_ ?_ <;>
      simp [toRow, withTag, AluRow.sumTagNo128]

theorem opMul_integer_correct (hint : inTag.IsInteger)
    (h128 : inTag ≠ .U128) (ha : InRange inTag a) (hb : InRange inTag b) :
    AluCorrect .mul inTag a b := by
  intro builder clk
  have hx := ha.lt hint
  have hy := hb.lt hint
  have hdvd : inTag.modulus ≤ 2 ^ 64 := by
    cases inTag <;> simp_all [AvmMemoryTag.modulus, AvmMemoryTag.IsInteger]
  have hprod : a.val * b.val < 2 ^ 64 * 2 ^ 64 :=
    mul_lt_mul'' (lt_of_lt_of_le ha hdvd) (lt_of_lt_of_le hb hdvd)
  obtain ⟨c, hcdef⟩ : ∃ c, c = a.val * b.val := ⟨_, rfl⟩
  have hc : c < 2 ^ 128 := by rw [hcdef]; norm_num at hprod ⊢; exact hprod
  let entry : AluTraceEntry :=
    { aluClk := clk, aluOpMul := true, aluIa := a, aluIb := b, aluIc := staticCast inTag c }
  have hop : builder.op .mul a b inTag clk =
      (staticCast inTag c, builder.pushBack ((entry.withTag inTag).withSlices c)) := by
    have hcast : c = a.uint128 * b.uint128 % 2 ^ 128 := by
      rw [uint128_eq hx, uint128_eq hy, ← hcdef, mod_eq_of_lt hc]
    simp only [hcast, entry]
    obtain ⟨hzero, hff⟩ := hint
    cases inTag <;> first | rfl | contradiction
  rw [hop]
  refine ⟨?_, _, List.cons_ne_nil _ _, rfl, accepted_singleton fun next => ?_⟩
  · refine staticCast_eq hint hc ?_
    rw [hcdef]
    push_cast
    rfl
  · have htag : TaggedAs ((entry.withTag inTag).withSlices c).toRow inTag :=
      ⟨rfl, rfl, rfl, rfl, rfl, rfl⟩
    have hslices := slicesOf_withSlices (entry.withTag inTag) c
    have hff0 := htag.ffTag
    have hu0 := htag.u128Tag
    rw [decide_eq_false hint.2, FF.ofBool_false] at hff0
    rw [decide_eq_false h128, FF.ofBool_false] at hu0
    have hic : ((entry.withTag inTag).withSlices c).toRow.aluIc = staticCast inTag c := rfl
    have hsumTag := htag.sumTag hc hslices
    rw [AluRow.sumTag, hu0, zero_mul, add_zero] at hsumTag
    have hab : (c : FF) = a * b := by
      rw [hcdef]
      push_cast [cast_val]
      rfl
    refine htag.relations_of_mul rfl rfl rfl rfl ?_ ?_ ?_ ?_ ?_ ?_ <;>
      simp only [hff0, hu0, hsumTag, hic, hslices.sum128, mod_eq_of_lt hc, hab, zero_mul,
        sub_zero, one_mul]
    · exact mul_eq_zero_of_right _ (sub_self _)
    · exact mul_eq_zero_of_right _ (sub_self _)

theorem relations_of_registers (registers : Vector ℕ 8) (next : AluRow) :
    AluRelations (toRow { aluU16Reg := registers }) next := by
  constructor <;> simp [toRow]

theorem opMul_u128_correct (hx : a.val < 2 ^ 128) (hy : b.val < 2 ^ 128) :
    AluCorrect .mul .U128 a b := by
  intro builder clk
  obtain ⟨d, hd⟩ : ∃ d, d = a.val * (b.val % 2 ^ 64) + (a.val % 2 ^ 64) * (b.val / 2 ^ 64) * 2 ^ 64 :=
    ⟨_, rfl⟩
  obtain ⟨c, hcdef⟩ : ∃ c, c = a.val * b.val % 2 ^ 128 := ⟨_, rfl⟩
  let first : AluTraceEntry :=
    { aluClk := clk, aluOpMul := true, aluU128Tag := true, aluIa := a, aluIb := b, aluIc := (c : FF),
      aluCf := decide (0 < d / 2 ^ 192), aluU16Reg := u16Registers a.val,
      aluU64R0 := d / 2 ^ 128 % 2 ^ 64 }
  let second : AluTraceEntry := { aluU16Reg := u16Registers b.val }
  have hop : builder.op .mul a b .U128 clk =
      ((c : FF), (builder.pushBack first).pushBack second) := by
    simp only [AvmAluTraceBuilder.op, AvmAluTraceBuilder.opMul, uint128_eq hx, uint128_eq hy,
      cross_eq hx hy, ← hd, ← hcdef]
    rfl
  rw [hop]
  refine ⟨?_, [first, second], List.cons_ne_nil _ _, by simp [AvmAluTraceBuilder.pushBack], ?_⟩
  · have hint : AvmMemoryTag.U128.IsInteger := ⟨by decide, by decide⟩
    have hcast := staticCast_eq hint (c := c)
      (hcdef ▸ mod_lt _ (by norm_num)) (hcdef ▸ natCast_mod_modEq (Int.ModEq.refl _))
    rw [AluOp.mathematical, ← Nat.cast_mul, ← hcast]
    rfl
  · intro following
    have hchain : AluRelations first.toRow second.toRow := by
      have ha : RegistersOf first.toRow a.val := registersOf_u16Registers rfl
      have hb : RegistersOf second.toRow b.val := registersOf_u16Registers rfl
      have htag : TaggedAs first.toRow .U128 := ⟨rfl, rfl, rfl, rfl, rfl, rfl⟩
      have hff : first.toRow.aluFfTag = 0 := htag.ffTag
      have hu128 : first.toRow.aluU128Tag = 1 := htag.u128Tag
      have hic : first.toRow.aluIc = (c : FF) := rfl
      have hia : first.toRow.aluIa = a := rfl
      have hib : first.toRow.aluIb = b := rfl
      have hcf : first.toRow.aluCf = ((decide (0 < d / 2 ^ 192)).toNat : FF) := rfl
      have hr0 : first.toRow.aluU64R0 = ((d / 2 ^ 128 % 2 ^ 64 : ℕ) : FF) := rfl
      have hnone : first.toRow.sumTagNo128 = 0 := by
        rw [AluRow.sumTagNo128, htag.u8Tag, htag.u16Tag, htag.u32Tag, htag.u64Tag]
        simp
      have hlimbs (x : FF) : ((x.val % 2 ^ 64 : ℕ) : FF) + ((x.val / 2 ^ 64 : ℕ) : FF) * 2 ^ 64 = x := by
        have h := congrArg (cast (R := FF)) (Nat.mod_add_div x.val (2 ^ 64))
        push_cast [cast_val] at h ⊢
        linear_combination h
      refine htag.relations_of_mul rfl rfl rfl rfl ?_ ?_ ?_ ?_ ?_ ?_
      · rw [hff, zero_mul, zero_mul]
      · rw [hff, hu128, sub_zero, sub_self, zero_mul, zero_mul]
      · rw [hnone, hff, hu128, sub_zero, sub_self, zero_mul, sub_zero, mul_zero]
      · rw [ha.sumLow64, ha.sumHigh64 hx, hia, hlimbs, sub_self, mul_zero]
      · rw [hb.sumLow64, hb.sumHigh64 hy, hib, hlimbs, sub_self, mul_zero]
      · -- The cross terms are the carry, the 64-bit register and the result, one above the other.
        have hlt : d < 2 ^ 193 := hd ▸ cross_lt hx hy
        have hcmod : c = d % 2 ^ 128 := by rw [hcdef, mul_mod_eq_cross_mod, ← hd]
        have h := congrArg (cast (R := FF)) ((hcmod ▸ split_cross hlt).trans hd)
        rw [ha.sumLow64, hb.sumLow64, hb.sumHigh64 hy, hia, hic, hcf, hr0]
        push_cast [cast_val] at h
        refine mul_eq_zero_of_right _ ?_
        linear_combination -h
    simpa using ⟨hchain, relations_of_registers (u16Registers b.val) following⟩

theorem opNot_correct (hint : inTag.IsInteger) {a : FF} (b : FF)
    (ha : InRange inTag a) : AluCorrect .not inTag a b := by
  intro builder clk
  have hx := ha.lt hint
  obtain ⟨c, hcdef⟩ : ∃ c, c = 2 ^ 128 - 1 - a.val := ⟨_, rfl⟩
  have hc : c < 2 ^ 128 := by omega
  let entry : AluTraceEntry :=
    { aluClk := clk, aluOpNot := true, aluIa := a, aluIc := staticCast inTag c }
  have hop : builder.op .not a b inTag clk =
      (staticCast inTag c, builder.pushBack (entry.withTag inTag)) := by
    simp only [hcdef, entry, ← uint128_eq hx]
    obtain ⟨hzero, hff⟩ := hint
    cases inTag <;> first | rfl | contradiction
  have hcast : staticCast inTag c = AluOp.not.mathematical inTag a b := by
    refine staticCast_eq hint hc (Int.modEq_iff_dvd.2 ⟨-1, ?_⟩)
    rw [hcdef]
    omega
  rw [hop]
  refine ⟨hcast, _, List.cons_ne_nil _ _, rfl, accepted_singleton fun next => ?_⟩
  have htag := taggedAs_withTag entry inTag
  have hff : (entry.withTag inTag).toRow.aluFfTag = 0 := by
    rw [htag.ffTag, decide_eq_false hint.2, FF.ofBool_false]
  refine htag.relations_of_bitwise rfl rfl rfl ?_ ?_ ?_ ?_
  · rw [hff, mul_zero]
  · -- The complement of `a` to the largest value of the tag is its residue.
    have hlt : a.val < inTag.modulus := ha
    have hmod : (-1 - (a.val : ℤ)) % inTag.modulus = inTag.modulus - 1 - a.val := by
      rw [← Int.add_emod_right, Int.emod_eq_of_lt (by omega) (by omega)]
      ring
    have hic : (entry.withTag inTag).toRow.aluIc = (inTag.modulus : FF) - 1 - a := by
      change staticCast inTag c = _
      rw [hcast, AluOp.mathematical, hmod]
      push_cast [cast_val]
      rfl
    have hia : (entry.withTag inTag).toRow.aluIa = a := rfl
    rw [htag.uintMax hint.2 hint.1, hic, hia]
    ring
  · exact zero_mul _
  · exact zero_mul _

theorem opEq_correct (inTag : AvmMemoryTag) (a b : FF) : AluCorrect .eq inTag a b := by
  intro builder clk
  let entry : AluTraceEntry :=
    { aluClk := clk, aluOpEq := true, aluIa := a, aluIb := b, aluIc := if a = b then 1 else 0,
      aluOpEqDiffInv := (a - b)⁻¹ }
  have hop : builder.op .eq a b inTag clk =
      (if a = b then 1 else 0, builder.pushBack (entry.withTag inTag)) := by
    simp only [AvmAluTraceBuilder.op, AvmAluTraceBuilder.opEq, entry, sub_eq_zero]
    by_cases h : a = b
    · simp [h]
    · have hne : a - b ≠ 0 := sub_ne_zero.2 h
      simp [h, hne]
  rw [hop]
  refine ⟨rfl, _, List.cons_ne_nil _ _, rfl, accepted_singleton fun next => ?_⟩
  refine (taggedAs_withTag entry inTag).relations_of_bitwise rfl rfl rfl (zero_mul _) (zero_mul _)
    ?_ ?_
  · by_cases h : a = b <;> simp [entry, toRow, withTag, h]
  · by_cases h : a = b
    · simp [entry, toRow, withTag, AluRow.diff, h]
    · simp [entry, toRow, withTag, AluRow.diff, h, sub_ne_zero]

/-! ### All operations -/

theorem aluCorrect_of_supports (op : AluOp) (inTag : AvmMemoryTag) (h : op.Supports inTag)
    (a b : FF) (ha : InRange inTag a) (hb : InRange inTag b) : AluCorrect op inTag a b := by
  obtain ⟨hzero, hnot⟩ := h
  cases op with
  | add => exact opAdd_correct hzero ha hb
  | sub => exact opSub_correct hzero ha hb
  | eq => exact opEq_correct inTag a b
  | not => exact opNot_correct ⟨hzero, hnot rfl⟩ b ha
  | mul =>
    by_cases hff : inTag = .FF
    · subst hff
      exact opMul_field_correct a b
    · by_cases h128 : inTag = .U128
      · subst h128
        exact opMul_u128_correct ha hb
      · exact opMul_integer_correct ⟨hzero, hff⟩ h128 ha hb

/-! ### Runs -/

structure AluCall where
  op : AluOp
  inTag : AvmMemoryTag
  a : FF
  b : FF
  clk : ℕ

structure AluCall.InRange (call : AluCall) : Prop where
  tag : call.inTag ≠ .U0
  left : AvmTrace.InRange call.inTag call.a
  right : AvmTrace.InRange call.inTag call.b

def aluRun (builder : AvmAluTraceBuilder) : List AluCall → List FF × AvmAluTraceBuilder
  | [] => ([], builder)
  | call :: calls =>
    let (c, builder) := builder.op call.op call.a call.b call.inTag call.clk
    let (cs, builder) := aluRun builder calls
    (c :: cs, builder)

/-- The run returns the mathematical results and appends rows that are accepted. -/
def AluRunCorrect (calls : List AluCall) : Prop :=
  ∀ builder : AvmAluTraceBuilder,
    (aluRun builder calls).1 = calls.map (fun call => call.op.mathematical call.inTag call.a call.b) ∧
      ∃ rows, (aluRun builder calls).2.aluTrace = builder.aluTrace ++ rows ∧ AluAccepted rows

theorem AluAccepted.append {rows rows' : List AluTraceEntry} (h : AluAccepted rows)
    (h' : AluAccepted rows') : AluAccepted (rows ++ rows') := by
  intro following
  cases rows' with
  | nil => simpa using h following
  | cons row rows' =>
    have hleft := List.isChain_append.1 (h row.toRow)
    have hright := h' following
    rw [List.map_append, List.append_assoc]
    exact List.isChain_append.2 ⟨hleft.1, hright, hleft.2.2⟩

/-- **Runs of supported calls are correct.**  The negation has no variant for field elements; every
other operation takes every tag. -/
theorem aluRunCorrect_of_supports (calls : List AluCall) (hrange : ∀ call ∈ calls, call.InRange)
    (hsupports : ∀ call ∈ calls, call.op.Supports call.inTag) : AluRunCorrect calls := by
  induction calls with
  | nil => exact fun builder => ⟨rfl, [], by simp [aluRun], fun following => by simp⟩
  | cons call calls ih =>
    intro builder
    have hin := hrange call List.mem_cons_self
    obtain ⟨hresult, rows, -, happend, hrows⟩ := aluCorrect_of_supports call.op call.inTag
      (hsupports call List.mem_cons_self) call.a call.b hin.left hin.right builder call.clk
    obtain ⟨hresults, rows', happend', hrows'⟩ :=
      ih (fun c hc => hrange c (List.mem_cons_of_mem _ hc))
        (fun c hc => hsupports c (List.mem_cons_of_mem _ hc))
        (builder.op call.op call.a call.b call.inTag call.clk).2
    refine ⟨congrArg₂ List.cons hresult hresults, rows ++ rows', ?_, hrows.append hrows'⟩
    rw [← List.append_assoc, ← happend]
    exact happend'

/-- The product of the largest 128-bit numbers. -/
theorem aluRunCorrect_mul_max :
    AluRunCorrect [⟨.mul, .U128, (2 ^ 128 - 1 : ℕ), (2 ^ 128 - 1 : ℕ), 0⟩] := by
  have hmax : InRange .U128 ((2 ^ 128 - 1 : ℕ) : FF) := by
    change ZMod.val _ < 2 ^ 128
    rw [ZMod.val_natCast_of_lt (FF.lt_fieldModulus (by norm_num))]
    norm_num
  refine aluRunCorrect_of_supports _ ?_ ?_
  · simpa using ⟨by decide, hmax, hmax⟩
  · simpa using ⟨by decide, by decide⟩

/-- The negation of a field element returns zero, which is not its complement. -/
theorem not_aluRunCorrect :
    ¬ ∀ calls : List AluCall, (∀ call ∈ calls, call.InRange) → AluRunCorrect calls := by
  intro h
  have hrange : InRange .FF (5 : FF) := ZMod.val_lt _
  have hresult := (h [⟨.not, .FF, 5, 5, 0⟩] (by simpa using ⟨by decide, hrange, hrange⟩) {}).1
  have hzero : (0 : FF) = ((-1 - ((5 : FF).val : ℤ) : ℤ) : FF) := by
    rw [← intCast_emod_modulus]
    exact List.head_eq_of_cons_eq hresult
  have hsix : ((6 : ℕ) : FF) = 0 := by
    push_cast [cast_val] at hzero ⊢
    linear_combination hzero
  exact absurd ((ZMod.natCast_eq_zero_iff _ _).1 hsix) (by decide)

end AvmTrace
