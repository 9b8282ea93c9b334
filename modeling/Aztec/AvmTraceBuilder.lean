/-
**The trace builder of the AVM circuit.**

Every operation appends rows to the main trace and entries to the memory trace.  Rows and entries
are compared later: the row has a clock, and for each register an address, a direction and a value.
-/

import Aztec.AvmAluTrace
import Aztec.AvmMemTrace

open List
open Option (bind_eq_bind bind_eq_some_iff)

namespace AvmTrace

/-! ### Rows of the main trace -/

structure MainRow where
  clk : FF := 0
  first : FF := 0
  last : FF := 0
  pc : FF := 0
  internalReturnPtr : FF := 0
  selInternalCall : FF := 0
  selInternalReturn : FF := 0
  selJump : FF := 0
  selHalt : FF := 0
  selOpAdd : FF := 0
  selOpSub : FF := 0
  selOpMul : FF := 0
  selOpDiv : FF := 0
  selOpNot : FF := 0
  selOpEq : FF := 0
  inTag : FF := 0
  opErr : FF := 0
  tagErr : FF := 0
  inv : FF := 0
  ia : FF := 0
  ib : FF := 0
  ic : FF := 0
  memOpA : FF := 0
  memOpB : FF := 0
  memOpC : FF := 0
  rwa : FF := 0
  rwb : FF := 0
  rwc : FF := 0
  memIdxA : FF := 0
  memIdxB : FF := 0
  memIdxC : FF := 0
  equivTagErrCounts : FF := 0

namespace MainRow

def value (row : MainRow) : IntermRegister → FF
  | .IA => row.ia
  | .IB => row.ib
  | .IC => row.ic

def memOp (row : MainRow) : IntermRegister → FF
  | .IA => row.memOpA
  | .IB => row.memOpB
  | .IC => row.memOpC

def rw (row : MainRow) : IntermRegister → FF
  | .IA => row.rwa
  | .IB => row.rwb
  | .IC => row.rwc

def memIdx (row : MainRow) : IntermRegister → FF
  | .IA => row.memIdxA
  | .IB => row.memIdxB
  | .IC => row.memIdxC

end MainRow

/-! ### Operations -/

def CALLSTACK_OFFSET : ℕ := 896

def UINT32_MAX : ℕ := 2 ^ 32 - 1

structure AvmTraceBuilder where
  mainTrace : List MainRow := []
  memTraceBuilder : AvmMemTraceBuilder := {}
  aluTraceBuilder : AvmAluTraceBuilder := {}
  pc : ℕ := 0
  internalReturnPtr : ℕ := CALLSTACK_OFFSET
  internalCallStack : List ℕ := []

/-- What the registers of a row of `calldata_copy` and `return_op` say of a memory operation. -/
structure RegisterOp where
  value : FF := 0
  memOp : FF := 0
  memIdx : FF := 0

namespace AvmTraceBuilder

def clk (self : AvmTraceBuilder) : ℕ := self.mainTrace.length % 2 ^ 32

/-- `main_trace.push_back`, after accesses to memory. -/
def pushBack (self : AvmTraceBuilder) (memTraceBuilder : AvmMemTraceBuilder) (row : MainRow) :
    AvmTraceBuilder :=
  { self with mainTrace := self.mainTrace ++ [row], memTraceBuilder := memTraceBuilder }

/-- The program counter of the row is the one before it is incremented. -/
def incrementPc (self : AvmTraceBuilder) : AvmTraceBuilder :=
  { self with pc := (self.pc + 1) % 2 ^ 32 }

/-- The row of an operation on the first two registers that stores the third. -/
def binaryRow (self : AvmTraceBuilder) (aOffset bOffset dstOffset : ℕ) (inTag : AvmMemoryTag)
    (tagMatch : Bool) (a b c : FF) : MainRow :=
  { clk := self.clk, pc := self.pc, internalReturnPtr := self.internalReturnPtr,
    inTag := ofTag inTag, tagErr := FF.ofBool !tagMatch, ia := a, ib := b, ic := c,
    memOpA := 1, memOpB := 1, memOpC := 1, rwc := 1,
    memIdxA := aOffset, memIdxB := bOffset, memIdxC := dstOffset }

/-- The operations whose result the ALU computes, with their selector. -/
def aluOperation
    (aluOp : AvmAluTraceBuilder → FF → FF → AvmMemoryTag → ℕ → FF × AvmAluTraceBuilder)
    (select : MainRow → MainRow) (self : AvmTraceBuilder) (aOffset bOffset dstOffset : ℕ)
    (inTag : AvmMemoryTag) : Option AvmTraceBuilder := do
  let clk := self.clk
  let (readA, mem) ← self.memTraceBuilder.readAndLoadFromMemory clk .IA aOffset inTag
  let (readB, mem) ← mem.readAndLoadFromMemory clk .IB bOffset inTag
  let tagMatch := readA.tagMatch && readB.tagMatch
  let a := if tagMatch then readA.val else 0
  let b := if tagMatch then readB.val else 0
  let (c, alu) := aluOp self.aluTraceBuilder a b inTag clk
  let mem ← mem.writeIntoMemory clk .IC dstOffset c inTag
  return ({ self with aluTraceBuilder := alu }.pushBack mem
    (select (self.binaryRow aOffset bOffset dstOffset inTag tagMatch a b c))).incrementPc

def opAdd : AvmTraceBuilder → ℕ → ℕ → ℕ → AvmMemoryTag → Option AvmTraceBuilder :=
  aluOperation AvmAluTraceBuilder.opAdd fun row => { row with selOpAdd := 1 }

def opSub : AvmTraceBuilder → ℕ → ℕ → ℕ → AvmMemoryTag → Option AvmTraceBuilder :=
  aluOperation AvmAluTraceBuilder.opSub fun row => { row with selOpSub := 1 }

def opMul : AvmTraceBuilder → ℕ → ℕ → ℕ → AvmMemoryTag → Option AvmTraceBuilder :=
  aluOperation AvmAluTraceBuilder.opMul fun row => { row with selOpMul := 1 }

def opEq : AvmTraceBuilder → ℕ → ℕ → ℕ → AvmMemoryTag → Option AvmTraceBuilder :=
  aluOperation AvmAluTraceBuilder.opEq fun row => { row with selOpEq := 1 }

/-- `op_div`.  The result is that of the values read, also when their tags do not match. -/
def opDiv (self : AvmTraceBuilder) (aOffset bOffset dstOffset : ℕ) (inTag : AvmMemoryTag) :
    Option AvmTraceBuilder := do
  let clk := self.clk
  let (readA, mem) ← self.memTraceBuilder.readAndLoadFromMemory clk .IA aOffset inTag
  let (readB, mem) ← mem.readAndLoadFromMemory clk .IB bOffset inTag
  let tagMatch := readA.tagMatch && readB.tagMatch
  let a := readA.val
  let b := readB.val
  let (c, inv, error) : FF × FF × FF := if b ≠ 0 then (a * b⁻¹, b⁻¹, 0) else (0, 1, 1)
  let mem ← mem.writeIntoMemory clk .IC dstOffset c inTag
  let row := self.binaryRow aOffset bOffset dstOffset inTag tagMatch (if tagMatch then a else 0)
    (if tagMatch then b else 0) (if tagMatch then c else 0)
  return (self.pushBack mem { row with
    selOpDiv := 1
    opErr := if tagMatch then error else 1
    inv := if tagMatch then inv else 1 }).incrementPc

def opNot (self : AvmTraceBuilder) (aOffset dstOffset : ℕ) (inTag : AvmMemoryTag) :
    Option AvmTraceBuilder := do
  let clk := self.clk
  let (readA, mem) ← self.memTraceBuilder.readAndLoadFromMemory clk .IA aOffset inTag
  let a := if readA.tagMatch then readA.val else 0
  let (c, alu) := self.aluTraceBuilder.opNot a inTag clk
  let mem ← mem.writeIntoMemory clk .IC dstOffset c inTag
  return ({ self with aluTraceBuilder := alu }.pushBack mem
    { clk := clk, pc := self.pc, internalReturnPtr := self.internalReturnPtr, selOpNot := 1,
      inTag := ofTag inTag, tagErr := FF.ofBool !readA.tagMatch, ia := a, ic := c, memOpA := 1,
      memOpC := 1, rwc := 1, memIdxA := aOffset, memIdxC := dstOffset }).incrementPc

def set (self : AvmTraceBuilder) (val dstOffset : ℕ) (inTag : AvmMemoryTag) :
    Option AvmTraceBuilder := do
  let clk := self.clk
  let valFf : FF := val
  let mem ← self.memTraceBuilder.writeIntoMemory clk .IC dstOffset valFf inTag
  return (self.pushBack mem
    { clk := clk, pc := self.pc, internalReturnPtr := self.internalReturnPtr,
      inTag := ofTag inTag, ic := valFf, memOpC := 1, rwc := 1, memIdxC := dstOffset }).incrementPc

/-- One element of the calldata is stored from a register, if there is one left. -/
def storeCalldata (callDataMem : List FF) (clk : ℕ) (reg : IntermRegister) (present : Bool)
    (cdIdx memIdx : ℕ) (mem : AvmMemTraceBuilder) : Option (RegisterOp × AvmMemTraceBuilder) :=
  if present then do
    let value ← callDataMem[cdIdx % 2 ^ 32]?
    let memIdx := memIdx % 2 ^ 32
    let mem ← mem.writeIntoMemory clk reg memIdx value .FF
    return (⟨value, 1, memIdx⟩, mem)
  else some ({}, mem)

def calldataCopyFrom (cdOffset copySize dstOffset : ℕ) (callDataMem : List FF) (pos : ℕ)
    (self : AvmTraceBuilder) : Option AvmTraceBuilder :=
  if pos < copySize then do
    let clk := self.clk
    let (a, mem) ← storeCalldata callDataMem clk .IA true (cdOffset + pos) (dstOffset + pos)
      self.memTraceBuilder
    let (b, mem) ← storeCalldata callDataMem clk .IB (1 < copySize - pos) (cdOffset + pos + 1)
      (dstOffset + pos + 1) mem
    let (c, mem) ← storeCalldata callDataMem clk .IC (2 < copySize - pos) (cdOffset + pos + 2)
      (dstOffset + pos + 2) mem
    let self := (self.pushBack mem
      { clk := clk, pc := self.pc, internalReturnPtr := self.internalReturnPtr,
        inTag := ofTag .FF, ia := a.value, ib := b.value, ic := c.value,
        memOpA := a.memOp, memOpB := b.memOp, memOpC := c.memOp,
        -- The flags of the directions are set together with the selectors.
        rwa := a.memOp, rwb := b.memOp, rwc := c.memOp,
        memIdxA := a.memIdx, memIdxB := b.memIdx, memIdxC := c.memIdx }).incrementPc
    calldataCopyFrom cdOffset copySize dstOffset callDataMem
      (if 2 < copySize - pos then pos + 3 else copySize) self
  else some self
termination_by copySize - pos
decreasing_by split <;> omega

def calldataCopy (self : AvmTraceBuilder) (cdOffset copySize dstOffset : ℕ)
    (callDataMem : List FF) : Option AvmTraceBuilder :=
  self.calldataCopyFrom cdOffset copySize dstOffset callDataMem 0

def halt (self : AvmTraceBuilder) : AvmTraceBuilder :=
  { self.pushBack self.memTraceBuilder
      { clk := self.mainTrace.length, pc := self.pc, internalReturnPtr := self.internalReturnPtr,
        selHalt := 1 } with
    pc := UINT32_MAX }

/-- One element of memory is loaded into a register, if there is one left: whether the tag matches,
the element and what the row says of it. -/
def loadReturn (clk : ℕ) (reg : IntermRegister) (present : Bool) (memIdx : ℕ)
    (mem : AvmMemTraceBuilder) : Option (Bool × List FF × RegisterOp × AvmMemTraceBuilder) :=
  if present then do
    let memIdx := memIdx % 2 ^ 32
    let (read, mem) ← mem.readAndLoadFromMemory clk reg memIdx .FF
    return (read.tagMatch, [read.val], ⟨read.val, 1, memIdx⟩, mem)
  else some (true, [], {}, mem)

/-- The loop of `return_op`.  The blocks that load the second and the third element declare `ib` and
`ic` anew: those of the row stay zero. -/
def returnFrom (retOffset retSize : ℕ) (pos : ℕ) (returnMem : List FF) (self : AvmTraceBuilder) :
    Option (List FF × AvmTraceBuilder) :=
  if pos < retSize then do
    let clk := self.clk
    let ib : FF := 0
    let ic : FF := 0
    let (tagMatchA, valuesA, a, mem) ← loadReturn clk .IA true (retOffset + pos)
      self.memTraceBuilder
    let (tagMatchB, valuesB, b, mem) ← loadReturn clk .IB (1 < retSize - pos)
      (retOffset + pos + 1) mem
    let (tagMatchC, valuesC, c, mem) ← loadReturn clk .IC (2 < retSize - pos)
      (retOffset + pos + 2) mem
    let tagMatch := tagMatchA && tagMatchB && tagMatchC
    let self := self.pushBack mem
      { clk := clk, pc := self.pc, internalReturnPtr := self.internalReturnPtr, selHalt := 1,
        inTag := ofTag .FF, tagErr := FF.ofBool !tagMatch, ia := if tagMatch then a.value else 0,
        ib := if tagMatch then ib else 0, ic := if tagMatch then ic else 0,
        memOpA := a.memOp, memOpB := b.memOp, memOpC := c.memOp,
        memIdxA := a.memIdx, memIdxB := b.memIdx, memIdxC := c.memIdx }
    returnFrom retOffset retSize (if 2 < retSize - pos then pos + 3 else retSize)
      (returnMem ++ valuesA ++ valuesB ++ valuesC) self
  else some (returnMem, self)
termination_by retSize - pos
decreasing_by split <;> omega

def returnOp (self : AvmTraceBuilder) (retOffset retSize : ℕ) :
    Option (List FF × AvmTraceBuilder) :=
  if retSize = 0 then some ([], self.halt)
  else do
    let (returnMem, self) ← self.returnFrom retOffset retSize 0 []
    return (returnMem, { self with pc := UINT32_MAX })

def jump (self : AvmTraceBuilder) (jmpDest : ℕ) : AvmTraceBuilder :=
  { self.pushBack self.memTraceBuilder
      { clk := self.mainTrace.length, pc := self.pc, internalReturnPtr := self.internalReturnPtr,
        selJump := 1, ia := jmpDest } with
    pc := jmpDest }

def internalCall (self : AvmTraceBuilder) (jmpDest : ℕ) : Option AvmTraceBuilder := do
  let clk := self.clk
  let storedPc : ℕ := (self.pc + 1) % 2 ^ 32
  let mem ← self.memTraceBuilder.writeIntoMemory clk .IB self.internalReturnPtr storedPc .FF
  return { self.pushBack mem
      { clk := clk, pc := self.pc, internalReturnPtr := self.internalReturnPtr,
        selInternalCall := 1, ia := jmpDest, ib := storedPc, memOpB := 1, rwb := 1,
        memIdxB := self.internalReturnPtr } with
    pc := jmpDest
    internalReturnPtr := (self.internalReturnPtr + 1) % 2 ^ 32
    internalCallStack := storedPc :: self.internalCallStack }

/-- The address of the top of the call stack in memory. -/
def returnPtr (self : AvmTraceBuilder) : ℕ := (self.internalReturnPtr + 2 ^ 32 - 1) % 2 ^ 32

/-- `internal_return`.  It has no meaning on an empty call stack. -/
def internalReturn (self : AvmTraceBuilder) : Option AvmTraceBuilder := do
  let clk := self.clk
  let (readA, mem) ← self.memTraceBuilder.readAndLoadFromMemory clk .IA self.returnPtr .FF
  match self.internalCallStack with
  | [] => none
  | top :: stack =>
    return { self.pushBack mem
        { clk := clk, pc := self.pc, internalReturnPtr := self.internalReturnPtr,
          selInternalReturn := 1, tagErr := FF.ofBool !readA.tagMatch,
          ia := if readA.tagMatch then readA.val else 0, memOpA := 1, rwa := 0,
          memIdxA := self.returnPtr } with
      pc := top
      internalReturnPtr := self.returnPtr
      internalCallStack := stack }

end AvmTraceBuilder

/-! ### Sequences of operations -/

inductive Operation
  | opAdd (aOffset bOffset dstOffset : ℕ) (inTag : AvmMemoryTag)
  | opSub (aOffset bOffset dstOffset : ℕ) (inTag : AvmMemoryTag)
  | opMul (aOffset bOffset dstOffset : ℕ) (inTag : AvmMemoryTag)
  | opDiv (aOffset bOffset dstOffset : ℕ) (inTag : AvmMemoryTag)
  | opEq (aOffset bOffset dstOffset : ℕ) (inTag : AvmMemoryTag)
  | opNot (aOffset dstOffset : ℕ) (inTag : AvmMemoryTag)
  | set (val dstOffset : ℕ) (inTag : AvmMemoryTag)
  | calldataCopy (cdOffset copySize dstOffset : ℕ) (callDataMem : List FF)
  | returnOp (retOffset retSize : ℕ)
  | halt
  | jump (jmpDest : ℕ)
  | internalCall (jmpDest : ℕ)
  | internalReturn

def Operation.execute (self : AvmTraceBuilder) : Operation → Option AvmTraceBuilder
  | opAdd aOffset bOffset dstOffset inTag => self.opAdd aOffset bOffset dstOffset inTag
  | opSub aOffset bOffset dstOffset inTag => self.opSub aOffset bOffset dstOffset inTag
  | opMul aOffset bOffset dstOffset inTag => self.opMul aOffset bOffset dstOffset inTag
  | opDiv aOffset bOffset dstOffset inTag => self.opDiv aOffset bOffset dstOffset inTag
  | opEq aOffset bOffset dstOffset inTag => self.opEq aOffset bOffset dstOffset inTag
  | opNot aOffset dstOffset inTag => self.opNot aOffset dstOffset inTag
  | set val dstOffset inTag => self.set val dstOffset inTag
  | calldataCopy cdOffset copySize dstOffset callDataMem =>
    self.calldataCopy cdOffset copySize dstOffset callDataMem
  | returnOp retOffset retSize => (self.returnOp retOffset retSize).map Prod.snd
  | halt => some self.halt
  | jump jmpDest => some (self.jump jmpDest)
  | internalCall jmpDest => self.internalCall jmpDest
  | internalReturn => self.internalReturn

/-- The builder after a sequence of operations, unless one of them throws. -/
def run (self : AvmTraceBuilder) (operations : List Operation) : Option AvmTraceBuilder :=
  operations.foldlM Operation.execute self

/-! ### Rows and their accesses -/

inductive Loads (clk : ℕ) (inTag : AvmMemoryTag) :
    AvmMemTraceBuilder → List (IntermRegister × ℕ) → AvmMemTraceBuilder → Prop
  | nil (mem : AvmMemTraceBuilder) : Loads clk inTag mem [] mem
  | cons {mem mid mem' : AvmMemTraceBuilder} {reg : IntermRegister} {addr : ℕ} {read : MemRead}
      {y : MemoryTraceEntry} {rest : List (IntermRegister × ℕ)}
      (head : Loaded mem mid clk reg addr inTag read y) (tail : Loads clk inTag mid rest mem') :
      Loads clk inTag mem ((reg, addr) :: rest) mem'

inductive Stores (clk : ℕ) (inTag : AvmMemoryTag) :
    AvmMemTraceBuilder → List (IntermRegister × ℕ × FF) → AvmMemTraceBuilder → Prop
  | nil (mem : AvmMemTraceBuilder) : Stores clk inTag mem [] mem
  | cons {mem mid mem' : AvmMemTraceBuilder} {reg : IntermRegister} {addr : ℕ} {val : FF}
      {y : MemoryTraceEntry} {rest : List (IntermRegister × ℕ × FF)}
      (head : Stored mem mid clk reg addr val inTag y) (tail : Stores clk inTag mid rest mem') :
      Stores clk inTag mem ((reg, addr, val) :: rest) mem'

/-- A register that is loaded: with a tag error it is zero, without one it has the value read.  What
a row that halts says of the second and the third register is left open. -/
def ValueLoaded (row : MainRow) (reg : IntermRegister) (val : FF) : Prop :=
  (row.tagErr = 0 → (row.selHalt = 1 → reg = .IA) → row.value reg = val) ∧
    (row.tagErr = 1 → row.value reg = 0)

/-- A register that is stored: it has the value stored.  What a division says of it when there is a
tag error is left open. -/
def ValueStored (row : MainRow) (reg : IntermRegister) (val : FF) : Prop :=
  (row.tagErr = 1 → row.selOpDiv = 0) → row.value reg = val

structure RowAgrees (mem : AvmMemTraceBuilder) (row : MainRow) (loads : List (IntermRegister × ℕ))
    (stores : List (IntermRegister × ℕ × FF)) : Prop where
  memOp : ∀ reg, row.memOp reg = 1 ↔ reg ∈ loads.map Prod.fst ++ stores.map Prod.fst
  load : ∀ p ∈ loads, row.rw p.1 = 0 ∧ row.memIdx p.1 = p.2 ∧
    ValueLoaded row p.1 (mem.memory p.2)
  store : ∀ p ∈ stores, row.rw p.1 = 1 ∧ row.memIdx p.1 = p.2.1 ∧ ValueStored row p.1 p.2.2

/-- **One more row**, with the accesses made for it. -/
structure RowStep (inTag : AvmMemoryTag) (loads : List (IntermRegister × ℕ))
    (stores : List (IntermRegister × ℕ × FF)) (row : MainRow) (before after : AvmTraceBuilder) :
    Prop where
  accesses : ∃ mid, Loads before.clk inTag before.memTraceBuilder loads mid ∧
    Stores before.clk inTag mid stores after.memTraceBuilder
  mainTrace : after.mainTrace = before.mainTrace ++ [row]
  clk : before.mainTrace.length < 2 ^ 32 → row.clk = (before.mainTrace.length : ℕ)
  loadOrder : (loads.map fun p => p.1.subClkLoad).Pairwise (· < ·)
  storeOrder : (stores.map fun p => p.1.subClkStore).Pairwise (· < ·)
  disjoint : (loads.map Prod.fst ++ stores.map Prod.fst).Nodup
  agrees : RowAgrees before.memTraceBuilder row loads stores

/-- Rows that are appended one after the other, reading from some addresses only. -/
inductive RowSteps (inTag : AvmMemoryTag) (reads : List ℕ) : AvmTraceBuilder → AvmTraceBuilder → Prop
  | done {before after : AvmTraceBuilder} (mainTrace : after.mainTrace = before.mainTrace)
      (mem : after.memTraceBuilder = before.memTraceBuilder) : RowSteps inTag reads before after
  | row {before mid after : AvmTraceBuilder} {loads : List (IntermRegister × ℕ)}
      {stores : List (IntermRegister × ℕ × FF)} {row : MainRow}
      (head : RowStep inTag loads stores row before mid) (within : ∀ p ∈ loads, p.2 ∈ reads)
      (tail : RowSteps inTag reads mid after) : RowSteps inTag reads before after

namespace Operation

def inTag : Operation → AvmMemoryTag
  | opAdd _ _ _ inTag | opSub _ _ _ inTag | opMul _ _ _ inTag | opDiv _ _ _ inTag
  | opEq _ _ _ inTag | opNot _ _ inTag | set _ _ inTag => inTag
  | calldataCopy _ _ _ _ | returnOp _ _ | halt | jump _ | internalCall _ | internalReturn => .FF

def reads (self : AvmTraceBuilder) : Operation → List ℕ
  | opAdd aOffset bOffset _ _ | opSub aOffset bOffset _ _ | opMul aOffset bOffset _ _
  | opDiv aOffset bOffset _ _ | opEq aOffset bOffset _ _ => [aOffset, bOffset]
  | opNot aOffset _ _ => [aOffset]
  | returnOp retOffset retSize => (List.range retSize).map fun i => (retOffset + i) % 2 ^ 32
  | internalReturn => [self.returnPtr]
  | set _ _ _ | calldataCopy _ _ _ _ | halt | jump _ | internalCall _ => []

end Operation

section Steps

variable {before after : AvmTraceBuilder}

variable {aOffset bOffset dstOffset pos : ℕ} {mem mid mem' : AvmMemTraceBuilder}
  {reg : IntermRegister} {loads : List (IntermRegister × ℕ)} {row : MainRow} {α : Type}
  {lists : IntermRegister → List α} {callDataMem : List FF} {present : Bool} {r : RegisterOp}

variable {inTag : AvmMemoryTag} {clk : ℕ}

theorem loads_pair {readA readB : MemRead}
    (ha : mem.readAndLoadFromMemory clk .IA aOffset inTag = some (readA, mid))
    (hb : mid.readAndLoadFromMemory clk .IB bOffset inTag = some (readB, mem')) :
    Loads clk inTag mem [(.IA, aOffset), (.IB, bOffset)] mem' ∧
      readA.val = mem.memory aOffset ∧ readB.val = mem.memory bOffset := by
  obtain ⟨ya, hloadA⟩ := readAndLoadFromMemory_eq_some ha
  obtain ⟨yb, hloadB⟩ := readAndLoadFromMemory_eq_some hb
  exact ⟨.cons hloadA (.cons hloadB (.nil _)), hloadA.val, by rw [hloadB.val, hloadA.memory]⟩

theorem stores_single {clk addr : ℕ} {val : FF}
    (h : mem.writeIntoMemory clk reg addr val inTag = some mem') :
    Stores clk inTag mem [(reg, addr, val)] mem' := by
  obtain ⟨y, hstore⟩ := writeIntoMemory_eq_some h
  exact .cons hstore (.nil _)

theorem clk_eq (self : AvmTraceBuilder) (h : self.mainTrace.length < 2 ^ 32) :
    self.clk = self.mainTrace.length := Nat.mod_eq_of_lt h

theorem RowSteps.single {reads : List ℕ}
    {stores : List (IntermRegister × ℕ × FF)} (h : RowStep inTag loads stores row before after)
    (within : ∀ p ∈ loads, p.2 ∈ reads) :
    RowSteps inTag reads before after := .row h within (.done rfl rfl)

variable {aOffset bOffset dstOffset : ℕ} {row : MainRow}

theorem rowSteps_binary (tagMatch : Bool) {a b c ic : FF} {mid : AvmMemTraceBuilder} (hloads : Loads before.clk inTag before.memTraceBuilder [(.IA, aOffset), (.IB, bOffset)] mid)
    (hstores : Stores before.clk inTag mid [(.IC, dstOffset, c)] after.memTraceBuilder)
    (htrace : after.mainTrace = before.mainTrace ++ [row])
    (hrow : ∃ add sub mul div eq opErr inv, row =
      { before.binaryRow aOffset bOffset dstOffset inTag tagMatch a b ic with
        selOpAdd := add, selOpSub := sub, selOpMul := mul, selOpDiv := div, selOpEq := eq,
        opErr := opErr, inv := inv })
    (ha : a = if tagMatch then before.memTraceBuilder.memory aOffset else 0)
    (hb : b = if tagMatch then before.memTraceBuilder.memory bOffset else 0)
    (hc : (row.tagErr = 1 → row.selOpDiv = 0) → ic = c) :
    RowSteps inTag [aOffset, bOffset] before after := by
  obtain ⟨add, sub, mul, div, eq, opErr, inv, rfl⟩ := hrow
  refine .single ⟨⟨mid, hloads, hstores⟩, htrace, fun hlt => congrArg Nat.cast (clk_eq before hlt),
    by simp [IntermRegister.subClkLoad], by simp, by simp, ?_, ?_, ?_⟩ (by simp)
  · intro reg
    cases reg <;> simp [MainRow.memOp, AvmTraceBuilder.binaryRow]
  · intro p hp
    rcases mem_pair.1 hp with rfl | rfl
    · refine ⟨rfl, rfl, ?_⟩
      cases tagMatch <;> simp [ValueLoaded, MainRow.value, AvmTraceBuilder.binaryRow, ha]
    · refine ⟨rfl, rfl, ?_⟩
      cases tagMatch <;> simp [ValueLoaded, MainRow.value, AvmTraceBuilder.binaryRow, hb]
  · intro p hp
    rw [mem_singleton.1 hp]
    exact ⟨rfl, rfl, hc⟩

theorem rowSteps_aluOperation
    {aluOp : AvmAluTraceBuilder → FF → FF → AvmMemoryTag → ℕ → FF × AvmAluTraceBuilder}
    {select : MainRow → MainRow} (hselect : ∀ row, ∃ add sub mul eq, select row =
      { row with selOpAdd := add, selOpSub := sub, selOpMul := mul, selOpEq := eq })
    (h : before.aluOperation aluOp select aOffset bOffset dstOffset inTag = some after) :
    RowSteps inTag [aOffset, bOffset] before after := by
  simp only [AvmTraceBuilder.aluOperation, bind_eq_bind, bind_eq_some_iff] at h
  obtain ⟨⟨readA, mid⟩, ha, ⟨readB, mid'⟩, hb, mem, hc, heq⟩ := h
  obtain ⟨hloads, hvalA, hvalB⟩ := loads_pair ha hb
  cases heq
  refine rowSteps_binary (readA.tagMatch && readB.tagMatch) hloads (stores_single hc) rfl
    ?_ (by rw [← hvalA]) (by rw [← hvalB]) fun _ => rfl
  obtain ⟨add, sub, mul, eq, hrow⟩ := hselect (before.binaryRow aOffset bOffset dstOffset inTag
    (readA.tagMatch && readB.tagMatch) _ _ _)
  exact ⟨add, sub, mul, 0, eq, 0, 0, hrow⟩

theorem rowSteps_opAdd (h : before.opAdd aOffset bOffset dstOffset inTag = some after) :
    RowSteps inTag [aOffset, bOffset] before after := by
  rw [AvmTraceBuilder.opAdd] at h
  exact rowSteps_aluOperation (fun row => ⟨1, row.selOpSub, row.selOpMul, row.selOpEq, rfl⟩) h

theorem rowSteps_opSub (h : before.opSub aOffset bOffset dstOffset inTag = some after) :
    RowSteps inTag [aOffset, bOffset] before after := by
  rw [AvmTraceBuilder.opSub] at h
  exact rowSteps_aluOperation (fun row => ⟨row.selOpAdd, 1, row.selOpMul, row.selOpEq, rfl⟩) h

theorem rowSteps_opMul (h : before.opMul aOffset bOffset dstOffset inTag = some after) :
    RowSteps inTag [aOffset, bOffset] before after := by
  rw [AvmTraceBuilder.opMul] at h
  exact rowSteps_aluOperation (fun row => ⟨row.selOpAdd, row.selOpSub, 1, row.selOpEq, rfl⟩) h

theorem rowSteps_opEq (h : before.opEq aOffset bOffset dstOffset inTag = some after) :
    RowSteps inTag [aOffset, bOffset] before after := by
  rw [AvmTraceBuilder.opEq] at h
  exact rowSteps_aluOperation (fun row => ⟨row.selOpAdd, row.selOpSub, row.selOpMul, 1, rfl⟩) h

theorem rowSteps_opDiv (h : before.opDiv aOffset bOffset dstOffset inTag = some after) :
    RowSteps inTag [aOffset, bOffset] before after := by
  simp only [AvmTraceBuilder.opDiv, bind_eq_bind, bind_eq_some_iff] at h
  obtain ⟨⟨readA, mid⟩, ha, ⟨readB, mid'⟩, hb, mem, hc, heq⟩ := h
  obtain ⟨hloads, hvalA, hvalB⟩ := loads_pair ha hb
  cases heq
  refine rowSteps_binary (readA.tagMatch && readB.tagMatch) hloads (stores_single hc) rfl
    ⟨0, 0, 0, 1, 0, _, _, rfl⟩ (by rw [← hvalA]) (by rw [← hvalB]) fun htag => ?_
  cases hmatch : readA.tagMatch && readB.tagMatch with
  | true => rfl
  | false =>
    have hnot := htag (by simp [AvmTraceBuilder.binaryRow, hmatch])
    exact absurd hnot one_ne_zero

theorem rowSteps_opNot (h : before.opNot aOffset dstOffset inTag = some after) :
    RowSteps inTag [aOffset] before after := by
  simp only [AvmTraceBuilder.opNot, bind_eq_bind, bind_eq_some_iff] at h
  obtain ⟨⟨readA, mid⟩, ha, mem, hc, heq⟩ := h
  obtain ⟨y, hload⟩ := readAndLoadFromMemory_eq_some ha
  cases heq
  refine .single ⟨⟨mid, .cons hload (.nil _), stores_single hc⟩, rfl,
    fun hlt => congrArg Nat.cast (clk_eq before hlt), by simp, by simp, by simp, ?_, ?_, ?_⟩ (by simp)
  · intro reg
    cases reg <;> simp [MainRow.memOp]
  · intro p hp
    rw [mem_singleton.1 hp]
    refine ⟨rfl, rfl, ?_⟩
    rw [← hload.val]
    cases hmatch : readA.tagMatch <;> simp [ValueLoaded, MainRow.value]
  · intro p hp
    rw [mem_singleton.1 hp]
    exact ⟨rfl, rfl, fun _ => rfl⟩

theorem rowSteps_set {val : ℕ}
    (h : before.set val dstOffset inTag = some after) : RowSteps inTag [] before after := by
  simp only [AvmTraceBuilder.set, bind_eq_bind, bind_eq_some_iff] at h
  obtain ⟨mem, hc, heq⟩ := h
  cases heq
  refine .single ⟨⟨_, .nil _, stores_single hc⟩, rfl,
    fun hlt => congrArg Nat.cast (clk_eq before hlt), by simp, by simp, by simp, ?_, by simp, ?_⟩
    (by simp)
  · intro reg
    cases reg <;> simp [MainRow.memOp]
  · intro p hp
    rw [mem_singleton.1 hp]
    exact ⟨rfl, rfl, fun _ => rfl⟩

theorem rowSteps_noAccess (hmem : after.memTraceBuilder = before.memTraceBuilder)
    (htrace : after.mainTrace = before.mainTrace ++ [row])
    (hclk : row.clk = (before.mainTrace.length : ℕ)) (hmemOp : ∀ reg, row.memOp reg = 0) :
    RowSteps inTag [] before after := by
  have hstep : RowStep inTag [] [] row before after := by
    refine ⟨⟨_, .nil _, ?_⟩, htrace, fun _ => hclk, by simp, by simp, by simp, ?_, by simp, by simp⟩
    · rw [hmem]
      exact .nil _
    · intro reg
      simp [hmemOp]
  exact .single hstep (by simp)

theorem rowSteps_halt : RowSteps .FF [] before before.halt :=
  rowSteps_noAccess rfl rfl rfl fun reg => by cases reg <;> rfl

theorem rowSteps_jump (jmpDest : ℕ) : RowSteps .FF [] before (before.jump jmpDest) :=
  rowSteps_noAccess rfl rfl rfl fun reg => by cases reg <;> rfl

theorem rowSteps_internalCall {jmpDest : ℕ} (h : before.internalCall jmpDest = some after) :
    RowSteps .FF [] before after := by
  simp only [AvmTraceBuilder.internalCall, bind_eq_bind, bind_eq_some_iff] at h
  obtain ⟨mem, hb, heq⟩ := h
  cases heq
  refine .single ⟨⟨_, .nil _, stores_single hb⟩, rfl,
    fun hlt => congrArg Nat.cast (clk_eq before hlt), by simp, by simp, by simp, ?_, by simp, ?_⟩
    (by simp)
  · intro reg
    cases reg <;> simp [MainRow.memOp]
  · intro p hp
    rw [mem_singleton.1 hp]
    exact ⟨rfl, rfl, fun _ => rfl⟩

theorem rowSteps_internalReturn (h : before.internalReturn = some after) :
    RowSteps .FF [before.returnPtr] before after := by
  simp only [AvmTraceBuilder.internalReturn, bind_eq_bind, bind_eq_some_iff] at h
  obtain ⟨⟨readA, mem⟩, ha, heq⟩ := h
  obtain ⟨y, hload⟩ := readAndLoadFromMemory_eq_some ha
  split at heq
  · cases heq
  · cases heq
    refine RowSteps.single (.mk ⟨_, .cons hload (.nil _), .nil _⟩ rfl
      (fun hlt => congrArg Nat.cast (clk_eq before hlt)) (by simp) (by simp) (by simp)
      ⟨?_, ?_, fun p hp => absurd hp not_mem_nil⟩) (by simp)
    · intro reg
      cases reg <;> simp [MainRow.memOp]
    · intro p hp
      rw [mem_singleton.1 hp]
      refine ⟨rfl, rfl, ?_⟩
      rw [← hload.val]
      cases hmatch : readA.tagMatch <;> simp [ValueLoaded, MainRow.value]

/-! ### Loops over registers -/

theorem Stores.append {first second : List (IntermRegister × ℕ × FF)} (h : Stores clk inTag mem first mid)
    (h' : Stores clk inTag mid second mem') : Stores clk inTag mem (first ++ second) mem' := by
  induction h with
  | nil mem => exact h'
  | cons head tail ih => exact .cons head (ih h')

theorem Loads.append {first second : List (IntermRegister × ℕ)}
    (h : Loads clk inTag mem first mid) (h' : Loads clk inTag mid second mem') :
    Loads clk inTag mem (first ++ second) mem' := by
  induction h with
  | nil mem => exact h'
  | cons head tail ih => exact .cons head (ih h')

theorem Loads.memory (h : Loads clk inTag mem loads mem') : mem'.memory = mem.memory := by
  induction h with
  | nil mem => rfl
  | cons head tail ih => rw [ih, head.memory]

def Selected (reg : IntermRegister) (memOp : FF) (regs : List IntermRegister) : Prop :=
  (regs = [] ∧ memOp = 0) ∨ (regs = [reg] ∧ memOp = 1)

def inOrder {α : Type} (lists : IntermRegister → List α) : List α :=
  lists .IA ++ (lists .IB ++ lists .IC)

theorem mem_inOrder {p : α} : p ∈ inOrder lists ↔ ∃ reg, p ∈ lists reg := by
  rw [inOrder, mem_append, mem_append]
  constructor
  · rintro (hp | hp | hp)
    · exact ⟨_, hp⟩
    · exact ⟨_, hp⟩
    · exact ⟨_, hp⟩
  · rintro ⟨reg, hp⟩
    cases reg <;> simp [hp]

theorem selected_inOrder (reg : α → IntermRegister) {memOp : IntermRegister → FF}
    (h : ∀ r, Selected r (memOp r) ((lists r).map reg)) {f : IntermRegister → ℕ}
    (hab : f .IA < f .IB) (hbc : f .IB < f .IC) :
    ((inOrder lists).map fun p => f (reg p)).Pairwise (· < ·) ∧ ((inOrder lists).map reg).Nodup ∧
      ∀ r, memOp r = 1 ↔ r ∈ (inOrder lists).map reg := by
  have hsub : ((inOrder lists).map reg).Sublist [.IA, .IB, .IC] := by
    have hone (r : IntermRegister) : ((lists r).map reg).Sublist [r] := by
      rcases h r with ⟨heq, -⟩ | ⟨heq, -⟩ <;> simp [heq]
    rw [inOrder, map_append, map_append]
    exact (hone _).append ((hone _).append (hone _))
  have hsorted : ([IntermRegister.IA, .IB, .IC].map f).Pairwise (· < ·) := by
    simp [hab, hbc, hab.trans hbc]
  refine ⟨?_, List.Nodup.sublist hsub (by decide), fun r => ?_⟩
  · change ((inOrder lists).map (f ∘ reg)).Pairwise _
    rw [← map_map]
    exact hsorted.sublist (hsub.map f)
  · have hmem (r' : IntermRegister) : r ∈ (lists r').map reg ↔ r = r' ∧ memOp r' = 1 := by
      rcases h r' with ⟨heq, hzero⟩ | ⟨heq, hone⟩
      · simp [heq, hzero]
      · simp [heq, hone]
    rw [inOrder, map_append, map_append, mem_append, mem_append, hmem, hmem, hmem]
    cases r <;> simp

/-- What a register of a row of `calldata_copy` says of its store, if there is one. -/
def StoredBy (reg : IntermRegister) (r : RegisterOp) (stores : List (IntermRegister × ℕ × FF)) :
    Prop :=
  Selected reg r.memOp (stores.map Prod.fst) ∧
    ∀ p ∈ stores, p.1 = reg ∧ r.memOp = 1 ∧ r.memIdx = p.2.1 ∧ r.value = p.2.2

theorem storeCalldata_eq_some {callDataMem : List FF} {clk cdIdx memIdx : ℕ} {reg : IntermRegister}
    {present : Bool} {mem mem' : AvmMemTraceBuilder} {r : RegisterOp}
    (h : AvmTraceBuilder.storeCalldata callDataMem clk reg present cdIdx memIdx mem =
      some (r, mem')) : ∃ stores, Stores clk .FF mem stores mem' ∧ StoredBy reg r stores := by
  rw [AvmTraceBuilder.storeCalldata] at h
  split at h
  · simp only [bind_eq_bind, bind_eq_some_iff] at h
    obtain ⟨value, -, mid, hstore, heq⟩ := h
    cases heq
    exact ⟨_, stores_single hstore, .inr ⟨rfl, rfl⟩, by simp⟩
  · cases h
    exact ⟨[], .nil _, .inl ⟨rfl, rfl⟩, by simp⟩

theorem rowStep_stores {r : IntermRegister → RegisterOp}
    {s : IntermRegister → List (IntermRegister × ℕ × FF)}
    (hby : ∀ reg, StoredBy reg (r reg) (s reg))
    (hrow : ∀ reg, row.memOp reg = (r reg).memOp ∧ row.rw reg = (r reg).memOp ∧
      row.memIdx reg = (r reg).memIdx ∧ row.value reg = (r reg).value)
    (hstores : Stores before.clk .FF before.memTraceBuilder (inOrder s) after.memTraceBuilder)
    (htrace : after.mainTrace = before.mainTrace ++ [row]) (hclk : row.clk = (before.clk : ℕ)) :
    RowStep .FF [] (inOrder s) row before after := by
  obtain ⟨horder, hnodup, hmemOp⟩ := selected_inOrder Prod.fst
    (fun reg => (hby reg).1) (f := IntermRegister.subClkStore) (by decide) (by decide)
  refine ⟨⟨_, .nil _, hstores⟩, htrace, fun hlt => ?_, by simp, horder, hnodup, ?_, by simp, ?_⟩
  · rw [hclk, clk_eq before hlt]
  · intro reg
    rw [(hrow reg).1]
    exact hmemOp reg
  · intro p hp
    obtain ⟨reg, hp⟩ := mem_inOrder.1 hp
    obtain ⟨hreg, hone, hidx, hvalue⟩ := (hby reg).2 p hp
    obtain ⟨-, hrw, hmemIdx, hval⟩ := hrow reg
    rw [hreg]
    exact ⟨hrw.trans hone, hmemIdx.trans hidx, fun _ => hval.trans hvalue⟩

theorem rowSteps_calldataCopyFrom {cdOffset copySize : ℕ}
    (h : before.calldataCopyFrom cdOffset copySize dstOffset callDataMem pos = some after) :
    RowSteps .FF [] before after := by
  induction hm : copySize - pos using Nat.strong_induction_on generalizing pos before with
  | _ m ih =>
    rw [AvmTraceBuilder.calldataCopyFrom] at h
    split at h
    · next hlt =>
      simp only [bind_eq_bind, bind_eq_some_iff] at h
      obtain ⟨⟨a, memA⟩, ha, ⟨b, memB⟩, hb, ⟨c, memC⟩, hc, hrest⟩ := h
      obtain ⟨storesA, hstoresA, hbyA⟩ := storeCalldata_eq_some ha
      obtain ⟨storesB, hstoresB, hbyB⟩ := storeCalldata_eq_some hb
      obtain ⟨storesC, hstoresC, hbyC⟩ := storeCalldata_eq_some hc
      refine .row (rowStep_stores (r := fun | .IA => a | .IB => b | .IC => c)
        (s := fun | .IA => storesA | .IB => storesB | .IC => storesC) ?_ ?_
        (hstoresA.append (hstoresB.append hstoresC)) rfl rfl) (by simp) (ih _ ?_ hrest rfl)
      · intro reg
        cases reg
        · exact hbyA
        · exact hbyB
        · exact hbyC
      · intro reg
        cases reg <;> exact ⟨rfl, rfl, rfl, rfl⟩
      · split <;> omega
    · cases h
      exact .done rfl rfl

/-- What a register of a row of `return_op` says of its load, if there is one. -/
def LoadedBy (mem : AvmMemTraceBuilder) (reg : IntermRegister) (r : RegisterOp) (addr : ℕ)
    (loads : List (IntermRegister × ℕ)) : Prop :=
  Selected reg r.memOp (loads.map Prod.fst) ∧
    ∀ p ∈ loads, p = (reg, addr) ∧ r.memIdx = addr ∧ r.value = mem.memory addr

theorem loadReturn_eq_some {clk memIdx : ℕ} {tagMatch : Bool} {values : List FF}
    (h : AvmTraceBuilder.loadReturn clk reg present memIdx mem = some (tagMatch, values, r, mem')) :
    ∃ loads, Loads clk .FF mem loads mem' ∧ (loads ≠ [] → present = true) ∧
      LoadedBy mem reg r (memIdx % 2 ^ 32) loads := by
  rw [AvmTraceBuilder.loadReturn] at h
  split at h
  · next hpresent =>
    simp only [bind_eq_bind, bind_eq_some_iff] at h
    obtain ⟨⟨read, mid⟩, hread, heq⟩ := h
    obtain ⟨y, hload⟩ := readAndLoadFromMemory_eq_some hread
    cases heq
    refine ⟨_, .cons hload (.nil _), fun _ => hpresent, .inr ⟨rfl, rfl⟩, fun p hp => ?_⟩
    rw [mem_singleton.1 hp]
    exact ⟨rfl, rfl, hload.val⟩
  · cases h
    exact ⟨[], .nil _, fun h => absurd rfl h, .inl ⟨rfl, rfl⟩, by simp⟩

theorem rowStep_loads {r : IntermRegister → RegisterOp} {a : IntermRegister → ℕ}
    {l : IntermRegister → List (IntermRegister × ℕ)}
    (hby : ∀ reg, LoadedBy before.memTraceBuilder reg (r reg) (a reg) (l reg))
    (hrow : ∀ reg, row.memOp reg = (r reg).memOp ∧ row.rw reg = 0 ∧
      row.memIdx reg = (r reg).memIdx ∧ ValueLoaded row reg (r reg).value)
    (hloads : Loads before.clk .FF before.memTraceBuilder (inOrder l) after.memTraceBuilder)
    (htrace : after.mainTrace = before.mainTrace ++ [row]) (hclk : row.clk = (before.clk : ℕ)) :
    RowStep .FF (inOrder l) [] row before after := by
  obtain ⟨horder, hnodup, hmemOp⟩ := selected_inOrder Prod.fst
    (fun reg => (hby reg).1) (f := IntermRegister.subClkLoad) (by decide) (by decide)
  refine ⟨⟨_, hloads, .nil _⟩, htrace, fun hlt => ?_, horder, by simp, by simpa using hnodup, ?_, ?_,
    by simp⟩
  · rw [hclk, clk_eq before hlt]
  · intro reg
    rw [(hrow reg).1, map_nil, append_nil]
    exact hmemOp reg
  · intro p hp
    obtain ⟨reg, hp⟩ := mem_inOrder.1 hp
    obtain ⟨rfl, hidx, hvalue⟩ := (hby reg).2 p hp
    obtain ⟨-, hrw, hmemIdx, hval⟩ := hrow reg
    rw [hvalue] at hval
    exact ⟨hrw, hmemIdx.trans hidx, hval⟩

theorem rowSteps_returnFrom {retOffset retSize : ℕ} {returnMem returnMem' : List FF}
    (h : before.returnFrom retOffset retSize pos returnMem = some (returnMem', after)) :
    RowSteps .FF ((range retSize).map fun i => (retOffset + i) % 2 ^ 32) before after := by
  induction hm : retSize - pos using Nat.strong_induction_on generalizing pos before returnMem with
  | _ m ih =>
    rw [AvmTraceBuilder.returnFrom] at h
    split at h
    · next hlt =>
      simp only [bind_eq_bind, bind_eq_some_iff] at h
      obtain ⟨⟨matchA, valuesA, a, memA⟩, ha, ⟨matchB, valuesB, b, memB⟩, hb,
        ⟨matchC, valuesC, c, memC⟩, hc, hrest⟩ := h
      obtain ⟨loadsA, hloadsA, -, hbyA⟩ := loadReturn_eq_some ha
      obtain ⟨loadsB, hloadsB, hpresentB, hbyB⟩ := loadReturn_eq_some hb
      obtain ⟨loadsC, hloadsC, hpresentC, hbyC⟩ := loadReturn_eq_some hc
      refine .row (rowStep_loads (r := fun | .IA => a | .IB => b | .IC => c)
        (a := fun | .IA => (retOffset + pos) % 2 ^ 32 | .IB => (retOffset + pos + 1) % 2 ^ 32
                  | .IC => (retOffset + pos + 2) % 2 ^ 32)
        (l := fun | .IA => loadsA | .IB => loadsB | .IC => loadsC) ?_ ?_
        (hloadsA.append (hloadsB.append hloadsC)) rfl rfl) ?_ (ih _ ?_ hrest rfl)
      · -- Loads do not change the memory the next ones read from.
        intro reg
        cases reg
        · exact hbyA
        · rw [LoadedBy, ← hloadsA.memory]
          exact hbyB
        · rw [LoadedBy, ← hloadsA.memory, ← hloadsB.memory]
          exact hbyC
      · intro reg
        cases reg
        · refine ⟨rfl, rfl, rfl, ?_⟩
          cases hmatch : matchA && matchB && matchC <;> simp [ValueLoaded, MainRow.value]
        · exact ⟨rfl, rfl, rfl, fun _ hreg => absurd (hreg rfl) (by decide), fun _ => ite_self 0⟩
        · exact ⟨rfl, rfl, rfl, fun _ hreg => absurd (hreg rfl) (by decide), fun _ => ite_self 0⟩
      · intro p hp
        obtain ⟨reg, hp⟩ := mem_inOrder.1 hp
        rw [mem_map]
        cases reg
        · exact ⟨pos, mem_range.2 hlt, by rw [(hbyA.2 p hp).1]⟩
        · have hpresent := hpresentB (ne_nil_of_mem hp)
          exact ⟨pos + 1, mem_range.2 (by simp at hpresent; omega), by rw [(hbyB.2 p hp).1]; rfl⟩
        · have hpresent := hpresentC (ne_nil_of_mem hp)
          exact ⟨pos + 2, mem_range.2 (by simp at hpresent; omega), by rw [(hbyC.2 p hp).1]; rfl⟩
      · split <;> omega
    · cases h
      exact .done rfl rfl

theorem RowSteps.congr {reads : List ℕ} {after' : AvmTraceBuilder}
    (h : RowSteps inTag reads before after) (htrace : after'.mainTrace = after.mainTrace)
    (hmem : after'.memTraceBuilder = after.memTraceBuilder) : RowSteps inTag reads before after' := by
  induction h with
  | done htrace' hmem' => exact .done (htrace.trans htrace') (hmem.trans hmem')
  | row head within tail ih => exact .row head within (ih htrace hmem)

theorem Operation.steps {operation : Operation} (h : operation.execute before = some after) :
    RowSteps operation.inTag (operation.reads before) before after := by
  cases operation with
  | opAdd aOffset bOffset dstOffset inTag =>
    exact rowSteps_opAdd h
  | opSub aOffset bOffset dstOffset inTag =>
    exact rowSteps_opSub h
  | opMul aOffset bOffset dstOffset inTag =>
    exact rowSteps_opMul h
  | opDiv aOffset bOffset dstOffset inTag => exact rowSteps_opDiv h
  | opEq aOffset bOffset dstOffset inTag =>
    exact rowSteps_opEq h
  | opNot aOffset dstOffset inTag => exact rowSteps_opNot h
  | set val dstOffset inTag => exact rowSteps_set h
  | calldataCopy cdOffset copySize dstOffset callDataMem => exact rowSteps_calldataCopyFrom h
  | returnOp retOffset retSize =>
    obtain ⟨⟨returnMem, mid⟩, hreturn, rfl⟩ := Option.map_eq_some_iff.1 h
    rw [AvmTraceBuilder.returnOp] at hreturn
    split at hreturn
    · next hzero =>
      cases hreturn
      subst hzero
      exact rowSteps_halt
    · simp only [bind_eq_bind, bind_eq_some_iff] at hreturn
      obtain ⟨⟨returnMem', last⟩, hfrom, heq⟩ := hreturn
      cases heq
      exact (rowSteps_returnFrom hfrom).congr rfl rfl
  | halt =>
    cases h
    exact rowSteps_halt
  | jump jmpDest =>
    cases h
    exact rowSteps_jump jmpDest
  | internalCall jmpDest => exact rowSteps_internalCall h
  | internalReturn => exact rowSteps_internalReturn h

end Steps

end AvmTrace
