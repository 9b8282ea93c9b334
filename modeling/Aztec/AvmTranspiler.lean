/-
**The transpiler from Brillig to the AVM.**

A Brillig instruction becomes one AVM instruction, a constant of the field two.  Jump targets are
mapped by a pass of its own, which predicts the number of instructions without emitting them; the
instructions are then written as bytes, which the simulator decodes.
-/

import Aztec.AvmCodec

open Avm List
open Option (bind_eq_some_iff some)

namespace Transpiler

/-! ### Brillig -/

inductive ValueOrArray
  | memoryAddress (address : ℕ)
  | heapArray (pointer size : ℕ)
  | heapVector (pointer size : ℕ)
  deriving DecidableEq, Repr

inductive BinaryFieldOp
  | Add | Sub | Mul | Div | Equals
  deriving DecidableEq, Repr

inductive BinaryIntOp
  | Add | Sub | Mul | SignedDiv | UnsignedDiv | Equals | LessThan | LessThanEquals | And | Or | Xor
  | Shl | Shr
  deriving DecidableEq, Repr

/-- `BlackBoxOp`.  The transpiler knows one of them only. -/
inductive BlackBoxOp
  | PedersenHash (inputsPointer inputsSize domainSeparator output : ℕ)
  | other
  deriving DecidableEq, Repr

/-- `BrilligOpcode`.  The value types of foreign calls are never read. -/
inductive BrilligOpcode
  | BinaryFieldOp (destination : ℕ) (op : BinaryFieldOp) (lhs rhs : ℕ)
  | BinaryIntOp (destination : ℕ) (op : BinaryIntOp) (bitSize lhs rhs : ℕ)
  | Cast (destination source bitSize : ℕ)
  | JumpIfNot (condition location : ℕ)
  | JumpIf (condition location : ℕ)
  | Jump (location : ℕ)
  | CalldataCopy (destinationAddress size offset : ℕ)
  | Call (location : ℕ)
  | Const (destination bitSize value : ℕ)
  | Return
  | ForeignCall (function : String) (destinations inputs : List ValueOrArray)
  | Mov (destination source : ℕ)
  | Load (destination sourcePointer : ℕ)
  | Store (destinationPointer source : ℕ)
  | BlackBox (op : BlackBoxOp)
  | Trap
  | Stop (returnDataOffset returnDataSize : ℕ)
  deriving DecidableEq, Repr

/-! ### AVM instructions -/

inductive AvmOpcode
  | ADD | SUB | MUL | DIV | EQ | LT | LTE | AND | OR | XOR | NOT | SHL | SHR | CAST
  | ADDRESS | STORAGEADDRESS | ORIGIN | SENDER | PORTAL | FEEPERL1GAS | FEEPERL2GAS | FEEPERDAGAS
  | CONTRACTCALLDEPTH | CHAINID | VERSION | BLOCKNUMBER | TIMESTAMP | COINBASE | BLOCKL1GASLIMIT
  | BLOCKL2GASLIMIT | BLOCKDAGASLIMIT | CALLDATACOPY | L1GASLEFT | L2GASLEFT | DAGASLEFT
  | JUMP | JUMPI | INTERNALCALL | INTERNALRETURN | SET | MOV | CMOV
  | SLOAD | SSTORE | NOTEHASHEXISTS | EMITNOTEHASH | NULLIFIEREXISTS | EMITNULLIFIER
  | READL1TOL2MSG | HEADERMEMBER | EMITUNENCRYPTEDLOG | SENDL2TOL1MSG
  | CALL | STATICCALL | DELEGATECALL | RETURN | REVERT
  | KECCAK | POSEIDON | SHA256 | PEDERSEN
  deriving DecidableEq, Repr

def AvmOpcode.code (opcode : AvmOpcode) : ℕ := opcode.ctorIdx

inductive AvmTypeTag
  | UNINITIALIZED | UINT8 | UINT16 | UINT32 | UINT64 | UINT128 | FIELD | INVALID
  deriving DecidableEq, Repr

def AvmTypeTag.code (tag : AvmTypeTag) : ℕ := tag.ctorIdx

/-- `AvmOperand`, with values below those of its type. -/
inductive AvmOperand
  | U8 (value : ℕ)
  | U16 (value : ℕ)
  | U32 (value : ℕ)
  | U64 (value : ℕ)
  | U128 (value : ℕ)
  deriving DecidableEq, Repr

/-- The cast `as u32`. -/
def asU32 (value : ℕ) : AvmOperand := .U32 (value % 2 ^ 32)

structure AvmInstruction where
  opcode : AvmOpcode
  indirect : Option ℕ
  tag : Option AvmTypeTag
  operands : List AvmOperand
  deriving DecidableEq, Repr

open AvmInstruction

def ALL_DIRECT : ℕ := 0
def ZEROTH_OPERAND_INDIRECT : ℕ := 1
def FIRST_OPERAND_INDIRECT : ℕ := 2

def AvmOperand.toBeBytes : AvmOperand → List UInt8
  | U8 value => BigEndian.write 1 value
  | U16 value => BigEndian.write 2 value
  | U32 value => BigEndian.write 4 value
  | U64 value => BigEndian.write 8 value
  | U128 value => BigEndian.write 16 value

def AvmInstruction.toBytes (i : AvmInstruction) : List UInt8 :=
  BigEndian.write 1 i.opcode.code ++
    (i.indirect.toList.flatMap (BigEndian.write 1) ++
      (i.tag.toList.flatMap (fun tag => BigEndian.write 1 tag.code) ++
        i.operands.flatMap AvmOperand.toBeBytes))

/-! ### Emitting instructions -/

def tagFromBitSize : ℕ → Option AvmTypeTag
  | 1 => some .UINT8
  | 8 => some .UINT8
  | 16 => some .UINT16
  | 32 => some .UINT32
  | 64 => some .UINT64
  | 128 => some .UINT128
  | 254 => some .FIELD
  | _ => none

/-- The constant of `emit_set`, for a value of 128 bits. -/
def constOperand (tag : AvmTypeTag) (value : ℕ) : Option AvmOperand :=
  match tag with
  | .UINT8 => some (.U8 (value % 2 ^ 8))
  | .UINT16 => some (.U16 (value % 2 ^ 16))
  | .UINT32 => some (.U32 (value % 2 ^ 32))
  | .UINT64 => some (.U64 (value % 2 ^ 64))
  | .UINT128 => some (.U128 value)
  | _ => none

def emitSet (tag : AvmTypeTag) (dest value : ℕ) : Option AvmInstruction := do
  let const ← constOperand tag value
  some ⟨.SET, some ALL_DIRECT, some tag, [const, .U32 dest]⟩

def emitCast (source destination : ℕ) (dstTag : AvmTypeTag) : AvmInstruction :=
  ⟨.CAST, some ALL_DIRECT, some dstTag, [.U32 source, .U32 destination]⟩

def emitMov (indirect source dest : ℕ) : AvmInstruction :=
  ⟨.MOV, some indirect, none, [.U32 source, .U32 dest]⟩

/-- `FieldElement::to_u128`, the lower half of the bytes. -/
def toU128 (value : ℕ) : ℕ := value % 2 ^ 128

def fitsInU128 (value : ℕ) : Bool := value.size ≤ 128

def handleConst (destination value bitSize : ℕ) : Option (List AvmInstruction) := do
  let tag ← tagFromBitSize bitSize
  let dest := destination % 2 ^ 32
  if tag ≠ .FIELD then
    let set ← emitSet tag dest (toU128 value)
    some [set]
  else if fitsInU128 value then
    let set ← emitSet .UINT128 dest (toU128 value)
    some [set, emitCast dest dest .FIELD]
  else none

def ValueOrArray.array? : ValueOrArray → Option (ℕ × ℕ)
  | .heapArray pointer size => some (pointer, size)
  | _ => none

def ValueOrArray.address? : ValueOrArray → Option ℕ
  | .memoryAddress address => some address
  | _ => none

def twoFieldHashOpcode : String → Option AvmOpcode
  | "keccak256" => some .KECCAK
  | "sha256" => some .SHA256
  | _ => none

def singleFieldHashOpcode : String → Option AvmOpcode
  | "poseidon" => some .POSEIDON
  | _ => none

/-- The opcodes of `handle_getter_instruction`. -/
def getterOpcode : String → Option AvmOpcode
  | "address" => some .ADDRESS
  | "storageAddress" => some .STORAGEADDRESS
  | "origin" => some .ORIGIN
  | "sender" => some .SENDER
  | "portal" => some .PORTAL
  | "feePerL1Gas" => some .FEEPERL1GAS
  | "feePerL2Gas" => some .FEEPERL2GAS
  | "feePerDaGas" => some .FEEPERDAGAS
  | "chainId" => some .CHAINID
  | "version" => some .VERSION
  | "blockNumber" => some .BLOCKNUMBER
  | "timestamp" => some .TIMESTAMP
  | _ => none

def emit2FieldHashInstruction (function : String) (destinations inputs : List ValueOrArray) :
    Option (List AvmInstruction) := do
  let hashOffsetMaybe ← inputs[0]?
  let (hashOffset, hashSize) ← hashOffsetMaybe.array?
  guard (destinations.length = 1)
  let destOffsetMaybe ← destinations[0]?
  let (destOffset, size) ← destOffsetMaybe.array?
  guard (size = 2)
  let opcode ← twoFieldHashOpcode function
  some [⟨opcode, some 3, none, [asU32 destOffset, asU32 hashOffset, asU32 hashSize]⟩]

def emitSingleFieldHashInstruction (function : String) (destinations inputs : List ValueOrArray) :
    Option (List AvmInstruction) := do
  let hashOffsetMaybe ← inputs[0]?
  let (hashOffset, hashSize) ← hashOffsetMaybe.array?
  guard (destinations.length = 1)
  let destOffsetMaybe ← destinations[0]?
  let destOffset ← destOffsetMaybe.address?
  let opcode ← singleFieldHashOpcode function
  some [⟨opcode, some 1, none, [asU32 destOffset, asU32 hashOffset, asU32 hashSize]⟩]

def handleGetterInstruction (function : String) (destinations inputs : List ValueOrArray) :
    Option (List AvmInstruction) := do
  guard inputs.isEmpty
  guard (destinations.length = 1)
  let destOffsetMaybe ← destinations[0]?
  let destOffset ← destOffsetMaybe.address?
  let opcode ← getterOpcode function
  some [⟨opcode, some ALL_DIRECT, none, [asU32 destOffset]⟩]

def handleForeignCall (function : String) (destinations inputs : List ValueOrArray) :
    Option (List AvmInstruction) :=
  match function with
  | "keccak256" | "sha256" => emit2FieldHashInstruction function destinations inputs
  | "poseidon" => emitSingleFieldHashInstruction function destinations inputs
  | _ => handleGetterInstruction function destinations inputs

def handleBlackBoxFunction : BlackBoxOp → Option (List AvmInstruction)
  | .PedersenHash inputsPointer inputsSize _ output =>
    some [⟨.PEDERSEN, some 1, none, [asU32 output, asU32 inputsPointer, asU32 inputsSize]⟩]
  | .other => none

def BinaryFieldOp.avmOpcode : BinaryFieldOp → AvmOpcode
  | .Add => .ADD | .Sub => .SUB | .Mul => .MUL | .Div => .DIV | .Equals => .EQ

def BinaryIntOp.avmOpcode : BinaryIntOp → Option AvmOpcode
  | .Add => some .ADD | .Sub => some .SUB | .Mul => some .MUL | .UnsignedDiv => some .DIV
  | .Equals => some .EQ | .LessThan => some .LT | .LessThanEquals => some .LTE | .And => some .AND
  | .Or => some .OR | .Xor => some .XOR | .Shl => some .SHL | .Shr => some .SHR
  | .SignedDiv => none

def transpile (brilligPcsToAvmPcs : List ℕ) : BrilligOpcode → Option (List AvmInstruction)
  | .BinaryFieldOp destination op lhs rhs =>
    some [⟨op.avmOpcode, some ALL_DIRECT, some .FIELD,
      [asU32 lhs, asU32 rhs, asU32 destination]⟩]
  | .BinaryIntOp destination op bitSize lhs rhs => do
    let avmOpcode ← op.avmOpcode
    let tag ← tagFromBitSize bitSize
    some [⟨avmOpcode, some ALL_DIRECT, some tag, [asU32 lhs, asU32 rhs, asU32 destination]⟩]
  | .CalldataCopy destinationAddress size offset =>
    some [⟨.CALLDATACOPY, some ALL_DIRECT, none,
      [asU32 offset, asU32 size, asU32 destinationAddress]⟩]
  | .Jump location => do
    let avmLoc ← brilligPcsToAvmPcs[location]?
    some [⟨.JUMP, none, none, [asU32 avmLoc]⟩]
  | .JumpIf condition location => do
    let avmLoc ← brilligPcsToAvmPcs[location]?
    some [⟨.JUMPI, some ALL_DIRECT, none, [asU32 avmLoc, asU32 condition]⟩]
  | .Const destination bitSize value => handleConst destination value bitSize
  | .Mov destination source =>
    some [emitMov ALL_DIRECT (source % 2 ^ 32) (destination % 2 ^ 32)]
  | .Load destination sourcePointer =>
    some [emitMov ZEROTH_OPERAND_INDIRECT (sourcePointer % 2 ^ 32) (destination % 2 ^ 32)]
  | .Store destinationPointer source =>
    some [emitMov FIRST_OPERAND_INDIRECT (source % 2 ^ 32) (destinationPointer % 2 ^ 32)]
  | .Call location => do
    let avmLoc ← brilligPcsToAvmPcs[location]?
    some [⟨.INTERNALCALL, none, none, [asU32 avmLoc]⟩]
  | .Return => some [⟨.INTERNALRETURN, none, none, []⟩]
  | .Stop returnDataOffset returnDataSize =>
    some [⟨.RETURN, some ALL_DIRECT, none, [asU32 returnDataOffset, asU32 returnDataSize]⟩]
  | .Trap => some [⟨.REVERT, some ALL_DIRECT, none, [.U32 0, .U32 0]⟩]
  | .Cast destination source bitSize => do
    let tag ← tagFromBitSize bitSize
    some [emitCast (source % 2 ^ 32) (destination % 2 ^ 32) tag]
  | .ForeignCall function destinations inputs => handleForeignCall function destinations inputs
  | .BlackBox operation => handleBlackBoxFunction operation
  | .JumpIfNot _ _ => none

/-- The number of instructions the map counts for a Brillig instruction. -/
def numAvmInstrs : BrilligOpcode → ℕ
  | .Const _ 254 _ => 2
  | _ => 1

/-- `map_brillig_pcs_to_avm_pcs`.  The first entry of the map of an empty program is out of
bounds. -/
def mapBrilligPcsToAvmPcs (initialOffset : ℕ) (bytecode : List BrilligOpcode) : Option (List ℕ) :=
  if bytecode = [] then none
  else
    let pcMap := (List.replicate bytecode.length 0).set 0 initialOffset
    some ((List.range (bytecode.length - 1)).foldl (fun pcMap i =>
      pcMap.set (i + 1) (pcMap.getD i 0 + numAvmInstrs (bytecode.getD i .Return))) pcMap)

def transpileAll (brilligPcsToAvmPcs : List ℕ) (bytecode : List BrilligOpcode) :
    Option (List AvmInstruction) :=
  bytecode.foldlM (fun avmInstrs brilligInstr => do
    let instrs ← transpile brilligPcsToAvmPcs brilligInstr
    some (avmInstrs ++ instrs)) []

def avmInstrs (bytecode : List BrilligOpcode) : Option (List AvmInstruction) := do
  let brilligPcsToAvmPcs ← mapBrilligPcsToAvmPcs 0 bytecode
  transpileAll brilligPcsToAvmPcs bytecode

def brilligToAvm (bytecode : List BrilligOpcode) : Option (List UInt8) := do
  let avmInstrs ← avmInstrs bytecode
  some (avmInstrs.flatMap toBytes)

/-! ### What the simulator reads -/

namespace AvmOperand

def type : AvmOperand → OperandType
  | U8 _ => .UINT8
  | U16 _ => .UINT16
  | U32 _ => .UINT32
  | U64 _ => .UINT64
  | U128 _ => .UINT128

def bits : AvmOperand → ℕ
  | U8 value => value
  | U16 value => value
  | U32 value => value
  | U64 value => value
  | U128 value => value

def value : AvmOperand → Operand
  | U8 value => .number value
  | U16 value => .number value
  | U32 value => .number value
  | U64 value => .bigint value
  | U128 value => .bigint value

def InRange (operand : AvmOperand) : Prop := operand.bits < 256 ^ operand.type.size

/-- The operand is a constant of 64 bits whose highest bit is set. -/
def IsLarge (operand : AvmOperand) : Prop := operand.type = .UINT64 ∧ 2 ^ 63 ≤ operand.bits

theorem toBeBytes_eq (operand : AvmOperand) :
    operand.toBeBytes = BigEndian.write operand.type.size operand.bits := by
  cases operand <;> rfl

theorem ofBits_eq_value_iff (operand : AvmOperand) :
    operand.type.ofBits operand.bits = operand.value ↔ ¬operand.IsLarge := by
  cases operand with
  | U64 n =>
    change Operand.bigint (if n < 2 ^ 63 then (n : ℤ) else n - 2 ^ 64) = .bigint n ↔ _
    rw [Operand.bigint.injEq, show (U64 n).IsLarge ↔ 2 ^ 63 ≤ n from and_iff_right rfl]
    by_cases hn : n < 2 ^ 63
    · rw [if_pos hn]
      omega
    · rw [if_neg hn]
      omega
  | _ => simp [IsLarge, type, bits, value, OperandType.ofBits]

theorem readable_ofBits {operand : AvmOperand} (h : operand.InRange) :
    operand.type.Readable (operand.type.ofBits operand.bits) ∧
      operand.type.write (operand.type.ofBits operand.bits) = .ok operand.toBeBytes := by
  have hread := OperandType.read_append_write operand.type operand.bits h []
  rw [append_nil, ← toBeBytes_eq] at hread
  obtain ⟨-, hreadable, hwrite⟩ := OperandType.read_eq_ok hread
  refine ⟨hreadable, ?_⟩
  rw [hwrite, take_of_length_le]
  rw [toBeBytes_eq, BigEndian.length_write]

end AvmOperand

namespace AvmInstruction

/-- The fields of an instruction, from the opcode on, as operands. -/
def wire (i : AvmInstruction) : List AvmOperand :=
  .U8 i.opcode.code :: (i.indirect.toList.map .U8 ++
    (i.tag.toList.map (fun tag => .U8 tag.code) ++ i.operands))

/-- The instruction of the simulator with the fields its readers return. -/
def decoded (i : AvmInstruction) : Option Instruction := do
  let cls ← instructionSet i.opcode.code
  cls.construct (i.wire.tail.map fun operand => operand.type.ofBits operand.bits)

def Matches (i : AvmInstruction) (i' : Instruction) : Prop :=
  .number i'.cls.opcode.code :: i'.values = i.wire.map AvmOperand.value

def WellFormed (i : AvmInstruction) : Prop :=
  ∃ i', i.decoded = some i' ∧ i'.format = some (i.wire.map AvmOperand.type) ∧
    ∀ operand ∈ i.wire, operand.InRange

theorem toBytes_eq (i : AvmInstruction) : i.toBytes = i.wire.flatMap AvmOperand.toBeBytes := by
  simp only [toBytes, wire, flatMap_cons, flatMap_append, flatMap_map]
  rfl

variable {i' : Instruction} {i : AvmInstruction}

theorem fields_eq (h : i.decoded = some i') :
    .number i'.cls.opcode.code :: i'.values =
      i.wire.map fun operand => operand.type.ofBits operand.bits := by
  obtain ⟨cls, hcls, hconstruct⟩ := bind_eq_some_iff.1 h
  obtain ⟨rfl, hvalues⟩ := InstructionClass.construct_eq_some hconstruct
  rw [instructionSet_eq_some hcls, hvalues]
  rfl

theorem matches_iff (h : i.decoded = some i') :
    i.Matches i' ↔ ∀ operand ∈ i.wire, ¬operand.IsLarge := by
  rw [Matches, fields_eq h, map_inj_left]
  exact forall₂_congr fun operand _ => operand.ofBits_eq_value_iff

theorem writeAll_ofBits {operands : List AvmOperand} (h : ∀ operand ∈ operands, operand.InRange) :
    AllReadable (operands.map AvmOperand.type)
        (operands.map fun operand => operand.type.ofBits operand.bits) ∧
      writeAll (operands.map AvmOperand.type)
        (operands.map fun operand => operand.type.ofBits operand.bits) =
          .ok (operands.flatMap AvmOperand.toBeBytes) := by
  induction operands with
  | nil => exact ⟨.nil, rfl⟩
  | cons operand operands ih =>
    obtain ⟨hall, hwrite⟩ := ih fun operand hmem => h operand (mem_cons_of_mem _ hmem)
    obtain ⟨hreadable, hfirst⟩ := AvmOperand.readable_ofBits (h operand mem_cons_self)
    refine ⟨.cons hreadable hall, ?_⟩
    rw [map_cons, map_cons, writeAll, hfirst, hwrite, flatMap_cons]
    rfl

theorem serialize_decoded (h : i.decoded = some i') (hwf : i.WellFormed) :
    i'.Readable ∧ i'.serialize = .ok i.toBytes := by
  obtain ⟨i'', h', hformat, hrange⟩ := hwf
  obtain rfl := some.inj (h.symm.trans h')
  obtain ⟨hall, hwrite⟩ := writeAll_ofBits hrange
  rw [← fields_eq h] at hall hwrite
  exact ⟨⟨_, hformat, hall⟩, by
    rw [Instruction.serialize_of_readable hformat hall, hwrite, toBytes_eq]⟩

end AvmInstruction

/-! ### One turn of the transpiler -/

def BrilligOpcode.target : BrilligOpcode → Option ℕ
  | .Jump location => some location
  | .JumpIf _ location => some location
  | .Call location => some location
  | _ => none

def BrilligOpcode.IsLarge : BrilligOpcode → Prop
  | .Const _ 64 value => 2 ^ 63 ≤ value % 2 ^ 64
  | _ => False

def AvmInstruction.IsJump (i : AvmInstruction) : Prop :=
  i.opcode = .JUMP ∨ i.opcode = .JUMPI ∨ i.opcode = .INTERNALCALL

/-- **What a turn emits.** -/
structure Emits (pcs : List ℕ) (b : BrilligOpcode) (instrs : List AvmInstruction) : Prop where
  length_eq : instrs.length = numAvmInstrs b
  wellFormed : ∀ i ∈ instrs, i.WellFormed
  jump : ∀ i ∈ instrs, i.IsJump → ∃ location pc, b.target = some location ∧
    pcs[location]? = some pc ∧ i.operands.head? = some (asU32 pc)
  target : ∀ location, b.target = some location → ∃ i ∈ instrs, i.IsJump
  large : (∃ i ∈ instrs, ∃ operand ∈ i.wire, operand.IsLarge) ↔ b.IsLarge
  opcode : ∀ i ∈ instrs, i.opcode = .INTERNALRETURN → b = .Return

section Turn

variable {pcs : List ℕ} {b : BrilligOpcode} {instrs : List AvmInstruction} {i : AvmInstruction}

theorem inRange_asU32 (value : ℕ) : (asU32 value).InRange :=
  Nat.mod_lt _ (by norm_num)

variable {opcode : AvmOpcode} {indirect : Option ℕ} {tag : Option AvmTypeTag} {function : String}
  {destinations inputs : List ValueOrArray} {bitSize : ℕ}

variable {indirect : Option ℕ} {opcode : AvmOpcode}

theorem wellFormed_of_decoded {tag : Option AvmTypeTag}
    {operands : List AvmOperand} {i : Instruction}
    (hdecoded : (⟨opcode, indirect, tag, operands⟩ : AvmInstruction).decoded = some i)
    (hformat : i.format = some
      ((⟨opcode, indirect, tag, operands⟩ : AvmInstruction).wire.map AvmOperand.type))
    (hindirect : ∀ n ∈ indirect, n < 4) (hoperands : ∀ operand ∈ operands, operand.InRange) :
    (⟨opcode, indirect, tag, operands⟩ : AvmInstruction).WellFormed := by
  refine ⟨i, hdecoded, hformat, fun operand hoperand => ?_⟩
  have hopcode : opcode.code < 256 := by
    cases opcode <;> decide
  have htag : ∀ tag : AvmTypeTag, tag.code < 256 := by
    intro tag
    cases tag <;> decide
  simp only [wire, mem_cons, mem_append, mem_map, Option.mem_toList] at hoperand
  rcases hoperand with rfl | ⟨n, hn, rfl⟩ | ⟨tag, -, rfl⟩ | hoperand
  · exact hopcode
  · exact (hindirect n hn).trans (show 4 < 256 by decide)
  · exact htag tag
  · exact hoperands operand hoperand

theorem emits_single (hlength : numAvmInstrs b = 1) (hwf : i.WellFormed)
    (hsmall : ∀ operand ∈ i.operands, operand.type = .UINT32)
    (hjump : i.IsJump → ∃ location pc, b.target = some location ∧ pcs[location]? = some pc ∧
      i.operands.head? = some (asU32 pc)) (htarget : b.target ≠ none → i.IsJump)
    (hlarge : ¬b.IsLarge) (hopcode : i.opcode = .INTERNALRETURN → b = .Return) :
    Emits pcs b [i] where
  length_eq := hlength.symm
  wellFormed := by simpa using hwf
  jump := by simpa using hjump
  target location h := ⟨i, mem_cons_self, htarget (by rw [h]; exact Option.some_ne_none _)⟩
  large := by
    refine iff_of_false ?_ hlarge
    rintro ⟨i', hi', operand, hoperand, hbig, -⟩
    obtain rfl := mem_singleton.1 hi'
    simp only [wire, mem_cons, mem_append, mem_map] at hoperand
    rcases hoperand with rfl | ⟨n, -, rfl⟩ | ⟨tag, -, rfl⟩ | hoperand
    · cases hbig
    · cases hbig
    · cases hbig
    · rw [hsmall operand hoperand] at hbig
      cases hbig
  opcode := by simpa using hopcode

theorem emits_plain {tag : Option AvmTypeTag}
    (values : List ℕ) (hlength : numAvmInstrs b = 1) (htarget : b.target = none)
    (hlarge : ¬b.IsLarge) (hopcode : opcode ≠ .JUMP ∧ opcode ≠ .JUMPI ∧ opcode ≠ .INTERNALCALL ∧
      opcode ≠ .INTERNALRETURN) (hindirect : ∀ n ∈ indirect, n < 4)
    (hdecoded : ∃ i', (⟨opcode, indirect, tag, values.map asU32⟩ : AvmInstruction).decoded =
      some i' ∧ i'.format = some ((⟨opcode, indirect, tag, values.map asU32⟩ :
        AvmInstruction).wire.map AvmOperand.type)) :
    Emits pcs b [⟨opcode, indirect, tag, values.map asU32⟩] := by
  obtain ⟨i', hi', hformat⟩ := hdecoded
  refine emits_single hlength (wellFormed_of_decoded hi' hformat hindirect ?_) ?_ ?_
    (fun h => absurd htarget h) hlarge fun h => absurd h hopcode.2.2.2
  · intro operand hoperand
    obtain ⟨value, -, rfl⟩ := mem_map.1 hoperand
    exact inRange_asU32 value
  · intro operand hoperand
    obtain ⟨value, -, rfl⟩ := mem_map.1 hoperand
    rfl
  · rintro (h | h | h)
    · exact absurd h hopcode.1
    · exact absurd h hopcode.2.1
    · exact absurd h hopcode.2.2.1

theorem emits_jump {location pc : ℕ}
    (values : List ℕ) (hlength : numAvmInstrs b = 1) (htarget : b.target = some location)
    (hpc : pcs[location]? = some pc) (hlarge : ¬b.IsLarge)
    (hjump : (⟨opcode, indirect, none, asU32 pc :: values.map asU32⟩ : AvmInstruction).IsJump)
    (hindirect : ∀ n ∈ indirect, n < 4)
    (hdecoded : ∃ i', (⟨opcode, indirect, none, asU32 pc :: values.map asU32⟩ :
      AvmInstruction).decoded = some i' ∧ i'.format = some
        ((⟨opcode, indirect, none, asU32 pc :: values.map asU32⟩ : AvmInstruction).wire.map
          AvmOperand.type)) :
    Emits pcs b [⟨opcode, indirect, none, asU32 pc :: values.map asU32⟩] := by
  obtain ⟨i', hi', hformat⟩ := hdecoded
  have hoperands : ∀ operand ∈ asU32 pc :: values.map asU32, ∃ value, asU32 value = operand := by
    intro operand hoperand
    rw [← map_cons] at hoperand
    obtain ⟨value, -, hvalue⟩ := mem_map.1 hoperand
    exact ⟨value, hvalue⟩
  refine emits_single hlength (wellFormed_of_decoded hi' hformat hindirect ?_) ?_
    (fun _ => ⟨location, pc, htarget, hpc, rfl⟩) (fun _ => hjump) hlarge fun h => ?_
  · intro operand hoperand
    obtain ⟨value, rfl⟩ := hoperands operand hoperand
    exact inRange_asU32 value
  · intro operand hoperand
    obtain ⟨value, rfl⟩ := hoperands operand hoperand
    rfl
  · rcases hjump with hjump | hjump | hjump <;> exact absurd (hjump.symm.trans h) (by decide)

theorem emits_hash {indirect destOffset hashOffset hashSize : ℕ} (hindirect : indirect < 4)
    (hopcode : opcode = .KECCAK ∨ opcode = .SHA256 ∨ opcode = .POSEIDON) :
    Emits pcs (.ForeignCall function destinations inputs)
      [⟨opcode, some indirect, none, [asU32 destOffset, asU32 hashOffset, asU32 hashSize]⟩] := by
  rcases hopcode with rfl | rfl | rfl <;>
    exact emits_plain [destOffset, hashOffset, hashSize] rfl rfl id (by decide)
      (by simpa using hindirect) ⟨_, rfl, rfl⟩

theorem handleGetterInstruction_spec
    (h : handleGetterInstruction function destinations inputs = some instrs) :
    Emits pcs (.ForeignCall function destinations inputs) instrs := by
  obtain ⟨-, -, h⟩ := bind_eq_some_iff.1 h
  obtain ⟨-, -, h⟩ := bind_eq_some_iff.1 h
  obtain ⟨destOffsetMaybe, -, h⟩ := bind_eq_some_iff.1 h
  obtain ⟨destOffset, -, h⟩ := bind_eq_some_iff.1 h
  obtain ⟨opcode, hopcode, h⟩ := bind_eq_some_iff.1 h
  obtain rfl := some.inj h
  unfold getterOpcode at hopcode
  split at hopcode <;> cases hopcode <;>
    exact emits_plain [destOffset] rfl rfl id (by decide) (by simp [ALL_DIRECT]) ⟨_, rfl, rfl⟩

theorem handleForeignCall_spec (h : handleForeignCall function destinations inputs = some instrs) :
    Emits pcs (.ForeignCall function destinations inputs) instrs := by
  have htwo : emit2FieldHashInstruction function destinations inputs = some instrs →
      Emits pcs (.ForeignCall function destinations inputs) instrs := by
    intro h
    obtain ⟨hashOffsetMaybe, -, h⟩ := bind_eq_some_iff.1 h
    obtain ⟨⟨hashOffset, hashSize⟩, -, h⟩ := bind_eq_some_iff.1 h
    obtain ⟨-, -, h⟩ := bind_eq_some_iff.1 h
    obtain ⟨destOffsetMaybe, -, h⟩ := bind_eq_some_iff.1 h
    obtain ⟨⟨destOffset, size⟩, -, h⟩ := bind_eq_some_iff.1 h
    obtain ⟨-, -, h⟩ := bind_eq_some_iff.1 h
    obtain ⟨opcode, hopcode, h⟩ := bind_eq_some_iff.1 h
    obtain rfl := some.inj h
    refine emits_hash (by decide) ?_
    unfold twoFieldHashOpcode at hopcode
    split at hopcode <;> cases hopcode
    · exact .inl rfl
    · exact .inr (.inl rfl)
  have hsingle : emitSingleFieldHashInstruction function destinations inputs = some instrs →
      Emits pcs (.ForeignCall function destinations inputs) instrs := by
    intro h
    obtain ⟨hashOffsetMaybe, -, h⟩ := bind_eq_some_iff.1 h
    obtain ⟨⟨hashOffset, hashSize⟩, -, h⟩ := bind_eq_some_iff.1 h
    obtain ⟨-, -, h⟩ := bind_eq_some_iff.1 h
    obtain ⟨destOffsetMaybe, -, h⟩ := bind_eq_some_iff.1 h
    obtain ⟨destOffset, -, h⟩ := bind_eq_some_iff.1 h
    obtain ⟨opcode, hopcode, h⟩ := bind_eq_some_iff.1 h
    obtain rfl := some.inj h
    refine emits_hash (by decide) ?_
    unfold singleFieldHashOpcode at hopcode
    split at hopcode <;> cases hopcode
    exact .inr (.inr rfl)
  unfold handleForeignCall at h
  split at h
  · exact htwo h
  · exact htwo h
  · exact hsingle h
  · exact handleGetterInstruction_spec h

theorem emitSet_spec {tag : AvmTypeTag} {dest value : ℕ} (h : emitSet tag dest value = some i)
    (hdest : dest < 2 ^ 32) (hvalue : value < 2 ^ 128) : i.WellFormed ∧ i.opcode = .SET ∧
      ((∃ operand ∈ i.wire, operand.IsLarge) ↔ tag = .UINT64 ∧ 2 ^ 63 ≤ value % 2 ^ 64) := by
  obtain ⟨const, hconst, h⟩ := bind_eq_some_iff.1 h
  obtain rfl := some.inj h
  have hrange : const.InRange → ∀ operand ∈ [const, .U32 dest], operand.InRange := by
    intro hconst operand hoperand
    simp only [mem_cons, not_mem_nil, or_false] at hoperand
    rcases hoperand with rfl | rfl
    · exact hconst
    · exact hdest
  have hlarge : (∃ operand ∈ (⟨.SET, some ALL_DIRECT, some tag, [const, .U32 dest]⟩ :
      AvmInstruction).wire, operand.IsLarge) ↔ const.IsLarge := by
    simp [wire, AvmOperand.IsLarge, AvmOperand.type]
  have hindirect : ∀ n ∈ some ALL_DIRECT, n < 4 := by simp [ALL_DIRECT]
  refine ⟨?_, rfl, hlarge.trans ?_⟩
  · cases tag <;> cases hconst <;> refine wellFormed_of_decoded rfl rfl hindirect (hrange ?_)
    · exact Nat.mod_lt _ (by norm_num)
    · exact Nat.mod_lt _ (by norm_num)
    · exact Nat.mod_lt _ (by norm_num)
    · exact Nat.mod_lt _ (by norm_num)
    · exact hvalue
  · cases tag <;> cases hconst <;>
      simp [AvmOperand.IsLarge, AvmOperand.type, AvmOperand.bits]

theorem tagFromBitSize_eq {tag : AvmTypeTag} (h : tagFromBitSize bitSize = some tag)
    (destination value : ℕ) :
    numAvmInstrs (.Const destination bitSize value) = (if tag = .FIELD then 2 else 1) ∧
      (BrilligOpcode.IsLarge (.Const destination bitSize value) ↔
        tag = .UINT64 ∧ 2 ^ 63 ≤ value % 2 ^ 64) := by
  unfold tagFromBitSize at h
  split at h <;> cases h <;> simp [numAvmInstrs, BrilligOpcode.IsLarge]

theorem handleConst_spec {destination value : ℕ}
    (h : handleConst destination value bitSize = some instrs) :
    Emits pcs (.Const destination bitSize value) instrs := by
  have hdest : destination % 2 ^ 32 < 2 ^ 32 := Nat.mod_lt _ (by norm_num)
  have hvalue : toU128 value < 2 ^ 128 := Nat.mod_lt _ (by norm_num)
  have hmod : toU128 value % 2 ^ 64 = value % 2 ^ 64 :=
    Nat.mod_mod_of_dvd _ (by norm_num)
  obtain ⟨tag, htag, h⟩ := bind_eq_some_iff.1 h
  obtain ⟨hlength, hlarge⟩ := tagFromBitSize_eq htag destination value
  dsimp only at h
  split at h
  · next hfield =>
    obtain ⟨set, hset, h⟩ := bind_eq_some_iff.1 h
    obtain rfl := some.inj h
    obtain ⟨hwf, hopcode, hbig⟩ := emitSet_spec hset hdest hvalue
    rw [hmod, ← hlarge] at hbig
    rw [if_neg hfield] at hlength
    refine ⟨hlength.symm, by simpa using hwf, ?_, fun _ h => (nomatch h), by simpa using hbig, ?_⟩
    · simp [IsJump, hopcode]
    · simp [hopcode]
  · next hfield =>
    rw [not_not] at hfield
    split at h
    · obtain ⟨set, hset, h⟩ := bind_eq_some_iff.1 h
      obtain rfl := some.inj h
      obtain ⟨hwf, hopcode, hbig⟩ := emitSet_spec hset hdest hvalue
      have hcast : (emitCast (destination % 2 ^ 32) (destination % 2 ^ 32) .FIELD).WellFormed :=
        wellFormed_of_decoded rfl rfl (by simp [ALL_DIRECT]) (by
          intro operand hoperand
          simp only [mem_cons, not_mem_nil, or_false, or_self] at hoperand
          subst hoperand
          exact hdest)
      rw [if_pos hfield] at hlength
      refine ⟨hlength.symm, by simpa using ⟨hwf, hcast⟩, ?_, fun _ h => (nomatch h), ?_, ?_⟩
      · simp [IsJump, hopcode, emitCast]
      · rw [hlarge, hfield]
        simp only [mem_cons, not_mem_nil, or_false, exists_eq_or_imp, exists_eq_left, hbig]
        simp [emitCast, wire, AvmOperand.IsLarge, AvmOperand.type]
      · simp [hopcode, emitCast]
    · cases h

end Turn

theorem transpile_spec {pcs : List ℕ} {b : BrilligOpcode} {instrs : List AvmInstruction}
    (h : transpile pcs b = some instrs) : Emits pcs b instrs := by
  have hdirect : ∀ n ∈ some ALL_DIRECT, n < 4 := by simp [ALL_DIRECT]
  cases b with
  | BinaryFieldOp destination op lhs rhs =>
    obtain rfl := some.inj h
    cases op <;> exact emits_plain [lhs, rhs, destination] rfl rfl id (by decide) hdirect
      ⟨_, rfl, rfl⟩
  | BinaryIntOp destination op bitSize lhs rhs =>
    obtain ⟨avmOpcode, hop, h⟩ := bind_eq_some_iff.1 h
    obtain ⟨tag, -, h⟩ := bind_eq_some_iff.1 h
    obtain rfl := some.inj h
    cases op <;> cases hop <;> exact emits_plain [lhs, rhs, destination] rfl rfl id
      (by decide) hdirect ⟨_, rfl, rfl⟩
  | Cast destination source bitSize =>
    obtain ⟨tag, -, h⟩ := bind_eq_some_iff.1 h
    obtain rfl := some.inj h
    exact emits_plain [source, destination] rfl rfl id (by decide) hdirect ⟨_, rfl, rfl⟩
  | JumpIfNot condition location => cases h
  | JumpIf condition location =>
    obtain ⟨pc, hpc, h⟩ := bind_eq_some_iff.1 h
    obtain rfl := some.inj h
    exact emits_jump [condition] rfl rfl hpc id (.inr (.inl rfl)) hdirect ⟨_, rfl, rfl⟩
  | Jump location =>
    obtain ⟨pc, hpc, h⟩ := bind_eq_some_iff.1 h
    obtain rfl := some.inj h
    exact emits_jump [] rfl rfl hpc id (.inl rfl) (by simp) ⟨_, rfl, rfl⟩
  | CalldataCopy destinationAddress size offset =>
    obtain rfl := some.inj h
    exact emits_plain [offset, size, destinationAddress] rfl rfl id (by decide) hdirect
      ⟨_, rfl, rfl⟩
  | Call location =>
    obtain ⟨pc, hpc, h⟩ := bind_eq_some_iff.1 h
    obtain rfl := some.inj h
    exact emits_jump [] rfl rfl hpc id (.inr (.inr rfl)) (by simp) ⟨_, rfl, rfl⟩
  | Const destination bitSize value => exact handleConst_spec h
  | Return =>
    obtain rfl := some.inj h
    exact emits_single rfl (wellFormed_of_decoded rfl rfl (by simp) (by simp)) (by simp)
      (by simp [IsJump]) (fun h => absurd rfl h) id fun _ => rfl
  | ForeignCall function destinations inputs => exact handleForeignCall_spec h
  | Mov destination source =>
    obtain rfl := some.inj h
    exact emits_plain [source, destination] rfl rfl id (by decide) hdirect ⟨_, rfl, rfl⟩
  | Load destination sourcePointer =>
    obtain rfl := some.inj h
    exact emits_plain [sourcePointer, destination] rfl rfl id (by decide)
      (by simp [ZEROTH_OPERAND_INDIRECT]) ⟨_, rfl, rfl⟩
  | Store destinationPointer source =>
    obtain rfl := some.inj h
    exact emits_plain [source, destinationPointer] rfl rfl id (by decide)
      (by simp [FIRST_OPERAND_INDIRECT]) ⟨_, rfl, rfl⟩
  | BlackBox op =>
    cases op with
    | PedersenHash inputsPointer inputsSize domainSeparator output =>
      obtain rfl := some.inj h
      exact emits_plain [output, inputsPointer, inputsSize] rfl rfl id (by decide) (by simp)
        ⟨_, rfl, rfl⟩
    | other => cases h
  | Trap =>
    obtain rfl := some.inj h
    exact emits_plain [0, 0] rfl rfl id (by decide) hdirect ⟨_, rfl, rfl⟩
  | Stop returnDataOffset returnDataSize =>
    obtain rfl := some.inj h
    exact emits_plain [returnDataOffset, returnDataSize] rfl rfl id (by decide) hdirect
      ⟨_, rfl, rfl⟩

/-! ### Positions -/

def BrilligOpcode.isFieldConst : BrilligOpcode → Bool
  | .Const _ 254 _ => true
  | _ => false

/-- One instruction for each Brillig instruction before, and one more for each constant of the
field. -/
def expectedPc (bytecode : List BrilligOpcode) (i : ℕ) : ℕ :=
  i + (bytecode.take i).countP BrilligOpcode.isFieldConst

/-- Where the instructions emitted for a Brillig instruction start: the number of instructions
emitted when its turn comes. -/
def firstPc (bytecode : List BrilligOpcode) (i : ℕ) : ℕ :=
  let avmInstrs := do
    let brilligPcsToAvmPcs ← mapBrilligPcsToAvmPcs 0 bytecode
    transpileAll brilligPcsToAvmPcs (bytecode.take i)
  (avmInstrs.getD []).length

section Positions

variable {pcs : List ℕ} {bytecode : List BrilligOpcode} {instrs : List AvmInstruction}

theorem numAvmInstrs_eq (b : BrilligOpcode) :
    numAvmInstrs b = 1 + if b.isFieldConst then 1 else 0 := by
  unfold numAvmInstrs BrilligOpcode.isFieldConst
  split <;> rfl

theorem expectedPc_succ {i : ℕ} {b : BrilligOpcode} (h : bytecode[i]? = some b) :
    expectedPc bytecode (i + 1) = expectedPc bytecode i + numAvmInstrs b := by
  rw [expectedPc, expectedPc, take_add_one, h, Option.toList_some, countP_append,
    countP_singleton, numAvmInstrs_eq]
  omega

theorem getElem?_pcs (h : mapBrilligPcsToAvmPcs 0 bytecode = some pcs) :
    pcs.length = bytecode.length ∧
      ∀ i < bytecode.length, pcs[i]? = some (expectedPc bytecode i) := by
  rw [mapBrilligPcsToAvmPcs] at h
  split at h
  · cases h
  · next hne =>
    obtain rfl := some.inj h
    have hpos : 0 < bytecode.length := length_pos_iff.2 hne
    -- after some turns the entries up to the next one are right
    have hturns : ∀ n ≤ bytecode.length - 1,
        let pcMap := (List.range n).foldl (fun pcMap i =>
          pcMap.set (i + 1) (pcMap.getD i 0 + numAvmInstrs (bytecode.getD i .Return)))
            ((List.replicate bytecode.length 0).set 0 0)
        pcMap.length = bytecode.length ∧ ∀ i ≤ n, pcMap[i]? = some (expectedPc bytecode i) := by
      intro n
      induction n with
      | zero =>
        intro _
        refine ⟨by simp, fun i hi => ?_⟩
        obtain rfl : i = 0 := by omega
        simp [expectedPc, hpos]
      | succ n ih =>
        intro hn
        obtain ⟨hlength, hget⟩ := ih (by omega)
        rw [range_succ, foldl_concat]
        refine ⟨by rw [length_set, hlength], fun i hi => ?_⟩
        by_cases hlast : i = n + 1
        · subst hlast
          have hn' : bytecode[n]? = some (bytecode.getD n .Return) := by
            rw [getD_eq_getElem?_getD, List.getElem?_eq_getElem (by omega)]
            rfl
          rw [List.getElem?_set_self (by omega), getD_eq_getElem?_getD, hget n le_rfl,
            expectedPc_succ hn']
          rfl
        · rw [List.getElem?_set_ne (by omega), hget i (by omega)]
    obtain ⟨hlength, hget⟩ := hturns (bytecode.length - 1) le_rfl
    exact ⟨hlength, fun i hi => hget i (by omega)⟩

theorem transpileAll_concat {b : BrilligOpcode} :
    transpileAll pcs (bytecode ++ [b]) = some instrs ↔ ∃ before here,
      transpileAll pcs bytecode = some before ∧ transpile pcs b = some here ∧
        before ++ here = instrs := by
  simp only [transpileAll, foldlM_append, foldlM_cons, foldlM_nil,
    Option.bind_eq_bind, bind_eq_some_iff, Option.pure_def, some.injEq]
  constructor
  · rintro ⟨before, hbefore, _, ⟨here, hhere, rfl⟩, rfl⟩
    exact ⟨before, here, hbefore, hhere, rfl⟩
  · rintro ⟨before, here, hbefore, hhere, rfl⟩
    exact ⟨before, hbefore, _, ⟨here, hhere, rfl⟩, rfl⟩

theorem transpileAll_append {rest : List BrilligOpcode}
    (h : transpileAll pcs (bytecode ++ rest) = some instrs) : ∃ before after,
      transpileAll pcs bytecode = some before ∧ transpileAll pcs rest = some after ∧
        instrs = before ++ after := by
  induction rest using List.reverseRecOn generalizing instrs with
  | nil => exact ⟨instrs, [], by rwa [append_nil] at h, rfl, (append_nil _).symm⟩
  | append_singleton rest b ih =>
    rw [← append_assoc, transpileAll_concat] at h
    obtain ⟨middle, here, hmiddle, hhere, rfl⟩ := h
    obtain ⟨before, after, hbefore, hafter, rfl⟩ := ih hmiddle
    exact ⟨before, after ++ here, hbefore,
      transpileAll_concat.2 ⟨after, here, hafter, hhere, rfl⟩, append_assoc _ _ _⟩

section

variable (h : transpileAll pcs bytecode = some instrs)
include h

theorem length_transpileAll : instrs.length = expectedPc bytecode bytecode.length := by
  induction bytecode using List.reverseRecOn generalizing instrs with
  | nil =>
    obtain rfl := some.inj h
    rfl
  | append_singleton bytecode b ih =>
    obtain ⟨before, here, hbefore, hhere, rfl⟩ := transpileAll_concat.1 h
    have hsame : expectedPc (bytecode ++ [b]) bytecode.length =
        expectedPc bytecode bytecode.length := by
      rw [expectedPc, expectedPc, take_left, take_length]
    rw [length_append, ih hbefore, (transpile_spec hhere).length_eq, length_append,
      length_singleton, expectedPc_succ (b := b) (by simp), hsame]

theorem transpileAll_turn {i : ℕ} {b : BrilligOpcode} (hb : bytecode[i]? = some b) :
    ∃ before here after,
      transpileAll pcs (bytecode.take i) = some before ∧ before.length = expectedPc bytecode i ∧
        transpile pcs b = some here ∧ instrs = before ++ (here ++ after) := by
  obtain ⟨hi, hget⟩ := List.getElem?_eq_some_iff.1 hb
  have hsplit : bytecode.take i ++ ([b] ++ bytecode.drop (i + 1)) = bytecode := by
    rw [← hget, singleton_append, getElem_cons_drop, take_append_drop]
  rw [← hsplit] at h
  obtain ⟨before, rest, hbefore, hrest, rfl⟩ := transpileAll_append h
  obtain ⟨here, after, hhere, -, rfl⟩ := transpileAll_append hrest
  obtain ⟨nothing, here', hnothing, hhere', rfl⟩ :=
    (@transpileAll_concat pcs [] here b).1 hhere
  obtain rfl := some.inj hnothing
  refine ⟨before, here', after, hbefore, ?_, hhere', rfl⟩
  have hlength : (bytecode.take i).length = i := by
    rw [length_take]
    omega
  rw [length_transpileAll hbefore, hlength, expectedPc, expectedPc, take_take, Nat.min_self]

theorem exists_turn {n : ℕ} {i : AvmInstruction} (hi : instrs[n]? = some i) :
    ∃ j b here k, bytecode[j]? = some b ∧
      transpile pcs b = some here ∧ here[k]? = some i ∧ n = expectedPc bytecode j + k := by
  induction bytecode using List.reverseRecOn generalizing instrs with
  | nil =>
    obtain rfl := some.inj h
    cases hi
  | append_singleton bytecode b ih =>
    obtain ⟨before, here, hbefore, hhere, rfl⟩ := transpileAll_concat.1 h
    have hsame : ∀ j ≤ bytecode.length, expectedPc (bytecode ++ [b]) j = expectedPc bytecode j := by
      intro j hj
      rw [expectedPc, expectedPc, take_append_of_le_length hj]
    rcases Nat.lt_or_ge n before.length with hn | hn
    · rw [List.getElem?_append_left hn] at hi
      obtain ⟨j, b', here', k, hb', hhere', hk, rfl⟩ := ih hbefore hi
      have hj := (List.getElem?_eq_some_iff.1 hb').1
      exact ⟨j, b', here', k, by rw [List.getElem?_append_left hj, hb'], hhere', hk,
        by rw [hsame j hj.le]⟩
    · rw [List.getElem?_append_right hn] at hi
      refine ⟨bytecode.length, b, here, n - before.length, by simp, hhere, hi, ?_⟩
      rw [hsame _ le_rfl, ← length_transpileAll hbefore]
      omega

end

theorem firstPc_eq (hpcs : mapBrilligPcsToAvmPcs 0 bytecode = some pcs)
    (h : transpileAll pcs bytecode = some instrs) {i : ℕ} (hi : i < bytecode.length) :
    firstPc bytecode i = expectedPc bytecode i := by
  obtain ⟨before, here, after, hbefore, hlength, -⟩ :=
    transpileAll_turn h (List.getElem?_eq_getElem hi)
  rw [← hlength, firstPc, hpcs]
  change ((transpileAll pcs (bytecode.take i)).getD []).length = _
  rw [hbefore, Option.getD_some]

end Positions

/-! ### The bytecode -/

section Decoding

variable {pcs : List ℕ} {bytecode : List BrilligOpcode} {instrs : List AvmInstruction}

theorem encode_decoded (h : ∀ i ∈ instrs, i.WellFormed) : ∃ decoded,
    List.Forall₂ (fun (i : AvmInstruction) i' => i.decoded = some i') instrs decoded ∧
      (∀ i ∈ decoded, i.Readable) ∧ encodeToBytecode decoded = .ok (instrs.flatMap toBytes) := by
  induction instrs with
  | nil => exact ⟨[], .nil, by simp, rfl⟩
  | cons i instrs ih =>
    rw [forall_mem_cons] at h
    obtain ⟨decoded, hdecoded, hreadable, hencode⟩ := ih h.2
    obtain ⟨i', hi', -⟩ := h.1
    obtain ⟨hread, hserialize⟩ := serialize_decoded hi' h.1
    refine ⟨i' :: decoded, .cons hi' hdecoded, forall_mem_cons.2 ⟨hread, hreadable⟩, ?_⟩
    rw [encodeToBytecode, hserialize, hencode, flatMap_cons]
    rfl

theorem decode_bytes (hwf : ∀ i ∈ instrs, i.WellFormed)
    (hne : ∀ i, instrs = [i] → i.opcode ≠ .INTERNALRETURN) : ∃ decoded,
      List.Forall₂ (fun (i : AvmInstruction) i' => i.decoded = some i') instrs decoded ∧
        decodeFromBytecode (instrs.flatMap toBytes) = .ok decoded := by
  obtain ⟨decoded, hdecoded, hreadable, hencode⟩ := encode_decoded hwf
  refine ⟨decoded, hdecoded, ?_⟩
  obtain ⟨bytes, hbytes, hlength, hdecode⟩ := decodeLoop_encodeToBytecode hreadable
  obtain rfl : instrs.flatMap toBytes = bytes :=
    Except.ok.inj (hencode.symm.trans hbytes)
  refine hdecode _ ?_
  rw [hlength]
  refine size_lt_of_ne (fun i hi => (hreadable i hi).imp fun _ h => h.1) ?_
  rintro rfl
  obtain ⟨i, rest, hi, hrest, rfl⟩ := List.forall₂_cons_right_iff.1 hdecoded
  obtain rfl := List.forall₂_nil_right_iff.1 hrest
  have hfields := fields_eq hi
  have hcode : Opcode.INTERNALRETURN.code = i.opcode.code :=
    Operand.number.inj (List.cons.inj hfields).1
  refine hne i rfl ?_
  revert hcode
  cases i.opcode <;> decide

theorem forall₂_matches_iff {decoded : List Instruction}
    (h : List.Forall₂ (fun (i : AvmInstruction) i' => i.decoded = some i') instrs decoded) :
    List.Forall₂ Matches instrs decoded ↔ ∀ i ∈ instrs, ∀ operand ∈ i.wire, ¬operand.IsLarge := by
  induction h with
  | nil => simp
  | cons hi _ ih => rw [List.forall₂_cons, forall_mem_cons, ih, matches_iff hi]

end Decoding

/-! ### Control flow -/

/-- **Control flow is preserved**: the map is exact, the emitted jumps are those of the program and
have the position of the first instruction of their target as operand, and the simulator decodes the
emitted instructions. -/
structure PreservesControlFlow (bytecode : List BrilligOpcode) (instrs : List AvmInstruction)
    (bytes : List UInt8) : Prop where
  map_exact : ∀ pcs, mapBrilligPcsToAvmPcs 0 bytecode = some pcs → ∀ i < bytecode.length,
    pcs[i]? = some (firstPc bytecode i)
  jumps : ∀ (i : ℕ) (b : BrilligOpcode) (location : ℕ), bytecode[i]? = some b →
    b.target = some location → ∃ instr, instrs[firstPc bytecode i]? = some instr ∧ instr.IsJump ∧
      instr.operands.head? = some (.U32 (firstPc bytecode location)) ∧
        firstPc bytecode location < instrs.length
  jumps_only : ∀ (n : ℕ) (instr : AvmInstruction), instrs[n]? = some instr → instr.IsJump →
    ∃ (i : ℕ) (b : BrilligOpcode) (location : ℕ), n = firstPc bytecode i ∧
      bytecode[i]? = some b ∧ b.target = some location
  decodes : ∃ decoded, decodeFromBytecode bytes = .ok decoded ∧
    List.Forall₂ Matches instrs decoded

section ControlFlow

variable {bytecode : List BrilligOpcode} {instrs : List AvmInstruction} {bytes : List UInt8}

theorem emits_of_mem (h : avmInstrs bytecode = some instrs) : (∀ i ∈ instrs, i.WellFormed) ∧
      ((∃ i ∈ instrs, ∃ operand ∈ i.wire, operand.IsLarge) ↔ ∃ b ∈ bytecode, b.IsLarge) := by
  obtain ⟨pcs, -, h⟩ := bind_eq_some_iff.1 h
  constructor
  · intro i hi
    obtain ⟨n, hn⟩ := mem_iff_getElem?.1 hi
    obtain ⟨j, b, here, k, -, hhere, hk, -⟩ := exists_turn h hn
    exact (transpile_spec hhere).wellFormed i (mem_of_getElem? hk)
  · constructor
    · rintro ⟨i, hi, hlarge⟩
      obtain ⟨n, hn⟩ := mem_iff_getElem?.1 hi
      obtain ⟨j, b, here, k, hb, hhere, hk, -⟩ := exists_turn h hn
      exact ⟨b, mem_of_getElem? hb, (transpile_spec hhere).large.1 ⟨i, mem_of_getElem? hk, hlarge⟩⟩
    · rintro ⟨b, hb, hlarge⟩
      obtain ⟨j, hj⟩ := mem_iff_getElem?.1 hb
      obtain ⟨before, here, after, -, -, hhere, rfl⟩ := transpileAll_turn h hj
      obtain ⟨i, hi, hbig⟩ := (transpile_spec hhere).large.2 hlarge
      exact ⟨i, by simp [hi], hbig⟩

theorem eq_return_of_single (h : avmInstrs bytecode = some instrs) {i : AvmInstruction}
    (hi : instrs = [i]) (hopcode : i.opcode = .INTERNALRETURN) : bytecode = [.Return] := by
  subst hi
  obtain ⟨pcs, -, h⟩ := bind_eq_some_iff.1 h
  obtain ⟨j, b, here, k, hb, hhere, hk, -⟩ := exists_turn h (n := 0) rfl
  obtain rfl := (transpile_spec hhere).opcode i (mem_of_getElem? hk) hopcode
  have hlength : 1 = expectedPc bytecode bytecode.length := length_transpileAll h
  cases bytecode with
  | nil => cases hb
  | cons b bytecode =>
    obtain rfl : bytecode = [] := by
      rw [expectedPc, length_cons] at hlength
      exact length_eq_zero_iff.1 (by omega)
    obtain ⟨hj, hget⟩ := List.getElem?_eq_some_iff.1 hb
    obtain rfl : j = 0 := by simpa using hj
    rw [← hget]
    rfl

theorem decodes_iff (hinstrs : avmInstrs bytecode = some instrs)
    (hbytes : brilligToAvm bytecode = some bytes) :
    (∃ decoded, decodeFromBytecode bytes = .ok decoded ∧ List.Forall₂ Matches instrs decoded) ↔
        bytecode ≠ [.Return] ∧ ∀ b ∈ bytecode, ¬b.IsLarge := by
  obtain ⟨hwf, hlarge⟩ := emits_of_mem hinstrs
  obtain ⟨instrs', hinstrs', hbytes⟩ := bind_eq_some_iff.1 hbytes
  obtain rfl := some.inj (hinstrs.symm.trans hinstrs')
  obtain rfl := some.inj hbytes
  have hmatches : (∀ i ∈ instrs, ∀ operand ∈ i.wire, ¬operand.IsLarge) ↔
      ∀ b ∈ bytecode, ¬b.IsLarge := by
    simpa only [not_exists, not_and] using not_congr hlarge
  by_cases hreturn : bytecode = [.Return]
  · -- the emitted bytecode is a single byte
    subst hreturn
    obtain rfl := some.inj hinstrs
    refine iff_of_false ?_ fun h => h.1 rfl
    rintro ⟨decoded, hdecoded, -⟩
    exact not_decode_internalReturn hdecoded
  · obtain ⟨decoded, hdecoded, hdecode⟩ := decode_bytes hwf fun i hi hopcode =>
      hreturn (eq_return_of_single hinstrs hi hopcode)
    rw [← hmatches, and_iff_right hreturn, ← forall₂_matches_iff hdecoded]
    constructor
    · rintro ⟨decoded', hdecode', hmatch⟩
      obtain rfl := Except.ok.inj (hdecode.symm.trans hdecode')
      exact hmatch
    · exact fun hmatch => ⟨decoded, hdecode, hmatch⟩

/-- **When control flow is preserved**: the program is not a single return, no constant of 64 bits
has its highest bit set, and no target stands at `2 ^ 32` or later. -/
theorem preservesControlFlow_iff (hinstrs : avmInstrs bytecode = some instrs)
    (hbytes : brilligToAvm bytecode = some bytes) : PreservesControlFlow bytecode instrs bytes ↔
      (bytecode ≠ [.Return] ∧ ∀ b ∈ bytecode, ¬b.IsLarge) ∧
        ∀ b ∈ bytecode, ∀ location, b.target = some location →
          expectedPc bytecode location < 2 ^ 32 := by
  rw [← decodes_iff hinstrs hbytes]
  obtain ⟨pcs, hpcs, hall⟩ := Option.bind_eq_some_iff.1 hinstrs
  obtain ⟨hlength, hget⟩ := getElem?_pcs hpcs
  have hfirst : ∀ i < bytecode.length, firstPc bytecode i = expectedPc bytecode i :=
    fun i hi => firstPc_eq hpcs hall hi
  -- the jump of a turn
  have hturn : ∀ (i : ℕ) (b : BrilligOpcode) (location : ℕ), bytecode[i]? = some b →
      b.target = some location → location < bytecode.length ∧ ∃ instr,
        instrs[firstPc bytecode i]? = some instr ∧ instr.IsJump ∧
          instr.operands.head? = some (asU32 (expectedPc bytecode location)) := by
    intro i b location hb htarget
    obtain ⟨before, here, after, -, hbefore, hhere, rfl⟩ := transpileAll_turn hall hb
    have hspec := transpile_spec hhere
    obtain ⟨instr, hmem, hjump⟩ := hspec.target location htarget
    obtain ⟨location', pc, htarget', hpc, hoperand⟩ := hspec.jump instr hmem hjump
    obtain rfl := Option.some.inj (htarget.symm.trans htarget')
    have hlocation : location < bytecode.length := by
      rw [← hlength]
      exact (List.getElem?_eq_some_iff.1 hpc).1
    obtain rfl := Option.some.inj ((hget location hlocation).symm.trans hpc)
    have hone : numAvmInstrs b = 1 := by
      cases b <;> first | rfl | cases htarget
    obtain ⟨instr', rfl⟩ := length_eq_one_iff.1 (hspec.length_eq.trans hone)
    obtain rfl := mem_singleton.1 hmem
    refine ⟨hlocation, instr, ?_, hjump, hoperand⟩
    rw [hfirst i (List.getElem?_eq_some_iff.1 hb).1, ← hbefore, List.getElem?_append_right le_rfl,
      Nat.sub_self]
    rfl
  constructor
  · intro h
    refine ⟨h.decodes, fun b hb location htarget => ?_⟩
    obtain ⟨i, hi⟩ := mem_iff_getElem?.1 hb
    obtain ⟨hlocation, instr, hinstr, -, hoperand⟩ := hturn i b location hi htarget
    obtain ⟨instr', hinstr', -, hoperand', -⟩ := h.jumps i b location hi htarget
    obtain rfl := Option.some.inj (hinstr.symm.trans hinstr')
    have heq : expectedPc bytecode location % 2 ^ 32 = expectedPc bytecode location := by
      rw [hoperand, hfirst location hlocation] at hoperand'
      exact AvmOperand.U32.inj (Option.some.inj hoperand')
    rw [← heq]
    exact Nat.mod_lt _ (by norm_num)
  · rintro ⟨hdecodes, htargets⟩
    refine ⟨fun pcs' hpcs' i hi => ?_, fun i b location hb htarget => ?_,
      fun n instr hn hjump => ?_, hdecodes⟩
    · obtain rfl := Option.some.inj (hpcs.symm.trans hpcs')
      rw [hget i hi, hfirst i hi]
    · obtain ⟨hlocation, instr, hinstr, hjump, hoperand⟩ := hturn i b location hb htarget
      have hlt := htargets b (mem_of_getElem? hb) location htarget
      refine ⟨instr, hinstr, hjump, ?_, ?_⟩
      · rw [hoperand, asU32, Nat.mod_eq_of_lt hlt, hfirst location hlocation]
      · -- the turn of the target emits an instruction
        obtain ⟨before, here, after, -, hbefore, hhere, rfl⟩ :=
          transpileAll_turn hall (List.getElem?_eq_getElem hlocation)
        have hpos := (transpile_spec hhere).length_eq
        rw [numAvmInstrs_eq] at hpos
        rw [hfirst location hlocation, ← hbefore, length_append, length_append]
        omega
    · obtain ⟨i, b, here, k, hb, hhere, hk, rfl⟩ := exists_turn hall hn
      have hspec := transpile_spec hhere
      obtain ⟨location, pc, htarget, -, -⟩ :=
        hspec.jump instr (mem_of_getElem? hk) hjump
      have hone : numAvmInstrs b = 1 := by
        cases b <;> first | rfl | cases htarget
      have hk' := (List.getElem?_eq_some_iff.1 hk).1
      rw [hspec.length_eq, hone] at hk'
      refine ⟨i, b, location, ?_, hb, htarget⟩
      rw [hfirst i (List.getElem?_eq_some_iff.1 hb).1]
      omega

/-- A loop that skips a constant of the field. -/
theorem preservesControlFlow_loop :
    ∃ instrs bytes, avmInstrs [.Const 0 254 5, .JumpIf 0 0, .Stop 0 0] = some instrs ∧
      brilligToAvm [.Const 0 254 5, .JumpIf 0 0, .Stop 0 0] = some bytes ∧
      PreservesControlFlow [.Const 0 254 5, .JumpIf 0 0, .Stop 0 0] instrs bytes := by
  refine ⟨_, _, rfl, rfl, (preservesControlFlow_iff rfl rfl).2 ⟨⟨by decide, ?_⟩, ?_⟩⟩
  · simp [BrilligOpcode.IsLarge]
  · simp [BrilligOpcode.target, expectedPc]

/-- A constant whose highest bit is set is decoded as a negative one. -/
theorem not_preservesControlFlow :
    ¬ ∀ (bytecode : List BrilligOpcode) (instrs : List AvmInstruction) (bytes : List UInt8),
      avmInstrs bytecode = some instrs → brilligToAvm bytecode = some bytes →
        PreservesControlFlow bytecode instrs bytes := by
  intro h
  have hpreserves := h [.Const 0 64 (2 ^ 63), .Stop 0 0] _ _ rfl rfl
  obtain ⟨-, hsmall⟩ := (@decodes_iff [.Const 0 64 (2 ^ 63), .Stop 0 0] _ _ rfl rfl).1
    hpreserves.decodes
  exact hsmall _ mem_cons_self (show 2 ^ 63 ≤ 2 ^ 63 % 2 ^ 64 by norm_num)

end ControlFlow

end Transpiler
