/-
**The instruction set of the AVM simulator.**

The classes of instructions with their operands, their opcodes and their wire formats.  Classes
that are built on the same base class are one constructor with a parameter.  An operand is a
JavaScript value: a number, or an integer of type `bigint`.
-/

import Mathlib.Tactic

namespace Avm

/-! ### Opcodes, tags and operands -/

/-- The enumeration `Opcode`. -/
inductive Opcode
  | ADD | SUB | MUL | DIV | EQ | LT | LTE | AND | OR | XOR | NOT | SHL | SHR | CAST
  | ADDRESS | STORAGEADDRESS | ORIGIN | SENDER | PORTAL | FEEPERL1GAS | FEEPERL2GAS | FEEPERDAGAS
  | CONTRACTCALLDEPTH | CHAINID | VERSION | BLOCKNUMBER | TIMESTAMP | COINBASE | BLOCKL1GASLIMIT
  | BLOCKL2GASLIMIT | BLOCKDAGASLIMIT | CALLDATACOPY | L1GASLEFT | L2GASLEFT | DAGASLEFT
  | JUMP | JUMPI | INTERNALCALL | INTERNALRETURN | SET | MOV | CMOV
  | SLOAD | SSTORE | NOTEHASHEXISTS | EMITNOTEHASH | NULLIFIEREXISTS | EMITNULLIFIER
  | READL1TOL2MSG | HEADERMEMBER | EMITUNENCRYPTEDLOG | SENDL2TOL1MSG
  | CALL | STATICCALL | DELEGATECALL | RETURN | REVERT
  | KECCAK | POSEIDON | SHA256 | PEDERSEN | TOTAL_OPCODES_NUMBER
  deriving DecidableEq, Repr

def Opcode.code (opcode : Opcode) : ℕ := opcode.ctorIdx

inductive TypeTag
  | UNINITIALIZED | UINT8 | UINT16 | UINT32 | UINT64 | UINT128 | FIELD | INVALID
  deriving DecidableEq, Repr

def TypeTag.code (tag : TypeTag) : ℕ := tag.ctorIdx

inductive OperandType
  | UINT8 | UINT16 | UINT32 | UINT64 | UINT128
  deriving DecidableEq, Repr

inductive Operand
  | number (n : ℕ)
  | bigint (n : ℤ)
  deriving DecidableEq, Repr

/-! ### Instructions -/

/-- The classes built on `ThreeOperandInstruction`. -/
inductive ThreeOperand
  | Add | Sub | Mul | Div | Eq | Lt | Lte | And | Or | Xor | Shl | Shr
  deriving DecidableEq, Repr

/-- The classes built on `TwoOperandInstruction`. -/
inductive TwoOperand
  | Not | Cast
  deriving DecidableEq, Repr

/-- The classes built on `GetterInstruction`. -/
inductive Getter
  | Address | StorageAddress | Origin | Sender | Portal | FeePerL1Gas | FeePerL2Gas | FeePerDAGas
  | ChainId | Version | BlockNumber | Timestamp
  deriving DecidableEq, Repr

inductive Hashing
  | Keccak | Poseidon2 | Sha256 | Pedersen
  deriving DecidableEq, Repr

inductive Instruction
  | threeOperand (cls : ThreeOperand) (indirect inTag aOffset bOffset dstOffset : ℕ)
  | twoOperand (cls : TwoOperand) (indirect inTag aOffset dstOffset : ℕ)
  | getter (cls : Getter) (indirect dstOffset : ℕ)
  | calldataCopy (indirect cdOffset copySize dstOffset : ℕ)
  | jump (jumpOffset : ℕ)
  | jumpI (indirect loc condOffset : ℕ)
  | internalCall (loc : ℕ)
  | internalReturn
  | set (indirect inTag : ℕ) (value : Operand) (dstOffset : ℕ)
  | mov (indirect srcOffset dstOffset : ℕ)
  | cMov (indirect aOffset bOffset condOffset dstOffset : ℕ)
  | sLoad (indirect aOffset bOffset : ℕ)
  | sStore (indirect aOffset bOffset : ℕ)
  | emitNoteHash (indirect noteHashOffset : ℕ)
  | emitNullifier (indirect nullifierOffset : ℕ)
  | emitUnencryptedLog (indirect logOffset logSize : ℕ)
  | sendL2ToL1Message (indirect msgOffset msgSize : ℕ)
  | call (indirect gasOffset addrOffset argsOffset argsSize retOffset retSize successOffset : ℕ)
  | staticCall (indirect gasOffset addrOffset argsOffset argsSize retOffset retSize
      successOffset : ℕ)
  | ret (indirect returnOffset copySize : ℕ)
  | revert (indirect returnOffset retSize : ℕ)
  | hashing (cls : Hashing) (indirect dstOffset hashOffset hashSize : ℕ)
  deriving DecidableEq, Repr

inductive InstructionClass
  | threeOperand (cls : ThreeOperand)
  | twoOperand (cls : TwoOperand)
  | getter (cls : Getter)
  | calldataCopy | jump | jumpI | internalCall | internalReturn | set | mov | cMov
  | sLoad | sStore | emitNoteHash | emitNullifier | emitUnencryptedLog | sendL2ToL1Message
  | call | staticCall | ret | revert
  | hashing (cls : Hashing)
  deriving DecidableEq, Repr

def ThreeOperand.opcode : ThreeOperand → Opcode
  | Add => .ADD | Sub => .SUB | Mul => .MUL | Div => .DIV | Eq => .EQ | Lt => .LT | Lte => .LTE
  | And => .AND | Or => .OR | Xor => .XOR | Shl => .SHL | Shr => .SHR

def TwoOperand.opcode : TwoOperand → Opcode
  | Not => .NOT | Cast => .CAST

def Getter.opcode : Getter → Opcode
  | Address => .ADDRESS | StorageAddress => .STORAGEADDRESS | Origin => .ORIGIN
  | Sender => .SENDER | Portal => .PORTAL | FeePerL1Gas => .FEEPERL1GAS
  | FeePerL2Gas => .FEEPERL2GAS | FeePerDAGas => .FEEPERDAGAS | ChainId => .CHAINID
  | Version => .VERSION | BlockNumber => .BLOCKNUMBER | Timestamp => .TIMESTAMP

def Hashing.opcode : Hashing → Opcode
  | Keccak => .KECCAK | Poseidon2 => .POSEIDON | Sha256 => .SHA256 | Pedersen => .PEDERSEN

namespace InstructionClass

def opcode : InstructionClass → Opcode
  | threeOperand cls => cls.opcode
  | twoOperand cls => cls.opcode
  | getter cls => cls.opcode
  | calldataCopy => .CALLDATACOPY
  | jump => .JUMP
  | jumpI => .JUMPI
  | internalCall => .INTERNALCALL
  | internalReturn => .INTERNALRETURN
  | set => .SET
  | mov => .MOV
  | cMov => .CMOV
  | sLoad => .SLOAD
  | sStore => .SSTORE
  | emitNoteHash => .EMITNOTEHASH
  | emitNullifier => .EMITNULLIFIER
  | emitUnencryptedLog => .EMITUNENCRYPTEDLOG
  | sendL2ToL1Message => .SENDL2TOL1MSG
  | call => .CALL
  | staticCall => .STATICCALL
  | ret => .RETURN
  | revert => .REVERT
  | hashing cls => cls.opcode

open OperandType in
/-- The wire format of a class, from the opcode on.  `Set` has none, its format depends on the
tag. -/
def wireFormat : InstructionClass → Option (List OperandType)
  | threeOperand _ => some [UINT8, UINT8, UINT8, UINT32, UINT32, UINT32]
  | twoOperand _ => some [UINT8, UINT8, UINT8, UINT32, UINT32]
  | getter _ => some [UINT8, UINT8, UINT32]
  | calldataCopy => some [UINT8, UINT8, UINT32, UINT32, UINT32]
  | jump => some [UINT8, UINT32]
  | jumpI => some [UINT8, UINT8, UINT32, UINT32]
  | internalCall => some [UINT8, UINT32]
  | internalReturn => some [UINT8]
  | set => none
  | mov => some [UINT8, UINT8, UINT32, UINT32]
  | cMov => some [UINT8, UINT8, UINT32, UINT32, UINT32, UINT32]
  | sLoad => some [UINT8, UINT8, UINT32, UINT32]
  | sStore => some [UINT8, UINT8, UINT32, UINT32]
  | emitNoteHash => some [UINT8, UINT8, UINT32]
  | emitNullifier => some [UINT8, UINT8, UINT32]
  | emitUnencryptedLog => some [UINT8, UINT8, UINT32, UINT32]
  | sendL2ToL1Message => some [UINT8, UINT8, UINT32, UINT32]
  | call => some [UINT8, UINT8, UINT32, UINT32, UINT32, UINT32, UINT32, UINT32, UINT32]
  | staticCall => some [UINT8, UINT8, UINT32, UINT32, UINT32, UINT32, UINT32, UINT32, UINT32]
  | ret => some [UINT8, UINT8, UINT32, UINT32]
  | revert => some [UINT8, UINT8, UINT32, UINT32]
  | hashing _ => some [UINT8, UINT8, UINT32, UINT32, UINT32]

open Operand in
/-- The constructor, `new this(...args)`, for the arguments of its parameters' types. -/
def construct : InstructionClass → List Operand → Option Instruction
  | threeOperand cls,
      [number indirect, number inTag, number aOffset, number bOffset, number dstOffset] =>
      some (.threeOperand cls indirect inTag aOffset bOffset dstOffset)
  | twoOperand cls, [number indirect, number inTag, number aOffset, number dstOffset] =>
    some (.twoOperand cls indirect inTag aOffset dstOffset)
  | getter cls, [number indirect, number dstOffset] => some (.getter cls indirect dstOffset)
  | calldataCopy, [number indirect, number cdOffset, number copySize, number dstOffset] =>
    some (.calldataCopy indirect cdOffset copySize dstOffset)
  | jump, [number jumpOffset] => some (.jump jumpOffset)
  | jumpI, [number indirect, number loc, number condOffset] =>
    some (.jumpI indirect loc condOffset)
  | internalCall, [number loc] => some (.internalCall loc)
  | internalReturn, [] => some .internalReturn
  | set, [number indirect, number inTag, value, number dstOffset] =>
    some (.set indirect inTag value dstOffset)
  | mov, [number indirect, number srcOffset, number dstOffset] =>
    some (.mov indirect srcOffset dstOffset)
  | cMov, [number indirect, number aOffset, number bOffset, number condOffset,
      number dstOffset] => some (.cMov indirect aOffset bOffset condOffset dstOffset)
  | sLoad, [number indirect, number aOffset, number bOffset] =>
    some (.sLoad indirect aOffset bOffset)
  | sStore, [number indirect, number aOffset, number bOffset] =>
    some (.sStore indirect aOffset bOffset)
  | emitNoteHash, [number indirect, number noteHashOffset] =>
    some (.emitNoteHash indirect noteHashOffset)
  | emitNullifier, [number indirect, number nullifierOffset] =>
    some (.emitNullifier indirect nullifierOffset)
  | emitUnencryptedLog, [number indirect, number logOffset, number logSize] =>
    some (.emitUnencryptedLog indirect logOffset logSize)
  | sendL2ToL1Message, [number indirect, number msgOffset, number msgSize] =>
    some (.sendL2ToL1Message indirect msgOffset msgSize)
  | call, [number indirect, number gasOffset, number addrOffset, number argsOffset,
      number argsSize, number retOffset, number retSize, number successOffset] =>
      some (.call indirect gasOffset addrOffset argsOffset argsSize retOffset retSize
        successOffset)
  | staticCall, [number indirect, number gasOffset, number addrOffset, number argsOffset,
      number argsSize, number retOffset, number retSize, number successOffset] =>
      some (.staticCall indirect gasOffset addrOffset argsOffset argsSize retOffset retSize
        successOffset)
  | ret, [number indirect, number returnOffset, number copySize] =>
    some (.ret indirect returnOffset copySize)
  | revert, [number indirect, number returnOffset, number retSize] =>
    some (.revert indirect returnOffset retSize)
  | hashing cls, [number indirect, number dstOffset, number hashOffset, number hashSize] =>
    some (.hashing cls indirect dstOffset hashOffset hashSize)
  | _, _ => none

/-- The classes that can be decoded, in the order of `INSTRUCTION_SET`. -/
def all : List InstructionClass :=
  [threeOperand .Add, threeOperand .Sub, threeOperand .Mul, threeOperand .Div, threeOperand .Eq,
    threeOperand .Lt, threeOperand .Lte, threeOperand .And, threeOperand .Or, threeOperand .Xor,
    twoOperand .Not, threeOperand .Shl, threeOperand .Shr, twoOperand .Cast, getter .Address,
    getter .StorageAddress, getter .Origin, getter .Sender, getter .Portal, getter .FeePerL1Gas,
    getter .FeePerL2Gas, getter .FeePerDAGas, getter .ChainId, getter .Version,
    getter .BlockNumber, getter .Timestamp, calldataCopy, jump, jumpI, internalCall,
    internalReturn, set, mov, cMov, sLoad, sStore, emitNoteHash, emitNullifier,
    emitUnencryptedLog, sendL2ToL1Message, call, staticCall, ret, revert, hashing .Keccak,
    hashing .Poseidon2, hashing .Sha256, hashing .Pedersen]

end InstructionClass

def instructionSet (opcode : ℕ) : Option InstructionClass :=
  InstructionClass.all.find? fun cls => cls.opcode.code = opcode

namespace Instruction

def cls : Instruction → InstructionClass
  | threeOperand cls _ _ _ _ _ => .threeOperand cls
  | twoOperand cls _ _ _ _ => .twoOperand cls
  | getter cls _ _ => .getter cls
  | calldataCopy _ _ _ _ => .calldataCopy
  | jump _ => .jump
  | jumpI _ _ _ => .jumpI
  | internalCall _ => .internalCall
  | internalReturn => .internalReturn
  | set _ _ _ _ => .set
  | mov _ _ _ => .mov
  | cMov _ _ _ _ _ => .cMov
  | sLoad _ _ _ => .sLoad
  | sStore _ _ _ => .sStore
  | emitNoteHash _ _ => .emitNoteHash
  | emitNullifier _ _ => .emitNullifier
  | emitUnencryptedLog _ _ _ => .emitUnencryptedLog
  | sendL2ToL1Message _ _ _ => .sendL2ToL1Message
  | call _ _ _ _ _ _ _ _ => .call
  | staticCall _ _ _ _ _ _ _ _ => .staticCall
  | ret _ _ _ => .ret
  | revert _ _ _ => .revert
  | hashing cls _ _ _ _ => .hashing cls

open Operand in
/-- `Object.values`: the fields, in the order of the parameters of the constructor. -/
def values : Instruction → List Operand
  | threeOperand _ indirect inTag aOffset bOffset dstOffset =>
    [number indirect, number inTag, number aOffset, number bOffset, number dstOffset]
  | twoOperand _ indirect inTag aOffset dstOffset =>
    [number indirect, number inTag, number aOffset, number dstOffset]
  | getter _ indirect dstOffset => [number indirect, number dstOffset]
  | calldataCopy indirect cdOffset copySize dstOffset =>
    [number indirect, number cdOffset, number copySize, number dstOffset]
  | jump jumpOffset => [number jumpOffset]
  | jumpI indirect loc condOffset => [number indirect, number loc, number condOffset]
  | internalCall loc => [number loc]
  | internalReturn => []
  | set indirect inTag value dstOffset =>
    [number indirect, number inTag, value, number dstOffset]
  | mov indirect srcOffset dstOffset => [number indirect, number srcOffset, number dstOffset]
  | cMov indirect aOffset bOffset condOffset dstOffset =>
    [number indirect, number aOffset, number bOffset, number condOffset, number dstOffset]
  | sLoad indirect aOffset bOffset => [number indirect, number aOffset, number bOffset]
  | sStore indirect aOffset bOffset => [number indirect, number aOffset, number bOffset]
  | emitNoteHash indirect noteHashOffset => [number indirect, number noteHashOffset]
  | emitNullifier indirect nullifierOffset => [number indirect, number nullifierOffset]
  | emitUnencryptedLog indirect logOffset logSize =>
    [number indirect, number logOffset, number logSize]
  | sendL2ToL1Message indirect msgOffset msgSize =>
    [number indirect, number msgOffset, number msgSize]
  | call indirect gasOffset addrOffset argsOffset argsSize retOffset retSize successOffset =>
    [number indirect, number gasOffset, number addrOffset, number argsOffset, number argsSize,
      number retOffset, number retSize, number successOffset]
  | staticCall indirect gasOffset addrOffset argsOffset argsSize retOffset retSize
      successOffset =>
      [number indirect, number gasOffset, number addrOffset, number argsOffset, number argsSize,
        number retOffset, number retSize, number successOffset]
  | ret indirect returnOffset copySize =>
    [number indirect, number returnOffset, number copySize]
  | revert indirect returnOffset retSize =>
    [number indirect, number returnOffset, number retSize]
  | hashing _ indirect dstOffset hashOffset hashSize =>
    [number indirect, number dstOffset, number hashOffset, number hashSize]

end Instruction

/-! ### The format of an instruction -/

def wireFormatBeforeConst : List OperandType := [.UINT8, .UINT8, .UINT8]

def wireFormatAfterConst : List OperandType := [.UINT32]

def getOperandTypeFromInTag (inTag : ℕ) : Option OperandType :=
  if inTag = TypeTag.UINT8.code then some .UINT8
  else if inTag = TypeTag.UINT16.code then some .UINT16
  else if inTag = TypeTag.UINT32.code then some .UINT32
  else if inTag = TypeTag.UINT64.code then some .UINT64
  else if inTag = TypeTag.UINT128.code then some .UINT128
  else none

/-- The types an instruction is serialized with; that of a constant depends on its tag. -/
def Instruction.format : Instruction → Option (List OperandType)
  | .set _ inTag _ _ => (getOperandTypeFromInTag inTag).map fun tagOperandType =>
    wireFormatBeforeConst ++ [tagOperandType] ++ wireFormatAfterConst
  | i => i.cls.wireFormat

/-! ### Fields and constructors -/

theorem Instruction.construct_values (i : Instruction) : i.cls.construct i.values = some i := by
  cases i <;> rfl

theorem InstructionClass.construct_eq_some {cls : InstructionClass} {args : List Operand}
    {i : Instruction} (h : cls.construct args = some i) : i.cls = cls ∧ i.values = args := by
  unfold construct at h
  split at h <;> first
    | (rw [Option.some.injEq] at h; subst h; exact ⟨rfl, rfl⟩)
    | cases h

theorem instructionSet_opcode (cls : InstructionClass) :
    instructionSet cls.opcode.code = some cls := by
  have hall : ∀ cls ∈ InstructionClass.all, instructionSet cls.opcode.code = some cls := by decide
  apply hall
  cases cls with
  | threeOperand cls => cases cls <;> decide
  | twoOperand cls => cases cls <;> decide
  | getter cls => cases cls <;> decide
  | hashing cls => cases cls <;> decide
  | _ => decide

theorem instructionSet_eq_some {opcode : ℕ} {cls : InstructionClass}
    (h : instructionSet opcode = some cls) : cls.opcode.code = opcode := by
  simpa using List.find?_some h

theorem opcode_code_lt (cls : InstructionClass) : cls.opcode.code < 256 := by
  cases cls with
  | threeOperand cls => cases cls <;> decide
  | twoOperand cls => cases cls <;> decide
  | getter cls => cases cls <;> decide
  | hashing cls => cases cls <;> decide
  | _ => decide

end Avm
