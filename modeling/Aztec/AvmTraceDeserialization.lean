/-
**The bytecode parser of the AVM circuit.**

The trace builder of the proving system parses bytecode with formats of its own.  The simulator
writes a byte for the addressing mode after the opcode of most instructions, and the formats here
have no place for it.
-/

import Aztec.AvmCodec

open List Option
open BigEndian (length_write read_write write)
open Failing (bind_eq_ok)

namespace AvmTrace

/-! ### The parser -/

inductive OpCode
  | ADD | SUB | MUL | DIV | EQ | LT | LTE | AND | OR | XOR | NOT | SHL | SHR | CAST
  | ADDRESS | STORAGEADDRESS | ORIGIN | SENDER | PORTAL | FEEPERL1GAS | FEEPERL2GAS | FEEPERDAGAS
  | CONTRACTCALLDEPTH | CHAINID | VERSION | BLOCKNUMBER | TIMESTAMP | COINBASE | BLOCKL1GASLIMIT
  | BLOCKL2GASLIMIT | BLOCKDAGASLIMIT | CALLDATACOPY | L1GASLEFT | L2GASLEFT | DAGASLEFT
  | JUMP | JUMPI | INTERNALCALL | INTERNALRETURN | SET | MOV | CMOV
  | SLOAD | SSTORE | NOTEHASHEXISTS | EMITNOTEHASH | NULLIFIEREXISTS | EMITNULLIFIER
  | READL1TOL2MSG | HEADERMEMBER | EMITUNENCRYPTEDLOG | SENDL2TOL1MSG
  | CALL | STATICCALL | DELEGATECALL | RETURN | REVERT | KECCAK | POSEIDON
  deriving DecidableEq, Repr

def OpCode.all : List OpCode :=
  [ADD, SUB, MUL, DIV, EQ, LT, LTE, AND, OR, XOR, NOT, SHL, SHR, CAST, ADDRESS, STORAGEADDRESS,
    ORIGIN, SENDER, PORTAL, FEEPERL1GAS, FEEPERL2GAS, FEEPERDAGAS, CONTRACTCALLDEPTH, CHAINID,
    VERSION, BLOCKNUMBER, TIMESTAMP, COINBASE, BLOCKL1GASLIMIT, BLOCKL2GASLIMIT, BLOCKDAGASLIMIT,
    CALLDATACOPY, L1GASLEFT, L2GASLEFT, DAGASLEFT, JUMP, JUMPI, INTERNALCALL, INTERNALRETURN, SET,
    MOV, CMOV, SLOAD, SSTORE, NOTEHASHEXISTS, EMITNOTEHASH, NULLIFIEREXISTS, EMITNULLIFIER,
    READL1TOL2MSG, HEADERMEMBER, EMITUNENCRYPTEDLOG, SENDL2TOL1MSG, CALL, STATICCALL, DELEGATECALL,
    RETURN, REVERT, KECCAK, POSEIDON]

/-- The opcode of a byte, for the bytes `Bytecode::is_valid` accepts. -/
def OpCode.ofByte (byte : ℕ) : Option OpCode := OpCode.all[byte]?

inductive AvmMemoryTag
  | U0 | U8 | U16 | U32 | U64 | U128 | FF
  deriving DecidableEq, Repr

/-- The tag of a byte, for the bytes up to `MAX_MEM_TAG`. -/
def AvmMemoryTag.ofByte (byte : ℕ) : Option AvmMemoryTag :=
  [U0, U8, U16, U32, U64, U128, FF][byte]?

inductive OperandType
  | TAG | UINT8 | UINT16 | UINT32 | UINT64 | UINT128
  deriving DecidableEq, Repr

def OperandType.size : OperandType → ℕ
  | TAG => 1
  | UINT8 => 1
  | UINT16 => 2
  | UINT32 => 4
  | UINT64 => 8
  | UINT128 => 16

inductive Operand
  | tag (tag : AvmMemoryTag)
  | uint8 (n : ℕ)
  | uint16 (n : ℕ)
  | uint32 (n : ℕ)
  | uint64 (n : ℕ)
  | uint128 (n : ℕ)
  deriving DecidableEq, Repr

structure Instruction where
  op_code : OpCode
  operands : List Operand
  deriving DecidableEq, Repr

inductive ParseError
  | invalidOpcode
  | invalidTag
  | operandMissing
  | outOfRange
  deriving DecidableEq, Repr

/-- The format of the operations with two operands and a destination. -/
def three_operand_format : List OperandType := [.TAG, .UINT32, .UINT32, .UINT32]

def wireFormat : OpCode → Option (List OperandType)
  | .ADD => some three_operand_format
  | .SUB => some three_operand_format
  | .MUL => some three_operand_format
  | .DIV => some three_operand_format
  | .EQ => some three_operand_format
  | .NOT => some [.TAG, .UINT32, .UINT32]
  | .CALLDATACOPY => some [.UINT32, .UINT32, .UINT32]
  | .JUMP => some [.UINT32]
  | .INTERNALCALL => some [.UINT32]
  | .INTERNALRETURN => some []
  | .RETURN => some [.UINT32, .UINT32]
  | _ => none

/-- The format of the operands that follow an opcode; that of `SET` depends on the tag it starts
with. -/
def instFormat (opcode : OpCode) (bytes : List UInt8) : Except ParseError (List OperandType) :=
  match opcode with
  | .SET =>
    match bytes with
    | [] => .error .operandMissing
    | set_tag_u8 :: _ =>
      match AvmMemoryTag.ofByte set_tag_u8.toNat with
      | some .U8 => .ok [.TAG, .UINT8, .UINT32]
      | some .U16 => .ok [.TAG, .UINT16, .UINT32]
      | some .U32 => .ok [.TAG, .UINT32, .UINT32]
      | some .U64 => .ok [.TAG, .UINT64, .UINT32]
      | some .U128 => .ok [.TAG, .UINT128, .UINT32]
      | _ => .error .invalidTag
  | _ =>
    match wireFormat opcode with
    | none => .error .outOfRange
    | some inst_format => .ok inst_format

def readOperand (opType : OperandType) (bytes : List UInt8) : Except ParseError Operand :=
  if bytes.length < opType.size then .error .operandMissing
  else
    let n := BigEndian.read (bytes.take opType.size)
    match opType with
    | .TAG =>
      match AvmMemoryTag.ofByte n with
      | none => .error .invalidTag
      | some .U0 => .error .invalidTag
      | some tag => .ok (.tag tag)
    | .UINT8 => .ok (.uint8 n)
    | .UINT16 => .ok (.uint16 n)
    | .UINT32 => .ok (.uint32 n)
    | .UINT64 => .ok (.uint64 n)
    | .UINT128 => .ok (.uint128 n)

/-- The loop over the operands of a format, with what is left of the byte string. -/
def readOperands : List OperandType → List UInt8 → Except ParseError (List Operand × List UInt8)
  | [], bytes => .ok ([], bytes)
  | opType :: inst_format, bytes => do
    let operand ← readOperand opType bytes
    let (operands, rest) ← readOperands inst_format (bytes.drop opType.size)
    .ok (operand :: operands, rest)

theorem readOperands_length {inst_format : List OperandType} {bytes rest : List UInt8}
    {operands : List Operand} (h : readOperands inst_format bytes = .ok (operands, rest)) :
    rest.length ≤ bytes.length := by
  induction inst_format generalizing bytes operands with
  | nil =>
    simp only [readOperands, Except.ok.injEq, Prod.mk.injEq] at h
    rw [h.2]
  | cons opType inst_format ih =>
    obtain ⟨operand, -, h⟩ := bind_eq_ok.1 h
    obtain ⟨⟨operands', rest'⟩, hrest, h⟩ := bind_eq_ok.1 h
    simp only [Except.ok.injEq, Prod.mk.injEq] at h
    obtain ⟨-, rfl⟩ := h
    have hlength := ih hrest
    rw [length_drop] at hlength
    omega

def parse : List UInt8 → Except ParseError (List Instruction)
  | [] => .ok []
  | opcode_byte :: bytes =>
    match OpCode.ofByte opcode_byte.toNat with
    | none => .error .invalidOpcode
    | some opcode =>
      match instFormat opcode bytes with
      | .error e => .error e
      | .ok inst_format =>
        match _ : readOperands inst_format bytes with
        | .error e => .error e
        | .ok (operands, rest) =>
          match parse rest with
          | .error e => .error e
          | .ok instructions => .ok (⟨opcode, operands⟩ :: instructions)
termination_by bytes => bytes.length
decreasing_by
  have hlength := readOperands_length ‹readOperands _ _ = .ok _›
  rw [List.length_cons]
  omega

theorem parse_cons_eq_ok {opcode_byte : UInt8} {bytes : List UInt8} {parsed : List Instruction} :
    parse (opcode_byte :: bytes) = .ok parsed ↔ ∃ opcode inst_format operands rest instructions,
        OpCode.ofByte opcode_byte.toNat = some opcode ∧ instFormat opcode bytes = .ok inst_format ∧
          readOperands inst_format bytes = .ok (operands, rest) ∧
            parse rest = .ok instructions ∧ parsed = ⟨opcode, operands⟩ :: instructions := by
  rw [parse]
  constructor
  · intro h
    split at h
    · cases h
    · next opcode hopcode =>
      split at h
      · cases h
      · next inst_format hformat =>
        split at h
        · cases h
        · next operands rest hread =>
          split at h
          · cases h
          · next instructions hrest =>
            exact ⟨opcode, inst_format, operands, rest, instructions, hopcode, hformat, hread,
              hrest, (Except.ok.inj h).symm⟩
  · rintro ⟨opcode, inst_format, operands, rest, instructions, hopcode, hformat, hread, hrest, rfl⟩
    simp only [hopcode, hformat]
    split
    · next e he => rw [hread] at he; cases he
    · next operands' rest' hread' =>
      rw [hread] at hread'
      cases hread'
      rw [hrest]

/-! ### Instructions of the simulator -/

/-- The opcode has a format, or is handled differently. -/
def isSupported (opcode : OpCode) : Bool :=
  opcode = .SET || (wireFormat opcode).isSome

/-- The opcode of the instruction is one the parser supports. -/
def Supported (i : Avm.Instruction) : Prop :=
  ∃ opcode, OpCode.ofByte i.cls.opcode.code = some opcode ∧ isSupported opcode

/-- The instruction has direct addressing, or no byte for it. -/
def Direct : Avm.Instruction → Prop
  | .jump _ => True
  | .internalCall _ => True
  | .internalReturn => True
  | i => i.values.head? = some (.number 0)

/-- The constant of `SET`. -/
def constant : AvmMemoryTag → Avm.Operand → Option Operand
  | .U8, .number n => some (.uint8 n)
  | .U16, .number n => some (.uint16 n)
  | .U32, .number n => some (.uint32 n)
  | .U64, .bigint n => some (.uint64 n.toNat)
  | .U128, .bigint n => some (.uint128 n.toNat)
  | _, _ => none

/-- The opcode of a supported operation with three operands. -/
def threeOperandOpCode : Avm.ThreeOperand → Option OpCode
  | .Add => some .ADD
  | .Sub => some .SUB
  | .Mul => some .MUL
  | .Div => some .DIV
  | .Eq => some .EQ
  | _ => none

/-- The instruction with the same opcode and the same operands in the same roles. -/
def counterpart : Avm.Instruction → Option Instruction
  | .threeOperand cls _ inTag aOffset bOffset dstOffset => do
    let opcode ← threeOperandOpCode cls
    let tag ← AvmMemoryTag.ofByte inTag
    some ⟨opcode, [.tag tag, .uint32 aOffset, .uint32 bOffset, .uint32 dstOffset]⟩
  | .twoOperand .Not _ inTag aOffset dstOffset => do
    let tag ← AvmMemoryTag.ofByte inTag
    some ⟨.NOT, [.tag tag, .uint32 aOffset, .uint32 dstOffset]⟩
  | .calldataCopy _ cdOffset copySize dstOffset =>
    some ⟨.CALLDATACOPY, [.uint32 cdOffset, .uint32 copySize, .uint32 dstOffset]⟩
  | .jump jumpOffset => some ⟨.JUMP, [.uint32 jumpOffset]⟩
  | .internalCall loc => some ⟨.INTERNALCALL, [.uint32 loc]⟩
  | .internalReturn => some ⟨.INTERNALRETURN, []⟩
  | .set _ inTag value dstOffset => do
    let tag ← AvmMemoryTag.ofByte inTag
    let const ← constant tag value
    some ⟨.SET, [.tag tag, const, .uint32 dstOffset]⟩
  | .ret _ returnOffset copySize => some ⟨.RETURN, [.uint32 returnOffset, .uint32 copySize]⟩
  | _ => none

def Agrees (instructions : List Avm.Instruction) (bytecode : List UInt8) : Prop :=
  ∃ parsed, parse bytecode = .ok parsed ∧ instructions.map counterpart = parsed.map some

/-- The instructions that have no byte for the addressing mode. -/
def IsControlFlow (i : Avm.Instruction) : Prop :=
  (∃ jumpOffset, i = .jump jumpOffset) ∨ (∃ loc, i = .internalCall loc) ∨ i = .internalReturn

section Agreement

variable {i : Avm.Instruction} {instructions : List Avm.Instruction}
  {opcode : OpCode} {bytes rest : List UInt8} {parsed : List Instruction}

theorem readOperands_tag {inst_format : List OperandType} :
    readOperands (.TAG :: inst_format) (0 :: bytes) = .error .invalidTag := by
  have hlength : ¬(0 :: bytes : List UInt8).length < OperandType.TAG.size := by
    simp [OperandType.size]
  rw [readOperands, readOperand, if_neg hlength]
  rfl

theorem readOperands_shifted {ns : List ℕ} (hns : ∀ n ∈ ns, n < 2 ^ 32)
    (h : readOperands (ns.map fun _ => .UINT32)
      (0 :: (ns.flatMap (write 4) ++ bytes)) = .ok (ns.map .uint32, rest)) :
    rest = 0 :: bytes := by
  induction ns with
  | nil =>
    simp only [map_nil, readOperands, Except.ok.injEq, Prod.mk.injEq] at h
    exact h.2.symm
  | cons n ns ih =>
    rw [forall_mem_cons] at hns
    obtain ⟨operand, hoperand, h⟩ := bind_eq_ok.1 h
    obtain ⟨⟨operands, rest'⟩, hrest, h⟩ := bind_eq_ok.1 h
    simp only [map_cons, Except.ok.injEq, Prod.mk.injEq, cons.injEq] at h
    obtain ⟨⟨rfl, rfl⟩, rfl⟩ := h
    have hn := hns.1
    have hlength := length_write 4 n
    have hread := read_write 4 n
    rw [Nat.mod_eq_of_lt (show n < 256 ^ 4 from hn)] at hread
    rw [flatMap_cons, append_assoc] at hoperand hrest
    match hbytes : write 4 n, hlength with
    | [b₀, b₁, b₂, b₃], _ =>
      rw [hbytes] at hread hoperand hrest
      have hlt₃ := b₃.toNat_lt
      rw [readOperand, if_neg (by simp [OperandType.size])] at hoperand
      simp only [OperandType.size, cons_append, nil_append, take_succ_cons,
        take_zero, BigEndian.read, foldl_cons, foldl_nil, Except.ok.injEq,
        Operand.uint32.injEq, UInt8.toNat_zero] at hoperand hread
      have hzero : b₃ = 0 := by
        apply UInt8.toNat_inj.1
        rw [UInt8.toNat_zero]
        omega
      subst hzero
      exact ih hns.2 hrest

theorem counterpart_add {operands : List Operand}
    (h : counterpart i = some ⟨.ADD, operands⟩) : i.cls.opcode = .ADD := by
  cases i with
  | threeOperand cls indirect inTag aOffset bOffset dstOffset =>
    obtain ⟨opcode, hopcode, h⟩ := bind_eq_some_iff.1 h
    obtain ⟨tag, -, h⟩ := bind_eq_some_iff.1 h
    cases cls <;> cases hopcode <;> first | rfl | cases h
  | twoOperand cls indirect inTag aOffset dstOffset =>
    cases cls with
    | Cast => cases h
    | Not =>
      obtain ⟨tag, -, h⟩ := bind_eq_some_iff.1 h
      cases h
  | set indirect inTag value dstOffset =>
    obtain ⟨tag, -, h⟩ := bind_eq_some_iff.1 h
    obtain ⟨const, -, h⟩ := bind_eq_some_iff.1 h
    cases h
  | _ => cases h

theorem not_agrees_zero (hreadable : ∀ i ∈ instructions, i.Readable)
    (hencode : Avm.encodeToBytecode instructions = .ok bytes)
    (hparse : parse (0 :: bytes) = .ok parsed) :
    instructions.map counterpart ≠ parsed.map some := by
  intro hagree
  obtain ⟨opcode, inst_format, operands, rest, instructions', hopcode, hformat, hread, -, rfl⟩ :=
    parse_cons_eq_ok.1 hparse
  obtain rfl : OpCode.ADD = opcode := some.inj hopcode
  obtain rfl : three_operand_format = inst_format := Except.ok.inj hformat
  cases instructions with
  | nil => cases hagree
  | cons i instructions =>
    obtain ⟨types, chunks, -, -, hserialize⟩ :=
      Avm.Instruction.serialize_eq_cons (hreadable i mem_cons_self)
    obtain ⟨buf, hbuf, hencode⟩ := bind_eq_ok.1 hencode
    obtain ⟨tail, -, hencode⟩ := bind_eq_ok.1 hencode
    rw [hserialize, Except.ok.injEq] at hbuf
    rw [Except.ok.injEq] at hencode
    rw [map_cons, map_cons, cons.injEq] at hagree
    -- the next instruction would be an addition, whose opcode is no tag
    rw [counterpart_add hagree.1] at hbuf
    subst hbuf hencode
    exact nomatch hread.symm.trans readOperands_tag

theorem parse_cons (inst_format : List OperandType) {opcode_byte : UInt8} {operands : List Operand}
    (hopcode : OpCode.ofByte opcode_byte.toNat = some opcode)
    (hformat : instFormat opcode bytes = .ok inst_format)
    (hread : readOperands inst_format bytes = .ok (operands, rest)) :
    parse (opcode_byte :: bytes) = .ok parsed ↔
      ∃ instructions, parse rest = .ok instructions ∧ parsed = ⟨opcode, operands⟩ :: instructions := by
  rw [parse_cons_eq_ok]
  constructor
  · rintro ⟨opcode', format', operands', rest', instructions, h₁, h₂, h₃, hrest, rfl⟩
    obtain rfl : opcode = opcode' := some.inj (hopcode.symm.trans h₁)
    obtain rfl : inst_format = format' := Except.ok.inj (hformat.symm.trans h₂)
    cases hread.symm.trans h₃
    exact ⟨instructions, hrest, rfl⟩
  · rintro ⟨instructions, hrest, rfl⟩
    exact ⟨opcode, inst_format, operands, rest, instructions, hopcode, hformat, hread, hrest, rfl⟩

theorem parse_number {code n : ℕ} (hcode : code < 2 ^ 8) (hn : n < 2 ^ 32)
    (hopcode : OpCode.ofByte code = some opcode) (hset : opcode ≠ .SET)
    (hformat : wireFormat opcode = some [.UINT32]) :
    parse (UInt8.ofNat code :: (write 4 n ++ rest)) = .ok parsed ↔
      ∃ instructions, parse rest = .ok instructions ∧
        parsed = ⟨opcode, [.uint32 n]⟩ :: instructions := by
  refine parse_cons [.UINT32] ?_ ?_ ?_
  · rw [UInt8.toNat_ofNat_of_lt' hcode, hopcode]
  · unfold instFormat
    split
    · exact absurd rfl hset
    · rw [hformat]
  · have hlength : ¬(write 4 n ++ rest).length < OperandType.UINT32.size := by
      rw [length_append, length_write]
      simp [OperandType.size]
    rw [readOperands, readOperand, if_neg hlength]
    simp only [OperandType.size, take_left' (length_write 4 n), drop_left' (length_write 4 n),
      read_write, Nat.mod_eq_of_lt (show n < 256 ^ 4 from hn)]
    rfl

theorem parse_of_isControlFlow (hi : IsControlFlow i) (hreadable : i.Readable) :
    ∃ buf instruction, i.serialize = .ok buf ∧ counterpart i = some instruction ∧
      ∀ rest parsed, parse (buf ++ rest) = .ok parsed ↔
        ∃ instructions, parse rest = .ok instructions ∧ parsed = instruction :: instructions := by
  obtain ⟨operands, hformat, hall⟩ := hreadable
  obtain ⟨jumpOffset, rfl⟩ | ⟨loc, rfl⟩ | rfl := hi
  · obtain rfl : [Avm.OperandType.UINT8, .UINT32] = operands := some.inj hformat
    simp only [Avm.AllReadable, Avm.Instruction.values, forall₂_cons] at hall
    have hn : jumpOffset < 2 ^ 32 := hall.2.1
    refine ⟨UInt8.ofNat 35 :: write 4 jumpOffset, _, ?_, rfl, fun rest parsed =>
      parse_number (by decide) hn rfl (by decide) rfl⟩
    simp only [Avm.Instruction.serialize, Avm.InstructionClass.wireFormat, Avm.Instruction.cls,
      Avm.serialize, Avm.Instruction.values, Avm.writeAll, Avm.OperandType.write, if_pos hn]
    rfl
  · obtain rfl : [Avm.OperandType.UINT8, .UINT32] = operands := some.inj hformat
    simp only [Avm.AllReadable, Avm.Instruction.values, forall₂_cons] at hall
    have hn : loc < 2 ^ 32 := hall.2.1
    refine ⟨UInt8.ofNat 37 :: write 4 loc, _, ?_, rfl, fun rest parsed =>
      parse_number (by decide) hn rfl (by decide) rfl⟩
    simp only [Avm.Instruction.serialize, Avm.InstructionClass.wireFormat, Avm.Instruction.cls,
      Avm.serialize, Avm.Instruction.values, Avm.writeAll, Avm.OperandType.write, if_pos hn]
    rfl
  · exact ⟨[38], _, rfl, rfl, fun rest parsed => parse_cons [] rfl rfl rfl⟩

theorem serialize_of_direct (hdirect : i.values.head? = some (.number 0)) (hreadable : i.Readable)
    {types : List Avm.OperandType} (hformat : i.format = some (.UINT8 :: .UINT8 :: types)) :
    ∃ chunks, Avm.writeAll types i.values.tail = .ok chunks ∧
      i.serialize = .ok (UInt8.ofNat i.cls.opcode.code :: 0 :: chunks) := by
  obtain ⟨types', chunks, hformat', hchunks, hserialize⟩ :=
    Avm.Instruction.serialize_eq_cons hreadable
  obtain rfl : .UINT8 :: types = types' :=
    (cons.inj (some.inj (hformat.symm.trans hformat'))).2
  rw [← cons_head?_tail hdirect, Avm.writeAll] at hchunks
  obtain ⟨buf, hbuf, hchunks⟩ := bind_eq_ok.1 hchunks
  obtain ⟨chunks', hchunks', hchunks⟩ := bind_eq_ok.1 hchunks
  obtain rfl : [0] = buf := Except.ok.inj hbuf
  rw [Except.ok.injEq] at hchunks
  subst hchunks
  exact ⟨chunks', hchunks', hserialize⟩

theorem writeAll_numbers {ns : List ℕ} {chunks : List UInt8}
    (h : Avm.writeAll (ns.map fun _ => .UINT32) (ns.map .number) = .ok chunks) :
    (∀ n ∈ ns, n < 2 ^ 32) ∧ chunks = ns.flatMap (write 4) := by
  induction ns generalizing chunks with
  | nil => exact ⟨by simp, (Except.ok.inj h).symm⟩
  | cons n ns ih =>
    obtain ⟨buf, hbuf, h⟩ := bind_eq_ok.1 h
    obtain ⟨chunks', hchunks', h⟩ := bind_eq_ok.1 h
    obtain ⟨hns, rfl⟩ := ih hchunks'
    rw [Avm.OperandType.write] at hbuf
    split at hbuf
    · next hn =>
      rw [Except.ok.injEq] at hbuf h
      exact ⟨forall_mem_cons.2 ⟨hn, hns⟩, by rw [← h, ← hbuf, flatMap_cons]⟩
    · cases hbuf

/-- **What the byte for the addressing mode does**: the instruction is rejected, or its operands are
read one byte too early. -/
theorem not_agrees_of_direct (hsupported : Supported i) (hdirect : Direct i)
    (hflow : ¬IsControlFlow i) (hreadable : ∀ i' ∈ i :: instructions, i'.Readable)
    (hencode : Avm.encodeToBytecode (i :: instructions) = .ok bytes) :
    ¬Agrees (i :: instructions) bytes := by
  rintro ⟨parsed, hparse, hagree⟩
  obtain ⟨hi, hrest⟩ := forall_mem_cons.1 hreadable
  obtain ⟨buf, hbuf, hencode⟩ := bind_eq_ok.1 hencode
  obtain ⟨tail, htail, hencode⟩ := bind_eq_ok.1 hencode
  rw [Except.ok.injEq] at hencode
  subst hencode
  -- a tag is read from the byte
  have htag : ∀ (opcode : OpCode) inst_format types,
      i.values.head? = some (.number 0) → i.format = some (.UINT8 :: .UINT8 :: types) →
      OpCode.ofByte i.cls.opcode.code = some opcode →
      (∀ bytes, instFormat opcode (0 :: bytes) = .ok (.TAG :: inst_format) ∨
        instFormat opcode (0 :: bytes) = .error .invalidTag) → False := by
    intro opcode inst_format types hzero hformat hopcode htag
    obtain ⟨chunks, -, hserialize⟩ := serialize_of_direct hzero hi hformat
    rw [hserialize, Except.ok.injEq] at hbuf
    subst hbuf
    obtain ⟨opcode', format', operands, rest, _, hopcode', hformat', hread, -, -⟩ :=
      parse_cons_eq_ok.1 hparse
    rw [UInt8.toNat_ofNat_of_lt' (Avm.opcode_code_lt i.cls), hopcode, some.injEq] at hopcode'
    subst hopcode'
    change instFormat opcode (0 :: (chunks ++ tail)) = _ at hformat'
    change readOperands _ (0 :: (chunks ++ tail)) = _ at hread
    obtain h | h := htag (chunks ++ tail)
    · rw [h, Except.ok.injEq] at hformat'
      subst hformat'
      rw [readOperands_tag] at hread
      cases hread
    · rw [h] at hformat'
      cases hformat'
  -- numbers are read one byte too early
  have hnumbers : ∀ (opcode : OpCode) (ns : List ℕ), i.values = .number 0 :: ns.map .number →
      i.format = some (.UINT8 :: .UINT8 :: ns.map fun _ => .UINT32) →
      OpCode.ofByte i.cls.opcode.code = some opcode → counterpart i = some ⟨opcode, ns.map .uint32⟩ →
      (∀ bytes, instFormat opcode bytes = .ok (ns.map fun _ => .UINT32)) → False := by
    intro opcode ns hvalues hformat hopcode hcounterpart hns
    obtain ⟨chunks, hchunks, hserialize⟩ :=
      serialize_of_direct (by rw [hvalues]; rfl) hi hformat
    rw [hvalues, tail_cons] at hchunks
    obtain ⟨hlt, rfl⟩ := writeAll_numbers hchunks
    rw [hserialize, Except.ok.injEq] at hbuf
    subst hbuf
    obtain ⟨opcode', format', operands, rest, parsed', hopcode', hformat', hread, hparse', rfl⟩ :=
      parse_cons_eq_ok.1 hparse
    rw [UInt8.toNat_ofNat_of_lt' (Avm.opcode_code_lt i.cls), hopcode, some.injEq] at hopcode'
    subst hopcode'
    rw [hns, Except.ok.injEq] at hformat'
    subst hformat'
    rw [map_cons, map_cons, cons.injEq, hcounterpart, some.injEq, Instruction.mk.injEq] at hagree
    obtain ⟨⟨-, rfl⟩, hagree⟩ := hagree
    obtain rfl := readOperands_shifted hlt hread
    exact not_agrees_zero hrest htail hparse' hagree
  obtain ⟨opcode, hopcode, hopcode'⟩ := hsupported
  cases i with
  | threeOperand cls indirect inTag aOffset bOffset dstOffset =>
    have hformat : opcode ≠ .SET ∧ wireFormat opcode = some three_operand_format := by
      cases cls <;> cases hopcode <;> first | exact ⟨by decide, rfl⟩ | cases hopcode'
    refine htag opcode [.UINT32, .UINT32, .UINT32] _ hdirect rfl hopcode fun bytes => .inl ?_
    unfold instFormat
    split
    · exact absurd rfl hformat.1
    · rw [hformat.2]
      rfl
  | twoOperand cls indirect inTag aOffset dstOffset =>
    cases cls with
    | Cast => cases hopcode; cases hopcode'
    | Not => exact htag .NOT _ _ hdirect rfl rfl fun bytes => .inl rfl
  | set indirect inTag value dstOffset =>
    obtain ⟨operands, hformat, -⟩ := hi
    obtain ⟨type, -, rfl⟩ := map_eq_some_iff.1 hformat
    exact htag .SET [] _ hdirect hformat rfl fun bytes => .inr rfl
  | calldataCopy indirect cdOffset copySize dstOffset =>
    obtain rfl := Avm.Operand.number.inj (some.inj hdirect)
    exact hnumbers .CALLDATACOPY [cdOffset, copySize, dstOffset] rfl rfl rfl rfl fun _ => rfl
  | ret indirect returnOffset copySize =>
    obtain rfl := Avm.Operand.number.inj (some.inj hdirect)
    exact hnumbers .RETURN [returnOffset, copySize] rfl rfl rfl rfl fun _ => rfl
  | jump jumpOffset => exact hflow (.inl ⟨jumpOffset, rfl⟩)
  | internalCall loc => exact hflow (.inr (.inl ⟨loc, rfl⟩))
  | internalReturn => exact hflow (.inr (.inr rfl))
  | getter cls indirect dstOffset => cases cls <;> cases hopcode <;> cases hopcode'
  | hashing cls indirect dstOffset hashOffset hashSize =>
    cases cls <;> cases hopcode <;> cases hopcode'
  | _ => cases hopcode; cases hopcode'

end Agreement

/-- **The bytecode both sides agree on** consists of jumps, internal calls and internal returns. -/
theorem agrees_iff {instructions : List Avm.Instruction} {bytecode : List UInt8}
    (hsupported : ∀ i ∈ instructions, Supported i) (hdirect : ∀ i ∈ instructions, Direct i)
    (hrange : ∀ i ∈ instructions, i.InRange)
    (hencode : Avm.encodeToBytecode instructions = .ok bytecode) :
    Agrees instructions bytecode ↔ ∀ i ∈ instructions, IsControlFlow i := by
  have hreadable := Avm.readable_of_encode hrange hencode
  induction instructions generalizing bytecode with
  | nil =>
    obtain rfl : [] = bytecode := Except.ok.inj hencode
    exact ⟨fun _ => by simp, fun _ => ⟨[], by rw [parse], rfl⟩⟩
  | cons i instructions ih =>
    by_cases hflow : IsControlFlow i
    · rw [List.forall_mem_cons] at hsupported hdirect hrange hreadable ⊢
      obtain ⟨buf', hbuf', hencode⟩ := Failing.bind_eq_ok.1 hencode
      obtain ⟨tail, htail, hencode⟩ := Failing.bind_eq_ok.1 hencode
      obtain ⟨buf, parsed, hbuf, hcounterpart, hparse⟩ :=
        parse_of_isControlFlow hflow hreadable.1
      rw [hbuf, Except.ok.injEq] at hbuf'
      rw [Except.ok.injEq] at hencode
      subst hbuf' hencode
      have ih := ih hsupported.2 hdirect.2 hrange.2 htail hreadable.2
      constructor
      · rintro ⟨parsed', hparsed', hagree⟩
        obtain ⟨instructions', hrest, rfl⟩ := (hparse _ _).1 hparsed'
        exact ⟨hflow, ih.1 ⟨instructions', hrest, (List.cons.inj hagree).2⟩⟩
      · rintro ⟨-, hall⟩
        obtain ⟨instructions', hrest, hagree⟩ := ih.2 hall
        exact ⟨_, (hparse _ _).2 ⟨instructions', hrest, rfl⟩, by
          rw [List.map_cons, List.map_cons, hcounterpart, hagree]⟩
    · refine ⟨fun hagree => ?_, fun hall => absurd (hall i List.mem_cons_self) hflow⟩
      exact absurd hagree (not_agrees_of_direct (hsupported i List.mem_cons_self)
        (hdirect i List.mem_cons_self) hflow hreadable hencode)

/-- A loop of a jump and a return. -/
theorem agrees_jump : Agrees [.jump 7, .internalReturn] [35, 0, 0, 0, 7, 38] := by
  have hrange : ∀ i ∈ [Avm.Instruction.jump 7, .internalReturn], i.InRange := by
    simp only [List.forall_mem_cons]
    refine ⟨⟨[.UINT8, .UINT32], rfl, ?_⟩, ⟨[.UINT8], rfl, ?_⟩, by simp⟩
    · simp only [Avm.Instruction.values, List.forall₂_cons, Avm.OperandType.InRange]
      exact ⟨by decide, by decide, .nil⟩
    · simp only [Avm.Instruction.values, List.forall₂_cons, Avm.OperandType.InRange]
      exact ⟨by decide, .nil⟩
  refine (agrees_iff ?_ ?_ hrange rfl).2 ?_
  · simp only [List.forall_mem_cons]
    exact ⟨⟨.JUMP, rfl, rfl⟩, ⟨.INTERNALRETURN, rfl, rfl⟩, by simp⟩
  · simp only [List.forall_mem_cons]
    exact ⟨trivial, trivial, by simp⟩
  · simp only [List.forall_mem_cons]
    exact ⟨.inl ⟨7, rfl⟩, .inr (.inr rfl), by simp⟩

/-- An addition of bytes is not parsed. -/
theorem not_agrees : ∃ (i : Avm.Instruction) (bytecode : List UInt8), Supported i ∧ Direct i ∧
    i.InRange ∧ Avm.encodeToBytecode [i] = .ok bytecode ∧ ¬Agrees [i] bytecode := by
  have hrange : (Avm.Instruction.threeOperand .Add 0 1 2 3 4).InRange := by
    refine ⟨[.UINT8, .UINT8, .UINT8, .UINT32, .UINT32, .UINT32], rfl, ?_⟩
    simp only [Avm.Instruction.values, List.forall₂_cons, Avm.OperandType.InRange]
    exact ⟨by decide, by decide, by decide, by decide, by decide, by decide, .nil⟩
  have hreadable : (Avm.Instruction.threeOperand .Add 0 1 2 3 4).Readable :=
    (Avm.Instruction.readable_iff hrange).2 (by rintro ⟨_, _, _, h, -⟩; cases h)
  refine ⟨.threeOperand .Add 0 1 2 3 4, [0, 0, 1, 0, 0, 0, 2, 0, 0, 0, 3, 0, 0, 0, 4],
    ⟨.ADD, rfl, rfl⟩, rfl, hrange, rfl, ?_⟩
  refine not_agrees_of_direct ⟨.ADD, rfl, rfl⟩ rfl ?_ (by simpa using hreadable) rfl
  rintro (⟨_, h⟩ | ⟨_, h⟩ | h) <;> cases h

end AvmTrace
