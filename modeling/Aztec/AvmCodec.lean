/-
**The bytecode of the AVM simulator.**

An instruction is serialized as its opcode and its fields, each with the number of bytes its type
says, and decoded with the types of the class the opcode stands for.  The constant of `SET` has a
width that depends on a tag read just before it.

Constants of 64 bits are read and written as signed integers, so that only those below `2 ^ 63` can
be written.  The cursor, when it is advanced, checks the width it is advanced by against the length
of the whole buffer, so that a buffer of one byte cannot be read.
-/

import Aztec.AvmInstructions
import Aztec.BigEndian
import Aztec.Failing

open List hiding format

namespace Avm

open Failing OperandType

inductive CodecError
  | outOfRange
  | mixedTypes
  | assertion
  | noWireFormat
  | invalidTag (tag : ℕ)
  | notImplemented (opcode : ℕ)
  deriving DecidableEq, Repr

/-! ### Operands -/

namespace OperandType

def size : OperandType → ℕ
  | UINT8 => 1
  | UINT16 => 2
  | UINT32 => 4
  | UINT64 => 8
  | UINT128 => 16

/-- The value of the type with these bits, which for `UINT64` are those of a signed integer. -/
def ofBits (type : OperandType) (n : ℕ) : Operand :=
  match type with
  | UINT64 => .bigint (if n < 2 ^ 63 then n else (n : ℤ) - 2 ^ 64)
  | UINT128 => .bigint n
  | _ => .number n

/-- The readers of `OPERAND_SPEC`.  That of `UINT64` is `readBigInt64BE`, for signed integers. -/
def read (type : OperandType) (buffer : List UInt8) : Except CodecError Operand :=
  if buffer.length < type.size then .error .outOfRange
  else .ok (type.ofBits (BigEndian.read (buffer.take type.size)))

/-- The writers of `OPERAND_SPEC`.  That of `UINT64` is `writeBigInt64BE`, for signed integers; that
of `UINT128` cuts its value off. -/
def write (type : OperandType) (value : Operand) : Except CodecError (List UInt8) :=
  match type, value with
  | UINT64, .bigint n =>
    if -2 ^ 63 ≤ n ∧ n < 2 ^ 63 then .ok (BigEndian.write 8 (n % 2 ^ 64).toNat)
    else .error .outOfRange
  | UINT128, .bigint n => .ok (BigEndian.write 16 (n % 2 ^ 128).toNat)
  | UINT8, .number n =>
    if n < 2 ^ 8 then .ok (BigEndian.write 1 n) else .error .outOfRange
  | UINT16, .number n =>
    if n < 2 ^ 16 then .ok (BigEndian.write 2 n) else .error .outOfRange
  | UINT32, .number n =>
    if n < 2 ^ 32 then .ok (BigEndian.write 4 n) else .error .outOfRange
  | _, _ => .error .mixedTypes

def InRange : OperandType → Operand → Prop
  | UINT8, .number n => n < 2 ^ 8
  | UINT16, .number n => n < 2 ^ 16
  | UINT32, .number n => n < 2 ^ 32
  | UINT64, .bigint n => 0 ≤ n ∧ n < 2 ^ 64
  | UINT128, .bigint n => 0 ≤ n ∧ n < 2 ^ 128
  | _, _ => False

def Readable : OperandType → Operand → Prop
  | UINT8, .number n => n < 2 ^ 8
  | UINT16, .number n => n < 2 ^ 16
  | UINT32, .number n => n < 2 ^ 32
  | UINT64, .bigint n => -2 ^ 63 ≤ n ∧ n < 2 ^ 63
  | UINT128, .bigint n => 0 ≤ n ∧ n < 2 ^ 128
  | _, _ => False

theorem size_pos (type : OperandType) : 0 < type.size := by
  cases type <;> decide

variable {type : OperandType} {value : Operand} {bytes : List UInt8}

theorem read_append_write (type : OperandType) (n : ℕ) (hn : n < 256 ^ type.size)
    (rest : List UInt8) :
    read type (BigEndian.write type.size n ++ rest) = .ok (type.ofBits n) := by
  have hlength : ¬(BigEndian.write type.size n ++ rest).length < type.size := by
    rw [length_append, BigEndian.length_write]
    omega
  rw [read, if_neg hlength, take_left' (BigEndian.length_write _ _), BigEndian.read_write,
    Nat.mod_eq_of_lt hn]

theorem write_of_readable (h : Readable type value) :
    ∃ bytes, write type value = .ok bytes ∧ bytes.length = type.size ∧
      ∀ rest, read type (bytes ++ rest) = .ok value := by
  cases type with
  | UINT8 =>
    cases value with
    | bigint n => exact h.elim
    | number n =>
      have hn : n < 2 ^ 8 := h
      exact ⟨_, if_pos hn, BigEndian.length_write _ _, read_append_write UINT8 n hn⟩
  | UINT16 =>
    cases value with
    | bigint n => exact h.elim
    | number n =>
      have hn : n < 2 ^ 16 := h
      exact ⟨_, if_pos hn, BigEndian.length_write _ _, read_append_write UINT16 n hn⟩
  | UINT32 =>
    cases value with
    | bigint n => exact h.elim
    | number n =>
      have hn : n < 2 ^ 32 := h
      exact ⟨_, if_pos hn, BigEndian.length_write _ _, read_append_write UINT32 n hn⟩
  | UINT64 =>
    cases value with
    | number n => exact h.elim
    | bigint n =>
      have hn : -2 ^ 63 ≤ n ∧ n < 2 ^ 63 := h
      have hlt : (n % 2 ^ 64).toNat < 256 ^ 8 := by omega
      refine ⟨_, if_pos hn, BigEndian.length_write _ _, fun rest => ?_⟩
      rw [show 8 = size UINT64 from rfl, read_append_write UINT64 _ hlt rest]
      simp only [ofBits, Except.ok.injEq, Operand.bigint.injEq]
      split <;> omega
  | UINT128 =>
    cases value with
    | number n => exact h.elim
    | bigint n =>
      have hn : 0 ≤ n ∧ n < 2 ^ 128 := h
      have hmod : n % 2 ^ 128 = n := Int.emod_eq_of_lt hn.1 hn.2
      have hlt : (n % 2 ^ 128).toNat < 256 ^ 16 := by rw [hmod]; omega
      refine ⟨_, rfl, BigEndian.length_write _ _, fun rest => ?_⟩
      rw [show 16 = size UINT128 from rfl, read_append_write UINT128 _ hlt rest, hmod]
      simp only [ofBits, Except.ok.injEq, Operand.bigint.injEq]
      omega

theorem read_eq_ok (h : read type bytes = .ok value) :
    type.size ≤ bytes.length ∧ Readable type value ∧
      write type value = .ok (bytes.take type.size) := by
  unfold read at h
  split at h
  · cases h
  · next hlength =>
    rw [not_lt] at hlength
    have htake : (bytes.take type.size).length = type.size := by
      rw [length_take, min_eq_left hlength]
    have hlt := BigEndian.read_lt (bytes.take type.size)
    have hwrite := BigEndian.write_read (bytes.take type.size)
    rw [htake] at hlt hwrite
    refine ⟨hlength, ?_⟩
    set n := BigEndian.read (bytes.take type.size) with hn
    rw [Except.ok.injEq] at h
    subst h
    cases type with
    | UINT8 =>
      have hn : n < 2 ^ 8 := hlt
      exact ⟨hn, by rw [← hwrite]; exact if_pos hn⟩
    | UINT16 =>
      have hn : n < 2 ^ 16 := hlt
      exact ⟨hn, by rw [← hwrite]; exact if_pos hn⟩
    | UINT32 =>
      have hn : n < 2 ^ 32 := hlt
      exact ⟨hn, by rw [← hwrite]; exact if_pos hn⟩
    | UINT64 =>
      have hn : n < 2 ^ 64 := hlt
      have hsigned : -2 ^ 63 ≤ (if n < 2 ^ 63 then (n : ℤ) else (n : ℤ) - 2 ^ 64) ∧
          (if n < 2 ^ 63 then (n : ℤ) else (n : ℤ) - 2 ^ 64) < 2 ^ 63 := by
        split <;> omega
      have hmod : ((if n < 2 ^ 63 then (n : ℤ) else (n : ℤ) - 2 ^ 64) % 2 ^ 64).toNat = n := by
        split <;> omega
      refine ⟨hsigned, ?_⟩
      rw [← hwrite]
      simp only [write, ofBits, if_pos hsigned, hmod]
      rfl
    | UINT128 =>
      have hn : n < 2 ^ 128 := hlt
      have hmod : ((n : ℤ) % 2 ^ 128).toNat = n := by omega
      refine ⟨⟨Int.natCast_nonneg n, by exact_mod_cast hn⟩, ?_⟩
      rw [← hwrite]
      simp only [write, ofBits, hmod]
      rfl

theorem readable_iff (h : InRange type value) :
    (Readable type value ↔ ∀ n, type = UINT64 → value = .bigint n → n < 2 ^ 63) ∧
      (¬Readable type value → write type value = .error .outOfRange) := by
  cases type with
  | UINT64 =>
    cases value with
    | number n => exact h.elim
    | bigint n =>
      have hn : 0 ≤ n ∧ n < 2 ^ 64 := h
      constructor
      · constructor
        · rintro hread m - ⟨rfl⟩
          exact hread.2
        · intro hlt
          exact ⟨by omega, hlt n rfl rfl⟩
      · exact fun hnot => if_neg hnot
  | UINT8 =>
    cases value with
    | bigint n => exact h.elim
    | number n =>
      exact ⟨⟨fun _ _ ht => (nomatch ht), fun _ => h⟩, fun hnot => absurd h hnot⟩
  | UINT16 =>
    cases value with
    | bigint n => exact h.elim
    | number n =>
      exact ⟨⟨fun _ _ ht => (nomatch ht), fun _ => h⟩, fun hnot => absurd h hnot⟩
  | UINT32 =>
    cases value with
    | bigint n => exact h.elim
    | number n =>
      exact ⟨⟨fun _ _ ht => (nomatch ht), fun _ => h⟩, fun hnot => absurd h hnot⟩
  | UINT128 =>
    cases value with
    | number n => exact h.elim
    | bigint n =>
      exact ⟨⟨fun _ _ ht => (nomatch ht), fun _ => h⟩, fun hnot => absurd h hnot⟩

end OperandType

/-! ### Several operands -/

/-- The loop of `serialize`. -/
def writeAll : List OperandType → List Operand → Except CodecError (List UInt8)
  | type :: types, value :: values => do
    let buf ← type.write value
    let chunks ← writeAll types values
    .ok (buf ++ chunks)
  | _, _ => .ok []

def serialize (operands : List OperandType) (opcode : Opcode) (fields : List Operand) :
    Except CodecError (List UInt8) :=
  let classValues := .number opcode.code :: fields
  if classValues.length = operands.length then writeAll operands classValues
  else .error .assertion

/-- `deserialize`, for a cursor on a buffer of `total` bytes: the values, and what is left to read
when the cursor has been advanced. -/
def deserialize (total : ℕ) : List OperandType → List UInt8 →
    Except CodecError (List Operand × List UInt8)
  | [], bytes => .ok ([], bytes)
  | type :: types, bytes => do
    let value ← type.read bytes
    if type.size < total then
      let (values, rest) ← deserialize total types (bytes.drop type.size)
      .ok (value :: values, rest)
    else .error .assertion

def AllReadable (types : List OperandType) (values : List Operand) : Prop :=
  List.Forall₂ Readable types values

section Several

variable {types types' : List OperandType} {values values' : List Operand}
  {bytes rest : List UInt8} {total : ℕ}

theorem writeAll_of_readable (h : AllReadable types values) :
    ∃ bytes, writeAll types values = .ok bytes ∧ bytes.length = (types.map size).sum ∧
        ∀ total rest, (∀ type ∈ types, type.size < total) →
          deserialize total types (bytes ++ rest) = .ok (values, rest) := by
  induction h with
  | nil => exact ⟨[], rfl, rfl, fun _ _ _ => rfl⟩
  | @cons type value types values hvalue _ ih =>
    obtain ⟨buf, hbuf, hsize, hread⟩ := write_of_readable hvalue
    obtain ⟨chunks, hchunks, hlength, hrest⟩ := ih
    refine ⟨buf ++ chunks, by rw [writeAll, hbuf, hchunks]; rfl, by simp [hsize, hlength], ?_⟩
    intro total rest htotal
    rw [append_assoc, deserialize, hread, ← hsize, drop_left, hsize]
    simp only [bind, Except.bind, if_pos (htotal type mem_cons_self)]
    rw [hrest total rest fun type htype => htotal type (mem_cons_of_mem _ htype)]

theorem deserialize_eq_ok (h : deserialize total types bytes = .ok (values, rest)) :
    AllReadable types values ∧ (∀ type ∈ types, type.size < total) ∧
      ∃ written, writeAll types values = .ok written ∧ bytes = written ++ rest := by
  induction types generalizing bytes values with
  | nil =>
    simp only [deserialize, Except.ok.injEq, Prod.mk.injEq] at h
    obtain ⟨rfl, rfl⟩ := h
    exact ⟨.nil, by simp, [], rfl, rfl⟩
  | cons type types ih =>
    rw [deserialize, bind_eq_ok] at h
    obtain ⟨value, hvalue, h⟩ := h
    split at h
    · next htotal =>
      obtain ⟨⟨values', rest'⟩, hrest, h⟩ := bind_eq_ok.1 h
      simp only [Except.ok.injEq, Prod.mk.injEq] at h
      obtain ⟨rfl, rfl⟩ := h
      obtain ⟨hlength, hreadable, hwrite⟩ := read_eq_ok hvalue
      obtain ⟨hall, hsizes, written, hwritten, hbytes⟩ := ih hrest
      refine ⟨.cons hreadable hall, forall_mem_cons.2 ⟨htotal, hsizes⟩,
        bytes.take type.size ++ written, by rw [writeAll, hwrite, hwritten]; rfl, ?_⟩
      rw [append_assoc, ← hbytes, take_append_drop]
    · cases h

theorem deserialize_append (total : ℕ) (types types' : List OperandType) (bytes : List UInt8) :
    deserialize total (types ++ types') bytes = (do
      let (values, rest) ← deserialize total types bytes
      let (values', rest') ← deserialize total types' rest
      .ok (values ++ values', rest')) := by
  induction types generalizing bytes with
  | nil =>
    simp only [nil_append, deserialize, bind, Except.bind]
    cases deserialize total types' bytes <;> rfl
  | cons type types ih =>
    simp only [cons_append, deserialize, bind, Except.bind]
    cases type.read bytes with
    | error e => rfl
    | ok value =>
      by_cases htotal : type.size < total
      · simp only [if_pos htotal, ih, bind, Except.bind]
        cases deserialize total types (bytes.drop type.size) with
        | error e => rfl
        | ok r =>
          simp only
          cases deserialize total types' r.2 <;> rfl
      · simp only [if_neg htotal]

theorem length_le_sum (types : List OperandType) : types.length ≤ (types.map size).sum := by
  induction types with
  | nil => exact le_rfl
  | cons type types ih =>
    have hpos := type.size_pos
    rw [length_cons, map_cons, sum_cons]
    omega

theorem size_lt_sum {type : OperandType} (h : type ∈ types) (hlength : 2 ≤ types.length) :
    type.size < (types.map size).sum := by
  obtain ⟨before, after, rfl⟩ := append_of_mem h
  have hbefore := length_le_sum before
  have hafter := length_le_sum after
  rw [length_append, length_cons] at hlength
  rw [map_append, sum_append, map_cons, sum_cons]
  omega

theorem allReadable_of_inRange (h : List.Forall₂ InRange types values)
    (hno : UINT64 ∉ types) : AllReadable types values := by
  induction h with
  | nil => exact .nil
  | @cons type value types values hvalue _ ih =>
    rw [mem_cons, not_or] at hno
    exact .cons ((readable_iff hvalue).1.2 fun _ htype => absurd htype.symm hno.1)
      (ih hno.2)

theorem writeAll_of_not_readable (h : List.Forall₂ InRange types values)
    (hnot : ¬AllReadable types values) : writeAll types values = .error .outOfRange := by
  induction h with
  | nil => exact absurd .nil hnot
  | @cons type value types values hvalue _ ih =>
    rw [writeAll]
    by_cases hreadable : Readable type value
    · obtain ⟨buf, hbuf, -⟩ := write_of_readable hreadable
      rw [hbuf, ih fun hall => hnot (.cons hreadable hall)]
      rfl
    · rw [(readable_iff hvalue).2 hreadable]
      rfl

end Several

/-! ### Instructions -/

def Instruction.serialize (i : Instruction) : Except CodecError (List UInt8) :=
  match i with
  | .set _ inTag _ _ =>
    match getOperandTypeFromInTag inTag with
    | none => .error (.invalidTag inTag)
    | some tagOperandType =>
      Avm.serialize (wireFormatBeforeConst ++ [tagOperandType] ++ wireFormatAfterConst)
        i.cls.opcode i.values
  | _ =>
    match i.cls.wireFormat with
    | none => .error .noWireFormat
    | some wireFormat => Avm.serialize wireFormat i.cls.opcode i.values

open Instruction

/-- The static method `deserialize` of a class. -/
def InstructionClass.deserialize (total : ℕ) (cls : InstructionClass) (bytes : List UInt8) :
    Except CodecError (Instruction × List UInt8) :=
  match cls with
  | .set => do
    let (beforeConst, bytes) ← Avm.deserialize total wireFormatBeforeConst bytes
    match beforeConst.getLast? with
    | some (.number tag) =>
      match getOperandTypeFromInTag tag with
      | none => .error (.invalidTag tag)
      | some tagOperandType => do
        let (val, bytes) ← Avm.deserialize total [tagOperandType] bytes
        let (afterConst, bytes) ← Avm.deserialize total wireFormatAfterConst bytes
        let res := beforeConst ++ val ++ afterConst
        match cls.construct (res.drop 1) with
        | none => .error .assertion
        | some i => .ok (i, bytes)
    | _ => .error .assertion
  | _ =>
    match cls.wireFormat with
    | none => .error .noWireFormat
    | some wireFormat => do
      let (res, bytes) ← Avm.deserialize total wireFormat bytes
      match cls.construct (res.drop 1) with
      | none => .error .assertion
      | some i => .ok (i, bytes)

open InstructionClass

def encodeToBytecode : List Instruction → Except CodecError (List UInt8)
  | [] => .ok []
  | i :: instructions => do
    let buf ← i.serialize
    let rest ← encodeToBytecode instructions
    .ok (buf ++ rest)

def Instruction.InRange (i : Instruction) : Prop :=
  ∃ operands, i.format = some operands ∧
    List.Forall₂ OperandType.InRange operands (.number i.cls.opcode.code :: i.values)

def Instruction.Readable (i : Instruction) : Prop :=
  ∃ operands, i.format = some operands ∧
    AllReadable operands (.number i.cls.opcode.code :: i.values)

/-- The instruction is a `SET` of a constant of 64 bits whose highest bit is set. -/
def Instruction.HasLargeConstant (i : Instruction) : Prop :=
  ∃ indirect n dstOffset, i = .set indirect TypeTag.UINT64.code (.bigint n) dstOffset ∧ 2 ^ 63 ≤ n

section Instructions

variable {i : Instruction} {cls : InstructionClass} {total : ℕ} {bytes rest : List UInt8}

variable {operands : List OperandType}

theorem Instruction.serialize_eq (h : i.format = some operands) :
    i.serialize = Avm.serialize operands i.cls.opcode i.values := by
  cases i with
  | set indirect inTag value dstOffset =>
    simp only [format, Option.map_eq_some_iff] at h
    obtain ⟨type, htype, rfl⟩ := h
    simp only [serialize, htype]
  | _ =>
    simp only [format] at h
    simp only [serialize, h]

theorem InstructionClass.deserialize_of_format {operands : List OperandType}
    (h : i.format = some operands) (hread : Avm.deserialize total operands bytes =
      .ok (.number i.cls.opcode.code :: i.values, rest)) :
    i.cls.deserialize total bytes = .ok (i, rest) := by
  have hconstruct := i.construct_values
  cases i with
  | set indirect inTag value dstOffset =>
    simp only [format, Option.map_eq_some_iff] at h
    obtain ⟨type, htype, rfl⟩ := h
    -- what is read in one go is read in three steps
    rw [deserialize_append, deserialize_append] at hread
    obtain ⟨⟨front, bytes₂⟩, hfront, hread⟩ := bind_eq_ok.1 hread
    dsimp only at hread
    obtain ⟨⟨after, bytes₃⟩, hafter, hread⟩ := bind_eq_ok.1 hread
    obtain ⟨⟨before, bytes₁⟩, hbefore, hfront⟩ := bind_eq_ok.1 hfront
    dsimp only at hfront
    obtain ⟨⟨val, bytes₂'⟩, hval, hfront⟩ := bind_eq_ok.1 hfront
    simp only [Except.ok.injEq, Prod.mk.injEq] at hfront hread
    obtain ⟨hfront, hbytes⟩ := hfront
    obtain ⟨hvalues, hrest⟩ := hread
    subst hfront hbytes hrest
    have hlengths : before.length = 3 ∧ val.length = 1 ∧ after.length = 1 :=
      ⟨(deserialize_eq_ok hbefore).1.length_eq.symm, (deserialize_eq_ok hval).1.length_eq.symm,
        (deserialize_eq_ok hafter).1.length_eq.symm⟩
    obtain ⟨b₁, b₂, b₃, rfl⟩ := length_eq_three.1 hlengths.1
    obtain ⟨v, rfl⟩ := length_eq_one_iff.1 hlengths.2.1
    obtain ⟨a, rfl⟩ := length_eq_one_iff.1 hlengths.2.2
    simp only [values, cons_append, nil_append, List.cons.injEq] at hvalues
    obtain ⟨rfl, rfl, rfl, rfl, rfl, -⟩ := hvalues
    simp only [cls, deserialize, hbefore, bind, Except.bind,
      List.getLast?_cons_cons, List.getLast?_singleton, htype, hval, hafter]
    rfl
  | _ =>
    simp only [format] at h
    simp only [cls, deserialize] at h hread hconstruct ⊢
    rw [h]
    simp only [hread, bind, Except.bind, drop_succ_cons, drop_zero, hconstruct]

theorem Instruction.format_eq (h : i.format = some operands) :
    ∃ types, operands = .UINT8 :: types ∧ types.length = i.values.length := by
  cases i with
  | set indirect inTag value dstOffset =>
    simp only [format, Option.map_eq_some_iff] at h
    obtain ⟨type, -, rfl⟩ := h
    exact ⟨_, rfl, rfl⟩
  | _ =>
    simp only [format, cls, wireFormat,
      Option.some.injEq] at h
    subst h
    exact ⟨_, rfl, rfl⟩

theorem InstructionClass.deserialize_eq_ok (h : cls.deserialize total bytes = .ok (i, rest)) :
    i.cls = cls ∧ ∃ operands first, i.format = some operands ∧
      Avm.deserialize total operands bytes = .ok (first :: i.values, rest) := by
  have hplain : ∀ wireFormat, (∀ i : Instruction, i.cls = cls → i.format = some wireFormat) →
      wireFormat ≠ [] →
      (do
        let (res, bytes) ← Avm.deserialize total wireFormat bytes
        match cls.construct (res.drop 1) with
        | none => .error .assertion
        | some i => .ok (i, bytes)) = Except.ok (i, rest) →
      i.cls = cls ∧ ∃ operands first, i.format = some operands ∧
        Avm.deserialize total operands bytes = .ok (first :: i.values, rest) := by
    intro wireFormat hformat hne h
    obtain ⟨⟨res, bytes'⟩, hres, h⟩ := bind_eq_ok.1 h
    dsimp only at h
    cases hconstruct : cls.construct (res.drop 1) with
    | none => simp only [hconstruct] at h; cases h
    | some i' =>
      simp only [hconstruct, Except.ok.injEq, Prod.mk.injEq] at h
      obtain ⟨rfl, rfl⟩ := h
      obtain ⟨hcls, hvalues⟩ := construct_eq_some hconstruct
      cases res with
      | nil =>
        have hnil := (Avm.deserialize_eq_ok hres).1
        exact absurd (List.forall₂_nil_right_iff.1 hnil) hne
      | cons first values =>
        rw [drop_succ_cons, drop_zero] at hvalues
        exact ⟨hcls, wireFormat, first, hformat _ hcls, by rw [hvalues]; exact hres⟩
  cases cls with
  | set =>
    simp only [deserialize] at h
    obtain ⟨⟨before, bytes₁⟩, hbefore, h⟩ := bind_eq_ok.1 h
    have hlength : before.length = 3 := (Avm.deserialize_eq_ok hbefore).1.length_eq.symm
    obtain ⟨b₁, b₂, b₃, rfl⟩ := length_eq_three.1 hlength
    simp only [List.getLast?_cons_cons, List.getLast?_singleton] at h
    cases b₃ with
    | bigint n => cases h
    | number tag =>
      simp only at h
      cases htype : getOperandTypeFromInTag tag with
      | none => simp [htype] at h
      | some type =>
        simp only [htype] at h
        obtain ⟨⟨val, bytes₂⟩, hval, h⟩ := bind_eq_ok.1 h
        dsimp only at h
        obtain ⟨⟨after, bytes₃⟩, hafter, h⟩ := bind_eq_ok.1 h
        dsimp only at h
        cases hconstruct : set.construct
            (([b₁, b₂, .number tag] ++ val ++ after).drop 1) with
        | none => simp only [hconstruct] at h; cases h
        | some i' =>
          simp only [hconstruct, Except.ok.injEq, Prod.mk.injEq] at h
          obtain ⟨rfl, rfl⟩ := h
          obtain ⟨hcls, hvalues⟩ := construct_eq_some hconstruct
          refine ⟨hcls, wireFormatBeforeConst ++ [type] ++ wireFormatAfterConst, b₁, ?_, ?_⟩
          · cases i' <;> cases hcls
            simp only [values, cons_append, drop_succ_cons,
              drop_zero, nil_append, List.cons.injEq] at hvalues
            simp only [format, Option.map_eq_some_iff]
            refine ⟨type, ?_, rfl⟩
            rw [← htype, Operand.number.inj hvalues.2.1]
          · rw [deserialize_append, deserialize_append, hbefore]
            simp only [bind, Except.bind, hval, hafter, hvalues]
            rfl
  | _ => exact hplain _ (fun i hi => by cases i <;> cases hi <;> rfl) (cons_ne_nil _ _) h

theorem Instruction.serialize_of_readable (h : i.format = some operands)
    (hall : AllReadable operands (.number i.cls.opcode.code :: i.values)) :
    i.serialize = writeAll operands (.number i.cls.opcode.code :: i.values) := by
  rw [serialize_eq h, Avm.serialize, if_pos hall.length_eq.symm]

theorem Instruction.serialize_eq_cons (h : i.Readable) :
    ∃ types chunks, i.format = some (.UINT8 :: types) ∧ writeAll types i.values = .ok chunks ∧
      i.serialize = .ok (UInt8.ofNat i.cls.opcode.code :: chunks) := by
  obtain ⟨operands, hformat, hall⟩ := h
  obtain ⟨types, rfl, -⟩ := format_eq hformat
  obtain ⟨written, hwritten, -⟩ := writeAll_of_readable hall
  rw [writeAll, bind_eq_ok] at hwritten
  obtain ⟨buf, hbuf, hwritten⟩ := hwritten
  obtain ⟨chunks, hchunks, -⟩ := bind_eq_ok.1 hwritten
  have hcode : i.cls.opcode.code < 2 ^ 8 := opcode_code_lt i.cls
  refine ⟨types, chunks, hformat, hchunks, ?_⟩
  rw [serialize_of_readable hformat hall, writeAll, write, if_pos hcode,
    BigEndian.write_one hcode, hchunks]
  rfl

theorem InstructionClass.serialize_of_deserialize {opcode : UInt8}
    (hcls : instructionSet opcode.toNat = some cls)
    (h : cls.deserialize total (opcode :: bytes) = .ok (i, rest)) :
    ∃ written, i.serialize = .ok written ∧ opcode :: bytes = written ++ rest ∧
      rest.length ≤ bytes.length := by
  obtain ⟨rfl, operands, first, hformat, hread⟩ := deserialize_eq_ok h
  obtain ⟨types, rfl, -⟩ := format_eq hformat
  obtain ⟨hall, -, written, hwritten, hbytes⟩ := Avm.deserialize_eq_ok hread
  -- the first value is the byte the class was chosen with
  have hfirst : first = .number i.cls.opcode.code := by
    rw [instructionSet_eq_some hcls]
    rw [Avm.deserialize, bind_eq_ok] at hread
    obtain ⟨value, hvalue, hread⟩ := hread
    split at hread
    · obtain ⟨⟨values, rest'⟩, -, hread⟩ := bind_eq_ok.1 hread
      simp only [Except.ok.injEq, Prod.mk.injEq, List.cons.injEq] at hread
      have hbits : OperandType.UINT8.read (opcode :: bytes) = .ok (.number opcode.toNat) := by
        rw [OperandType.read, if_neg (by simp [OperandType.size])]
        exact congrArg (fun n => Except.ok (Operand.number n)) (BigEndian.read_singleton opcode)
      rw [hvalue, Except.ok.injEq] at hbits
      rw [← hread.1.1, hbits]
    · cases hread
  subst hfirst
  refine ⟨written, by rw [serialize_of_readable hformat hall, hwritten], hbytes, ?_⟩
  obtain ⟨written', hwritten', hlength, -⟩ := writeAll_of_readable hall
  rw [hwritten, Except.ok.injEq] at hwritten'
  have hsum : 1 + (types.map OperandType.size).sum = written.length := by
    rw [hwritten', hlength, map_cons, sum_cons]
    rfl
  have hboth := congrArg List.length hbytes
  rw [length_cons, length_append] at hboth
  omega

end Instructions

/-! ### Decoding bytecode -/

/-- The loop of `decodeFromBytecode`, for a cursor on a buffer of `total` bytes. -/
def decodeLoop (total : ℕ) : List UInt8 → Except CodecError (List Instruction)
  | [] => .ok []
  | opcode :: bytes =>
    match _ : instructionSet opcode.toNat with
    | none => .error (.notImplemented opcode.toNat)
    | some cls =>
      match _ : cls.deserialize total (opcode :: bytes) with
      | .error e => .error e
      | .ok (i, rest) =>
        match decodeLoop total rest with
        | .error e => .error e
        | .ok instructions => .ok (i :: instructions)
termination_by bytes => bytes.length
decreasing_by
  obtain ⟨-, -, -, hlength⟩ := InstructionClass.serialize_of_deserialize
    ‹instructionSet _ = some _› ‹InstructionClass.deserialize _ _ _ = .ok _›
  rw [length_cons]
  omega

def decodeFromBytecode (bytecode : List UInt8) : Except CodecError (List Instruction) :=
  decodeLoop bytecode.length bytecode

section Decoding

variable {instructions : List Instruction} {total : ℕ}

theorem decodeLoop_cons {i : Instruction} {opcode : UInt8} {bytes rest : List UInt8}
    (hcls : instructionSet opcode.toNat = some i.cls)
    (hread : i.cls.deserialize total (opcode :: bytes) = .ok (i, rest)) :
    decodeLoop total (opcode :: bytes) = (do
      let instructions ← decodeLoop total rest
      .ok (i :: instructions)) := by
  rw [decodeLoop]
  split
  · next hnone => rw [hcls] at hnone; cases hnone
  · next cls hsome =>
    rw [hcls, Option.some.injEq] at hsome
    subst hsome
    split
    · next e herror => rw [hread] at herror; cases herror
    · next i' rest' hok =>
      rw [hread, Except.ok.injEq, Prod.mk.injEq] at hok
      obtain ⟨rfl, rfl⟩ := hok
      cases decodeLoop total rest <;> rfl

theorem encodeToBytecode_decodeLoop (total : ℕ) (bytes : List UInt8) {instructions}
    (h : decodeLoop total bytes = .ok instructions) :
    encodeToBytecode instructions = .ok bytes := by
  fun_induction decodeLoop total bytes generalizing instructions with
  | case1 => cases h; rfl
  | case2 => cases h
  | case3 => cases h
  | case4 => cases h
  | case5 opcode bytes cls hcls i rest hread instructions' hrest ih =>
    cases h
    obtain ⟨written, hwritten, hbytes, -⟩ :=
      InstructionClass.serialize_of_deserialize hcls hread
    rw [encodeToBytecode, hwritten, ih hrest, hbytes]
    rfl

theorem decodeLoop_encodeToBytecode (h : ∀ i ∈ instructions, i.Readable) :
    ∃ bytes, encodeToBytecode instructions = .ok bytes ∧ bytes.length = (instructions.map fun i =>
        (i.format.getD []).map size |>.sum).sum ∧
      ∀ total, (∀ i ∈ instructions, ∀ type ∈ i.format.getD [], type.size < total) →
        decodeLoop total bytes = .ok instructions := by
  induction instructions with
  | nil => exact ⟨[], rfl, rfl, fun total _ => by rw [decodeLoop]⟩
  | cons i instructions ih =>
    obtain ⟨rest, hrest, hlength, hdecode⟩ := ih fun i' hi' => h i' (mem_cons_of_mem _ hi')
    obtain ⟨operands, hformat, hall⟩ := h i mem_cons_self
    obtain ⟨written, hwritten, hsize, hread⟩ := writeAll_of_readable hall
    have hserialize := serialize_of_readable hformat hall
    refine ⟨written ++ rest, ?_, ?_, fun total htotal => ?_⟩
    · rw [encodeToBytecode, hserialize, hwritten, hrest]
      rfl
    · rw [length_append, hsize, hlength, map_cons, sum_cons, hformat]
      rfl
    · have hi := htotal i mem_cons_self
      rw [hformat, Option.getD_some] at hi
      have hcls := InstructionClass.deserialize_of_format hformat (hread total rest hi)
      -- the class is chosen by the first byte
      obtain ⟨types, chunks, -, -, hcons⟩ :=
        serialize_eq_cons ⟨operands, hformat, hall⟩
      obtain rfl : written = _ :: chunks :=
        Except.ok.inj (hwritten.symm.trans (hserialize.symm.trans hcons))
      rw [cons_append] at hcls ⊢
      have hopcode : instructionSet (UInt8.ofNat i.cls.opcode.code).toNat = some i.cls := by
        rw [UInt8.toNat_ofNat_of_lt' (opcode_code_lt i.cls)]
        exact instructionSet_opcode i.cls
      rw [decodeLoop_cons hopcode hcls,
        hdecode total fun i' hi' => htotal i' (mem_cons_of_mem _ hi')]
      rfl

end Decoding

/-! ### The round trip -/

/-- Encoding and decoding give the instructions back. -/
def RoundTrips (instructions : List Instruction) : Prop :=
  ∃ bytecode, encodeToBytecode instructions = .ok bytecode ∧
    decodeFromBytecode bytecode = .ok instructions

section RoundTrip

variable {i : Instruction} {instructions : List Instruction}

theorem getOperandTypeFromInTag_eq_uint64 {inTag : ℕ}
    (h : getOperandTypeFromInTag inTag = some .UINT64) : inTag = TypeTag.UINT64.code := by
  unfold getOperandTypeFromInTag at h
  split_ifs at h <;> first | assumption | cases h

theorem Instruction.readable_iff (h : i.InRange) : i.Readable ↔ ¬i.HasLargeConstant := by
  obtain ⟨operands, hformat, hrange⟩ := h
  constructor
  · rintro ⟨operands', hformat', hall⟩ ⟨indirect, n, dstOffset, rfl, hn⟩
    obtain rfl : [.UINT8, .UINT8, .UINT8, .UINT64, .UINT32] = operands' :=
      Option.some.inj hformat'
    simp only [AllReadable, values, List.forall₂_cons] at hall
    exact absurd hall.2.2.2.1.2 (not_lt.2 hn)
  · intro hlarge
    refine ⟨operands, hformat, ?_⟩
    cases i with
    | set indirect inTag value dstOffset =>
      obtain ⟨type, htype, rfl⟩ := Option.map_eq_some_iff.1 hformat
      by_cases htag : type = .UINT64
      · subst htag
        obtain rfl := getOperandTypeFromInTag_eq_uint64 htype
        simp only [wireFormatBeforeConst, wireFormatAfterConst, values,
          cons_append, nil_append, List.forall₂_cons] at hrange
        obtain ⟨hopcode, hindirect, hinTag, hvalue, hdstOffset, -⟩ := hrange
        refine .cons hopcode (.cons hindirect (.cons hinTag (.cons ?_ (.cons hdstOffset .nil))))
        refine (readable_iff hvalue).1.2 fun n _ hn => ?_
        by_contra hge
        exact hlarge ⟨indirect, n, dstOffset, by rw [hn], not_lt.1 hge⟩
      · refine allReadable_of_inRange hrange ?_
        simpa [wireFormatBeforeConst, wireFormatAfterConst] using Ne.symm htag
    | _ =>
      refine allReadable_of_inRange hrange ?_
      obtain rfl := Option.some.inj hformat
      decide

theorem Instruction.serialize_of_not_readable (h : i.InRange) (hnot : ¬i.Readable) :
    i.serialize = .error .outOfRange := by
  obtain ⟨operands, hformat, hrange⟩ := h
  rw [serialize_eq hformat, Avm.serialize, if_pos hrange.length_eq.symm]
  exact writeAll_of_not_readable hrange fun hall => hnot ⟨operands, hformat, hall⟩

theorem readable_of_encode {bytecode : List UInt8} (h : ∀ i ∈ instructions, i.InRange)
    (hencode : encodeToBytecode instructions = .ok bytecode) : ∀ i ∈ instructions, i.Readable := by
  induction instructions generalizing bytecode with
  | nil => simp
  | cons i instructions ih =>
    rw [forall_mem_cons] at h ⊢
    obtain ⟨buf, hbuf, hencode⟩ := bind_eq_ok.1 hencode
    obtain ⟨rest, hrest, -⟩ := bind_eq_ok.1 hencode
    refine ⟨?_, ih h.2 hrest⟩
    by_contra hnot
    rw [serialize_of_not_readable h.1 hnot] at hbuf
    cases hbuf

theorem size_lt_of_ne (h : ∀ i ∈ instructions, ∃ operands, i.format = some operands)
    (hne : instructions ≠ [.internalReturn]) :
    ∀ i ∈ instructions, ∀ type ∈ i.format.getD [], type.size <
      (instructions.map fun i => ((i.format.getD []).map size).sum).sum := by
  intro i hi type htype
  have hpos : ∀ i ∈ instructions, 1 ≤ ((i.format.getD []).map size).sum := by
    intro i hi
    obtain ⟨operands, hformat⟩ := h i hi
    obtain ⟨types, rfl, -⟩ := format_eq hformat
    have hlength := length_le_sum (.UINT8 :: types)
    rw [length_cons] at hlength
    rw [hformat, Option.getD_some]
    omega
  obtain ⟨operands, hformat⟩ := h i hi
  obtain ⟨types, rfl, hlength⟩ := format_eq hformat
  obtain ⟨before, after, rfl⟩ := append_of_mem hi
  rw [map_append, sum_append, map_cons, sum_cons, hformat, Option.getD_some]
  rw [hformat, Option.getD_some] at htype
  cases types with
  | cons type' types =>
    have hlt := size_lt_sum htype (by simp)
    omega
  | nil =>
    -- without operands it is a return, and there is another instruction
    have hreturn : i = .internalReturn := by
      cases i <;> first | rfl | cases hlength
    obtain rfl : type = .UINT8 := by simpa using htype
    have hother : ∃ i', i' ∈ before ∨ i' ∈ after := by
      by_contra hnone
      push Not at hnone
      have hbefore : before = [] := eq_nil_iff_forall_not_mem.2 fun i' => (hnone i').1
      have hafter : after = [] := eq_nil_iff_forall_not_mem.2 fun i' => (hnone i').2
      exact hne (by rw [hbefore, hafter, hreturn]; rfl)
    obtain ⟨i', hi' | hi'⟩ := hother
    · have hle := single_le_sum (fun _ _ => Nat.zero_le _) _ (mem_map_of_mem
        (f := fun i : Instruction => ((i.format.getD []).map size).sum) hi')
      have hone := hpos i' (mem_append_left _ hi')
      simp only [map_cons, sum_cons, size]
      omega
    · have hle := single_le_sum (fun _ _ => Nat.zero_le _) _ (mem_map_of_mem
        (f := fun i : Instruction => ((i.format.getD []).map size).sum) hi')
      have hone := hpos i' (mem_append_right _ (mem_cons_of_mem _ hi'))
      simp only [map_cons, sum_cons, size]
      omega

theorem not_decode_internalReturn :
    decodeFromBytecode [UInt8.ofNat Opcode.INTERNALRETURN.code] ≠ .ok instructions := by
  intro hdecode
  rw [decodeFromBytecode, decodeLoop] at hdecode
  split at hdecode
  · cases hdecode
  · next cls hcls =>
    obtain rfl : .internalReturn = cls := Option.some.inj hcls
    split at hdecode
    · cases hdecode
    · next hread => cases hread

end RoundTrip

/-- **The round trip**: of the instructions in range, exactly a single return and the large constants
of 64 bits do not survive it.  What is decoded is always encoded to the same bytes. -/
theorem roundTrip_iff (instructions : List Instruction) : ((∀ i ∈ instructions, i.InRange) →
      (RoundTrips instructions ↔
        instructions ≠ [.internalReturn] ∧ ∀ i ∈ instructions, ¬i.HasLargeConstant)) ∧
      ∀ bytecode, decodeFromBytecode bytecode = .ok instructions →
        encodeToBytecode instructions = .ok bytecode := by
  refine ⟨fun hrange => ⟨?_, ?_⟩, fun bytecode hdecode => encodeToBytecode_decodeLoop _ _ hdecode⟩
  · rintro ⟨bytecode, hencode, hdecode⟩
    refine ⟨?_, fun i hi => (readable_iff (hrange i hi)).1
      (readable_of_encode hrange hencode i hi)⟩
    rintro rfl
    obtain rfl : [UInt8.ofNat Opcode.INTERNALRETURN.code] = bytecode := Except.ok.inj hencode
    exact not_decode_internalReturn hdecode
  · rintro ⟨hne, hlarge⟩
    obtain ⟨bytecode, hencode, hlength, hdecode⟩ := decodeLoop_encodeToBytecode fun i hi =>
      (readable_iff (hrange i hi)).2 (hlarge i hi)
    refine ⟨bytecode, hencode, hdecode _ ?_⟩
    rw [hlength]
    exact size_lt_of_ne (fun i hi => (hrange i hi).imp fun _ h => h.1) hne

/-- A `SET` of the largest constant of 64 bits cannot be encoded. -/
theorem not_roundTrip : ∃ i : Instruction, i.InRange ∧ ¬RoundTrips [i] := by
  refine ⟨.set 0 TypeTag.UINT64.code (.bigint (2 ^ 64 - 1)) 0,
    ⟨[.UINT8, .UINT8, .UINT8, .UINT64, .UINT32], rfl, ?_⟩, ?_⟩
  · simp only [values, List.forall₂_cons, OperandType.InRange]
    exact ⟨by decide, by decide, by decide, by decide, by decide, .nil⟩
  · rintro ⟨bytecode, hencode, -⟩
    cases hencode

end Avm
