/-
**Values and memory of the AVM simulator.**

A word of memory is an instance of one of the unsigned integer classes or a field element.  The
integer classes only check that a value is below their modulus, so a value can be negative.  The
memory is a JavaScript array: a place can be a hole, hold the value that is undefined, or a word.
-/

import Mathlib.Data.Int.Bitwise
import Aztec.AvmCodec
import Aztec.AvmNullifiers
import Aztec.PublicKernel

namespace Avm

/-! ### Errors -/

/-- What is thrown.  The first five are the classes of `AvmExecutionError`. -/
inductive Err
  | noBytecodeForContract (contractAddress : Fr)
  | invalidProgramCounter (pc max : ℕ)
  | instructionExecution (message : String)
  | tagCheck (message : String)
  | staticCallStorageAlter
  | assertion (message : String)
  | type
  | range (message : String)
  | error (message : String)
  | codec (e : CodecError)
  deriving DecidableEq, Repr

def Err.isAvmExecutionError : Err → Bool
  | noBytecodeForContract _ | invalidProgramCounter _ _ | instructionExecution _ | tagCheck _
  | staticCallStorageAlter => true
  | assertion _ | type | range _ | error _ | codec _ => false

def assertThat (condition : Bool) (message : String) : Except Err Unit :=
  if condition then .ok () else .error (.assertion message)

/-! ### Integers and field elements -/

namespace BigInt

/-- The number of bits an integer can have in the engine. -/
def maxBits : ℕ := 2 ^ 30

def make (n : ℤ) : Except Err ℤ :=
  if n.natAbs.log2 < maxBits then .ok n else .error (.range "Maximum BigInt size exceeded")

/-- `n << m`; a shift by a negative number goes the other way. -/
def shiftLeft (n m : ℤ) : Except Err ℤ :=
  if 0 ≤ m then
    if n = 0 then .ok 0
    else if maxBits ≤ n.natAbs.log2 + m.toNat then
      .error (.range "Maximum BigInt size exceeded")
    else .ok (n * 2 ^ m.toNat)
  else .ok (n >>> (-m).toNat)

def shiftRight (n m : ℤ) : Except Err ℤ := shiftLeft n (-m)

/-- `n / m`, rounded towards zero. -/
def div (n m : ℤ) : Except Err ℤ :=
  if m = 0 then .error (.range "Division by zero") else .ok (n.tdiv m)

def toBufferBE (n : ℤ) (width : ℕ) : Except Err (List UInt8) :=
  if n < 0 then
    .error (.error s!"Cannot convert negative bigint {n} to buffer with toBufferBE.")
  else .ok (BigEndian.write width n.toNat)

/-- `extendedEuclidean`, for a dividend that is not negative. -/
def extendedEuclidean (a modulus : ℕ) : ℤ × ℤ × ℤ :=
  if h : a = 0 then (modulus, 0, 1)
  else
    have : modulus % a < a := Nat.mod_lt _ (Nat.pos_of_ne_zero h)
    let (gcd, x, y) := extendedEuclidean (modulus % a) a
    (gcd, y - (modulus / a : ℕ) * x, x)
termination_by a

end BigInt

namespace Fr

abbrev MODULUS : ℕ := Kernel.fieldModulus

/-- `new Fr(n)`.  The constructor only checks the upper bound: a negative number is kept, and
stands here above the modulus. -/
def ofBigInt (n : ℤ) : Except Err Fr :=
  if (MODULUS : ℤ) ≤ n then
    .error (.error s!"Value {n} is greater or equal to field modulus.")
  else if 0 ≤ n then .ok n.toNat
  else .ok (MODULUS + (-1 - n).toNat)

def toBigInt (self : Fr) : ℤ :=
  if (self : ℤ) < MODULUS then self else MODULUS - 1 - self

def toBuffer (self : Fr) : Except Err (List UInt8) := BigInt.toBufferBE (toBigInt self) 32

def add (self rhs : Fr) : Except Err Fr := ofBigInt ((toBigInt self + toBigInt rhs).tmod MODULUS)

def sub (self rhs : Fr) : Except Err Fr :=
  let result := toBigInt self - toBigInt rhs
  ofBigInt (if result < 0 then result + MODULUS else result)

def mul (self rhs : Fr) : Except Err Fr := ofBigInt ((toBigInt self * toBigInt rhs).tmod MODULUS)

def isZero (self : Fr) : Except Err Bool := do
  return BigEndian.read (← toBuffer self) = 0

def modInverse (b : ℕ) : Except Err Fr :=
  let (gcd, x, _) := BigInt.extendedEuclidean b MODULUS
  if gcd ≠ 1 then .error (.error "Inverse does not exist")
  else ofBigInt (if 0 < x then x else x + MODULUS)

def div (self rhs : Fr) : Except Err Fr := do
  if ← isZero rhs then throw (.error "Division by zero")
  let bInv ← modInverse (toBigInt rhs).toNat
  mul self bInv

def equals (self rhs : Fr) : Except Err Bool := do
  return (← toBuffer self) = (← toBuffer rhs)

end Fr

/-! ### Memory values -/

inductive UintClass
  | Uint8 | Uint16 | Uint32 | Uint64 | Uint128
  deriving DecidableEq, Repr

namespace UintClass

def bits : UintClass → ℕ
  | Uint8 => 8 | Uint16 => 16 | Uint32 => 32 | Uint64 => 64 | Uint128 => 128

def name : UintClass → String
  | Uint8 => "Uint8" | Uint16 => "Uint16" | Uint32 => "Uint32" | Uint64 => "Uint64"
  | Uint128 => "Uint128"

def tag : UintClass → TypeTag
  | Uint8 => .UINT8 | Uint16 => .UINT16 | Uint32 => .UINT32 | Uint64 => .UINT64
  | Uint128 => .UINT128

def ofTag : TypeTag → Option UintClass
  | .UINT8 => some Uint8 | .UINT16 => some Uint16 | .UINT32 => some Uint32
  | .UINT64 => some Uint64 | .UINT128 => some Uint128
  | .UNINITIALIZED | .FIELD | .INVALID => none

def mod (cls : UintClass) : ℤ := 2 ^ cls.bits

end UintClass

inductive MemoryValue
  | uint (cls : UintClass) (n : ℤ)
  | field (rep : Fr)
  deriving DecidableEq, Repr

namespace MemoryValue

def newUint (cls : UintClass) (n : ℤ) : Except Err MemoryValue := do
  assertThat (decide (n < cls.mod)) s!"Value {n} is too large for {cls.name}."
  return .uint cls n

/-- `build`: a value of the same class. -/
def build (self : MemoryValue) (n : ℤ) : Except Err MemoryValue :=
  match self with
  | uint cls _ => newUint cls n
  | field _ => field <$> Fr.ofBigInt n

def toBigInt : MemoryValue → ℤ
  | uint _ n => n
  | field rep => Fr.toBigInt rep

def toFr (self : MemoryValue) : Except Err Fr := Fr.ofBigInt self.toBigInt

def toBuffer : MemoryValue → Except Err (List UInt8)
  | uint cls n => BigInt.toBufferBE n (cls.bits / 8)
  | field rep => Fr.toBuffer rep

/-- An arithmetic method; the operand may be undefined or an instance of the other kind of class,
whose number is then read from a property it does not have. -/
def arithmetic (onUint : UintClass → ℤ → ℤ → Except Err ℤ) (onField : Fr → Fr → Except Err Fr)
    (self : MemoryValue) (rhs : Option MemoryValue) : Except Err MemoryValue :=
  match self, rhs with
  | uint cls n, some (uint _ m) => do self.build (← onUint cls n m)
  | field rep, some (field rep') => field <$> onField rep rep'
  | _, _ => .error .type

def add : MemoryValue → Option MemoryValue → Except Err MemoryValue :=
  arithmetic (fun cls n m => do return (← BigInt.make (n + m)) % cls.mod) Fr.add

def sub : MemoryValue → Option MemoryValue → Except Err MemoryValue :=
  arithmetic (fun cls n m => do
    let res ← BigInt.make (n - m)
    return if 0 ≤ res then res else res + cls.mod) Fr.sub

def mul : MemoryValue → Option MemoryValue → Except Err MemoryValue :=
  arithmetic (fun cls n m => do return (← BigInt.make (n * m)) % cls.mod) Fr.mul

def div : MemoryValue → Option MemoryValue → Except Err MemoryValue :=
  arithmetic (fun _ n m => BigInt.div n m) Fr.div

def bitwise (onUint : UintClass → ℤ → ℤ → Except Err ℤ) :
    MemoryValue → Option MemoryValue → Except Err MemoryValue :=
  arithmetic onUint (fun _ _ => .error .type)

def and : MemoryValue → Option MemoryValue → Except Err MemoryValue :=
  bitwise fun _ n m => .ok (Int.land n m)

def or : MemoryValue → Option MemoryValue → Except Err MemoryValue :=
  bitwise fun _ n m => .ok (Int.lor n m)

def xor : MemoryValue → Option MemoryValue → Except Err MemoryValue :=
  bitwise fun _ n m => .ok (Int.xor n m)

def shl : MemoryValue → Option MemoryValue → Except Err MemoryValue :=
  bitwise fun cls n m => do return (← BigInt.shiftLeft n m) % cls.mod

def shr : MemoryValue → Option MemoryValue → Except Err MemoryValue :=
  bitwise fun _ n m => BigInt.shiftRight n m

def not : MemoryValue → Except Err MemoryValue
  | uint cls n => newUint cls ((-1 - n) % cls.mod)
  | field _ => .error .type

/-- `equals`.  An integer is compared with a property that a field element does not have. -/
def equals : MemoryValue → Option MemoryValue → Except Err Bool
  | _, none => .error .type
  | uint _ n, some (uint _ m) => .ok (n == m)
  | uint _ _, some (field _) => .ok false
  | field rep, some (field rep') => Fr.equals rep rep'
  | field _, some (uint _ _) => .error .type

def lt : MemoryValue → Option MemoryValue → Except Err Bool
  | _, none => .error .type
  | uint _ n, some (uint _ m) => .ok (decide (n < m))
  | uint _ _, some (field _) => .ok false
  | field _, _ => .error .type

end MemoryValue

/-! ### Tagged memory -/

def TypeTag.name : TypeTag → String
  | UNINITIALIZED => "UNINITIALIZED" | UINT8 => "UINT8" | UINT16 => "UINT16"
  | UINT32 => "UINT32" | UINT64 => "UINT64" | UINT128 => "UINT128" | FIELD => "FIELD"
  | INVALID => "INVALID"

def TypeTag.ofCode : ℕ → Option TypeTag
  | 0 => some UNINITIALIZED | 1 => some UINT8 | 2 => some UINT16 | 3 => some UINT32
  | 4 => some UINT64 | 5 => some UINT128 | 6 => some FIELD | 7 => some INVALID
  | _ => none

def tagName (tag : ℕ) : String := ((TypeTag.ofCode tag).map TypeTag.name).getD "undefined"

/-- An element of a JavaScript array: none for a hole. -/
abbrev Slot (T : Type) := Option T

/-- `map` passes over holes. -/
def mapSlots {S T : Type} (f : S → Except Err T) (slots : List (Slot S)) :
    Except Err (List (Slot T)) :=
  slots.mapM fun slot => match slot with
    | none => .ok none
    | some value => some <$> f value

/-- The places of `slice(start, stop)` in an array; negative places count from its end. -/
def sliceIndices (length : ℕ) (start stop : ℤ) : List ℤ :=
  let relative (k : ℤ) : ℤ := if k < 0 then max (length + k) 0 else min k length
  (List.range (relative stop - relative start).toNat).map fun i => relative start + i

/-- The class `TaggedMemory`.  A place may hold the value that is undefined. -/
structure TaggedMemory where
  mem : ℤ → Slot (Option MemoryValue)
  length : ℕ

namespace TaggedMemory

def empty : TaggedMemory := ⟨fun _ => none, 0⟩

def MAX_MEMORY_SIZE : ℕ := 2 ^ 32 - 2

/-- The assertion that a place is below the size; negative places pass. -/
def assertOffset (offset : ℤ) : Except Err Unit :=
  assertThat (decide (offset.toNat < MAX_MEMORY_SIZE)) ""

def getWord (self : TaggedMemory) (offset : ℤ) : Option MemoryValue := (self.mem offset).join

def get (self : TaggedMemory) (offset : ℤ) : Except Err (Option MemoryValue) := do
  assertOffset offset
  return self.getWord offset

def getSlice (self : TaggedMemory) (offset : ℤ) (size : ℕ) :
    Except Err (List (Slot (Option MemoryValue))) := do
  assertOffset offset
  assertOffset (offset + size)
  return (sliceIndices self.length offset (offset + size)).map self.mem

def set (self : TaggedMemory) (offset : ℤ) (v : Option MemoryValue) : Except Err TaggedMemory := do
  assertOffset offset
  return ⟨Function.update self.mem offset (some v), max self.length (offset + 1).toNat⟩

/-- `setSlice`.  Holes become undefined when the array is spread. -/
def setSlice (self : TaggedMemory) (offset : ℕ) (vs : List (Slot MemoryValue)) :
    Except Err TaggedMemory := do
  assertOffset offset
  assertOffset (offset + vs.length)
  return ⟨fun i =>
      if (offset : ℤ) ≤ i ∧ i < offset + vs.length then some (vs[(i - offset).toNat]?.join)
      else self.mem i,
    max self.length (offset + vs.length)⟩

/-- `getTag` of a word. -/
def tagOf : Option MemoryValue → TypeTag
  | none => .UNINITIALIZED
  | some (.field _) => .FIELD
  | some (.uint cls _) => cls.tag

def getTag (self : TaggedMemory) (offset : ℤ) : TypeTag := tagOf (self.getWord offset)

def checkTag (self : TaggedMemory) (tag : ℕ) (offset : ℤ) : Except Err Unit :=
  if (self.getTag offset).code ≠ tag then
    .error (.tagCheck (s!"Tag mismatch at offset {offset}, got {(self.getTag offset).name}, " ++
      s!"expected {tagName tag}"))
  else .ok ()

def checkTags (self : TaggedMemory) (tag : ℕ) (offsets : List ℤ) : Except Err Unit :=
  offsets.forM fun offset => self.checkTag tag offset

def checkIsIntegralTag (tag : ℕ) : Except Err Unit :=
  if ((TypeTag.ofCode tag).bind UintClass.ofTag).isNone then
    .error (.tagCheck s!"Tag mismatch, got {tagName tag}, expected integral")
  else .ok ()

def integralFromTag (v : ℤ) (tag : ℕ) : Except Err MemoryValue :=
  match (TypeTag.ofCode tag).bind UintClass.ofTag with
  | some cls => MemoryValue.newUint cls (v % cls.mod)
  | none => .error (.error s!"{tagName tag} is not a valid integral type.")

end TaggedMemory

/-! ### Indirect addressing -/

/-- `Addressing.fromWire(indirect).resolve`, for the first operands of an instruction: a bit of the
byte says that the operand is the place of its offset. -/
def resolve (indirect : ℕ) (offsets : List ℕ) (mem : TaggedMemory) : Except Err (List ℤ) :=
  offsets.zipIdx.mapM fun (offset, i) =>
    if indirect.testBit i then do
      mem.checkTag TypeTag.UINT32.code offset
      match ← mem.get offset with
      | none => throw .type
      | some word => return word.toBigInt
    else .ok (offset : ℤ)

end Avm
