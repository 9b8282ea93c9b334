/-
**The interpreter of the AVM simulator.**

A context runs one contract: it has the journal of the call, an environment that does not change and
a machine state.  A nested call runs the bytecode of its contract in a context of its own, with a
fork of the journal.  The loop of a call and the depth of nested calls have a bound, beyond which
an execution counts as one that does not finish.
-/

import Aztec.AvmMemory
import Aztec.StatefulComputations

namespace Avm

/-! ### Contexts -/

structure Globals where
  chainId : Fr
  version : Fr
  blockNumber : Fr
  timestamp : Fr

/-- The class `AvmExecutionEnvironment`. -/
structure ExecutionEnvironment where
  address : Fr
  storageAddress : Fr
  origin : Fr
  sender : Fr
  portal : Fr
  feePerL1Gas : Fr
  feePerL2Gas : Fr
  feePerDaGas : Fr
  contractCallDepth : Fr
  globals : Globals
  isStaticCall : Bool
  isDelegateCall : Bool
  calldata : List (Slot Fr)
  temporaryFunctionSelector : ℕ

namespace ExecutionEnvironment

def deriveEnvironmentForNestedCall (self : ExecutionEnvironment) (address : Fr)
    (calldata : List (Slot Fr)) : ExecutionEnvironment :=
  { self with address := address, storageAddress := address, calldata := calldata }

def deriveEnvironmentForNestedStaticCall (self : ExecutionEnvironment) (address : Fr)
    (calldata : List (Slot Fr)) : ExecutionEnvironment :=
  { self with
    address := address
    storageAddress := address
    isStaticCall := true
    calldata := calldata }

end ExecutionEnvironment

/-- The class `AvmMachineState`.  The top of the stack is the head of the list. -/
structure MachineState where
  pc : ℕ
  internalCallStack : List ℕ
  memory : TaggedMemory
  halted : Bool
  reverted : Bool
  output : List (Slot Fr)

def MachineState.new : MachineState := ⟨0, [], .empty, false, false, []⟩

/-- The class `AvmContext`, with the journal its own was forked from. -/
structure Context where
  parent : Option StateManager
  persistableState : StateManager
  environment : ExecutionEnvironment
  machineState : MachineState

namespace Context

def createNestedContractCallContext (self : Context) (address : Fr) (calldata : List (Slot Fr)) :
    Context :=
  { parent := some self.persistableState
    persistableState := self.persistableState.fork
    environment := self.environment.deriveEnvironmentForNestedCall address calldata
    machineState := .new }

def createNestedContractStaticCallContext (self : Context) (address : Fr)
    (calldata : List (Slot Fr)) : Context :=
  { parent := some self.persistableState
    persistableState := self.persistableState.fork
    environment := self.environment.deriveEnvironmentForNestedStaticCall address calldata
    machineState := .new }

end Context

structure ContractCallResults where
  reverted : Bool
  output : List (Slot Fr)
  revertReason : Option Err

/-- `toString`: the text has the buffers of the elements of the output in it. -/
def ContractCallResults.toString (self : ContractCallResults) :
    Except Err (List (Slot (List UInt8))) :=
  mapSlots Fr.toBuffer self.output

/-- What a call of the machine does: it changes the context and may throw. -/
abbrev Exec := Stateful Err Context

/-- What instructions call that is not part of the simulator. -/
structure Environs where
  host : HostStorage
  siloNullifier : Fr → Fr → Fr
  /-- The hash functions, of the buffers of an array that may have holes. -/
  hash : Hashing → List (Slot (List UInt8)) → Except Err ℕ

/-! ### Access to the context -/

def onWord {α : Type} (method : MemoryValue → Except Err α) : Option MemoryValue → Except Err α
  | none => .error .type
  | some word => method word

def getMemory : Exec TaggedMemory := do
  return (← get).machineState.memory

def readMemory {α : Type} (method : TaggedMemory → Except Err α) : Exec α := do
  Stateful.liftExcept (method (← getMemory))

def modifyMachine (f : MachineState → MachineState) : Exec Unit :=
  modify fun context => { context with machineState := f context.machineState }

def writeMemory (method : TaggedMemory → Except Err TaggedMemory) : Exec Unit := do
  let memory ← readMemory method
  modifyMachine fun state => { state with memory := memory }

def incrementPc : Exec Unit := modifyMachine fun state => { state with pc := state.pc + 1 }

def setPc (pc : ℕ) : Exec Unit := modifyMachine fun state => { state with pc := pc }

def modifyJournal (f : StateManager → StateManager) : Exec Unit :=
  modify fun context => { context with persistableState := f context.persistableState }

/-- The check of the instructions that alter the state. -/
def assertNotStatic : Exec Unit := do
  if (← get).environment.isStaticCall then throw .staticCallStorageAlter

/-! ### Instructions -/

namespace ThreeOperand

def checksTags : ThreeOperand → Bool
  | Add | Sub | Mul | Div => false
  | Eq | Lt | Lte | And | Or | Xor | Shl | Shr => true

def checksIntegralTag : ThreeOperand → Bool
  | Lt | Lte => true
  | Add | Sub | Mul | Div | Eq | And | Or | Xor | Shl | Shr => false

/-- The method the instruction calls, on the first operand and with the second. -/
def method : ThreeOperand → MemoryValue → Option MemoryValue → Except Err MemoryValue
  | Add, a, b => a.add b
  | Sub, a, b => a.sub b
  | Mul, a, b => a.mul b
  | Div, a, b => a.div b
  | Eq, a, b => do a.build (if ← a.equals b then 1 else 0)
  | Lt, a, b => do a.build (if ← a.lt b then 1 else 0)
  | Lte, a, b => do
    if ← a.equals b then a.build 1
    else a.build (if ← a.lt b then 1 else 0)
  | And, a, b => a.and b
  | Or, a, b => a.or b
  | Xor, a, b => a.xor b
  | Shl, a, b => a.shl b
  | Shr, a, b => a.shr b

end ThreeOperand

def Getter.getIt (env : ExecutionEnvironment) : Getter → Fr
  | Address => env.address
  | StorageAddress => env.storageAddress
  | Origin => env.origin
  | Sender => env.sender
  | Portal => env.portal
  | FeePerL1Gas => env.feePerL1Gas
  | FeePerL2Gas => env.feePerL2Gas
  | FeePerDAGas => env.feePerDaGas
  | ChainId => env.globals.chainId
  | Version => env.globals.version
  | BlockNumber => env.globals.blockNumber
  | Timestamp => env.globals.timestamp

def Operand.toInt : Operand → ℤ
  | number n => n
  | bigint n => n

def invalidSetTags : List ℕ := [TypeTag.FIELD.code, TypeTag.UNINITIALIZED.code, TypeTag.INVALID.code]

/-- How a hash instruction stores its result: the two byte-oriented hashes resolve the place and
store two words. -/
def Hashing.storesTwoWords : Hashing → Bool
  | Keccak | Sha256 => true
  | Poseidon2 | Pedersen => false

section Execution

variable (environs : Environs) (nested : Context → Option (Except Err ContractCallResults × Context))

/-- `await new AvmSimulator(nestedContext).execute()`. -/
def runNested (nestedContext : Context) : Exec (ContractCallResults × Context) := fun context =>
  match nested nestedContext with
  | none => none
  | some (.error e, _) => some (.error e, context)
  | some (.ok results, nestedContext) => some (.ok (results, nestedContext), context)

def callArguments (addrOffset argsOffset argsSize : ℕ) (memory : TaggedMemory) :
    Except Err (Fr × List (Slot Fr)) := do
  let callAddress ← memory.get addrOffset
  let args ← memory.getSlice argsOffset argsSize
  let calldata ← mapSlots (onWord MemoryValue.toFr) args
  let address ← onWord MemoryValue.toFr callAddress
  return (address, calldata)

/-- What `Call` and `StaticCall` do once the nested call has returned. -/
def finishCall (retOffset retSize successOffset : ℕ) (results : ContractCallResults)
    (nestedContext : Context) : Exec Unit := do
  let success := !results.reverted
  let returnData := results.output.take retSize
  let convertedReturnData := returnData.map fun f => f.map MemoryValue.field
  writeMemory fun memory => memory.set successOffset (some (.field (if success then 1 else 0)))
  writeMemory fun memory => memory.setSlice retOffset convertedReturnData
  if success then
    modifyJournal fun journal => journal.acceptNestedCallState nestedContext.persistableState
  else
    modifyJournal fun journal => journal.rejectNestedCallState nestedContext.persistableState
  incrementPc

/-- `execute` of `Call` and `StaticCall`, with the way the nested context is created. -/
def externalCall (create : Context → Fr → List (Slot Fr) → Context)
    (addrOffset argsOffset argsSize retOffset retSize successOffset : ℕ) : Exec Unit := do
  let (address, calldata) ← readMemory (callArguments addrOffset argsOffset argsSize)
  let context ← get
  let (results, nestedContext) ← runNested nested (create context address calldata)
  finishCall retOffset retSize successOffset results nestedContext

def ThreeOperand.dest (cls : ThreeOperand) (inTag aOffset bOffset : ℕ) (memory : TaggedMemory) :
    Except Err MemoryValue := do
  if cls.checksTags then memory.checkTags inTag [(aOffset : ℤ), (bOffset : ℤ)]
  if cls.checksIntegralTag then TaggedMemory.checkIsIntegralTag inTag
  let a ← memory.get aOffset
  let b ← memory.get bOffset
  onWord (fun a => cls.method a b) a

def TwoOperand.dest (cls : TwoOperand) (inTag aOffset : ℕ) (memory : TaggedMemory) :
    Except Err MemoryValue :=
  match cls with
  | .Not => do
    memory.checkTags inTag [(aOffset : ℤ)]
    onWord MemoryValue.not (← memory.get aOffset)
  | .Cast => do
    let a ← memory.get aOffset
    if inTag = TypeTag.FIELD.code then
      onWord (fun a => MemoryValue.field <$> Fr.ofBigInt a.toBigInt) a
    else onWord (fun a => TaggedMemory.integralFromTag a.toBigInt inTag) a

/-- The places of a hash instruction that are resolved, with the place of the result last. -/
def Hashing.resolved (cls : Hashing) (dstOffset hashOffset : ℕ) : List ℕ :=
  if cls.storesTwoWords then [hashOffset, dstOffset] else [hashOffset]

/-- The place of the result of a hash instruction and the result. -/
def Hashing.dest (cls : Hashing) (indirect dstOffset hashOffset hashSize : ℕ)
    (memory : TaggedMemory) : Except Err (ℤ × ℕ) := do
  let offsets ← resolve indirect (cls.resolved dstOffset hashOffset) memory
  let hashData ← memory.getSlice (offsets.headD 0) hashSize
  let buffers ← mapSlots (onWord MemoryValue.toBuffer) hashData
  let digest ← environs.hash cls buffers
  return (offsets.getD 1 dstOffset, digest)

/-- The places `Mov` reads from and writes to, and the word. -/
def movArguments (indirect srcOffset dstOffset : ℕ) (memory : TaggedMemory) :
    Except Err (Option MemoryValue × ℤ) := do
  let offsets ← resolve indirect [srcOffset, dstOffset] memory
  let a ← memory.get (offsets.headD 0)
  return (a, offsets.getD 1 0)

def wordToFr (offset : ℕ) (memory : TaggedMemory) : Except Err Fr := do
  onWord MemoryValue.toFr (← memory.get offset)

/-- The word `CMov` copies. -/
def cMovWord (aOffset bOffset condOffset : ℕ) (memory : TaggedMemory) :
    Except Err (Option MemoryValue) := do
  let a ← memory.get aOffset
  let b ← memory.get bOffset
  let cond ← memory.get condOffset
  onWord (fun cond => .ok (if 0 < cond.toBigInt then a else b)) cond

/-- The number `JumpI` looks at. -/
def jumpCondition (condOffset : ℕ) (memory : TaggedMemory) : Except Err ℤ := do
  onWord (fun word => .ok word.toBigInt) (← memory.get condOffset)

/-- The slot and the value of `SStore`. -/
def sStoreArguments (aOffset bOffset : ℕ) (memory : TaggedMemory) : Except Err (Fr × Fr) := do
  let slot ← memory.get aOffset
  let data ← memory.get bOffset
  return (← onWord MemoryValue.toFr slot, ← onWord MemoryValue.toFr data)

def ThreeOperand.execute (cls : ThreeOperand) (inTag aOffset bOffset dstOffset : ℕ) : Exec Unit := do
  let dest ← readMemory (cls.dest inTag aOffset bOffset)
  writeMemory fun memory => memory.set dstOffset (some dest)
  incrementPc

/-- `execute` of `Not` and `Cast`. -/
def TwoOperand.execute (cls : TwoOperand) (inTag aOffset dstOffset : ℕ) : Exec Unit := do
  let dest ← readMemory (cls.dest inTag aOffset)
  writeMemory fun memory => memory.set dstOffset (some dest)
  incrementPc

def Hashing.execute (cls : Hashing) (indirect dstOffset hashOffset hashSize : ℕ) : Exec Unit := do
  let (dst, digest) ← readMemory (cls.dest environs indirect dstOffset hashOffset hashSize)
  if cls.storesTwoWords then
    writeMemory fun memory => memory.set dst (some (.field (digest / 2 ^ 128)))
    writeMemory fun memory => memory.set (dst + 1) (some (.field (digest % 2 ^ 128)))
  else
    writeMemory fun memory => memory.set dst (some (.field digest))
  incrementPc

def duplicateNullifier (nullifier storageAddress : Fr) : Err :=
  .instructionExecution (s!"Attempted to emit duplicate nullifier {nullifier} " ++
    s!"(storage address: {storageAddress}).")

/-- `execute` of `EmitNullifier`.  The buffers of the two numbers are needed by the hash that silos
the nullifier, and by the message when the nullifier is pending. -/
def executeEmitNullifier (nullifierOffset : ℕ) : Exec Unit := do
  assertNotStatic
  let nullifier ← readMemory (wordToFr nullifierOffset)
  let context ← get
  let storageAddress := context.environment.storageAddress
  let _ ← Stateful.liftExcept (Fr.toBuffer storageAddress)
  let _ ← Stateful.liftExcept (Fr.toBuffer nullifier)
  if context.persistableState.checkNullifierExists environs.siloNullifier environs.host
      context.parent storageAddress nullifier then
    throw (duplicateNullifier nullifier storageAddress)
  match context.persistableState.writeNullifier environs.siloNullifier environs.host
      context.parent storageAddress nullifier with
  | .error _ => throw (duplicateNullifier nullifier storageAddress)
  | .ok journal => modifyJournal fun _ => journal
  incrementPc

def sliceToFr (offset size : ℕ) (memory : TaggedMemory) : Except Err (List (Slot Fr)) := do
  mapSlots (onWord MemoryValue.toFr) (← memory.getSlice offset size)

def Instruction.execute : Instruction → Exec Unit
  | .threeOperand cls _ inTag aOffset bOffset dstOffset =>
    cls.execute inTag aOffset bOffset dstOffset
  | .twoOperand cls _ inTag aOffset dstOffset => cls.execute inTag aOffset dstOffset
  | .getter cls _ dstOffset => do
    let res := cls.getIt (← get).environment
    writeMemory fun memory => memory.set dstOffset (some (.field res))
    incrementPc
  | .calldataCopy _ cdOffset copySize dstOffset => do
    let transformedData := (((← get).environment.calldata.drop cdOffset).take copySize).map
      fun f => f.map MemoryValue.field
    writeMemory fun memory => memory.setSlice dstOffset transformedData
    incrementPc
  | .jump jumpOffset => setPc jumpOffset
  | .jumpI _ loc condOffset => do
    let condition ← readMemory (jumpCondition condOffset)
    if condition = 0 then incrementPc else setPc loc
  | .internalCall loc => do
    modifyMachine fun state =>
      { state with internalCallStack := (state.pc + 1) :: state.internalCallStack }
    setPc loc
  | .internalReturn => do
    match (← get).machineState.internalCallStack with
    | [] => throw (.instructionExecution "Internal call empty!")
    | jumpOffset :: stack =>
      modifyMachine fun state => { state with internalCallStack := stack }
      setPc jumpOffset
  | .set _ inTag value dstOffset => do
    if inTag ∈ invalidSetTags then
      throw (.instructionExecution s!"Invalid tag {tagName inTag} for SET.")
    let res ← Stateful.liftExcept (TaggedMemory.integralFromTag value.toInt inTag)
    writeMemory fun memory => memory.set dstOffset (some res)
    incrementPc
  | .mov indirect srcOffset dstOffset => do
    let (a, dst) ← readMemory (movArguments indirect srcOffset dstOffset)
    writeMemory fun memory => memory.set dst a
    incrementPc
  | .cMov _ aOffset bOffset condOffset dstOffset => do
    let word ← readMemory (cMovWord aOffset bOffset condOffset)
    writeMemory fun memory => memory.set dstOffset word
    incrementPc
  | .sLoad _ aOffset bOffset => do
    let slot ← readMemory (wordToFr aOffset)
    let context ← get
    let (data, journal) := context.persistableState.readStorage environs.host context.parent
      context.environment.storageAddress slot
    modifyJournal fun _ => journal
    writeMemory fun memory => memory.set bOffset (some (.field data))
    incrementPc
  | .sStore _ aOffset bOffset => do
    assertNotStatic
    let (slot, data) ← readMemory (sStoreArguments aOffset bOffset)
    let storageAddress := (← get).environment.storageAddress
    modifyJournal fun journal => journal.writeStorage storageAddress slot data
    incrementPc
  | .emitNoteHash _ noteHashOffset => do
    assertNotStatic
    let noteHash ← readMemory (wordToFr noteHashOffset)
    modifyJournal fun journal => journal.writeNoteHash noteHash
    incrementPc
  | .emitNullifier _ nullifierOffset => executeEmitNullifier environs nullifierOffset
  | .emitUnencryptedLog _ logOffset logSize => do
    assertNotStatic
    let log ← readMemory (sliceToFr logOffset logSize)
    modifyJournal fun journal => journal.writeLog log
    incrementPc
  | .sendL2ToL1Message _ msgOffset msgSize => do
    assertNotStatic
    let msg ← readMemory (sliceToFr msgOffset msgSize)
    modifyJournal fun journal => journal.writeL1Message msg
    incrementPc
  | .call _ _ addrOffset argsOffset argsSize retOffset retSize successOffset =>
    externalCall nested Context.createNestedContractCallContext addrOffset argsOffset argsSize
      retOffset retSize successOffset
  | .staticCall _ _ addrOffset argsOffset argsSize retOffset retSize successOffset =>
    externalCall nested Context.createNestedContractStaticCallContext addrOffset argsOffset
      argsSize retOffset retSize successOffset
  | .ret _ returnOffset copySize => do
    let output ← readMemory (sliceToFr returnOffset copySize)
    modifyMachine fun state => { state with halted := true, output := output }
  -- The second argument of the slice should be the size and is the end.
  | .revert _ returnOffset retSize => do
    let output ← readMemory (sliceToFr returnOffset (returnOffset + retSize))
    modifyMachine fun state => { state with halted := true, reverted := true, output := output }
  | .hashing cls indirect dstOffset hashOffset hashSize =>
    cls.execute environs indirect dstOffset hashOffset hashSize

/-! ### The simulator -/

def loop (instructions : List Instruction) : ℕ → Exec Unit
  | 0 => Stateful.diverge
  | steps + 1 => do
    if (← get).machineState.halted then return
    match instructions[(← get).machineState.pc]? with
    | none => throw (.assertion "")
    | some instruction =>
      instruction.execute environs nested
      let pc := (← get).machineState.pc
      if instructions.length ≤ pc then
        throw (.invalidProgramCounter pc instructions.length)
      loop instructions steps

def executeInstructions (instructions : List Instruction) (steps : ℕ) :
    Exec ContractCallResults := do
  Stateful.liftExcept (assertThat (decide (0 < instructions.length)) "")
  tryCatch
    (do
      loop environs nested instructions steps
      let state := (← get).machineState
      let results : ContractCallResults := ⟨state.reverted, state.output, none⟩
      let _ ← Stateful.liftExcept results.toString
      return results)
    (fun e => do
      if !e.isAvmExecutionError then throw e
      return { reverted := true, output := [], revertReason := some e })

end Execution

def fetchAndDecodeBytecode (environs : Environs) : Exec (List Instruction) := do
  let environment := (← get).environment
  match environs.host.getBytecode environment.address environment.temporaryFunctionSelector with
  | none =>
    -- The text of the error has the address in it.
    let _ ← Stateful.liftExcept (Fr.toBuffer environment.address)
    throw (.noBytecodeForContract environment.address)
  | some bytecode =>
    Stateful.liftExcept ((decodeFromBytecode bytecode).mapError Err.codec)

/-- `execute`, for at most a number of nested calls and of instructions in each of them. -/
def execute (environs : Environs) : ℕ → Exec ContractCallResults
  | 0 => Stateful.diverge
  | fuel + 1 => do
    let instructions ← fetchAndDecodeBytecode environs
    executeInstructions environs (execute environs fuel) instructions fuel

end Avm
