/-
**The data of the kernel circuits.**

Side effects, call requests, call stack items and the accumulated data that a chain of kernel
iterations passes on, as the circuits' `types` crate declares them.  Each type that an array may
pad comes with its empty value.

A call request is *padding* when it equals the empty request, but the circuits also have a method
`CallRequest::is_empty` that looks at the hash only; the two are kept apart here
(`Noir.isEmpty` and `CallRequest.isEmpty`).

The lengths of the arrays are the constants of the source; the hashes, which are Pedersen and
SHA-256 in the source, are the parameters `KernelHashes`.
-/

import Aztec.NoirArrays

namespace Kernel

open Noir Failing

/-! ### Side effects -/

/-- The trait `Ordered`. -/
class Ordered (T : Type) where
  counter : T → ℕ

structure SideEffect where
  value : Field
  counter : ℕ
  deriving DecidableEq, Repr

instance : Empty SideEffect := ⟨⟨0, 0⟩⟩

instance : Ordered SideEffect := ⟨SideEffect.counter⟩

structure SideEffectLinkedToNoteHash where
  value : Field
  noteHash : Field
  counter : ℕ
  deriving DecidableEq, Repr

instance : Empty SideEffectLinkedToNoteHash := ⟨⟨0, 0, 0⟩⟩

instance : Ordered SideEffectLinkedToNoteHash := ⟨SideEffectLinkedToNoteHash.counter⟩

/-! ### Call requests -/

structure CallerContext where
  msgSender : Field
  storageContractAddress : Field
  deriving DecidableEq, Repr

instance : Empty CallerContext := ⟨⟨0, 0⟩⟩

def CallerContext.isEmpty (c : CallerContext) : Bool :=
  c.msgSender = 0 && c.storageContractAddress = 0

structure CallRequest where
  hash : Field
  callerContractAddress : Field
  callerContext : CallerContext
  startSideEffectCounter : ℕ
  endSideEffectCounter : ℕ
  deriving DecidableEq, Repr

instance : Empty CallRequest := ⟨⟨0, 0, Empty.empty, 0, 0⟩⟩

def CallRequest.isEmpty (r : CallRequest) : Bool := r.hash = 0

@[simp] theorem CallRequest.isEmpty_empty : (Empty.empty : CallRequest).isEmpty = true := rfl

/-! ### Public data -/

structure StorageRead where
  storageSlot : Field
  currentValue : Field
  deriving DecidableEq, Repr

def StorageRead.isEmpty (r : StorageRead) : Bool := r.storageSlot = 0

structure StorageUpdateRequest where
  storageSlot : Field
  newValue : Field
  deriving DecidableEq, Repr

def StorageUpdateRequest.isEmpty (r : StorageUpdateRequest) : Bool := r.storageSlot = 0

instance : Empty StorageUpdateRequest := ⟨⟨0, 0⟩⟩

structure PublicDataRead where
  leafSlot : Field
  value : Field
  deriving DecidableEq, Repr

instance : Empty PublicDataRead := ⟨⟨0, 0⟩⟩

structure PublicDataUpdateRequest where
  leafSlot : Field
  newValue : Field
  deriving DecidableEq, Repr

instance : Empty PublicDataUpdateRequest := ⟨⟨0, 0⟩⟩

structure NewContractData where
  contractAddress : Field
  portalContractAddress : Field
  contractClassId : Field
  deriving DecidableEq, Repr

instance : Empty NewContractData := ⟨⟨0, 0, 0⟩⟩

structure L2ToL1Message where
  recipient : Field
  content : Field
  deriving DecidableEq, Repr

instance : Empty L2ToL1Message := ⟨⟨0, 0⟩⟩

/-! ### Public calls -/

structure CallContext where
  msgSender : Field
  storageContractAddress : Field
  portalContractAddress : Field
  functionSelector : Field
  isDelegateCall : Bool
  isStaticCall : Bool
  isContractDeployment : Bool
  startSideEffectCounter : ℕ
  deriving DecidableEq, Repr

structure FunctionData where
  selector : Field
  isInternal : Bool
  isPrivate : Bool
  isConstructor : Bool
  deriving DecidableEq, Repr

/-- The outputs of the execution of a public function.  Of the header, which only the hash of the
item covers, its own hash is kept. -/
structure PublicCircuitPublicInputs where
  callContext : CallContext
  argsHash : Field
  returnValues : Vector Field 4
  contractStorageUpdateRequests : Vector StorageUpdateRequest 16
  contractStorageReads : Vector StorageRead 16
  publicCallStackHashes : Vector Field 4
  newNoteHashes : Vector SideEffect 16
  newNullifiers : Vector SideEffectLinkedToNoteHash 16
  newL2ToL1Msgs : Vector L2ToL1Message 2
  unencryptedLogsHash : Vector Field 2
  unencryptedLogPreimagesLength : Field
  historicalHeader : Field
  proverAddress : Field

structure PublicCallStackItem where
  contractAddress : Field
  publicInputs : PublicCircuitPublicInputs
  functionData : FunctionData
  isExecutionRequest : Bool

structure PublicCallData where
  callStackItem : PublicCallStackItem
  publicCallStack : Vector CallRequest 4
  portalContractAddress : Field
  bytecodeHash : Field

/-! ### Hashes -/

structure KernelHashes where
  /-- `PublicCallStackItem::hash`. -/
  callStackItem : PublicCallStackItem → Field
  siloNoteHash : Field → Field → Field
  siloNullifier : Field → Field → Field
  computePublicDataTreeIndex : Field → Field → Field
  /-- `compute_l2_to_l1_hash(contract_address, rollup_version_id, chain_id, message)`. -/
  computeL2ToL1Hash : Field → Field → Field → L2ToL1Message → Field
  accumulateSha256 : Vector Field 4 → Vector Field 2

end Kernel
