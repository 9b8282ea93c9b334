/-
**The private kernel circuits.**

A transaction's private calls are verified one by one: the init circuit takes the call of the
transaction request, every inner circuit pops a call request from the private call stack and takes
the call it asks for, and the tail circuit closes the chain when the stack is empty.  Each of the
first two appends the call's side effects to the accumulated data and pushes the call's own
requests, private and public ones, onto the two stacks.

The proofs of the calls are mocked in the source and are not modelled; the hashes and the curve
operations are the parameters `PrivateKernelHashes`.
-/

import Aztec.PublicKernel
import Aztec.SortedCounters

namespace PrivateKernel

open Noir Failing Kernel

/-! ### The data of a private call -/

structure NullifierKeyValidationRequest where
  publicKeyX : Field
  publicKeyY : Field
  secretKeyHigh : Field
  secretKeyLow : Field
  deriving DecidableEq, Repr

instance : Empty NullifierKeyValidationRequest := ⟨⟨0, 0, 0, 0⟩⟩

def NullifierKeyValidationRequest.toContext (r : NullifierKeyValidationRequest)
    (contractAddress : Field) : NullifierKeyValidationRequestContext :=
  ⟨r.publicKeyX, r.publicKeyY, r.secretKeyHigh, r.secretKeyLow, contractAddress⟩

structure ContractDeploymentData where
  publicKeyX : Field
  publicKeyY : Field
  initializationHash : Field
  contractClassId : Field
  contractAddressSalt : Field
  portalContractAddress : Field
  deriving DecidableEq, Repr

structure TxContext where
  isFeePaymentTx : Bool
  isRebatePaymentTx : Bool
  isContractDeploymentTx : Bool
  contractDeploymentData : ContractDeploymentData
  chainId : Field
  version : Field
  deriving DecidableEq, Repr

structure TxRequest where
  origin : Field
  argsHash : Field
  txContext : TxContext
  functionData : FunctionData
  deriving DecidableEq, Repr

/-- The header of the block on whose state the transaction was executed: the two roots the circuits
compare, and the rest of it. -/
structure Header where
  contractTreeRoot : Field
  noteHashTreeRoot : Field
  rest : Field
  deriving DecidableEq, Repr

structure PrivateCircuitPublicInputs where
  callContext : CallContext
  argsHash : Field
  returnValues : Vector Field 4
  minRevertibleSideEffectCounter : ℕ
  readRequests : Vector SideEffect 32
  nullifierKeyValidationRequests : Vector NullifierKeyValidationRequest 1
  newNoteHashes : Vector SideEffect 16
  newNullifiers : Vector SideEffectLinkedToNoteHash 16
  privateCallStackHashes : Vector Field 4
  publicCallStackHashes : Vector Field 4
  newL2ToL1Msgs : Vector L2ToL1Message 2
  endSideEffectCounter : ℕ
  encryptedLogsHash : Vector Field 2
  unencryptedLogsHash : Vector Field 2
  encryptedLogPreimagesLength : Field
  unencryptedLogPreimagesLength : Field
  historicalHeader : Header
  contractDeploymentData : ContractDeploymentData
  chainId : Field
  version : Field

structure PrivateCallStackItem where
  contractAddress : Field
  functionData : FunctionData
  publicInputs : PrivateCircuitPublicInputs

structure ReadRequestMembershipWitness where
  leafIndex : Field
  siblingPath : Vector Field 32
  isTransient : Bool

/-- A private call with what its verification needs.  The verification key is kept as a field
element, and the path of the function in its contract class as a list. -/
structure PrivateCallData where
  callStackItem : PrivateCallStackItem
  privateCallStack : Vector CallRequest 4
  publicCallStack : Vector CallRequest 4
  vk : Field
  saltedInitializationHash : Field
  publicKeysHash : Field
  contractClassArtifactHash : Field
  contractClassPublicBytecodeCommitment : Field
  functionLeafIndex : Field
  functionLeafSiblingPath : List Field
  readRequestMembershipWitnesses : Vector ReadRequestMembershipWitness 32
  portalContractAddress : Field

structure PrivateKernelHashes where
  /-- `PrivateCallStackItem::hash`. -/
  callStackItem : PrivateCallStackItem → Field
  functionData : FunctionData → Field
  txRequest : TxRequest → Field
  siloNoteHash : Field → Field → Field
  siloNullifier : Field → Field → Field
  /-- `compute_l2_to_l1_hash(contract_address, rollup_version_id, chain_id, message)`. -/
  computeL2ToL1Hash : Field → Field → Field → L2ToL1Message → Field
  accumulateSha256 : Vector Field 4 → Vector Field 2
  readRequestRootFromSiblings : Field → Field → Vector Field 32 → Field
  computeInitializationHash : Field → Field → Field
  /-- `AztecAddress::compute_from_public_key`. -/
  computeFromPublicKey : ContractDeploymentData → Field
  computeNewContractAddressHash : Field → Field
  compressVk : Field → Field
  privateFunctionsRootFromSiblings : Field → Field → Field → List Field → Field
  /-- `ContractClassId::compute`. -/
  computeContractClassId : Field → Field → Field → Field
  /-- `PartialAddress::compute_from_salted_initialization_hash`. -/
  computePartialAddress : Field → Field → Field
  /-- `AztecAddress::compute`. -/
  computeAddress : Field → Field → Field
  /-- `GrumpkinPrivateKey::derive_public_key`, of the two halves of the key. -/
  derivePublicKey : Field × Field → Field × Field
  computeSiloedNullifierSecretKey : Field × Field → Field → Field × Field
  computeNoteHashNonce : Field → Field → Field
  computeUniqueSiloedNoteHash : Field → Field → Field

/-! ### The accumulated data -/

def finish (b : CombinedBuilder) : CombinedData :=
  { readRequests := b.readRequests.storage
    nullifierKeyValidationRequests := b.nullifierKeyValidationRequests.storage
    newNoteHashes := b.newNoteHashes.storage
    newNullifiers := b.newNullifiers.storage
    privateCallStack := b.privateCallStack.storage
    publicCallStack := b.publicCallStack.storage
    newL2ToL1Msgs := b.newL2ToL1Msgs.storage
    encryptedLogsHash := b.encryptedLogsHash
    unencryptedLogsHash := b.unencryptedLogsHash
    encryptedLogPreimagesLength := b.encryptedLogPreimagesLength
    unencryptedLogPreimagesLength := b.unencryptedLogPreimagesLength
    newContracts := b.newContracts.storage
    publicDataUpdateRequests := b.publicDataUpdateRequests.storage
    publicDataReads := b.publicDataReads.storage }

def zeroedBuilder : CombinedBuilder :=
  ⟨zeroedVec, zeroedVec, zeroedVec, zeroedVec, zeroedVec, zeroedVec, zeroedVec,
    Vector.replicate 2 0, Vector.replicate 2 0, 0, 0, zeroedVec, zeroedVec, zeroedVec⟩

structure ConstantData where
  historicalHeader : Header
  txContext : TxContext
  deriving DecidableEq, Repr

/-- `PrivateKernelInnerCircuitPublicInputs`. -/
structure InnerPublicInputs where
  minRevertibleSideEffectCounter : ℕ
  «end» : CombinedData
  constants : ConstantData
  isPrivate : Bool

/-- `PrivateKernelCircuitPublicInputsBuilder`. -/
structure Builder where
  minRevertibleSideEffectCounter : ℕ
  «end» : CombinedBuilder
  constants : ConstantData
  isPrivate : Bool

def Builder.toInner (b : Builder) : InnerPublicInputs :=
  ⟨b.minRevertibleSideEffectCounter, finish b.end, b.constants, b.isPrivate⟩

def Builder.toTail (b : Builder) : Circuit KernelPublicInputs :=
  Kernel.toTail b.end b.minRevertibleSideEffectCounter
    ⟨b.constants.txContext.version, b.constants.txContext.chainId⟩

/-! ### Checks common to the circuits -/

/-- `validate_array`: the last non-empty place does not come after the first empty one. -/
def validateArray {T : Type} [DecidableEq T] [Empty T] {n : ℕ} (array : Vector T n) :
    Circuit Unit :=
  let (firstZeroPos, lastNonZeroPos) := array.toList.zipIdx.foldl
    (fun (s : ℕ × ℕ) item =>
      if !isEmpty item.1 then (s.1, item.2)
      else if s.1 = n then (item.2, s.2) else s)
    (n, 0)
  assert (lastNonZeroPos ≤ firstZeroPos) "invalid array"

def validateArrays (app : PrivateCircuitPublicInputs) : Circuit Unit := do
  validateArray app.returnValues
  validateArray app.readRequests
  validateArray app.nullifierKeyValidationRequests
  validateArray app.newNoteHashes
  validateArray app.newNullifiers
  validateArray app.privateCallStackHashes
  validateArray app.publicCallStackHashes
  validateArray app.newL2ToL1Msgs

def validateReadRequests (hashes : PrivateKernelHashes) (historicalNoteHashTreeRoot : Field)
    (readRequests : Vector SideEffect 32) (witnesses : Vector ReadRequestMembershipWitness 32) :
    Circuit Unit :=
  (readRequests.toList.zip witnesses.toList).forM fun item =>
    if item.1.value ≠ 0 ∧ item.2.isTransient = false then
      assert (hashes.readRequestRootFromSiblings item.1.value item.2.leafIndex
        item.2.siblingPath = historicalNoteHashTreeRoot) "note hash tree root mismatch"
    else return ()

/-- `initialize_end_values` of `common.nr`, onto the zeroed builder. -/
def initializeEndValues (previous : InnerPublicInputs) : Builder :=
  { constants := previous.constants
    minRevertibleSideEffectCounter := previous.minRevertibleSideEffectCounter
    isPrivate := true
    «end» :=
      { zeroedBuilder with
        readRequests := arrayToBoundedVec previous.end.readRequests
        nullifierKeyValidationRequests :=
          arrayToBoundedVec previous.end.nullifierKeyValidationRequests
        newNoteHashes := arrayToBoundedVec previous.end.newNoteHashes
        newNullifiers := arrayToBoundedVec previous.end.newNullifiers
        privateCallStack := arrayToBoundedVec previous.end.privateCallStack
        publicCallStack := arrayToBoundedVec previous.end.publicCallStack
        newL2ToL1Msgs := arrayToBoundedVec previous.end.newL2ToL1Msgs
        encryptedLogsHash := previous.end.encryptedLogsHash
        unencryptedLogsHash := previous.end.unencryptedLogsHash
        encryptedLogPreimagesLength := previous.end.encryptedLogPreimagesLength
        unencryptedLogPreimagesLength := previous.end.unencryptedLogPreimagesLength
        newContracts := arrayToBoundedVec previous.end.newContracts } }

def isEmptyArray {T : Type} [DecidableEq T] [Empty T] {n : ℕ} (array : Vector T n) : Bool :=
  array.toList.all isEmpty

def performStaticCallChecks (privateCall : PrivateCallData) : Circuit Unit :=
  let publicInputs := privateCall.callStackItem.publicInputs
  if publicInputs.callContext.isStaticCall then do
    assert (isEmptyArray publicInputs.newNoteHashes)
      "new_note_hashes must be empty for static calls"
    assert (isEmptyArray publicInputs.newNullifiers)
      "new_nullifiers must be empty for static calls"
    assert (arrayLength publicInputs.newL2ToL1Msgs = 0)
      "new_l2_to_l1_msgs must be empty for static calls"
    assert (publicInputs.encryptedLogPreimagesLength = 4)
      "No encrypted logs are allowed for static calls"
    assert (publicInputs.unencryptedLogPreimagesLength = 4)
      "No unencrypted logs are allowed for static calls"
  else return ()

def isValidCaller (request : CallRequest) (privateCall : PrivateCallData) : Bool :=
  let callContext := privateCall.callStackItem.publicInputs.callContext
  let validCallerContext :=
    request.callerContext.msgSender = callContext.msgSender &&
      request.callerContext.storageContractAddress = callContext.storageContractAddress
  request.callerContractAddress = privateCall.callStackItem.contractAddress &&
    (request.callerContext.isEmpty || validCallerContext)

def validateCallRequests {n : ℕ} (callRequests : BoundedVec CallRequest n)
    (hashes : Vector Field n) (privateCall : PrivateCallData) : Circuit Unit := do
  assert (arrayLength hashes = callRequests.len)
    "call requests length does not match the expected length"
  (List.range n).forM fun i => do
    let hash ← get hashes i
    if hash ≠ 0 then
      let request ← get callRequests.storage i
      assert (request.hash = hash) "call stack hash does not match call request hash"
      assert (isValidCaller request privateCall) "invalid caller"

/-- `compute_logs_hash`.  The conversions to `U128` reject values of more than 128 bits. -/
def computeLogsHash (hashes : PrivateKernelHashes) (previous current : Vector Field 2) :
    Circuit (Vector Field 2) := do
  let limbs := previous ++ current
  limbs.toList.forM fun limb => assert (limb < 2 ^ 128) "call to assert_max_bit_size"
  return hashes.accumulateSha256 limbs

section Common

variable (hashes : PrivateKernelHashes) (privateCall : PrivateCallData)

def pushReadRequests (target : BoundedVec SideEffect 128) : Circuit (BoundedVec SideEffect 128) :=
  let publicInputs := privateCall.callStackItem.publicInputs
  propagate 32 (publicInputs.readRequests.zip privateCall.readRequestMembershipWitnesses)
    (fun item => !(item.2.isTransient && item.1.value ≠ 0))
    (fun item =>
      { counter := item.1.counter
        value := hashes.siloNoteHash publicInputs.callContext.storageContractAddress item.1.value })
    target

def pushNullifierKeyValidationRequests
    (target : BoundedVec NullifierKeyValidationRequestContext 4) :
    Circuit (BoundedVec NullifierKeyValidationRequestContext 4) :=
  let publicInputs := privateCall.callStackItem.publicInputs
  publicInputs.nullifierKeyValidationRequests.toList.foldlM
    (fun target request =>
      if isEmpty request then return target
      else target.push (request.toContext publicInputs.callContext.storageContractAddress))
    target

/-- The nullifiers of the call, siloed with the note hashes they refer to. -/
def pushNullifiers (target : BoundedVec SideEffectLinkedToNoteHash 64) :
    Circuit (BoundedVec SideEffectLinkedToNoteHash 64) :=
  let publicInputs := privateCall.callStackItem.publicInputs
  let storageContractAddress := publicInputs.callContext.storageContractAddress
  propagate 16 publicInputs.newNullifiers (fun nullifier => nullifier.value = 0)
    (fun nullifier =>
      { value := hashes.siloNullifier storageContractAddress nullifier.value
        counter := nullifier.counter
        noteHash := if nullifier.noteHash = 0 then 0
          else hashes.siloNoteHash storageContractAddress nullifier.noteHash })
    target

def pushNoteHashes (target : BoundedVec SideEffect 64) : Circuit (BoundedVec SideEffect 64) :=
  let publicInputs := privateCall.callStackItem.publicInputs
  propagate 16 publicInputs.newNoteHashes (fun noteHash => noteHash.value = 0)
    (fun noteHash =>
      { value := hashes.siloNoteHash publicInputs.callContext.storageContractAddress noteHash.value
        counter := noteHash.counter })
    target

def pushL2ToL1Msgs (target : BoundedVec Field 2) : Circuit (BoundedVec Field 2) :=
  let publicInputs := privateCall.callStackItem.publicInputs
  propagate 2 publicInputs.newL2ToL1Msgs isEmpty
    (hashes.computeL2ToL1Hash publicInputs.callContext.storageContractAddress
      publicInputs.version publicInputs.chainId)
    target

def updateEndValues (out : Builder) : Circuit Builder := do
  performStaticCallChecks privateCall
  let publicInputs := privateCall.callStackItem.publicInputs
  let readRequests ← pushReadRequests hashes privateCall out.end.readRequests
  let keyRequests ←
    pushNullifierKeyValidationRequests privateCall out.end.nullifierKeyValidationRequests
  let nullifiers ← pushNullifiers hashes privateCall out.end.newNullifiers
  let noteHashes ← pushNoteHashes hashes privateCall out.end.newNoteHashes
  let privateRequests := arrayToBoundedVec privateCall.privateCallStack
  validateCallRequests privateRequests publicInputs.privateCallStackHashes privateCall
  let privateCallStack ← out.end.privateCallStack.extendFromBoundedVec privateRequests
  let publicRequests := arrayToBoundedVec privateCall.publicCallStack
  validateCallRequests publicRequests publicInputs.publicCallStackHashes privateCall
  let publicCallStack ← out.end.publicCallStack.extendFromBoundedVec publicRequests
  let messages ← pushL2ToL1Msgs hashes privateCall out.end.newL2ToL1Msgs
  let encryptedLogsHash ←
    computeLogsHash hashes out.end.encryptedLogsHash publicInputs.encryptedLogsHash
  let unencryptedLogsHash ←
    computeLogsHash hashes out.end.unencryptedLogsHash publicInputs.unencryptedLogsHash
  return { out with
    «end» :=
      { out.end with
        readRequests := readRequests
        nullifierKeyValidationRequests := keyRequests
        newNullifiers := nullifiers
        newNoteHashes := noteHashes
        privateCallStack := privateCallStack
        publicCallStack := publicCallStack
        newL2ToL1Msgs := messages
        encryptedLogsHash := encryptedLogsHash
        unencryptedLogsHash := unencryptedLogsHash
        encryptedLogPreimagesLength :=
          (out.end.encryptedLogPreimagesLength + publicInputs.encryptedLogPreimagesLength) %
            fieldModulus
        unencryptedLogPreimagesLength :=
          (out.end.unencryptedLogPreimagesLength + publicInputs.unencryptedLogPreimagesLength) %
            fieldModulus } }

/-- `contract_logic`.  In a deployment the new contract and the nullifier of its address are
pushed; otherwise the address of the contract is recomputed from its class. -/
def contractLogic (contractDepData : ContractDeploymentData) (functionData : FunctionData)
    (out : Builder) : Circuit Builder := do
  let item := privateCall.callStackItem
  let vkHash := hashes.compressVk privateCall.vk
  if out.constants.txContext.isContractDeploymentTx then
    assert (hashes.computeInitializationHash functionData.selector item.publicInputs.argsHash =
      contractDepData.initializationHash) "initialization hash does not match computed one"
    let newContractAddress := hashes.computeFromPublicKey contractDepData
    let contracts ← out.end.newContracts.push
      { contractAddress := newContractAddress
        portalContractAddress := privateCall.portalContractAddress
        contractClassId := contractDepData.contractClassId }
    assert (item.contractAddress = newContractAddress)
      "contract address supplied does not match derived address"
    let nullifiers ← out.end.newNullifiers.push
      { value := hashes.computeNewContractAddressHash newContractAddress
        noteHash := 0
        counter := 1 }
    return { out with
      «end» := { out.end with newContracts := contracts, newNullifiers := nullifiers } }
  else
    assert (item.contractAddress ≠ 0) "contract address cannot be zero"
    let root := hashes.privateFunctionsRootFromSiblings item.functionData.selector vkHash
      privateCall.functionLeafIndex privateCall.functionLeafSiblingPath
    let classId := hashes.computeContractClassId privateCall.contractClassArtifactHash root
      privateCall.contractClassPublicBytecodeCommitment
    let partialAddress :=
      hashes.computePartialAddress classId privateCall.saltedInitializationHash
    assert (hashes.computeAddress privateCall.publicKeysHash partialAddress =
      item.contractAddress) "computed contract address does not match expected one"
    return out

def validatePreviousKernelValues (previous : CombinedData) : Circuit Unit :=
  assert ((getElem previous.newNullifiers 0 first_lt_sixtyFour).value ≠ 0)
    "The 0th nullifier in the accumulated nullifier array is zero"

def validateCallAgainstRequest (request : CallRequest) : Circuit Unit := do
  let item := privateCall.callStackItem
  assert (request.hash = hashes.callStackItem item)
    ("calculated private_call_hash does not match provided private_call_hash " ++
      "at the top of the call stack")
  let callContext := item.publicInputs.callContext
  if item.functionData.isInternal then
    assert (callContext.msgSender = callContext.storageContractAddress)
      "call is internal but msg_sender is not self"
  if callContext.isDelegateCall then
    let callerContext := request.callerContext
    assert (!callerContext.isEmpty) "caller context cannot be empty for delegate calls"
    assert (callContext.msgSender = callerContext.msgSender)
      "call stack msg_sender does not match expected msg_sender for delegate calls"
    assert (callContext.storageContractAddress = callerContext.storageContractAddress)
      ("call stack storage address does not match expected contract address " ++
        "for delegate calls")
    assert (item.contractAddress ≠ callContext.storageContractAddress)
      ("curent contract address must not match storage contract address " ++
        "for delegate calls")
  else
    assert (callContext.msgSender = request.callerContractAddress)
      "call stack msg_sender does not match caller contract address"
    assert (callContext.storageContractAddress = item.contractAddress)
      "call stack storage address does not match expected contract address"

end Common

/-! ### The init circuit -/

section Init

variable (hashes : PrivateKernelHashes) (txRequest : TxRequest) (privateCall : PrivateCallData)

def validateInputsInit : Circuit Unit := do
  let item := privateCall.callStackItem
  assert item.functionData.isPrivate "Private kernel circuit can only execute a private function"
  assert (!item.functionData.isInternal) "Cannot call an internal function directly"
  let callContext := item.publicInputs.callContext
  assert (!callContext.isDelegateCall) "Users cannot make a delegatecall"
  assert (!callContext.isStaticCall) "Users cannot make a static call"
  assert (callContext.storageContractAddress = item.contractAddress)
    "Storage contract address must be that of the called contract"

def validateAgainstTxRequest : Circuit Unit := do
  let item := privateCall.callStackItem
  assert (txRequest.origin = item.contractAddress)
    "origin address does not match call stack items contract address"
  assert (hashes.functionData txRequest.functionData = hashes.functionData item.functionData)
    "tx_request function_data must match call_stack_item function_data"
  assert (txRequest.argsHash = item.publicInputs.argsHash)
    "noir function args passed to tx_request must match args in the call_stack_item"

/-- `native_private_kernel_circuit_initial`. -/
def init : Circuit InnerPublicInputs := do
  let publicInputs := privateCall.callStackItem.publicInputs
  let out : Builder :=
    { constants := ⟨publicInputs.historicalHeader, txRequest.txContext⟩
      minRevertibleSideEffectCounter := publicInputs.minRevertibleSideEffectCounter
      isPrivate := true
      «end» := zeroedBuilder }
  validateInputsInit privateCall
  validateArrays publicInputs
  validateAgainstTxRequest hashes txRequest privateCall
  validateReadRequests hashes out.constants.historicalHeader.noteHashTreeRoot
    publicInputs.readRequests privateCall.readRequestMembershipWitnesses
  let nullifiers ← out.end.newNullifiers.push
    { value := hashes.txRequest txRequest, noteHash := 0, counter := 0 }
  let out := { out with «end» := { out.end with newNullifiers := nullifiers } }
  let out ← updateEndValues hashes privateCall out
  let out ← contractLogic hashes privateCall txRequest.txContext.contractDeploymentData
    txRequest.functionData out
  return out.toInner

end Init

/-! ### The inner circuit -/

def inner (hashes : PrivateKernelHashes) (previous : InnerPublicInputs)
    (privateCall : PrivateCallData) : Circuit InnerPublicInputs := do
  let item := privateCall.callStackItem
  validatePreviousKernelValues previous.end
  let out := initializeEndValues previous
  assert item.functionData.isPrivate "Private kernel circuit can only execute a private function"
  assert previous.isPrivate "Can only verify a private kernel snark in the private kernel circuit"
  validateArrays item.publicInputs
  let (callRequest, stack) ← out.end.privateCallStack.pop
  let out := { out with «end» := { out.end with privateCallStack := stack } }
  validateCallAgainstRequest hashes privateCall callRequest
  validateReadRequests hashes out.constants.historicalHeader.noteHashTreeRoot
    item.publicInputs.readRequests privateCall.readRequestMembershipWitnesses
  let out ← updateEndValues hashes privateCall out
  assert (item.publicInputs.historicalHeader.contractTreeRoot =
    previous.constants.historicalHeader.contractTreeRoot)
    "purported_contract_tree_root does not match previous_kernel_contract_tree_root"
  let out ← contractLogic hashes privateCall item.publicInputs.contractDeploymentData
    item.functionData out
  return out.toInner

/-! ### The tail circuit -/

structure TailHints where
  sortedNewNoteHashes : Vector SideEffect 64
  sortedNewNoteHashesIndexes : Vector ℕ 64
  readCommitmentHints : Vector Field 128
  sortedNewNullifiers : Vector SideEffectLinkedToNoteHash 64
  sortedNewNullifiersIndexes : Vector ℕ 64
  nullifierCommitmentHints : Vector Field 64
  masterNullifierSecretKeys : Vector (Field × Field) 4

section Tail

variable (hashes : PrivateKernelHashes) (hints : TailHints)

def validateNullifierKeys (requests : Vector NullifierKeyValidationRequestContext 4) :
    Circuit Unit :=
  (requests.toList.zip hints.masterNullifierSecretKeys.toList).forM fun item =>
    if isEmpty item.1 then return ()
    else do
      assert (hashes.derivePublicKey item.2 = (item.1.publicKeyX, item.1.publicKeyY))
        "Cannot derive nullifier public key from the master key."
      assert (hashes.computeSiloedNullifierSecretKey item.2 item.1.contractAddress =
        (item.1.secretKeyHigh, item.1.secretKeyLow))
        "Cannot derive siloed secret key from the master key."

/-- `match_reads_to_commitments`.  The hint is cut to 64 bits. -/
def matchReadsToCommitments (newNoteHashes : Vector SideEffect 64)
    (readRequests : Vector SideEffect 128) : Circuit Unit :=
  (readRequests.toList.zip hints.readCommitmentHints.toList).forM fun item =>
    if item.1.value ≠ 0 then do
      let hash ← get newNoteHashes (item.2 % 2 ^ 64)
      assert (item.1.value = hash.value) "Hinted hash does not match read request"
      assert (item.1.counter > hash.counter)
        "Read request counter must be greater than hash counter"
    else return ()

/-- A turn of the loop of `match_nullifiers_to_note_hashes_and_squash`. -/
def squashStep (s : Vector SideEffect 64 × Vector SideEffectLinkedToNoteHash 64) (i : ℕ) :
    Circuit (Vector SideEffect 64 × Vector SideEffectLinkedToNoteHash 64) := do
  let nullifier ← get s.2 i
  let hint ← get hints.nullifierCommitmentHints i
  if nullifier.noteHash ≠ 0 then
    let hintPos := hint % 2 ^ 64
    assert (hintPos < 64) "New nullifier is transient but hint is invalid"
    let hash ← get s.1 hintPos
    assert (nullifier.noteHash = hash.value) "Hinted hash does not match"
    assert (nullifier.counter > hash.counter)
      "Nullifier counter must be greater than hash counter"
    return (s.1.setIfInBounds hintPos Empty.empty, s.2.setIfInBounds i Empty.empty)
  else return s

def compact {T : Type} [Empty T] {n : ℕ} (keep : T → Bool) (items : Vector T n) :
    Circuit (BoundedVec T n) :=
  items.toList.foldlM (fun v item => if keep item then v.push item else return v)
    (BoundedVec.new Empty.empty)

def matchNullifiersToNoteHashesAndSquash (newNoteHashes : Vector SideEffect 64)
    (newNullifiers : Vector SideEffectLinkedToNoteHash 64) :
    Circuit (BoundedVec SideEffect 64 × BoundedVec SideEffectLinkedToNoteHash 64) := do
  let squashed ← (List.range 64).foldlM (squashStep hints) (newNoteHashes, newNullifiers)
  let noteHashes ← compact (fun item : SideEffect => item.value ≠ 0) squashed.1
  let nullifiers ← compact (fun item : SideEffectLinkedToNoteHash => item.value ≠ 0) squashed.2
  return (noteHashes, nullifiers)

def applyNoteHashNonces (noteHashes : BoundedVec SideEffect 64)
    (nullifiers : BoundedVec SideEffectLinkedToNoteHash 64) :
    Circuit (BoundedVec SideEffect 64) := do
  assert (0 < nullifiers.len) "Index out of bounds"
  let firstNullifier ← get nullifiers.storage 0
  return { noteHashes with
    storage := noteHashes.storage.mapFinIdx fun i item _ =>
      if item.value ≠ 0 then
        { value := hashes.computeUniqueSiloedNoteHash
            (hashes.computeNoteHashNonce firstNullifier.value i) item.value
          counter := item.counter }
      else item }

/-- `native_private_kernel_circuit_ordering`. -/
def tail (previous : InnerPublicInputs) : Circuit KernelPublicInputs := do
  assert (arrayLength previous.end.privateCallStack = 0)
    "Private call stack must be empty when executing the ordering circuit"
  validatePreviousKernelValues previous.end
  let out := initializeEndValues previous
  validateNullifierKeys hashes hints previous.end.nullifierKeyValidationRequests
  assertSortedCounters out.end.newNoteHashes.storage hints.sortedNewNoteHashes
    hints.sortedNewNoteHashesIndexes
  assertSortedCounters out.end.newNullifiers.storage hints.sortedNewNullifiers
    hints.sortedNewNullifiersIndexes
  matchReadsToCommitments hints hints.sortedNewNoteHashes out.end.readRequests.storage
  let squashed ← matchNullifiersToNoteHashesAndSquash hints hints.sortedNewNoteHashes
    hints.sortedNewNullifiers
  let noteHashes ← applyNoteHashNonces hashes squashed.1 squashed.2
  Builder.toTail
    { out with
      «end» :=
        { out.end with
          nullifierKeyValidationRequests := BoundedVec.new Empty.empty
          readRequests := BoundedVec.new Empty.empty
          newNoteHashes := noteHashes
          newNullifiers := squashed.2 } }

end Tail

end PrivateKernel
