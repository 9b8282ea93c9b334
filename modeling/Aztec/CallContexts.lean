/-
**The contexts the simulators give to nested calls.**

The simulators derive the context of a nested call from that of its caller, and the provers turn
the executed call into a request for the kernel.  Three addresses stand for a caller: that of its
code, that of its storage and its sender.  They are the same two for a regular call and differ for
a delegate call.  The simulators give a delegate call the *code* address of the caller as its
storage, and the requests name the *storage* address of the caller as the calling contract, where
the kernel asks for the storage and the code address.
-/

import Aztec.PrivateCallTree

namespace CallContexts

open Noir Failing Kernel PrivateKernel StackTraversal

/-! ### Calls -/

/-- A call as its caller states it, with what the execution of the function returns.  A contract
that can be called has an address, which the kernels ask not to be zero. -/
structure NestedCall (Outputs : Type) where
  contractAddress : Field
  contractAddress_ne_zero : contractAddress ≠ 0
  functionData : FunctionData
  portalContractAddress : Field
  argsHash : Field
  startSideEffectCounter : ℕ
  isStaticCall : Bool
  isDelegateCall : Bool
  outputs : Outputs

abbrev PublicCall := NestedCall PublicCircuitPublicInputs

abbrev PrivateCall := NestedCall PrivateCircuitPublicInputs

def callContextIsEmpty (context : CallContext) : Bool :=
  context.msgSender = 0 && context.storageContractAddress = 0 &&
    context.portalContractAddress = 0 && context.functionSelector = 0

def publicInputsAreEmpty (inputs : PublicCircuitPublicInputs) : Bool :=
  callContextIsEmpty inputs.callContext && inputs.argsHash = 0 &&
    inputs.returnValues.toList.all (· = 0) &&
    inputs.contractStorageUpdateRequests.toList.all (fun r => r.storageSlot = 0 && r.newValue = 0) &&
    inputs.contractStorageReads.toList.all (fun r => r.storageSlot = 0 && r.currentValue = 0) &&
    inputs.publicCallStackHashes.toList.all (· = 0) &&
    inputs.newNoteHashes.toList.all (· = Empty.empty) &&
    inputs.newNullifiers.toList.all (· = Empty.empty) &&
    inputs.newL2ToL1Msgs.toList.all (· = Empty.empty) &&
    inputs.unencryptedLogsHash.toList.all (· = 0) && inputs.unencryptedLogPreimagesLength = 0 &&
    inputs.historicalHeader = 0 && inputs.proverAddress = 0

def privateInputsAreEmpty (inputs : PrivateCircuitPublicInputs) : Bool :=
  callContextIsEmpty inputs.callContext && inputs.argsHash = 0 &&
    inputs.returnValues.toList.all (· = 0) && inputs.minRevertibleSideEffectCounter = 0 &&
    inputs.readRequests.toList.all (· = Empty.empty) &&
    inputs.nullifierKeyValidationRequests.toList.all (· = Empty.empty) &&
    inputs.newNoteHashes.toList.all (· = Empty.empty) &&
    inputs.newNullifiers.toList.all (· = Empty.empty) &&
    inputs.privateCallStackHashes.toList.all (· = 0) &&
    inputs.publicCallStackHashes.toList.all (· = 0) &&
    inputs.newL2ToL1Msgs.toList.all (· = Empty.empty) &&
    inputs.encryptedLogsHash.toList.all (· = 0) && inputs.unencryptedLogsHash.toList.all (· = 0) &&
    inputs.encryptedLogPreimagesLength = 0 && inputs.unencryptedLogPreimagesLength = 0 &&
    inputs.historicalHeader = ⟨0, 0, 0⟩ && inputs.contractDeploymentData = ⟨0, 0, 0, 0, 0, 0⟩ &&
    inputs.chainId = 0 && inputs.version = 0

def publicItemIsEmpty (item : PublicCallStackItem) : Bool :=
  item.contractAddress = 0 && item.functionData.selector = 0 &&
    publicInputsAreEmpty item.publicInputs

def privateItemIsEmpty (item : PrivateCallStackItem) : Bool :=
  item.contractAddress = 0 && item.functionData.selector = 0 &&
    privateInputsAreEmpty item.publicInputs

/-! ### Public calls made by public calls -/

/-- The context that `callPublicFunction` gives to a nested call. -/
def publicCallContext (execution : PublicCallStackItem) (call : PublicCall) : CallContext :=
  { msgSender :=
      if call.isDelegateCall then execution.publicInputs.callContext.msgSender
      else execution.contractAddress
    storageContractAddress :=
      if call.isDelegateCall then execution.contractAddress else call.contractAddress
    portalContractAddress := call.portalContractAddress
    functionSelector := call.functionData.selector
    isContractDeployment := false
    isDelegateCall := call.isDelegateCall
    isStaticCall := call.isStaticCall
    startSideEffectCounter := 0 }

def callPublicFunction (execution : PublicCallStackItem) (call : PublicCall) :
    PublicCallStackItem :=
  { contractAddress := call.contractAddress
    functionData := ⟨call.functionData.selector, call.functionData.isInternal, false, false⟩
    publicInputs :=
      { call.outputs with
        callContext := publicCallContext execution call
        argsHash := call.argsHash }
    isExecutionRequest := false }

/-- The context of the caller that the requests carry: that of a delegate call's caller, else an
empty one. -/
def callerContext (isDelegateCall : Bool) (parentCallContext : CallContext) : CallerContext :=
  if isDelegateCall then
    ⟨parentCallContext.msgSender, parentCallContext.storageContractAddress⟩
  else Empty.empty

def toCallRequest (hashes : KernelHashes) (item : PublicCallStackItem)
    (parentCallContext : CallContext) : CallRequest :=
  if publicItemIsEmpty item then Empty.empty
  else
    { hash := hashes.callStackItem item
      callerContractAddress := parentCallContext.storageContractAddress
      callerContext := callerContext item.publicInputs.callContext.isDelegateCall parentCallContext
      startSideEffectCounter := 0
      endSideEffectCounter := 0 }

/-! ### Calls made by private calls -/

def deriveCallContext {Outputs : Type} (context : PrivateCallStackItem)
    (call : NestedCall Outputs) : CallContext :=
  { msgSender :=
      if call.isDelegateCall then context.publicInputs.callContext.msgSender
      else context.contractAddress
    storageContractAddress :=
      if call.isDelegateCall then context.contractAddress else call.contractAddress
    portalContractAddress := call.portalContractAddress
    functionSelector := call.functionData.selector
    isDelegateCall := call.isDelegateCall
    isStaticCall := call.isStaticCall
    isContractDeployment := false
    startSideEffectCounter := call.startSideEffectCounter }

def callPrivateFunction (context : PrivateCallStackItem) (call : PrivateCall) :
    PrivateCallStackItem :=
  { contractAddress := call.contractAddress
    functionData := call.functionData
    publicInputs :=
      { call.outputs with
        callContext := deriveCallContext context call
        argsHash := call.argsHash } }

def privateToCallRequest (hashes : PrivateKernelHashes) (item : PrivateCallStackItem)
    (parentCallContext : CallContext) : CallRequest :=
  if privateItemIsEmpty item then Empty.empty
  else
    { hash := hashes.callStackItem item
      callerContractAddress := parentCallContext.storageContractAddress
      callerContext := callerContext item.publicInputs.callContext.isDelegateCall parentCallContext
      startSideEffectCounter := item.publicInputs.callContext.startSideEffectCounter
      endSideEffectCounter := item.publicInputs.endSideEffectCounter }

/-- `PublicCallRequest`, with the hash of the arguments for the arguments. -/
structure PublicCallRequest where
  contractAddress : Field
  functionData : FunctionData
  callContext : CallContext
  parentCallContext : CallContext
  argsHash : Field

def enqueuePublicFunctionCall (context : PrivateCallStackItem) (call : PublicCall) :
    PublicCallRequest :=
  { contractAddress := call.contractAddress
    functionData := call.functionData
    callContext := deriveCallContext context call
    parentCallContext := context.publicInputs.callContext
    argsHash := call.argsHash }

/-- The public inputs of a request for an execution: the context and the arguments alone. -/
def requestInputs (callContext : CallContext) (argsHash : Field) : PublicCircuitPublicInputs :=
  { callContext := callContext
    argsHash := argsHash
    returnValues := Vector.replicate 4 0
    contractStorageUpdateRequests := Vector.replicate 16 ⟨0, 0⟩
    contractStorageReads := Vector.replicate 16 ⟨0, 0⟩
    publicCallStackHashes := Vector.replicate 4 0
    newNoteHashes := Vector.replicate 16 ⟨0, 0⟩
    newNullifiers := Vector.replicate 16 ⟨0, 0, 0⟩
    newL2ToL1Msgs := Vector.replicate 2 ⟨0, 0⟩
    unencryptedLogsHash := Vector.replicate 2 0
    unencryptedLogPreimagesLength := 0
    historicalHeader := 0
    proverAddress := 0 }

/-- `PublicCallStackItem::hash`, which hashes an item that is a request without the outputs. -/
def hashItem (hash : Field → FunctionData → PublicCircuitPublicInputs → Field)
    (item : PublicCallStackItem) : Field :=
  if item.isExecutionRequest then
    hash item.contractAddress item.functionData
      (requestInputs item.publicInputs.callContext item.publicInputs.argsHash)
  else hash item.contractAddress item.functionData item.publicInputs

namespace PublicCallRequest

def toPublicCallStackItem (request : PublicCallRequest) : PublicCallStackItem :=
  { contractAddress := request.contractAddress
    functionData := request.functionData
    publicInputs := requestInputs request.callContext request.argsHash
    isExecutionRequest := true }

def toCallRequest (hashes : KernelHashes) (request : PublicCallRequest) : CallRequest :=
  { hash := hashes.callStackItem request.toPublicCallStackItem
    callerContractAddress := request.parentCallContext.storageContractAddress
    callerContext := callerContext request.callContext.isDelegateCall request.parentCallContext
    startSideEffectCounter := request.callContext.startSideEffectCounter
    endSideEffectCounter := 0 }

def execute (request : PublicCallRequest) (outputs : PublicCircuitPublicInputs) :
    PublicCallStackItem :=
  { contractAddress := request.contractAddress
    functionData := request.functionData
    publicInputs :=
      { outputs with callContext := request.callContext, argsHash := request.argsHash }
    isExecutionRequest := true }

end PublicCallRequest

/-- The entry point of a transaction, as `run` of the client's simulator executes it. -/
def entryPoint (msgSender : Field) (call : PrivateCall) (isConstructor : Bool) :
    PrivateCallStackItem :=
  { contractAddress := call.contractAddress
    functionData := call.functionData
    publicInputs :=
      { call.outputs with
        callContext :=
          { msgSender := msgSender
            storageContractAddress := call.contractAddress
            portalContractAddress := call.portalContractAddress
            functionSelector := call.functionData.selector
            isDelegateCall := false
            isStaticCall := false
            isContractDeployment := isConstructor
            startSideEffectCounter := call.startSideEffectCounter }
        argsHash := call.argsHash } }

/-! ### What the kernels ask of one call -/

/-- The kernels accept the request of the caller and the call for it, and the storage address of a
delegate call is that of its caller. -/
def PublicPasses (hashes : KernelHashes) (caller callee : PublicCallStackItem)
    (request : CallRequest) : Prop :=
  (∀ data : PublicCallData, data.callStackItem = caller →
    Kernel.isValidCaller request data = true) ∧
  (∀ data : PublicCallData, data.callStackItem = callee →
    Kernel.validateCallAgainstRequest hashes data request = .ok ()) ∧
  (callee.publicInputs.callContext.isDelegateCall = true →
    callee.publicInputs.callContext.storageContractAddress =
      caller.publicInputs.callContext.storageContractAddress)

def PrivatePasses (hashes : PrivateKernelHashes) (caller callee : PrivateCallStackItem)
    (request : CallRequest) : Prop :=
  (∀ data : PrivateCallData, data.callStackItem = caller →
    PrivateKernel.isValidCaller request data = true) ∧
  (∀ data : PrivateCallData, data.callStackItem = callee →
    PrivateKernel.validateCallAgainstRequest hashes data request = .ok ()) ∧
  (callee.publicInputs.callContext.isDelegateCall = true →
    callee.publicInputs.callContext.storageContractAddress =
      caller.publicInputs.callContext.storageContractAddress)

def EnqueuedPasses (hashes : KernelHashes) (caller : PrivateCallStackItem)
    (callee : PublicCallStackItem) (request : CallRequest) : Prop :=
  (∀ data : PrivateCallData, data.callStackItem = caller →
    PrivateKernel.isValidCaller request data = true) ∧
  (∀ data : PublicCallData, data.callStackItem = callee →
    Kernel.validateCallAgainstRequest hashes data request = .ok ()) ∧
  (callee.publicInputs.callContext.isDelegateCall = true →
    callee.publicInputs.callContext.storageContractAddress =
      caller.publicInputs.callContext.storageContractAddress)

/-- What a caller at an address may call: a delegate call goes to another contract, and an internal
function is called by its own contract.  For a delegate call the last is read off the sender it is
given, in public by comparing it with the called contract and in private with the storage. -/
def CallAllowed {Outputs : Type} (isPublic : Bool) (sender address : Field)
    (call : NestedCall Outputs) : Prop :=
  if call.isDelegateCall then
    call.contractAddress ≠ address ∧
      (call.functionData.isInternal = true →
        if isPublic then call.contractAddress = sender else sender = address)
  else call.functionData.isInternal = true → call.contractAddress = address

/-! ### One call -/

/-- What both kernels ask of the request of a caller at an address. -/
def ValidCaller (request : CallRequest) (address : Field) (context : CallContext) : Prop :=
  request.callerContractAddress = address ∧
    (request.callerContext.isEmpty = true ∨
      request.callerContext.msgSender = context.msgSender ∧
        request.callerContext.storageContractAddress = context.storageContractAddress)

/-- What they ask of the call of a contract for a request: the public kernel compares the sender of
an internal call with the contract, the private one with the storage. -/
def ValidCall (isPublic : Bool) (hash address : Field) (isInternal : Bool) (context : CallContext)
    (request : CallRequest) : Prop :=
  request.hash = hash ∧
    (isInternal = true →
      if isPublic then address = context.msgSender
      else context.msgSender = context.storageContractAddress) ∧
    if context.isDelegateCall then
      request.callerContext.isEmpty = false ∧
        context.msgSender = request.callerContext.msgSender ∧
        context.storageContractAddress = request.callerContext.storageContractAddress ∧
        address ≠ context.storageContractAddress
    else
      context.msgSender = request.callerContractAddress ∧ context.storageContractAddress = address

section Edges

variable {request : CallRequest}

theorem forall_publicData {item : PublicCallStackItem} {P : PublicCallData → Prop}
    {Q : PublicCallStackItem → Prop} (h : ∀ data, P data ↔ Q data.callStackItem) :
    (∀ data : PublicCallData, data.callStackItem = item → P data) ↔ Q item := by
  constructor
  · intro hall
    exact (h _).1 (hall ⟨item, Vector.replicate 4 Empty.empty, 0, 0⟩ rfl)
  · rintro hitem data rfl
    exact (h data).2 hitem

theorem forall_privateData {item : PrivateCallStackItem} {P : PrivateCallData → Prop}
    {Q : PrivateCallStackItem → Prop} (h : ∀ data, P data ↔ Q data.callStackItem) :
    (∀ data : PrivateCallData, data.callStackItem = item → P data) ↔ Q item := by
  constructor
  · intro hall
    exact (h _).1 (hall ⟨item, Vector.replicate 4 Empty.empty, Vector.replicate 4 Empty.empty, 0, 0,
      0, 0, 0, 0, [], Vector.replicate 32 ⟨0, Vector.replicate 32 0, false⟩, 0⟩ rfl)
  · rintro hitem data rfl
    exact (h data).2 hitem

theorem publicValidCaller (request : CallRequest) (item : PublicCallStackItem) :
    (∀ data : PublicCallData, data.callStackItem = item →
      Kernel.isValidCaller request data = true) ↔
    ValidCaller request item.contractAddress item.publicInputs.callContext :=
  forall_publicData (Q := fun item =>
    ValidCaller request item.contractAddress item.publicInputs.callContext)
    fun data => by simp [Kernel.isValidCaller, ValidCaller]

theorem privateValidCaller (request : CallRequest) (item : PrivateCallStackItem) :
    (∀ data : PrivateCallData, data.callStackItem = item →
      PrivateKernel.isValidCaller request data = true) ↔
    ValidCaller request item.contractAddress item.publicInputs.callContext :=
  forall_privateData (Q := fun item =>
    ValidCaller request item.contractAddress item.publicInputs.callContext)
    fun data => by simp [PrivateKernel.isValidCaller, ValidCaller]

theorem publicValidCall (hashes : KernelHashes) (request : CallRequest)
    (item : PublicCallStackItem) : (∀ data : PublicCallData, data.callStackItem = item →
      Kernel.validateCallAgainstRequest hashes data request = .ok ()) ↔
    ValidCall true (hashes.callStackItem item) item.contractAddress item.functionData.isInternal
      item.publicInputs.callContext request := by
  refine forall_publicData (Q := fun item => ValidCall true (hashes.callStackItem item)
    item.contractAddress item.functionData.isInternal item.publicInputs.callContext request)
    fun data => ?_
  unfold Kernel.validateCallAgainstRequest ValidCall
  cases hinternal : data.callStackItem.functionData.isInternal <;>
    cases hdelegate : data.callStackItem.publicInputs.callContext.isDelegateCall <;>
    simp [bind_eq_ok, hinternal, hdelegate]

theorem privateValidCall (hashes : PrivateKernelHashes) (request : CallRequest)
    (item : PrivateCallStackItem) : (∀ data : PrivateCallData, data.callStackItem = item →
      PrivateKernel.validateCallAgainstRequest hashes data request = .ok ()) ↔
    ValidCall false (hashes.callStackItem item) item.contractAddress item.functionData.isInternal
      item.publicInputs.callContext request :=
  forall_privateData (Q := fun item => ValidCall false (hashes.callStackItem item)
    item.contractAddress item.functionData.isInternal item.publicInputs.callContext request)
    fun data => by simp only [validateCallAgainstRequest_eq_ok, ValidCall, Bool.false_eq_true,
      if_false]

theorem passes_iff {Outputs : Type} {isPublic : Bool} {hash address : Field}
    {parent context : CallContext} {call : NestedCall Outputs} (haddress : address ≠ 0)
    (hhash : request.hash = hash)
    (hcaller : request.callerContractAddress = parent.storageContractAddress)
    (hcontext : request.callerContext = callerContext call.isDelegateCall parent)
    (hsender : context.msgSender = if call.isDelegateCall then parent.msgSender else address)
    (hstorage : context.storageContractAddress =
      if call.isDelegateCall then address else call.contractAddress)
    (hdelegate : context.isDelegateCall = call.isDelegateCall) :
    (ValidCaller request address parent ∧
      ValidCall isPublic hash call.contractAddress call.functionData.isInternal context request ∧
      (context.isDelegateCall = true →
        context.storageContractAddress = parent.storageContractAddress)) ↔
    parent.storageContractAddress = address ∧
      CallAllowed isPublic parent.msgSender address call := by
  simp only [ValidCaller, ValidCall, CallAllowed, hhash, hcaller, hcontext, hsender, hstorage,
    hdelegate, callerContext, true_and]
  cases call.isDelegateCall with
  | false =>
    -- a regular call names no context of its caller, which is called by its storage address
    have hinternal : (if isPublic = true then call.contractAddress = address
        else address = call.contractAddress) ↔ call.contractAddress = address := by
      cases isPublic with
      | false => exact eq_comm
      | true => exact Iff.rfl
    simp only [Bool.false_eq_true, if_false, false_imp_iff, and_true, hinternal]
    constructor
    · rintro ⟨⟨h, -⟩, hint, -⟩
      exact ⟨h, hint⟩
    · rintro ⟨h, hint⟩
      exact ⟨⟨h, Or.inl rfl⟩, hint, h.symm⟩
  | true =>
    -- a delegate call keeps the sender, and is given the code address for its storage
    simp only [if_true, true_imp_iff, true_and, and_self, or_true, and_true]
    have hempty : ∀ {s : Field}, s = address →
        (CallerContext.mk parent.msgSender s).isEmpty = false := by
      rintro s rfl
      simp [CallerContext.isEmpty, haddress]
    constructor
    · rintro ⟨h, ⟨hint, -, -, hne⟩, -⟩
      exact ⟨h, hne, hint⟩
    · rintro ⟨h, hne, hint⟩
      exact ⟨h, ⟨hint, hempty h, h.symm, hne⟩, h.symm⟩

theorem publicPasses_iff {hashes : KernelHashes} {caller : PublicCallStackItem} {call : PublicCall}
    (haddress : caller.contractAddress ≠ 0) :
    PublicPasses hashes caller (callPublicFunction caller call)
        (toCallRequest hashes (callPublicFunction caller call) caller.publicInputs.callContext) ↔
      caller.publicInputs.callContext.storageContractAddress = caller.contractAddress ∧
        CallAllowed true caller.publicInputs.callContext.msgSender caller.contractAddress call := by
  have hempty : publicItemIsEmpty (callPublicFunction caller call) = false := by
    simp [publicItemIsEmpty, callPublicFunction, call.contractAddress_ne_zero]
  rw [PublicPasses, publicValidCaller, publicValidCall, toCallRequest, hempty]
  exact passes_iff haddress rfl rfl rfl rfl rfl rfl

theorem privatePasses_iff {hashes : PrivateKernelHashes} {caller : PrivateCallStackItem}
    {call : PrivateCall} (haddress : caller.contractAddress ≠ 0) :
    PrivatePasses hashes caller (callPrivateFunction caller call)
        (privateToCallRequest hashes (callPrivateFunction caller call)
          caller.publicInputs.callContext) ↔
      caller.publicInputs.callContext.storageContractAddress = caller.contractAddress ∧
        CallAllowed false caller.publicInputs.callContext.msgSender caller.contractAddress
          call := by
  have hempty : privateItemIsEmpty (callPrivateFunction caller call) = false := by
    simp [privateItemIsEmpty, callPrivateFunction, call.contractAddress_ne_zero]
  rw [PrivatePasses, privateValidCaller, privateValidCall, privateToCallRequest, hempty]
  exact passes_iff haddress rfl rfl rfl rfl rfl rfl

theorem enqueuedPasses_iff {hashes : KernelHashes}
    {hash : Field → FunctionData → PublicCircuitPublicInputs → Field}
    (hhash : hashes.callStackItem = hashItem hash) {caller : PrivateCallStackItem}
    {call : PublicCall} (haddress : caller.contractAddress ≠ 0) :
    EnqueuedPasses hashes caller ((enqueuePublicFunctionCall caller call).execute call.outputs)
        ((enqueuePublicFunctionCall caller call).toCallRequest hashes) ↔
      caller.publicInputs.callContext.storageContractAddress = caller.contractAddress ∧
        CallAllowed true caller.publicInputs.callContext.msgSender caller.contractAddress call := by
  rw [EnqueuedPasses, privateValidCaller, publicValidCall]
  refine passes_iff haddress ?_ rfl rfl rfl rfl rfl
  change hashes.callStackItem (enqueuePublicFunctionCall caller call).toPublicCallStackItem =
    hashes.callStackItem _
  rw [hhash]
  rfl

end Edges

/-! ### Trees of calls -/

section Trees

variable (hashes : KernelHashes) (privateHashes : PrivateKernelHashes)

mutual

/-- The public kernel accepts a call and the calls it makes. -/
def PublicCallPasses (caller : PublicCallStackItem) : RoseTree PublicCall → Prop
  | .node call calls =>
    let item := callPublicFunction caller call
    PublicPasses hashes caller item
        (toCallRequest hashes item caller.publicInputs.callContext) ∧
      PublicCallsPass item calls

def PublicCallsPass (caller : PublicCallStackItem) : List (RoseTree PublicCall) → Prop
  | [] => True
  | t :: ts => PublicCallPasses caller t ∧ PublicCallsPass caller ts

end

mutual

/-- A call of a contract at an address, with a sender, is allowed, and so are the calls it makes,
of which a delegate call makes none. -/
def PublicCallAllowed (sender address : Field) : RoseTree PublicCall → Prop
  | .node call calls =>
    CallAllowed true sender address call ∧ (call.isDelegateCall = true → calls = []) ∧
      PublicCallsAllowed address call.contractAddress calls

def PublicCallsAllowed (sender address : Field) : List (RoseTree PublicCall) → Prop
  | [] => True
  | t :: ts => PublicCallAllowed sender address t ∧ PublicCallsAllowed sender address ts

end

/-- The public kernel accepts an enqueued call and the calls it makes. -/
def EnqueuedCallPasses (caller : PrivateCallStackItem) : RoseTree PublicCall → Prop
  | .node call calls =>
    let request := enqueuePublicFunctionCall caller call
    let item := request.execute call.outputs
    EnqueuedPasses hashes caller item (request.toCallRequest hashes) ∧
      PublicCallsPass hashes item calls

/-- A private call with the public calls it enqueues. -/
structure PrivateNode where
  call : PrivateCall
  enqueued : List (RoseTree PublicCall)

mutual

/-- The kernels accept a private call, the public calls it enqueues and the private ones it
makes. -/
def CallPasses (caller : PrivateCallStackItem) : RoseTree PrivateNode → Prop
  | .node c calls =>
    let item := callPrivateFunction caller c.call
    PrivatePasses privateHashes caller item
        (privateToCallRequest privateHashes item caller.publicInputs.callContext) ∧
      (∀ t ∈ c.enqueued, EnqueuedCallPasses hashes item t) ∧ CallsPass item calls

def CallsPass (caller : PrivateCallStackItem) : List (RoseTree PrivateNode) → Prop
  | [] => True
  | t :: ts => CallPasses caller t ∧ CallsPass caller ts

end

mutual

/-- A private call is allowed, and so are the calls it makes and enqueues; a delegate call does
neither. -/
def PrivateCallAllowed (sender address : Field) : RoseTree PrivateNode → Prop
  | .node c calls =>
    CallAllowed false sender address c.call ∧
      (c.call.isDelegateCall = true → c.enqueued = [] ∧ calls = []) ∧
      (∀ t ∈ c.enqueued, PublicCallAllowed address c.call.contractAddress t) ∧
      CallsAllowed address c.call.contractAddress calls

def CallsAllowed (sender address : Field) : List (RoseTree PrivateNode) → Prop
  | [] => True
  | t :: ts => PrivateCallAllowed sender address t ∧ CallsAllowed sender address ts

end

end Trees

section Run

variable {hashes : KernelHashes} {privateHashes : PrivateKernelHashes}

theorem storage_eq_of_publicCallsPass {caller : PublicCallStackItem}
    (haddress : caller.contractAddress ≠ 0) {ts : List (RoseTree PublicCall)} (hne : ts ≠ [])
    (h : PublicCallsPass hashes caller ts) :
    caller.publicInputs.callContext.storageContractAddress = caller.contractAddress := by
  cases ts with
  | nil => exact absurd rfl hne
  | cons t ts =>
    cases t with
    | node call calls =>
      rw [PublicCallsPass, PublicCallPasses] at h
      exact ((publicPasses_iff haddress).1 h.1.1).1

theorem publicCalls_of_derived {item : PublicCallStackItem} {call : PublicCall}
    {calls : List (RoseTree PublicCall)} {sender address : Field}
    (haddress : item.contractAddress = call.contractAddress)
    (hsender : item.publicInputs.callContext.msgSender =
      if call.isDelegateCall then sender else address)
    (hstorage : item.publicInputs.callContext.storageContractAddress =
      if call.isDelegateCall then address else call.contractAddress)
    (hne : call.isDelegateCall = true → call.contractAddress ≠ address)
    (hcalls : item.publicInputs.callContext.storageContractAddress = item.contractAddress →
      (PublicCallsPass hashes item calls ↔
        PublicCallsAllowed item.publicInputs.callContext.msgSender item.contractAddress calls)) :
    PublicCallsPass hashes item calls ↔ (call.isDelegateCall = true → calls = []) ∧
      PublicCallsAllowed address call.contractAddress calls := by
  cases hdelegate : call.isDelegateCall with
  | false =>
    simp only [hdelegate, Bool.false_eq_true, if_false] at hsender hstorage
    rw [hcalls (hstorage.trans haddress.symm), hsender, haddress]
    simp
  | true =>
    simp only [hdelegate, if_true] at hstorage
    constructor
    · intro h
      have hnil : calls = [] := by
        by_contra hcons
        have hzero : item.contractAddress ≠ 0 := by
          rw [haddress]
          exact call.contractAddress_ne_zero
        have hsame := storage_eq_of_publicCallsPass hzero hcons h
        rw [hstorage, haddress] at hsame
        exact hne hdelegate hsame.symm
      subst hnil
      exact ⟨fun _ => rfl, by rw [PublicCallsAllowed]; trivial⟩
    · rintro ⟨hnil, -⟩
      rw [hnil rfl, PublicCallsPass]
      trivial

theorem CallAllowed.ne {Outputs : Type} {isPublic : Bool} {sender address : Field}
    {call : NestedCall Outputs} (h : CallAllowed isPublic sender address call)
    (hdelegate : call.isDelegateCall = true) : call.contractAddress ≠ address := by
  rw [CallAllowed, if_pos hdelegate] at h
  exact h.1

mutual

theorem publicCallPasses_iff (caller : PublicCallStackItem) (haddress : caller.contractAddress ≠ 0)
    (hstorage : caller.publicInputs.callContext.storageContractAddress = caller.contractAddress) :
    ∀ t : RoseTree PublicCall, PublicCallPasses hashes caller t ↔
      PublicCallAllowed caller.publicInputs.callContext.msgSender caller.contractAddress t
  | .node call calls => by
    rw [PublicCallPasses, PublicCallAllowed, publicPasses_iff haddress, and_assoc,
      and_iff_right hstorage]
    refine and_congr_right fun hallowed => ?_
    exact publicCalls_of_derived rfl rfl rfl hallowed.ne fun h =>
      publicCallsPass_iff (callPublicFunction caller call) call.contractAddress_ne_zero h calls

theorem publicCallsPass_iff (caller : PublicCallStackItem) (haddress : caller.contractAddress ≠ 0)
    (hstorage : caller.publicInputs.callContext.storageContractAddress = caller.contractAddress) :
    ∀ ts : List (RoseTree PublicCall), PublicCallsPass hashes caller ts ↔
      PublicCallsAllowed caller.publicInputs.callContext.msgSender caller.contractAddress ts
  | [] => by rw [PublicCallsPass, PublicCallsAllowed]
  | t :: ts => by
    rw [PublicCallsPass, PublicCallsAllowed, publicCallPasses_iff caller haddress hstorage t,
      publicCallsPass_iff caller haddress hstorage ts]

end

section Enqueued

variable {hash : Field → FunctionData → PublicCircuitPublicInputs → Field}

theorem enqueuedCallPasses_iff (hhash : hashes.callStackItem = hashItem hash)
    (caller : PrivateCallStackItem) (haddress : caller.contractAddress ≠ 0)
    (hstorage : caller.publicInputs.callContext.storageContractAddress = caller.contractAddress)
    (t : RoseTree PublicCall) : EnqueuedCallPasses hashes caller t ↔
      PublicCallAllowed caller.publicInputs.callContext.msgSender caller.contractAddress t := by
  cases t with
  | node call calls =>
    rw [EnqueuedCallPasses, PublicCallAllowed, enqueuedPasses_iff hhash haddress, and_assoc,
      and_iff_right hstorage]
    refine and_congr_right fun hallowed => ?_
    exact publicCalls_of_derived rfl rfl rfl hallowed.ne fun h =>
      publicCallsPass_iff _ call.contractAddress_ne_zero h calls

variable {caller : PrivateCallStackItem}

theorem storage_eq_of_enqueued (hhash : hashes.callStackItem = hashItem hash)
    (haddress : caller.contractAddress ≠ 0) {ts : List (RoseTree PublicCall)} (hne : ts ≠ [])
    (h : ∀ t ∈ ts, EnqueuedCallPasses hashes caller t) :
    caller.publicInputs.callContext.storageContractAddress = caller.contractAddress := by
  cases ts with
  | nil => exact absurd rfl hne
  | cons t ts =>
    have ht := h t List.mem_cons_self
    cases t with
    | node call calls =>
      rw [EnqueuedCallPasses] at ht
      exact ((enqueuedPasses_iff hhash haddress).1 ht.1).1

theorem storage_eq_of_callsPass (haddress : caller.contractAddress ≠ 0)
    {ts : List (RoseTree PrivateNode)} (hne : ts ≠ [])
    (h : CallsPass hashes privateHashes caller ts) :
    caller.publicInputs.callContext.storageContractAddress = caller.contractAddress := by
  cases ts with
  | nil => exact absurd rfl hne
  | cons t ts =>
    cases t with
    | node c calls =>
      rw [CallsPass, CallPasses] at h
      exact ((privatePasses_iff haddress).1 h.1.1).1

mutual

theorem privateCallPasses_iff (hhash : hashes.callStackItem = hashItem hash)
    (caller : PrivateCallStackItem) (haddress : caller.contractAddress ≠ 0)
    (hstorage : caller.publicInputs.callContext.storageContractAddress = caller.contractAddress) :
    ∀ t : RoseTree PrivateNode, CallPasses hashes privateHashes caller t ↔
      PrivateCallAllowed caller.publicInputs.callContext.msgSender caller.contractAddress t
  | .node c calls => by
    rw [CallPasses, PrivateCallAllowed, privatePasses_iff haddress, and_assoc,
      and_iff_right hstorage]
    refine and_congr_right fun hallowed => ?_
    have hzero : (callPrivateFunction caller c.call).contractAddress ≠ 0 :=
      c.call.contractAddress_ne_zero
    cases hdelegate : c.call.isDelegateCall with
    | false =>
      have hsame : (callPrivateFunction caller c.call).publicInputs.callContext.msgSender =
          caller.contractAddress := by
        simp [callPrivateFunction, deriveCallContext, hdelegate]
      have hitem : (callPrivateFunction caller
          c.call).publicInputs.callContext.storageContractAddress =
          (callPrivateFunction caller c.call).contractAddress := by
        simp [callPrivateFunction, deriveCallContext, hdelegate]
      rw [callsPass_iff hhash _ hzero hitem calls, hsame]
      simp only [enqueuedCallPasses_iff hhash _ hzero hitem, hsame, Bool.false_eq_true,
        false_imp_iff, true_and]
      exact Iff.rfl
    | true =>
      have hitem : (callPrivateFunction caller
          c.call).publicInputs.callContext.storageContractAddress ≠
          (callPrivateFunction caller c.call).contractAddress := by
        simpa [callPrivateFunction, deriveCallContext, hdelegate] using
          (hallowed.ne hdelegate).symm
      constructor
      · rintro ⟨henqueued, hcalls⟩
        have hnil : c.enqueued = [] := by
          by_contra hne
          exact hitem (storage_eq_of_enqueued hhash hzero hne henqueued)
        have hnil' : calls = [] := by
          by_contra hne
          exact hitem (storage_eq_of_callsPass hzero hne hcalls)
        rw [hnil, hnil', CallsAllowed]
        exact ⟨fun _ => ⟨rfl, rfl⟩, nofun, trivial⟩
      · rintro ⟨hleaf, -, -⟩
        obtain ⟨hnil, hnil'⟩ := hleaf rfl
        rw [hnil, hnil', CallsPass]
        exact ⟨nofun, trivial⟩

theorem callsPass_iff (hhash : hashes.callStackItem = hashItem hash)
    (caller : PrivateCallStackItem) (haddress : caller.contractAddress ≠ 0)
    (hstorage : caller.publicInputs.callContext.storageContractAddress = caller.contractAddress) :
    ∀ ts : List (RoseTree PrivateNode), CallsPass hashes privateHashes caller ts ↔
      CallsAllowed caller.publicInputs.callContext.msgSender caller.contractAddress ts
  | [] => by rw [CallsPass, CallsAllowed]
  | t :: ts => by
    rw [CallsPass, CallsAllowed, privateCallPasses_iff hhash caller haddress hstorage t,
      callsPass_iff hhash caller haddress hstorage ts]

end

end Enqueued

/-- The kernel's hashes with the hash of a call stack item, which covers of a request only the
context and the arguments. -/
def withItemHash (hashes : KernelHashes)
    (hash : Field → FunctionData → PublicCircuitPublicInputs → Field) : KernelHashes :=
  { hashes with callStackItem := hashItem hash }

/-- **The kernels accept the calls of a transaction, at any depth, exactly when they are allowed**:
no delegate call makes or enqueues a call, each goes to another contract than its caller, and
internal functions are called by their own contract. -/
theorem nested_contexts_pass_iff (hashes : KernelHashes) (privateHashes : PrivateKernelHashes)
    (hash : Field → FunctionData → PublicCircuitPublicInputs → Field) (msgSender : Field)
    (call : PrivateCall) (isConstructor : Bool) (enqueued : List (RoseTree PublicCall))
    (calls : List (RoseTree PrivateNode)) :
    ((∀ t ∈ enqueued, EnqueuedCallPasses (withItemHash hashes hash)
        (entryPoint msgSender call isConstructor) t) ∧
      CallsPass (withItemHash hashes hash) privateHashes
        (entryPoint msgSender call isConstructor) calls) ↔
    (∀ t ∈ enqueued, PublicCallAllowed msgSender call.contractAddress t) ∧
      CallsAllowed msgSender call.contractAddress calls := by
  have hhash : (withItemHash hashes hash).callStackItem = hashItem hash := rfl
  have hzero : (entryPoint msgSender call isConstructor).contractAddress ≠ 0 :=
    call.contractAddress_ne_zero
  simp only [enqueuedCallPasses_iff hhash _ hzero rfl, callsPass_iff hhash _ hzero rfl]
  exact Iff.rfl

/-! ### Delegate calls -/

namespace DelegateCalls

/-- The outputs of a private function that returns nothing. -/
def privateOutputs : PrivateCircuitPublicInputs :=
  (OneNested.call 1 0 false OneNested.noNoteHashes OneNested.noRequests
    OneNested.noRequests).callStackItem.publicInputs

/-- A private call of the function with selector 1 of a contract. -/
def call (contractAddress : Field) (h : contractAddress ≠ 0) (isDelegateCall : Bool) :
    PrivateCall :=
  ⟨contractAddress, h, ⟨1, false, true, false⟩, 0, 0, 1, false, isDelegateCall, privateOutputs⟩

/-- A delegate call of contract 8, which makes a delegate call of contract 9. -/
def nestedDelegate : RoseTree PrivateNode :=
  .node ⟨call 8 (by decide) true, []⟩ [.node ⟨call 9 (by decide) true, []⟩ []]

end DelegateCalls

open DelegateCalls in
/-- **A delegate call made inside a delegate call is rejected**, and its storage address is not that
of its caller. -/
theorem not_callsPass : ¬ ∀ (hashes : KernelHashes) (privateHashes : PrivateKernelHashes)
      (hash : Field → FunctionData → PublicCircuitPublicInputs → Field) (msgSender : Field)
      (call : PrivateCall) (isConstructor : Bool) (enqueued : List (RoseTree PublicCall))
      (calls : List (RoseTree PrivateNode)),
      (∀ t ∈ enqueued, EnqueuedCallPasses (withItemHash hashes hash)
        (entryPoint msgSender call isConstructor) t) ∧
      CallsPass (withItemHash hashes hash) privateHashes
        (entryPoint msgSender call isConstructor) calls := by
  intro h
  obtain ⟨-, hpass⟩ := h ⟨fun _ => 0, fun _ _ => 0, fun _ _ => 0, fun _ _ => 0,
    fun _ _ _ _ => 0, fun _ => #v[0, 0]⟩ OneNested.hashes (fun _ _ _ => 0) 0
    (call 7 (by decide) false) false [] [nestedDelegate]
  simp only [CallsPass, nestedDelegate, CallPasses] at hpass
  obtain ⟨⟨-, -, ⟨⟨-, -, hstorage⟩, -⟩, -⟩, -⟩ := hpass
  replace hstorage := hstorage rfl
  exact absurd hstorage (by decide)

end Run

end CallContexts
