/-
**The public kernel circuits.**

A chain of public kernel iterations executes the public calls of a transaction, one call each, in
three phases: setup and teardown run the calls of the non-revertible stack, app logic those of the
revertible one.  An iteration checks the flag of its phase, pops a call request, validates the
call against it, pushes the call's own requests onto the same stack and appends the call's side
effects.
-/

import Aztec.AccumulatedData

namespace Kernel

open Noir Failing

def fieldModulus : ℕ :=
  21888242871839275222246405745257275088548364400416034343698204186575808495617

inductive Phase where
  | setup
  | appLogic
  | teardown
  deriving DecidableEq, Repr

/-! ### Checks common to the phases -/

/-- `validate_inputs` of `common.nr`. -/
def validateInputs (publicCall : PublicCallData) : Circuit Unit := do
  let item := publicCall.callStackItem
  assert (!item.publicInputs.callContext.isContractDeployment)
    "Contract deployment cannot be a public function"
  assert (item.contractAddress ≠ 0) "Contract address cannot be zero"
  assert (item.functionData.selector ≠ 0) "Function signature cannot be zero"
  assert (!item.functionData.isConstructor) "Constructors cannot be public functions"
  assert (!item.functionData.isPrivate)
    "Cannot execute a private function with the public kernel circuit"
  assert (publicCall.bytecodeHash ≠ 0) "Bytecode hash cannot be zero"

def initializeEndValues (previous : KernelPublicInputs) : KernelBuilder :=
  { constants := previous.constants
    endNonRevertible :=
      { newNoteHashes := arrayToBoundedVec previous.endNonRevertible.newNoteHashes
        newNullifiers := arrayToBoundedVec previous.endNonRevertible.newNullifiers
        publicCallStack := arrayToBoundedVec previous.endNonRevertible.publicCallStack
        publicDataUpdateRequests :=
          arrayToBoundedVec previous.endNonRevertible.publicDataUpdateRequests
        publicDataReads := arrayToBoundedVec previous.endNonRevertible.publicDataReads }
    «end» :=
      { RevertibleBuilder.zeroed with
        newNoteHashes := arrayToBoundedVec previous.end.newNoteHashes
        newNullifiers := arrayToBoundedVec previous.end.newNullifiers
        privateCallStack := arrayToBoundedVec previous.end.privateCallStack
        publicCallStack := arrayToBoundedVec previous.end.publicCallStack
        newL2ToL1Msgs := arrayToBoundedVec previous.end.newL2ToL1Msgs
        publicDataUpdateRequests := arrayToBoundedVec previous.end.publicDataUpdateRequests
        publicDataReads := arrayToBoundedVec previous.end.publicDataReads
        encryptedLogsHash := previous.end.encryptedLogsHash
        encryptedLogPreimagesLength := previous.end.encryptedLogPreimagesLength
        newContracts := arrayToBoundedVec previous.end.newContracts } }

def performStaticCallChecks (publicCall : PublicCallData) : Circuit Unit :=
  let publicInputs := publicCall.callStackItem.publicInputs
  if publicInputs.callContext.isStaticCall then do
    assert (arrayLength publicInputs.newNoteHashes = 0)
      "new_note_hashes must be empty for static calls"
    assert (arrayLength publicInputs.newNullifiers = 0)
      "new_nullifiers must be empty for static calls"
    assert (arrayLength publicInputs.contractStorageUpdateRequests = 0)
      "No contract storage update requests are allowed for static calls"
    assert (arrayLength publicInputs.newL2ToL1Msgs = 0)
      "new_l2_to_l1_msgs must be empty for static calls"
    assert (publicInputs.unencryptedLogPreimagesLength = 4)
      "No unencrypted logs are allowed for static calls"
  else return ()

def isValidCaller (request : CallRequest) (publicCall : PublicCallData) : Bool :=
  let callContext := publicCall.callStackItem.publicInputs.callContext
  let validCallerContext :=
    request.callerContext.msgSender = callContext.msgSender &&
      request.callerContext.storageContractAddress = callContext.storageContractAddress
  request.callerContractAddress = publicCall.callStackItem.contractAddress &&
    (request.callerContext.isEmpty || validCallerContext)

def validateCallRequests {n : ℕ} (callRequests : BoundedVec CallRequest n)
    (hashes : Vector Field n) (publicCall : PublicCallData) : Circuit Unit := do
  assert (arrayLength hashes = callRequests.len)
    "call requests length does not match the expected length"
  (List.range n).forM fun i => do
    let hash ← get hashes i
    if hash ≠ 0 then
      let request ← get callRequests.storage i
      assert (request.hash = hash) "call stack hash does not match call request hash"
      assert (isValidCaller request publicCall) "invalid caller"

def validateCallAgainstRequest (hashes : KernelHashes) (publicCall : PublicCallData)
    (request : CallRequest) : Circuit Unit := do
  let item := publicCall.callStackItem
  assert (request.hash = hashes.callStackItem item)
    ("calculated public_kernel_inputs_hash does not match provided " ++
      "public_kernel_inputs_hash at the top of the call stack")
  let callContext := item.publicInputs.callContext
  if item.functionData.isInternal then
    assert (item.contractAddress = callContext.msgSender)
      "msg_sender must be self for internal calls"
  if callContext.isDelegateCall then
    let callerContext := request.callerContext
    assert (!callerContext.isEmpty) "caller context cannot be empty for delegate calls"
    assert (callContext.msgSender = callerContext.msgSender)
      "call stack msg_sender does not match expected msg_sender for delegate calls"
    assert (callContext.storageContractAddress = callerContext.storageContractAddress)
      ("call stack storage address does not match expected contract address " ++
        "for delegate calls")
    assert (item.contractAddress ≠ callContext.storageContractAddress)
      ("curent contract address must not match storage contract address " ++
        "for delegate calls")
  else
    assert (callContext.msgSender = request.callerContractAddress)
      "call stack msg_sender does not match caller contract address"
    assert (callContext.storageContractAddress = item.contractAddress)
      "call stack storage address does not match expected contract address"

/-! ### Side effects -/

/-- What the `propagate` functions share: the items that are not skipped are converted, collected
in a vector of capacity `k`, and appended to the target. -/
def propagate {S U : Type} [Empty U] {n m : ℕ} (k : ℕ) (items : Vector S n) (skip : S → Bool)
    (convert : S → U) (target : BoundedVec U m) : Circuit (BoundedVec U m) := do
  let fresh ← items.toList.foldlM
    (fun (fresh : BoundedVec U k) item =>
      if skip item then return fresh else fresh.push (convert item))
    (BoundedVec.new Empty.empty)
  target.extendFromBoundedVec fresh

section Propagate

variable (hashes : KernelHashes) (publicCall : PublicCallData)

def siloNullifiers {m : ℕ} (target : BoundedVec SideEffectLinkedToNoteHash m) :
    Circuit (BoundedVec SideEffectLinkedToNoteHash m) :=
  let publicInputs := publicCall.callStackItem.publicInputs
  propagate 16 publicInputs.newNullifiers (fun nullifier => nullifier.value = 0)
    (fun nullifier =>
      { value := hashes.siloNullifier publicInputs.callContext.storageContractAddress
          nullifier.value
        counter := nullifier.counter
        noteHash := nullifier.noteHash })
    target

def siloNoteHashes {m : ℕ} (target : BoundedVec SideEffect m) : Circuit (BoundedVec SideEffect m) :=
  let publicInputs := publicCall.callStackItem.publicInputs
  propagate 16 publicInputs.newNoteHashes (fun noteHash => noteHash.value = 0)
    (fun noteHash =>
      { value := hashes.siloNoteHash publicInputs.callContext.storageContractAddress noteHash.value
        counter := noteHash.counter })
    target

/-- The storage updates of the call, as updates of the public data tree. -/
def publicDataUpdates {m : ℕ} (contractAddress : Field)
    (target : BoundedVec PublicDataUpdateRequest m) :
    Circuit (BoundedVec PublicDataUpdateRequest m) :=
  propagate 16 publicCall.callStackItem.publicInputs.contractStorageUpdateRequests
    StorageUpdateRequest.isEmpty
    (fun request =>
      { leafSlot := hashes.computePublicDataTreeIndex contractAddress request.storageSlot
        newValue := request.newValue })
    target

/-- The storage reads of the call, as reads of the public data tree. -/
def publicDataReads {m : ℕ} (contractAddress : Field) (target : BoundedVec PublicDataRead m) :
    Circuit (BoundedVec PublicDataRead m) :=
  propagate 16 publicCall.callStackItem.publicInputs.contractStorageReads StorageRead.isEmpty
    (fun request =>
      { leafSlot := hashes.computePublicDataTreeIndex contractAddress request.storageSlot
        value := request.currentValue })
    target

variable (circuitOutputs : KernelBuilder)

def propagateNewNullifiersNonRevertible : Circuit KernelBuilder := do
  let v ← siloNullifiers hashes publicCall circuitOutputs.endNonRevertible.newNullifiers
  return { circuitOutputs with
    endNonRevertible := { circuitOutputs.endNonRevertible with newNullifiers := v } }

def propagateNewNullifiers : Circuit KernelBuilder := do
  let v ← siloNullifiers hashes publicCall circuitOutputs.end.newNullifiers
  return { circuitOutputs with «end» := { circuitOutputs.end with newNullifiers := v } }

def propagateNewNoteHashesNonRevertible : Circuit KernelBuilder := do
  let v ← siloNoteHashes hashes publicCall circuitOutputs.endNonRevertible.newNoteHashes
  return { circuitOutputs with
    endNonRevertible := { circuitOutputs.endNonRevertible with newNoteHashes := v } }

def propagateNewNoteHashes : Circuit KernelBuilder := do
  let v ← siloNoteHashes hashes publicCall circuitOutputs.end.newNoteHashes
  return { circuitOutputs with «end» := { circuitOutputs.end with newNoteHashes := v } }

def propagateValidNonRevertiblePublicDataUpdateRequests : Circuit KernelBuilder := do
  let v ← publicDataUpdates hashes publicCall publicCall.callStackItem.contractAddress
    circuitOutputs.endNonRevertible.publicDataUpdateRequests
  return { circuitOutputs with
    endNonRevertible := { circuitOutputs.endNonRevertible with publicDataUpdateRequests := v } }

def propagateValidPublicDataUpdateRequests : Circuit KernelBuilder := do
  let v ← publicDataUpdates hashes publicCall
    publicCall.callStackItem.publicInputs.callContext.storageContractAddress
    circuitOutputs.end.publicDataUpdateRequests
  return { circuitOutputs with «end» := { circuitOutputs.end with publicDataUpdateRequests := v } }

def propagateValidNonRevertiblePublicDataReads : Circuit KernelBuilder := do
  let v ← publicDataReads hashes publicCall publicCall.callStackItem.contractAddress
    circuitOutputs.endNonRevertible.publicDataReads
  return { circuitOutputs with
    endNonRevertible := { circuitOutputs.endNonRevertible with publicDataReads := v } }

def propagateValidPublicDataReads : Circuit KernelBuilder := do
  let v ← publicDataReads hashes publicCall
    publicCall.callStackItem.publicInputs.callContext.storageContractAddress
    circuitOutputs.end.publicDataReads
  return { circuitOutputs with «end» := { circuitOutputs.end with publicDataReads := v } }

def propagateNewL2ToL1Messages : Circuit KernelBuilder := do
  let publicInputs := publicCall.callStackItem.publicInputs
  let v ← propagate 2 publicInputs.newL2ToL1Msgs isEmpty
    (hashes.computeL2ToL1Hash publicInputs.callContext.storageContractAddress
      circuitOutputs.constants.version circuitOutputs.constants.chainId)
    circuitOutputs.end.newL2ToL1Msgs
  return { circuitOutputs with «end» := { circuitOutputs.end with newL2ToL1Msgs := v } }

/-- `accumulate_unencrypted_logs`.  The conversions to `U128` reject values of more than 128
bits. -/
def accumulateUnencryptedLogs (previousUnencryptedLogsHash : Vector Field 2)
    (previousUnencryptedLogPreimagesLength : Field) : Circuit KernelBuilder := do
  let publicInputs := publicCall.callStackItem.publicInputs
  let currentHash := publicInputs.unencryptedLogsHash
  let limbs := previousUnencryptedLogsHash ++ currentHash
  limbs.toList.forM fun limb => assert (limb < 2 ^ 128) "call to assert_max_bit_size"
  return { circuitOutputs with
    «end» :=
      { circuitOutputs.end with
        unencryptedLogsHash := hashes.accumulateSha256 limbs
        unencryptedLogPreimagesLength :=
          (previousUnencryptedLogPreimagesLength + publicInputs.unencryptedLogPreimagesLength) %
            fieldModulus } }

def updatePublicEndNonRevertibleValues : Circuit KernelBuilder := do
  performStaticCallChecks publicCall
  let publicCallRequests := arrayToBoundedVec publicCall.publicCallStack
  validateCallRequests publicCallRequests
    publicCall.callStackItem.publicInputs.publicCallStackHashes publicCall
  let stack ←
    circuitOutputs.endNonRevertible.publicCallStack.extendFromBoundedVec publicCallRequests
  let out := { circuitOutputs with
    endNonRevertible := { circuitOutputs.endNonRevertible with publicCallStack := stack } }
  let out ← propagateNewNullifiersNonRevertible hashes publicCall out
  let out ← propagateNewNoteHashesNonRevertible hashes publicCall out
  let out ← propagateValidNonRevertiblePublicDataUpdateRequests hashes publicCall out
  propagateValidNonRevertiblePublicDataReads hashes publicCall out

def updatePublicEndValues : Circuit KernelBuilder := do
  performStaticCallChecks publicCall
  let publicCallRequests := arrayToBoundedVec publicCall.publicCallStack
  validateCallRequests publicCallRequests
    publicCall.callStackItem.publicInputs.publicCallStackHashes publicCall
  let stack ← circuitOutputs.end.publicCallStack.extendFromBoundedVec publicCallRequests
  let out := { circuitOutputs with
    «end» := { circuitOutputs.end with publicCallStack := stack } }
  let out ← propagateNewNullifiers hashes publicCall out
  let out ← propagateNewNoteHashes hashes publicCall out
  let out ← propagateNewL2ToL1Messages hashes publicCall out
  let out ← propagateValidPublicDataUpdateRequests hashes publicCall out
  propagateValidPublicDataReads hashes publicCall out

end Propagate

/-! ### The circuits -/

def validateInputsSetup (previous : KernelPublicInputs) : Circuit Unit := do
  previous.end.privateCallStack.toList.forM fun privateCall =>
    assert privateCall.isEmpty
      "Private call stack must be empty when executing in the public kernel"
  assert previous.needsSetup "Cannot run unnecessary setup circuit"

def validateInputsAppLogic (previous : KernelPublicInputs) : Circuit Unit := do
  assert (!previous.needsSetup) "Cannot run app logic circuit before setup circuit"
  assert previous.needsAppLogic "Cannot run unnecessary app logic circuit"

def validateInputsTeardown (previous : KernelPublicInputs) : Circuit Unit := do
  assert (!previous.needsSetup) "Cannot run teardown circuit before setup circuit"
  assert (!previous.needsAppLogic) "Cannot run teardown circuit before app logic circuit"
  assert previous.needsTeardown "Cannot run unnecessary teardown circuit"

section Circuits

variable (hashes : KernelHashes) (previous : KernelPublicInputs) (publicCall : PublicCallData)

/-- What the setup and the teardown circuit do after their own checks. -/
def runNonRevertible : Circuit KernelPublicInputs := do
  let out := initializeEndValues previous
  let (callRequest, stack) ← out.endNonRevertible.publicCallStack.pop
  let out := { out with endNonRevertible := { out.endNonRevertible with publicCallStack := stack } }
  validateCallAgainstRequest hashes publicCall callRequest
  let out ← updatePublicEndNonRevertibleValues hashes publicCall out
  let out ← accumulateUnencryptedLogs hashes publicCall out previous.end.unencryptedLogsHash
    previous.end.unencryptedLogPreimagesLength
  return out.toInner

def publicKernelSetup : Circuit KernelPublicInputs := do
  validateInputs publicCall
  validateInputsSetup previous
  runNonRevertible hashes previous publicCall

def publicKernelAppLogic : Circuit KernelPublicInputs := do
  validateInputs publicCall
  validateInputsAppLogic previous
  let out := initializeEndValues previous
  let (callRequest, stack) ← out.end.publicCallStack.pop
  let out := { out with «end» := { out.end with publicCallStack := stack } }
  validateCallAgainstRequest hashes publicCall callRequest
  let out ← updatePublicEndValues hashes publicCall out
  let out ← accumulateUnencryptedLogs hashes publicCall out previous.end.unencryptedLogsHash
    previous.end.unencryptedLogPreimagesLength
  return out.toInner

def publicKernelTeardown : Circuit KernelPublicInputs := do
  validateInputs publicCall
  validateInputsTeardown previous
  runNonRevertible hashes previous publicCall

def iteration : Phase → Circuit KernelPublicInputs
  | .setup => publicKernelSetup hashes previous publicCall
  | .appLogic => publicKernelAppLogic hashes previous publicCall
  | .teardown => publicKernelTeardown hashes previous publicCall

end Circuits

/-! ### What an accepted iteration does to the call stacks -/

def enqueuedCalls (publicCall : PublicCallData) : ℕ :=
  arrayLength publicCall.callStackItem.publicInputs.publicCallStackHashes

/-- **The accepted requests of a call are listed without gaps**: they are as many as the call
enqueues, and each has a hash. -/
theorem requests_of_validateCallRequests {n : ℕ} {array : Vector CallRequest n}
    {hashes : Vector Field n} {publicCall : PublicCallData}
    (h : validateCallRequests (arrayToBoundedVec array) hashes publicCall = .ok ()) :
    ∃ requests, RequestStack array requests ∧ requests.length = arrayLength hashes := by
  simp only [validateCallRequests, bind_eq_ok, assert_eq_ok, decide_eq_true_eq] at h
  obtain ⟨-, hlen, hloop⟩ := h
  have hle := arrayLength_le hashes
  have hhash : ∀ i (hi : i < n), i < arrayLength hashes → array[i].hash ≠ 0 := by
    intro i hi hlt
    have hne : hashes[i] ≠ 0 := ne_empty_of_lt_arrayLength hi hlt
    have hturn := forM_eq_ok.1 hloop i (List.mem_range.2 hi)
    simp only [bind_eq_ok, get_eq_ok, Vector.getElem?_eq_getElem hi, Option.some.injEq,
      exists_eq_left', if_pos hne, assert_eq_ok, decide_eq_true_eq, exists_and_left,
      arrayToBoundedVec] at hturn
    rw [hturn.1]
    exact hne
  have hlist := toList_eq_of_countP hle
    (fun i hi hlt => RequestStack.ne_empty_of_hash (hhash i hi hlt)) hlen.symm
  have htake : (array.toList.take (arrayLength hashes)).length = arrayLength hashes := by
    simp [hle]
  refine ⟨array.toList.take (arrayLength hashes), ⟨by rwa [htake], ?_⟩, htake⟩
  intro r hr
  obtain ⟨i, hi, rfl⟩ := List.getElem_of_mem hr
  rw [htake] at hi
  simpa using hhash i (hi.trans_le hle) hi

section Stacks

variable {hashes : KernelHashes} {publicCall : PublicCallData}

/-- The vector stands for a list of requests with a hash, and pads with empty requests. -/
structure Calls {n : ℕ} (v : BoundedVec CallRequest n) (l : List CallRequest) : Prop where
  stack : Stack v l
  emptyValue_eq : v.emptyValue = Empty.empty
  hash_ne_zero : ∀ r ∈ l, r.hash ≠ 0

variable {n : ℕ} {l : List CallRequest} {v v' : BoundedVec CallRequest n}

theorem RequestStack.calls {array : Vector CallRequest n} (h : RequestStack array l) :
    Calls (arrayToBoundedVec array) l :=
  ⟨h.toStack, rfl, h.hash_ne_zero⟩

theorem Calls.requestStack (h : Calls v l) : RequestStack v.storage l :=
  .ofStack h.stack h.emptyValue_eq h.hash_ne_zero

theorem Calls.pop (h : Calls v l) {r : CallRequest} (hv : v.pop = .ok (r, v')) :
    ∃ l', l = l' ++ [r] ∧ Calls v' l' := by
  obtain ⟨l', rfl, hstack, hempty⟩ := h.stack.pop hv
  exact ⟨l', rfl, hstack, hempty.trans h.emptyValue_eq,
    fun r hr => h.hash_ne_zero r (List.mem_append_left _ hr)⟩

theorem Calls.extend {k : ℕ} {w : BoundedVec CallRequest k} {m : List CallRequest} (h : Calls v l)
    (hw : Calls w m) (hv : v.extendFromBoundedVec w = .ok v') : Calls v' (l ++ m) := by
  obtain ⟨hstack, hempty⟩ := h.stack.extend hw.stack hv
  refine ⟨hstack, hempty.trans h.emptyValue_eq, fun r hr => ?_⟩
  rcases List.mem_append.1 hr with hr | hr
  · exact h.hash_ne_zero r hr
  · exact hw.hash_ne_zero r hr

/-- The two call stacks of a builder stand for the given lists. -/
structure BuilderStacks (b : KernelBuilder) (nonRevertible revertible : List CallRequest) :
    Prop where
  nonRevertible : Calls b.endNonRevertible.publicCallStack nonRevertible
  revertible : Calls b.end.publicCallStack revertible

variable {b b' : KernelBuilder} {nonRevertible revertible : List CallRequest}

theorem initializeEndValues_stacks {previous : KernelPublicInputs}
    (h : Consistent previous nonRevertible revertible) :
    BuilderStacks (initializeEndValues previous) nonRevertible revertible :=
  ⟨h.nonRevertible_stack.calls, h.revertible_stack.calls⟩

theorem BuilderStacks.toInner (h : BuilderStacks b nonRevertible revertible) :
    Consistent b.toInner nonRevertible revertible :=
  KernelBuilder.toInner_consistent h.nonRevertible.requestStack h.revertible.requestStack

theorem accumulateUnencryptedLogs_stacks {previousHash : Vector Field 2} {previousLength : Field}
    (hb : BuilderStacks b nonRevertible revertible)
    (h : accumulateUnencryptedLogs hashes publicCall b previousHash previousLength = .ok b') :
    BuilderStacks b' nonRevertible revertible := by
  simp only [accumulateUnencryptedLogs, bind_eq_ok, pure_eq_ok] at h
  obtain ⟨-, -, rfl⟩ := h
  exact ⟨hb.nonRevertible, hb.revertible⟩

/-- **Updating the non-revertible values pushes the requests of the call onto the non-revertible
stack**, and nothing else touches the two stacks. -/
theorem updatePublicEndNonRevertibleValues_stacks
    (h : updatePublicEndNonRevertibleValues hashes publicCall b = .ok b')
    (hb : BuilderStacks b nonRevertible revertible) :
    ∃ requests, requests.length = enqueuedCalls publicCall ∧
      BuilderStacks b' (nonRevertible ++ requests) revertible := by
  simp only [updatePublicEndNonRevertibleValues, propagateNewNullifiersNonRevertible,
    propagateNewNoteHashesNonRevertible, propagateValidNonRevertiblePublicDataUpdateRequests,
    propagateValidNonRevertiblePublicDataReads, bind_eq_ok, pure_eq_ok] at h
  obtain ⟨_, -, _, hrequests, stack, hextend, _, ⟨_, -, rfl⟩, _, ⟨_, -, rfl⟩, _, ⟨_, -, rfl⟩, _, -,
    rfl⟩ := h
  obtain ⟨requests, hstands, hlen⟩ := requests_of_validateCallRequests hrequests
  exact ⟨requests, hlen, hb.nonRevertible.extend hstands.calls hextend, hb.revertible⟩

/-- **Updating the revertible values pushes the requests of the call onto the revertible stack**,
and nothing else touches the two stacks. -/
theorem updatePublicEndValues_stacks (h : updatePublicEndValues hashes publicCall b = .ok b')
    (hb : BuilderStacks b nonRevertible revertible) :
    ∃ requests, requests.length = enqueuedCalls publicCall ∧
      BuilderStacks b' nonRevertible (revertible ++ requests) := by
  simp only [updatePublicEndValues, propagateNewNullifiers, propagateNewNoteHashes,
    propagateNewL2ToL1Messages, propagateValidPublicDataUpdateRequests,
    propagateValidPublicDataReads, bind_eq_ok, pure_eq_ok] at h
  obtain ⟨_, -, _, hrequests, stack, hextend, _, ⟨_, -, rfl⟩, _, ⟨_, -, rfl⟩, _, ⟨_, -, rfl⟩, _,
    ⟨_, -, rfl⟩, _, -, rfl⟩ := h
  obtain ⟨requests, hstands, hlen⟩ := requests_of_validateCallRequests hrequests
  exact ⟨requests, hlen, hb.nonRevertible, hb.revertible.extend hstands.calls hextend⟩

variable {previous next : KernelPublicInputs}

section

variable (hp : Consistent previous nonRevertible revertible)
include hp

theorem runNonRevertible_stacks (h : runNonRevertible hashes previous publicCall = .ok next) :
    ∃ rest request requests, nonRevertible = rest ++ [request] ∧
      requests.length = enqueuedCalls publicCall ∧
      Consistent next (rest ++ requests) revertible := by
  simp only [runNonRevertible, bind_eq_ok, pure_eq_ok] at h
  obtain ⟨⟨request, stack⟩, hpop, _, -, b₁, hupdate, b₂, hlogs, rfl⟩ := h
  obtain ⟨hnr, hr⟩ := initializeEndValues_stacks hp
  obtain ⟨rest, rfl, hrest⟩ := hnr.pop hpop
  obtain ⟨requests, hlen, hb₁⟩ := updatePublicEndNonRevertibleValues_stacks hupdate ⟨hrest, hr⟩
  exact ⟨rest, request, requests, rfl, hlen, (accumulateUnencryptedLogs_stacks hb₁ hlogs).toInner⟩

/-- **An accepted setup iteration**: two or more calls are left on the non-revertible stack, and
the last is replaced by the calls it enqueues. -/
theorem setup_stacks (h : publicKernelSetup hashes previous publicCall = .ok next) :
    1 < nonRevertible.length ∧ ∃ rest request requests, nonRevertible = rest ++ [request] ∧
      requests.length = enqueuedCalls publicCall ∧
      Consistent next (rest ++ requests) revertible := by
  simp only [publicKernelSetup, validateInputsSetup, bind_eq_ok, assert_eq_ok] at h
  obtain ⟨_, -, _, ⟨_, -, hsetup⟩, hrun⟩ := h
  exact ⟨hp.needsSetup_iff.1 hsetup, runNonRevertible_stacks hp hrun⟩

/-- **An accepted app logic iteration**: at most the teardown call is left on the non-revertible
stack, and the last revertible call is replaced by the calls it enqueues. -/
theorem appLogic_stacks (h : publicKernelAppLogic hashes previous publicCall = .ok next) :
    nonRevertible.length ≤ 1 ∧ ∃ rest request requests, revertible = rest ++ [request] ∧
      requests.length = enqueuedCalls publicCall ∧
      Consistent next nonRevertible (rest ++ requests) := by
  simp only [publicKernelAppLogic, validateInputsAppLogic, bind_eq_ok, assert_eq_ok,
    Bool.not_eq_true', pure_eq_ok] at h
  obtain ⟨_, -, _, ⟨_, hsetup, -⟩, ⟨request, stack⟩, hpop, _, -, b₁, hupdate, b₂, hlogs, rfl⟩ := h
  have hle : nonRevertible.length ≤ 1 := by
    rw [← Nat.not_lt, ← hp.needsSetup_iff, hsetup]
    exact Bool.false_ne_true
  obtain ⟨hnr, hr⟩ := initializeEndValues_stacks hp
  obtain ⟨rest, rfl, hrest⟩ := hr.pop hpop
  obtain ⟨requests, hlen, hb₁⟩ := updatePublicEndValues_stacks hupdate ⟨hnr, hrest⟩
  exact ⟨hle, rest, request, requests, rfl, hlen,
    (accumulateUnencryptedLogs_stacks hb₁ hlogs).toInner⟩

/-- **An accepted teardown iteration**: one call is left on the non-revertible stack and none on
the revertible one, and that call is replaced by the calls it enqueues. -/
theorem teardown_stacks (h : publicKernelTeardown hashes previous publicCall = .ok next) :
    nonRevertible.length = 1 ∧ revertible = [] ∧
      ∃ requests, requests.length = enqueuedCalls publicCall ∧ Consistent next requests [] := by
  simp only [publicKernelTeardown, validateInputsTeardown, bind_eq_ok, assert_eq_ok,
    Bool.not_eq_true'] at h
  obtain ⟨_, -, _, ⟨_, hsetup, _, hlogic, hteardown⟩, hrun⟩ := h
  have hle : nonRevertible.length ≤ 1 := by
    rw [← Nat.not_lt, ← hp.needsSetup_iff, hsetup]
    exact Bool.false_ne_true
  have hpos := hp.needsTeardown_iff.1 hteardown
  have hnil : revertible = [] := by
    rw [← List.length_eq_zero_iff, ← Nat.le_zero, ← Nat.not_lt, ← hp.needsAppLogic_iff, hlogic]
    exact Bool.false_ne_true
  subst hnil
  obtain ⟨rest, request, requests, rfl, hlen, hnext⟩ := runNonRevertible_stacks hp hrun
  have hrest : rest = [] := by
    simp only [List.length_append, List.length_singleton] at hle
    exact List.length_eq_zero_iff.1 (by omega)
  subst hrest
  exact ⟨rfl, rfl, requests, hlen, by simpa using hnext⟩

end

end Stacks

end Kernel
