/-
**The logs of a transaction, and the hashes the kernels accumulate of them.**

Each call publishes the hash of its logs and their length.  The kernels accumulate the hashes one
call after the other, in the order in which calls come off their stacks, and see no logs.  The logs
are listed elsewhere: for the private calls by a recursion over the tree of executions, for the
public ones by the loop of the phase managers, which appends them to the transaction.  The two
orders agree, so that the hash of what is listed is the hash that is proven.
-/

import Aztec.BodyCodec
import Aztec.PrivateCallTree
import Aztec.PublicKernelPhases
import Mathlib.Data.UInt

open Option

namespace CircuitTypes

def FunctionL2Logs.getSerializedLength (l : FunctionL2Logs) : ℕ :=
  (l.logs.map fun log => log.length + 4).sum + 4

def TxL2Logs.addFunctionLogs (l : TxL2Logs) (functionLogs : List FunctionL2Logs) : TxL2Logs :=
  ⟨l.functionLogs ++ functionLogs⟩

end CircuitTypes

namespace KernelLogs

open BlockBody TxsHash CircuitTypes Kernel PrivateKernel StackTraversal Failing Noir

/-! ### The hashes -/

def to2Fields (buf : Bytes32) : Vector Field 2 :=
  let buf1 := List.replicate 16 0 ++ buf.toList.take 16
  let buf2 := List.replicate 16 0 ++ buf.toList.drop 16
  #v[BigEndian.read buf1, BigEndian.read buf2]

/-- `accumulate_sha256`, of numbers that have passed the conversion to `U128`. -/
def accumulateSha256 (sha256 : Bytes → Bytes32) (input : Vector Field 4) : Vector Field 2 :=
  limbs (sha256 (input.toList.flatMap (BigEndian.write 16)))

theorem read_half {half : Bytes} (hhalf : half.length = 16) :
    BigEndian.read (List.replicate 16 0 ++ half) =
      BigEndian.read (half.take 8) * 2 ^ 64 + BigEndian.read (half.drop 8) := by
  have hzeros : BigEndian.read (List.replicate 16 0) = 0 := by decide
  have hlow : (half.drop 8).length = 8 := by rw [List.length_drop, hhalf]
  rw [BigEndian.read_append, hzeros, Nat.zero_mul, Nat.zero_add]
  conv_lhs => rw [← List.take_append_drop 8 half]
  rw [BigEndian.read_append, hlow, show (256 : ℕ) ^ 8 = 2 ^ 64 by norm_num]

theorem to2Fields_eq_limbs (bytes : Bytes32) : to2Fields bytes = limbs bytes := by
  have hlen : bytes.toList.length = 32 := by simp
  have hfirst : (bytes.toList.take 16).length = 16 := by rw [List.length_take, hlen]; rfl
  have hsecond : (bytes.toList.drop 16).length = 16 := by rw [List.length_drop, hlen]
  have hend : (bytes.toList.drop 24).take 8 = bytes.toList.drop 24 :=
    List.take_of_length_le (by rw [List.length_drop, hlen])
  simp only [to2Fields, read_half hfirst, read_half hsecond]
  simp [limbs, toU128Limbs, fromBytes32, Vector.head, List.take_take, List.drop_drop, List.drop_take, hend]

theorem accumulateSha256_to2Fields (sha256 : Bytes → Bytes32) (left right : Bytes32) :
    accumulateSha256 sha256 (to2Fields left ++ to2Fields right) =
      to2Fields (sha256 (left.toList ++ right.toList)) := by
  rw [accumulateSha256, Vector.toList_append, List.flatMap_append, to2Fields_eq_limbs,
    to2Fields_eq_limbs, to2Fields_eq_limbs, flatMap_limbs, flatMap_limbs]

/-! ### The executions -/

variable (sha256 : Bytes → Bytes32)

/-- The log fields of the public inputs, as `executePrivateFunction` sets them. -/
def setPrivateLogs (encryptedLogs unencryptedLogs : FunctionL2Logs)
    (publicInputs : PrivateCircuitPublicInputs) : Option PrivateCircuitPublicInputs := do
  let encryptedLogsHash ← encryptedLogs.hash sha256
  let unencryptedLogsHash ← unencryptedLogs.hash sha256
  return { publicInputs with
    encryptedLogsHash := to2Fields encryptedLogsHash
    encryptedLogPreimagesLength := encryptedLogs.getSerializedLength
    unencryptedLogsHash := to2Fields unencryptedLogsHash
    unencryptedLogPreimagesLength := unencryptedLogs.getSerializedLength }

/-- An `ExecutionResult` without its nested executions, with the call data that the prover makes of
it.  The public inputs are those the circuit returned, with the log fields set. -/
structure PrivateExecution where
  callData : PrivateCallData
  encryptedLogs : FunctionL2Logs
  unencryptedLogs : FunctionL2Logs
  returned : PrivateCircuitPublicInputs
  publicInputs_eq : setPrivateLogs sha256 encryptedLogs unencryptedLogs returned =
    some callData.callStackItem.publicInputs

def setPublicLogs (unencryptedLogs : FunctionL2Logs) (publicInputs : PublicCircuitPublicInputs) :
    Option PublicCircuitPublicInputs := do
  let unencryptedLogsHash ← unencryptedLogs.hash sha256
  return { publicInputs with
    unencryptedLogsHash := to2Fields unencryptedLogsHash
    unencryptedLogPreimagesLength := unencryptedLogs.getSerializedLength }

/-- A `PublicExecutionResult` without its nested executions, with the call data that the phase
manager makes of it. -/
structure PublicExecution where
  callData : PublicCallData
  unencryptedLogs : FunctionL2Logs
  simulated : PublicCircuitPublicInputs
  publicInputs_eq : setPublicLogs sha256 unencryptedLogs simulated =
    some callData.callStackItem.publicInputs

variable {sha256}

def collectEncryptedLogs (execResult : RoseTree (PrivateExecution sha256)) : List FunctionL2Logs :=
  execResult.collect PrivateExecution.encryptedLogs

def collectUnencryptedLogs (execResult : RoseTree (PrivateExecution sha256)) :
    List FunctionL2Logs :=
  execResult.collect PrivateExecution.unencryptedLogs

/-! ### The kernel prover -/

section Prover

variable (hashes : PrivateKernelHashes) (txRequest : TxRequest)
  (computeHints : InnerPublicInputs → TailHints)

/-- The hashes, with `accumulate_sha256` over the given SHA-256. -/
def withSha256 (sha256 : Bytes → Bytes32) : PrivateKernelHashes :=
  { hashes with accumulateSha256 := accumulateSha256 sha256 }

/-- A turn of the loop of `KernelProver.prove`; there is no output before the first. -/
def proveCall (output : Option InnerPublicInputs) (currentExecution : PrivateExecution sha256) :
    Circuit (Option InnerPublicInputs) :=
  match output with
  | none => do
    let output ← init (withSha256 hashes sha256) txRequest currentExecution.callData
    return some output
  | some output => do
    let output ← PrivateKernel.inner (withSha256 hashes sha256) output currentExecution.callData
    return some output

def prove (executionResult : RoseTree (PrivateExecution sha256)) : Circuit KernelPublicInputs := do
  let output ← loop (proveCall hashes txRequest) [executionResult] none
  match output with
  | none => throw "no private call has been proven"
  | some output => tail (withSha256 hashes sha256) (computeHints output) output

end Prover

/-! ### The phase managers -/

section Phases

/-- The public data of the accumulated data, which the phase managers write themselves. -/
structure PublicData where
  nonRevertibleReads : Vector PublicDataRead 16
  nonRevertibleUpdateRequests : Vector PublicDataUpdateRequest 16
  revertibleReads : Vector PublicDataRead 16
  revertibleUpdateRequests : Vector PublicDataUpdateRequest 16

def withPublicData (p : KernelPublicInputs) (data : PublicData) : KernelPublicInputs :=
  { p with
    endNonRevertible :=
      { p.endNonRevertible with
        publicDataReads := data.nonRevertibleReads
        publicDataUpdateRequests := data.nonRevertibleUpdateRequests }
    «end» :=
      { p.end with
        publicDataReads := data.revertibleReads
        publicDataUpdateRequests := data.revertibleUpdateRequests } }

/-- What the phase managers use; how they order the public data is left open here. -/
structure PhaseManager (sha256 : Bytes → Bytes32) where
  hashes : KernelHashes
  patchPublicStorageActionOrdering : KernelPublicInputs → RoseTree (PublicExecution sha256) →
    Circuit PublicData
  removeRedundantPublicDataWrites : KernelPublicInputs → PublicData

/-- The hashes, with `accumulate_sha256` over the given SHA-256. -/
def PhaseManager.kernelHashes (manager : PhaseManager sha256) : KernelHashes :=
  { manager.hashes with accumulateSha256 := accumulateSha256 sha256 }

variable (manager : PhaseManager sha256) (phase : Phase)

abbrev PhaseState := KernelPublicInputs × List FunctionL2Logs

/-- A turn of the inner loop of `processEnqueuedPublicCalls`. -/
def runKernelCircuit (state : PhaseState) (result : PublicExecution sha256) :
    Circuit PhaseState := do
  let newUnencryptedFunctionLogs := state.2 ++ [result.unencryptedLogs]
  let kernelOutput ← iteration manager.kernelHashes state.1 result.callData phase
  return (kernelOutput, newUnencryptedFunctionLogs)

/-- A turn of the outer loop, for an enqueued call with the calls that it made. -/
def runEnqueuedCall (state : PhaseState) (enqueuedCall : RoseTree (PublicExecution sha256)) :
    Circuit PhaseState := do
  let (kernelOutput, newUnencryptedFunctionLogs) ←
    loop (runKernelCircuit manager phase) [enqueuedCall] state
  let data ← manager.patchPublicStorageActionOrdering kernelOutput enqueuedCall
  return (withPublicData kernelOutput data, newUnencryptedFunctionLogs)

def processEnqueuedPublicCalls (kernelOutput : KernelPublicInputs)
    (enqueuedCalls : List (RoseTree (PublicExecution sha256))) : Circuit PhaseState :=
  if enqueuedCalls = [] then return (kernelOutput, [])
  else do
    let (kernelOutput, newUnencryptedFunctionLogs) ←
      enqueuedCalls.foldlM (runEnqueuedCall manager phase) (kernelOutput, [])
    return (withPublicData kernelOutput (manager.removeRedundantPublicDataWrites kernelOutput),
      newUnencryptedFunctionLogs)

end Phases

/-! ### Transactions -/

/-- A transaction: the output of the last kernel that ran in `data`, and its logs. -/
structure Tx where
  data : KernelPublicInputs
  encryptedLogs : TxL2Logs
  unencryptedLogs : TxL2Logs

def simulateAndProve (hashes : PrivateKernelHashes) (txRequest : TxRequest)
    (computeHints : InnerPublicInputs → TailHints)
    (executionResult : RoseTree (PrivateExecution sha256)) : Circuit Tx := do
  let data ← prove hashes txRequest computeHints executionResult
  let encryptedLogs := ⟨collectEncryptedLogs executionResult⟩
  let unencryptedLogs := ⟨collectUnencryptedLogs executionResult⟩
  return { data, encryptedLogs, unencryptedLogs }

/-- A phase, with the calls it takes from the transaction and what they execute. -/
abbrev PhaseRun (sha256 : Bytes → Bytes32) := Phase × List (RoseTree (PublicExecution sha256))

def handle (manager : PhaseManager sha256) (tx : Tx) (run : PhaseRun sha256) : Circuit Tx := do
  let (publicKernelOutput, newUnencryptedFunctionLogs) ←
    processEnqueuedPublicCalls manager run.1 tx.data run.2
  return { tx with
    data := publicKernelOutput
    unencryptedLogs := tx.unencryptedLogs.addFunctionLogs newUnencryptedFunctionLogs }

/-- The loop of the public processor over the phases of a transaction. -/
def processPhases (manager : PhaseManager sha256) (tx : Tx) (phases : List (PhaseRun sha256)) :
    Circuit Tx :=
  phases.foldlM (handle manager) tx

/-! ### Accumulated logs -/

/-- A hash and a length of the kernels are those of the logs. -/
structure Accumulates (sha256 : Bytes → Bytes32) (logs : TxL2Logs) (hash : Vector Field 2)
    (length : Field) : Prop where
  hash_eq : (logs.hash sha256).map to2Fields = some hash
  length_eq : length =
    (logs.functionLogs.map FunctionL2Logs.getSerializedLength).sum % fieldModulus

structure Published (sha256 : Bytes → Bytes32) (logs : FunctionL2Logs) (hash : Vector Field 2)
    (length : Field) : Prop where
  hash_eq : (logs.hash sha256).map to2Fields = some hash
  length_eq : length = logs.getSerializedLength

section Lemmas

variable {logs : TxL2Logs} {hash : Vector Field 2} {length : Field}

theorem Accumulates.empty : Accumulates sha256 ⟨[]⟩ (Vector.replicate 2 0) 0 where
  hash_eq := by
    simp only [TxL2Logs.hash, List.foldlM_nil, pure, map_some, some.injEq]
    decide
  length_eq := rfl

theorem Accumulates.push (h : Accumulates sha256 logs hash length) {functionLogs : FunctionL2Logs}
    {callHash : Vector Field 2} {callLength : Field}
    (hcall : Published sha256 functionLogs callHash callLength) :
    Accumulates sha256 (logs.addFunctionLogs [functionLogs])
      (accumulateSha256 sha256 (hash ++ callHash)) ((length + callLength) % fieldModulus) := by
  obtain ⟨digest, hdigest, rfl⟩ := map_eq_some_iff.1 h.hash_eq
  obtain ⟨callDigest, hcallDigest, rfl⟩ := map_eq_some_iff.1 hcall.hash_eq
  constructor
  · rw [TxL2Logs.hash] at hdigest
    rw [TxL2Logs.hash, TxL2Logs.addFunctionLogs, List.foldlM_append, hdigest,
      accumulateSha256_to2Fields]
    simp [hcallDigest]
  · rw [TxL2Logs.addFunctionLogs, List.map_append, List.sum_append, h.length_eq, hcall.length_eq,
      Nat.mod_add_mod]
    simp

end Lemmas

/-! ### What the kernels do to the log values -/

@[ext]
structure LogValues where
  encryptedLogsHash : Vector Field 2
  unencryptedLogsHash : Vector Field 2
  encryptedLogPreimagesLength : Field
  unencryptedLogPreimagesLength : Field

namespace LogValues

def zeroed : LogValues := ⟨Vector.replicate 2 0, Vector.replicate 2 0, 0, 0⟩

def ofCall (c : PrivateCallData) : LogValues :=
  let publicInputs := c.callStackItem.publicInputs
  ⟨publicInputs.encryptedLogsHash, publicInputs.unencryptedLogsHash,
    publicInputs.encryptedLogPreimagesLength, publicInputs.unencryptedLogPreimagesLength⟩

def ofBuilder (b : CombinedBuilder) : LogValues :=
  ⟨b.encryptedLogsHash, b.unencryptedLogsHash, b.encryptedLogPreimagesLength,
    b.unencryptedLogPreimagesLength⟩

def ofCombined (d : Kernel.CombinedData) : LogValues :=
  ⟨d.encryptedLogsHash, d.unencryptedLogsHash, d.encryptedLogPreimagesLength,
    d.unencryptedLogPreimagesLength⟩

def ofRevertible (d : RevertibleData) : LogValues :=
  ⟨d.encryptedLogsHash, d.unencryptedLogsHash, d.encryptedLogPreimagesLength,
    d.unencryptedLogPreimagesLength⟩

variable (accumulate : Vector Field 4 → Vector Field 2) (v : LogValues)

def addUnencrypted (hash : Vector Field 2) (length : Field) : LogValues :=
  { v with
    unencryptedLogsHash := accumulate (v.unencryptedLogsHash ++ hash)
    unencryptedLogPreimagesLength := (v.unencryptedLogPreimagesLength + length) % fieldModulus }

def addCall (call : LogValues) : LogValues :=
  { v.addUnencrypted accumulate call.unencryptedLogsHash call.unencryptedLogPreimagesLength with
    encryptedLogsHash := accumulate (v.encryptedLogsHash ++ call.encryptedLogsHash)
    encryptedLogPreimagesLength :=
      (v.encryptedLogPreimagesLength + call.encryptedLogPreimagesLength) % fieldModulus }

end LogValues

section Private

variable {hashes : PrivateKernelHashes} {c : PrivateCallData} {out out' : Builder}

theorem computeLogsHash_eq {previous current v : Vector Field 2}
    (h : computeLogsHash hashes previous current = .ok v) :
    v = hashes.accumulateSha256 (previous ++ current) := by
  simp only [computeLogsHash, bind_eq_ok, pure_eq_ok] at h
  obtain ⟨_, -, rfl⟩ := h
  rfl

theorem updateEndValues_logs (h : PrivateKernel.updateEndValues hashes c out = .ok out') :
    LogValues.ofBuilder out'.end =
      (LogValues.ofBuilder out.end).addCall hashes.accumulateSha256 (.ofCall c) := by
  simp only [PrivateKernel.updateEndValues, bind_eq_ok, pure_eq_ok] at h
  obtain ⟨_, -, reads, -, keys, -, nullifiers, -, noteHashes, -, _, -, privateStack, -, _, -,
    publicStack, -, messages, -, encrypted, hencrypted, unencrypted, hunencrypted, rfl⟩ := h
  rw [computeLogsHash_eq hencrypted, computeLogsHash_eq hunencrypted]
  rfl

theorem contractLogic_logs {data : ContractDeploymentData} {functionData : FunctionData}
    (h : contractLogic hashes c data functionData out = .ok out') :
    LogValues.ofBuilder out'.end = LogValues.ofBuilder out.end := by
  unfold contractLogic at h
  split at h
  · simp only [bind_eq_ok, pure_eq_ok] at h
    obtain ⟨_, -, contracts, -, _, -, nullifiers, -, rfl⟩ := h
    rfl
  · simp only [bind_eq_ok, pure_eq_ok] at h
    obtain ⟨_, -, _, -, rfl⟩ := h
    rfl

theorem init_logs {txRequest : TxRequest} {p : InnerPublicInputs}
    (h : init hashes txRequest c = .ok p) : LogValues.ofCombined p.end =
      LogValues.zeroed.addCall hashes.accumulateSha256 (.ofCall c) := by
  simp only [init, bind_eq_ok, pure_eq_ok] at h
  obtain ⟨_, -, _, -, _, -, _, -, nullifiers, -, out₁, hupdate, out₂, hlogic, rfl⟩ := h
  have hlogs := (contractLogic_logs hlogic).trans (updateEndValues_logs hupdate)
  exact hlogs

theorem inner_logs {p q : InnerPublicInputs} (h : PrivateKernel.inner hashes p c = .ok q) :
    LogValues.ofCombined q.end =
      (LogValues.ofCombined p.end).addCall hashes.accumulateSha256 (.ofCall c) := by
  simp only [PrivateKernel.inner, bind_eq_ok, pure_eq_ok] at h
  obtain ⟨_, -, _, -, _, -, _, -, ⟨request, stack⟩, -, _, -, _, -, out₁, hupdate, _, -, out₂,
    hlogic, rfl⟩ := h
  have hlogs := (contractLogic_logs hlogic).trans (updateEndValues_logs hupdate)
  exact hlogs

theorem tail_logs {hints : TailHints} {p : InnerPublicInputs} {q : KernelPublicInputs}
    (h : tail hashes hints p = .ok q) :
    LogValues.ofRevertible q.end = LogValues.ofCombined p.end := by
  simp only [tail, bind_eq_ok] at h
  obtain ⟨_, -, _, -, _, -, _, -, _, -, _, -, squashed, -, noteHashes, -, htail⟩ := h
  simp only [Builder.toTail, Kernel.toTail, CombinedBuilder.split, bind_eq_ok, pure_eq_ok] at htail
  obtain ⟨_, ⟨noteHashes', -, nullifiers, -, calls, -, rfl⟩, rfl⟩ := htail
  rfl

end Private

section Public

variable {hashes : KernelHashes} {publicCall : PublicCallData} {b b' : KernelBuilder}

def builderLogs (b : KernelBuilder) : LogValues := .ofRevertible b.end.toPublic

theorem updatePublicEndNonRevertibleValues_logs
    (h : updatePublicEndNonRevertibleValues hashes publicCall b = .ok b') :
    builderLogs b' = builderLogs b := by
  simp only [updatePublicEndNonRevertibleValues, propagateNewNullifiersNonRevertible,
    propagateNewNoteHashesNonRevertible, propagateValidNonRevertiblePublicDataUpdateRequests,
    propagateValidNonRevertiblePublicDataReads, bind_eq_ok, pure_eq_ok] at h
  obtain ⟨_, -, _, -, stack, -, _, ⟨_, -, rfl⟩, _, ⟨_, -, rfl⟩, _, ⟨_, -, rfl⟩, _, -, rfl⟩ := h
  rfl

theorem updatePublicEndValues_logs (h : updatePublicEndValues hashes publicCall b = .ok b') :
    builderLogs b' = builderLogs b := by
  simp only [updatePublicEndValues, propagateNewNullifiers, propagateNewNoteHashes,
    propagateNewL2ToL1Messages, propagateValidPublicDataUpdateRequests,
    propagateValidPublicDataReads, bind_eq_ok, pure_eq_ok] at h
  obtain ⟨_, -, _, -, stack, -, _, ⟨_, -, rfl⟩, _, ⟨_, -, rfl⟩, _, ⟨_, -, rfl⟩, _,
    ⟨_, -, rfl⟩, _, -, rfl⟩ := h
  rfl

theorem accumulateUnencryptedLogs_logs {v : LogValues}
    (h : accumulateUnencryptedLogs hashes publicCall b v.unencryptedLogsHash
      v.unencryptedLogPreimagesLength = .ok b')
    (hhash : (builderLogs b).encryptedLogsHash = v.encryptedLogsHash)
    (hlength : (builderLogs b).encryptedLogPreimagesLength = v.encryptedLogPreimagesLength) :
    builderLogs b' = v.addUnencrypted hashes.accumulateSha256
      publicCall.callStackItem.publicInputs.unencryptedLogsHash
      publicCall.callStackItem.publicInputs.unencryptedLogPreimagesLength := by
  simp only [accumulateUnencryptedLogs, bind_eq_ok, pure_eq_ok] at h
  obtain ⟨_, -, rfl⟩ := h
  exact LogValues.ext hhash rfl hlength rfl

theorem iteration_logs {phase : Phase} {p q : KernelPublicInputs}
    (h : iteration hashes p publicCall phase = .ok q) : LogValues.ofRevertible q.end =
      (LogValues.ofRevertible p.end).addUnencrypted hashes.accumulateSha256
        publicCall.callStackItem.publicInputs.unencryptedLogsHash
        publicCall.callStackItem.publicInputs.unencryptedLogPreimagesLength := by
  have hnonRevertible (hrun : runNonRevertible hashes p publicCall = .ok q) :
      LogValues.ofRevertible q.end =
        (LogValues.ofRevertible p.end).addUnencrypted hashes.accumulateSha256
          publicCall.callStackItem.publicInputs.unencryptedLogsHash
          publicCall.callStackItem.publicInputs.unencryptedLogPreimagesLength := by
    simp only [runNonRevertible, bind_eq_ok, pure_eq_ok] at hrun
    obtain ⟨⟨request, stack⟩, -, _, -, b₁, hupdate, b₂, hlogs, rfl⟩ := hrun
    have hkept := updatePublicEndNonRevertibleValues_logs hupdate
    exact accumulateUnencryptedLogs_logs (v := .ofRevertible p.end) hlogs
      ((congrArg LogValues.encryptedLogsHash hkept).trans rfl)
      ((congrArg LogValues.encryptedLogPreimagesLength hkept).trans rfl)
  cases phase with
  | setup =>
    simp only [iteration, publicKernelSetup, bind_eq_ok] at h
    obtain ⟨_, -, _, -, hrun⟩ := h
    exact hnonRevertible hrun
  | appLogic =>
    simp only [iteration, publicKernelAppLogic, bind_eq_ok, pure_eq_ok] at h
    obtain ⟨_, -, _, -, ⟨request, stack⟩, -, _, -, b₁, hupdate, b₂, hlogs, rfl⟩ := h
    have hkept := updatePublicEndValues_logs hupdate
    exact accumulateUnencryptedLogs_logs (v := .ofRevertible p.end) hlogs
      ((congrArg LogValues.encryptedLogsHash hkept).trans rfl)
      ((congrArg LogValues.encryptedLogPreimagesLength hkept).trans rfl)
  | teardown =>
    simp only [iteration, publicKernelTeardown, bind_eq_ok] at h
    obtain ⟨_, -, _, -, hrun⟩ := h
    exact hnonRevertible hrun

end Public

/-! ### The invariant -/

structure LogsMatch (sha256 : Bytes → Bytes32) (encryptedLogs unencryptedLogs : TxL2Logs)
    (v : LogValues) : Prop where
  encrypted : Accumulates sha256 encryptedLogs v.encryptedLogsHash v.encryptedLogPreimagesLength
  unencrypted : Accumulates sha256 unencryptedLogs v.unencryptedLogsHash
    v.unencryptedLogPreimagesLength

section Invariant

variable {encryptedLogs unencryptedLogs : TxL2Logs} {v : LogValues}

theorem LogsMatch.zeroed : LogsMatch sha256 ⟨[]⟩ ⟨[]⟩ .zeroed := ⟨.empty, .empty⟩

theorem PrivateExecution.published (e : PrivateExecution sha256) :
    Published sha256 e.encryptedLogs (LogValues.ofCall e.callData).encryptedLogsHash
        (LogValues.ofCall e.callData).encryptedLogPreimagesLength ∧
      Published sha256 e.unencryptedLogs (LogValues.ofCall e.callData).unencryptedLogsHash
        (LogValues.ofCall e.callData).unencryptedLogPreimagesLength := by
  have h := e.publicInputs_eq
  simp only [setPrivateLogs, bind_eq_bind, bind_eq_some_iff, pure, some.injEq] at h
  obtain ⟨digest, hdigest, digest', hdigest', h⟩ := h
  simp only [LogValues.ofCall, ← h]
  exact ⟨⟨by rw [hdigest, map_some], rfl⟩, ⟨by rw [hdigest', map_some], rfl⟩⟩

theorem PublicExecution.published (e : PublicExecution sha256) :
    Published sha256 e.unencryptedLogs e.callData.callStackItem.publicInputs.unencryptedLogsHash
      e.callData.callStackItem.publicInputs.unencryptedLogPreimagesLength := by
  have h := e.publicInputs_eq
  simp only [setPublicLogs, bind_eq_bind, bind_eq_some_iff, pure, some.injEq] at h
  obtain ⟨digest, hdigest, h⟩ := h
  rw [← h]
  exact ⟨by rw [hdigest, map_some], rfl⟩

theorem LogsMatch.addCall (h : LogsMatch sha256 encryptedLogs unencryptedLogs v)
    (e : PrivateExecution sha256) :
    LogsMatch sha256 (encryptedLogs.addFunctionLogs [e.encryptedLogs])
      (unencryptedLogs.addFunctionLogs [e.unencryptedLogs])
      (v.addCall (accumulateSha256 sha256) (.ofCall e.callData)) :=
  ⟨h.encrypted.push e.published.1, h.unencrypted.push e.published.2⟩

theorem LogsMatch.addUnencrypted (h : LogsMatch sha256 encryptedLogs unencryptedLogs v)
    (e : PublicExecution sha256) :
    LogsMatch sha256 encryptedLogs (unencryptedLogs.addFunctionLogs [e.unencryptedLogs])
      (v.addUnencrypted (accumulateSha256 sha256)
        e.callData.callStackItem.publicInputs.unencryptedLogsHash
        e.callData.callStackItem.publicInputs.unencryptedLogPreimagesLength) :=
  ⟨h.encrypted, h.unencrypted.push e.published⟩

end Invariant

/-! ### The private calls -/

section Prove

variable {hashes : PrivateKernelHashes} {txRequest : TxRequest}
  {computeHints : InnerPublicInputs → TailHints}

/-- After the calls in `before`, the output matches their logs. -/
def ProveInvariant (before : List (PrivateExecution sha256)) : Option InnerPublicInputs → Prop
  | none => before = []
  | some output => LogsMatch sha256 ⟨before.map PrivateExecution.encryptedLogs⟩
      ⟨before.map PrivateExecution.unencryptedLogs⟩ (.ofCombined output.end)

theorem proveCall_logs {before : List (PrivateExecution sha256)} {e : PrivateExecution sha256}
    {output output' : Option InnerPublicInputs} (hinv : ProveInvariant before output)
    (h : proveCall hashes txRequest output e = .ok output') :
    ProveInvariant (before ++ [e]) output' := by
  cases output with
  | none =>
    simp only [proveCall, bind_eq_ok, pure_eq_ok] at h
    obtain ⟨p, hinit, rfl⟩ := h
    have hbefore : before = [] := hinv
    rw [hbefore, ProveInvariant, init_logs hinit]
    exact LogsMatch.zeroed.addCall e
  | some output =>
    simp only [proveCall, bind_eq_ok, pure_eq_ok] at h
    obtain ⟨p, hinner, rfl⟩ := h
    rw [ProveInvariant, inner_logs hinner, List.map_append, List.map_append]
    exact LogsMatch.addCall hinv e

theorem prove_logs {executionResult : RoseTree (PrivateExecution sha256)} {p : KernelPublicInputs}
    (h : prove hashes txRequest computeHints executionResult = .ok p) :
    LogsMatch sha256 ⟨collectEncryptedLogs executionResult⟩
      ⟨collectUnencryptedLogs executionResult⟩ (.ofRevertible p.end) := by
  rw [prove, loop_eq, bind_eq_ok] at h
  obtain ⟨output, hloop, htail⟩ := h
  have hstart : ProveInvariant ([] : List (PrivateExecution sha256)) none := rfl
  have hinv := foldlM_invariant ProveInvariant (fun _ _ _ _ => proveCall_logs) hstart hloop
  rw [List.flatMap_singleton] at hinv
  rw [collectEncryptedLogs, collectUnencryptedLogs,
    RoseTree.collect_eq_map PrivateExecution.encryptedLogs,
    RoseTree.collect_eq_map PrivateExecution.unencryptedLogs]
  cases output with
  | none => exact absurd htail nofun
  | some output =>
    rw [tail_logs htail]
    exact hinv

end Prove

/-! ### The public calls -/

section Process

variable {manager : PhaseManager sha256} {tx tx' : Tx}

/-- In the middle of a phase: the logs of the transaction and those of the phase. -/
def PhaseInvariant (sha256 : Bytes → Bytes32) (tx : Tx) (state : PhaseState) : Prop :=
  LogsMatch sha256 tx.encryptedLogs (tx.unencryptedLogs.addFunctionLogs state.2)
    (.ofRevertible state.1.end)

variable {state state' : PhaseState} {phase : Phase}

theorem runKernelCircuit_logs {result : PublicExecution sha256}
    (hinv : PhaseInvariant sha256 tx state)
    (h : runKernelCircuit manager phase state result = .ok state') :
    PhaseInvariant sha256 tx state' := by
  simp only [runKernelCircuit, bind_eq_ok, pure_eq_ok] at h
  obtain ⟨output, hiteration, rfl⟩ := h
  rw [PhaseInvariant, iteration_logs hiteration]
  have hadd := LogsMatch.addUnencrypted hinv result
  rwa [TxL2Logs.addFunctionLogs, TxL2Logs.addFunctionLogs, List.append_assoc] at hadd

theorem runEnqueuedCall_logs {enqueuedCall : RoseTree (PublicExecution sha256)}
    (hinv : PhaseInvariant sha256 tx state)
    (h : runEnqueuedCall manager phase state enqueuedCall = .ok state') :
    PhaseInvariant sha256 tx state' := by
  simp only [runEnqueuedCall, loop_eq, bind_eq_ok, pure_eq_ok] at h
  obtain ⟨mid, hloop, data, -, rfl⟩ := h
  have hmid := foldlM_preserves (PhaseInvariant sha256 tx)
    (fun _ _ _ => runKernelCircuit_logs) hinv hloop
  exact hmid

theorem processEnqueuedPublicCalls_logs {enqueuedCalls : List (RoseTree (PublicExecution sha256))}
    (hinv : PhaseInvariant sha256 tx (tx.data, []))
    (h : processEnqueuedPublicCalls manager phase tx.data enqueuedCalls = .ok state) :
    PhaseInvariant sha256 tx state := by
  unfold processEnqueuedPublicCalls at h
  split at h
  · simp only [pure_eq_ok] at h
    exact h ▸ hinv
  · simp only [bind_eq_ok, pure_eq_ok] at h
    obtain ⟨mid, hloop, rfl⟩ := h
    have hmid := foldlM_preserves (PhaseInvariant sha256 tx)
      (fun _ _ _ => runEnqueuedCall_logs) hinv hloop
    exact hmid

/-- The logs of a transaction match the output of the last kernel. -/
def TxMatches (sha256 : Bytes → Bytes32) (tx : Tx) : Prop :=
  LogsMatch sha256 tx.encryptedLogs tx.unencryptedLogs (.ofRevertible tx.data.end)

theorem handle_logs {run : PhaseRun sha256} (hinv : TxMatches sha256 tx)
    (h : handle manager tx run = .ok tx') : TxMatches sha256 tx' := by
  simp only [handle, bind_eq_ok, pure_eq_ok] at h
  obtain ⟨state, hcalls, rfl⟩ := h
  have hstart : PhaseInvariant sha256 tx (tx.data, []) := by
    rwa [PhaseInvariant, TxL2Logs.addFunctionLogs, List.append_nil]
  exact processEnqueuedPublicCalls_logs hstart hcalls

theorem processPhases_logs {phases : List (PhaseRun sha256)} (hinv : TxMatches sha256 tx)
    (h : processPhases manager tx phases = .ok tx') : TxMatches sha256 tx' :=
  foldlM_preserves (TxMatches sha256) (fun _ _ _ => handle_logs) hinv h

end Process

/-- **The logs of a transaction are the preimages of what is proven**: for the executions the client
proves, and whatever phases with whatever calls the sequencer then runs, the hashes of the encrypted
and of the unencrypted logs are those the kernels have accumulated, and the accumulated lengths are
those of the function logs. -/
theorem logs_match (hashes : PrivateKernelHashes) (txRequest : TxRequest)
    (computeHints : InnerPublicInputs → TailHints) (manager : PhaseManager sha256)
    (executionResult : RoseTree (PrivateExecution sha256)) (phases : List (PhaseRun sha256))
    (tx tx' : Tx) (hprove : simulateAndProve hashes txRequest computeHints executionResult = .ok tx)
    (hprocess : processPhases manager tx phases = .ok tx') :
    Accumulates sha256 tx'.encryptedLogs tx'.data.end.encryptedLogsHash
        tx'.data.end.encryptedLogPreimagesLength ∧
      Accumulates sha256 tx'.unencryptedLogs tx'.data.end.unencryptedLogsHash
        tx'.data.end.unencryptedLogPreimagesLength := by
  simp only [simulateAndProve, bind_eq_ok, pure_eq_ok] at hprove
  obtain ⟨data, hdata, rfl⟩ := hprove
  have hstart : TxMatches sha256 ⟨data, ⟨collectEncryptedLogs executionResult⟩,
      ⟨collectUnencryptedLogs executionResult⟩⟩ := prove_logs hdata
  have hmatch := processPhases_logs hstart hprocess
  exact ⟨hmatch.encrypted, hmatch.unencrypted⟩

/-! ### A transaction with private and public logs -/

namespace TwoPhases

def checksum (bytes : Bytes) : Bytes32 := Vector.replicate 32 bytes.sum

def privateExecution (c : PrivateCallData) (encryptedLogs unencryptedLogs : FunctionL2Logs)
    (h : (setPrivateLogs checksum encryptedLogs unencryptedLogs
      c.callStackItem.publicInputs).isSome) : PrivateExecution checksum where
  callData :=
    { c with
      callStackItem :=
        { c.callStackItem with
          publicInputs := (setPrivateLogs checksum encryptedLogs unencryptedLogs
            c.callStackItem.publicInputs).get h } }
  encryptedLogs := encryptedLogs
  unencryptedLogs := unencryptedLogs
  returned := c.callStackItem.publicInputs
  publicInputs_eq := (Option.some_get h).symm

def publicExecution (c : PublicCallData) (unencryptedLogs : FunctionL2Logs)
    (h : (setPublicLogs checksum unencryptedLogs c.callStackItem.publicInputs).isSome) :
    PublicExecution checksum where
  callData :=
    { c with
      callStackItem :=
        { c.callStackItem with
          publicInputs := (setPublicLogs checksum unencryptedLogs
            c.callStackItem.publicInputs).get h } }
  unencryptedLogs := unencryptedLogs
  simulated := c.callStackItem.publicInputs
  publicInputs_eq := (Option.some_get h).symm

def firstExecution : PrivateExecution checksum :=
  privateExecution OneNested.first ⟨[[1, 2]]⟩ ⟨[]⟩ (by decide)

def nestedExecution : PrivateExecution checksum :=
  privateExecution OneNested.nested ⟨[[3]]⟩ ⟨[[4], [5, 6]]⟩ (by decide)

/-- The entry point calls contract 8 and enqueues a call of contract 9. -/
def executionResult : RoseTree (PrivateExecution checksum) :=
  .node firstExecution [.node nestedExecution []]

def noRequest : CallRequest := Empty.empty

def enqueuedExecution : PublicExecution checksum :=
  publicExecution (BackToSetup.call 9 7 #v[BackToSetup.request 10 9 5, noRequest, noRequest,
    noRequest]) ⟨[[7]]⟩ (by decide)

def calledExecution : PublicExecution checksum :=
  publicExecution (BackToSetup.call 10 9 #v[noRequest, noRequest, noRequest, noRequest]) ⟨[[8, 9]]⟩
    (by decide)

def enqueuedCall : RoseTree (PublicExecution checksum) :=
  .node enqueuedExecution [.node calledExecution []]

def phases : List (PhaseRun checksum) := [(.appLogic, [enqueuedCall])]

/-- A phase manager that leaves the public data empty. -/
def manager : PhaseManager checksum where
  hashes := BackToSetup.hashes
  patchPublicStorageActionOrdering _ _ := return ⟨Vector.replicate 16 Empty.empty,
    Vector.replicate 16 Empty.empty, Vector.replicate 16 Empty.empty,
    Vector.replicate 16 Empty.empty⟩
  removeRedundantPublicDataWrites _ := ⟨Vector.replicate 16 Empty.empty,
    Vector.replicate 16 Empty.empty, Vector.replicate 16 Empty.empty,
    Vector.replicate 16 Empty.empty⟩

theorem loop_pair {S C : Type} (turn : S → C → Circuit S) (c d : C) (s : S) :
    loop turn [.node c [.node d []]] s = [c, d].foldlM turn s := by
  rw [loop_eq]
  simp [RoseTree.collect_node]

theorem accepted : ∃ tx tx', simulateAndProve OneNested.hashes OneNested.txRequest
    (fun _ => OneNested.hints) executionResult = .ok tx ∧
      processPhases manager tx phases = .ok tx' := by
  cases hrun : simulateAndProve OneNested.hashes OneNested.txRequest (fun _ => OneNested.hints)
      executionResult >>= fun tx => processPhases manager tx phases with
  | error msg =>
    have hok : (simulateAndProve OneNested.hashes OneNested.txRequest
        (fun _ => OneNested.hints) executionResult >>= fun tx =>
          processPhases manager tx phases).isOk = true := by
      simp only [simulateAndProve, prove, executionResult, processPhases, phases,
        List.foldlM_cons, List.foldlM_nil, handle, processEnqueuedPublicCalls, runEnqueuedCall,
        enqueuedCall, loop_pair]
      decide +kernel
    rw [hrun] at hok
    exact absurd hok Bool.false_ne_true
  | ok tx' =>
    obtain ⟨tx, htx, htx'⟩ := bind_eq_ok.1 hrun
    exact ⟨tx, tx', htx, htx'⟩

end TwoPhases

open TwoPhases in
/-- The logs of two private and two public calls. -/
theorem logs_match_twoPhases : ∃ tx : Tx,
    Accumulates checksum tx.encryptedLogs tx.data.end.encryptedLogsHash
        tx.data.end.encryptedLogPreimagesLength ∧
      Accumulates checksum tx.unencryptedLogs tx.data.end.unencryptedLogsHash
        tx.data.end.unencryptedLogPreimagesLength := by
  obtain ⟨tx, tx', hprove, hprocess⟩ := accepted
  exact ⟨tx', logs_match OneNested.hashes OneNested.txRequest (fun _ => OneNested.hints) manager
    executionResult phases tx tx' hprove hprocess⟩

end KernelLogs
