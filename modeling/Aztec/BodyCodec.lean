/-
**The codec of a block body, and its hash.**

`Body.toBuffer` regroups the data of the transactions by kind and writes each kind behind its
length; `Body.fromBuffer` reads the kinds and cuts them by fixed strides.  `Body.getCalldataHash`
hashes the transactions as objects, and `TxsDecoder` hashes them from the bytes.

A field element is kept by its 32 bytes: whether its value is below the modulus is looked at only
when it is asked for as a number.  A value that is not of its type (a tuple that is too short, logs
that are missing) is taken for a throw.
-/

import Aztec.BufferReader

open List hiding Vector sections
open Option (bind_eq_some_iff map map_some)

namespace CircuitTypes

open BlockBody TxsHash BufferReader BigEndian

/-! ### The data -/

def tuple {α : Type} (n : ℕ) (l : List α) : Option (Vector α n) :=
  if h : l.length = n then some ⟨l.toArray, h⟩ else none

/-- `Fr` and `AztecAddress`, by their bytes. -/
abbrev Fr := Bytes32

namespace Fr

def zero : Fr := Vector.replicate 32 0

/-- `Fr.fromBuffer`; bytes that are missing are filled in front with zeros. -/
def fromBuffer : BufferReader Fr := do
  let buffer ← readBytes 32
  ofOption (tuple 32 (List.replicate (32 - buffer.length) 0 ++ buffer))

end Fr

abbrev EthAddress := Vector UInt8 20

def EthAddress.toBuffer32 (address : EthAddress) : Bytes := List.replicate 12 0 ++ address.toList

structure PublicDataWrite where
  leafIndex : Fr
  newValue : Fr
  deriving DecidableEq

namespace PublicDataWrite

def toBuffer (write : PublicDataWrite) : Bytes := write.leafIndex.toList ++ write.newValue.toList

def fromBuffer : BufferReader PublicDataWrite := do
  let leafIndex ← Fr.fromBuffer
  let newValue ← Fr.fromBuffer
  pure ⟨leafIndex, newValue⟩

end PublicDataWrite

structure ContractData where
  contractAddress : Fr
  portalContractAddress : EthAddress
  deriving DecidableEq

namespace ContractData

def toBuffer (data : ContractData) : Bytes :=
  data.contractAddress.toList ++ data.portalContractAddress.toList

def fromBuffer : BufferReader ContractData := do
  let aztecAddr ← Fr.fromBuffer
  let buffer ← readBytes 20
  let ethAddr ← ofOption (tuple 20 buffer)
  pure ⟨aztecAddr, ethAddr⟩

end ContractData

/-! ### Logs -/

structure FunctionL2Logs where
  logs : List Bytes
  deriving DecidableEq

open FunctionL2Logs

structure TxL2Logs where
  functionLogs : List FunctionL2Logs
  deriving DecidableEq

structure L2BlockL2Logs where
  txLogs : List TxL2Logs
  deriving DecidableEq

/-- The length of the array of logs, when it stands in front of it. -/
def logsBufLength (isLengthPrefixed : Bool) : BufferReader (Option ℕ) :=
  if isLengthPrefixed then do
    let n ← readNumber
    pure (some n)
  else pure none

namespace FunctionL2Logs

def toBuffer (l : FunctionL2Logs) : Option Bytes := do
  let serializedLogs ← l.logs.mapM prefixBufferWithLength
  prefixBufferWithLength serializedLogs.flatten

/-- `hash`, without the length in front. -/
def hash (sha256 : Bytes → Bytes32) (l : FunctionL2Logs) : Option Bytes32 :=
  l.toBuffer.map fun buffer => sha256 (buffer.drop 4)

def fromBuffer (buf : Bytes) (isLengthPrefixed : Bool) : Option FunctionL2Logs :=
  let read : BufferReader FunctionL2Logs := do
    let length ← logsBufLength isLengthPrefixed
    let logs ← readBufferArray length
    pure ⟨logs⟩
  (read buf 0).map Prod.fst

end FunctionL2Logs

namespace TxL2Logs

def toBuffer (l : TxL2Logs) : Option Bytes := do
  let serializedFunctionLogs ← l.functionLogs.mapM FunctionL2Logs.toBuffer
  prefixBufferWithLength serializedFunctionLogs.flatten

def getTotalLogCount (l : TxL2Logs) : ℕ := (l.functionLogs.map fun logs => logs.logs.length).sum

def fromBuffer (buf : Bytes) (isLengthPrefixed : Bool) : Option TxL2Logs :=
  let read : BufferReader TxL2Logs := do
    let length ← logsBufLength isLengthPrefixed
    let serializedFunctionLogs ← readBufferArray length
    let functionLogs ← ofOption (serializedFunctionLogs.mapM (FunctionL2Logs.fromBuffer · false))
    pure ⟨functionLogs⟩
  (read buf 0).map Prod.fst

/-- `hash`, which accumulates the hashes of the function calls. -/
def hash (sha256 : Bytes → Bytes32) (l : TxL2Logs) : Option Bytes32 :=
  l.functionLogs.foldlM (fun kernelPublicInputsLogsHash logsFromSingleFunctionCall => do
    let logsHash ← logsFromSingleFunctionCall.hash sha256
    return sha256 (kernelPublicInputsLogsHash.toList ++ logsHash.toList)) (Vector.replicate 32 0)

end TxL2Logs

namespace L2BlockL2Logs

def toBuffer (l : L2BlockL2Logs) : Option Bytes := do
  let serializedTxLogs ← l.txLogs.mapM TxL2Logs.toBuffer
  prefixBufferWithLength serializedTxLogs.flatten

def getTotalLogCount (l : L2BlockL2Logs) : ℕ := (l.txLogs.map TxL2Logs.getTotalLogCount).sum

def fromBuffer : BufferReader L2BlockL2Logs := do
  let logsBufLength ← readNumber
  let serializedTxLogs ← readBufferArray (some logsBufLength)
  let txLogs ← ofOption (serializedTxLogs.mapM (TxL2Logs.fromBuffer · false))
  pure ⟨txLogs⟩

end L2BlockL2Logs

/-! ### The effects of a transaction -/

structure TxEffect where
  newNoteHashes : Vector Fr 64
  newNullifiers : Vector Fr 64
  newL2ToL1Msgs : Vector Fr 2
  newPublicDataWrites : Vector PublicDataWrite 32
  contractLeaves : Vector Fr 1
  contractData : Vector ContractData 1
  encryptedLogs : TxL2Logs
  unencryptedLogs : TxL2Logs
  deriving DecidableEq

def TxEffect.hash (sha256 : Bytes → Bytes32) (e : TxEffect) : Option Bytes32 := do
  let noteHashesBuffer := e.newNoteHashes.toList.flatMap Vector.toList
  let nullifiersBuffer := e.newNullifiers.toList.flatMap Vector.toList
  let publicDataUpdateRequestsBuffer :=
    e.newPublicDataWrites.toList.flatMap PublicDataWrite.toBuffer
  let newL2ToL1MsgsBuffer := e.newL2ToL1Msgs.toList.flatMap Vector.toList
  let encryptedLogsHashKernel0 ← e.encryptedLogs.hash sha256
  let unencryptedLogsHashKernel0 ← e.unencryptedLogs.hash sha256
  return sha256 (noteHashesBuffer ++ nullifiersBuffer ++ publicDataUpdateRequestsBuffer ++
    newL2ToL1MsgsBuffer ++ (getElem e.contractLeaves 0 Nat.one_pos).toList ++
    (getElem e.contractData 0 Nat.one_pos).contractAddress.toList ++
    (getElem e.contractData 0 Nat.one_pos).portalContractAddress.toBuffer32 ++ encryptedLogsHashKernel0.toList ++
    unencryptedLogsHashKernel0.toList)

/-! ### The body -/

structure Body where
  l1ToL2Messages : List Fr
  txEffects : List TxEffect
  deriving DecidableEq

/-- `slice` of the elements of the transaction at an index. -/
def sliceAt {α : Type} (l : List α) (size i : ℕ) : List α := (l.drop (i * size)).take size

def calculateNumTxsFromNullifiers (nullifiers : List Fr) : ℕ :=
  (List.range ((nullifiers.length + 63) / 64)).countP fun i =>
    nullifiers.getD (i * 64) Fr.zero != Fr.zero

/-- A layer of `computeRoot`; an odd layer has no right sibling at its end. -/
def hashLayer (sha256 : Bytes → Bytes32) : List Bytes32 → Option (List Bytes32)
  | [] => some []
  | [_] => none
  | left :: right :: rest => do
    let layer ← hashLayer sha256 rest
    return sha256 (left.toList ++ right.toList) :: layer

/-- The loop of `computeRoot`; a turn makes the layer shorter. -/
def computeRoot (sha256 : Bytes → Bytes32) : ℕ → List Bytes32 → Option Bytes32
  | 0, layer => layer[0]?
  | turns + 1, layer =>
    if layer.length > 1 then do
      let layer ← hashLayer sha256 layer
      computeRoot sha256 turns layer
    else layer[0]?

namespace Body

variable (b : Body)

def encryptedLogs : L2BlockL2Logs := ⟨b.txEffects.map TxEffect.encryptedLogs⟩

def unencryptedLogs : L2BlockL2Logs := ⟨b.txEffects.map TxEffect.unencryptedLogs⟩

def toBuffer : Option Bytes := do
  let newNoteHashes := b.txEffects.flatMap fun txEffect => txEffect.newNoteHashes.toList
  let newNullifiers := b.txEffects.flatMap fun txEffect => txEffect.newNullifiers.toList
  let newPublicDataWrites := b.txEffects.flatMap fun txEffect => txEffect.newPublicDataWrites.toList
  let newL2ToL1Msgs := b.txEffects.flatMap fun txEffect => txEffect.newL2ToL1Msgs.toList
  let newContracts := b.txEffects.flatMap fun txEffect => txEffect.contractLeaves.toList
  let newContractData := b.txEffects.flatMap fun txEffect => txEffect.contractData.toList
  let newL1ToL2Messages := b.l1ToL2Messages
  let newEncryptedLogs ← b.encryptedLogs.toBuffer
  let newUnencryptedLogs ← b.unencryptedLogs.toBuffer
  let noteHashesLength ← numToUInt32BE newNoteHashes.length
  let nullifiersLength ← numToUInt32BE newNullifiers.length
  let publicDataWritesLength ← numToUInt32BE newPublicDataWrites.length
  let l2ToL1MsgsLength ← numToUInt32BE newL2ToL1Msgs.length
  let contractsLength ← numToUInt32BE newContracts.length
  let l1ToL2MessagesLength ← numToUInt32BE newL1ToL2Messages.length
  return [noteHashesLength, newNoteHashes.flatMap Vector.toList,
    nullifiersLength, newNullifiers.flatMap Vector.toList,
    publicDataWritesLength, newPublicDataWrites.flatMap PublicDataWrite.toBuffer,
    l2ToL1MsgsLength, newL2ToL1Msgs.flatMap Vector.toList,
    contractsLength, newContracts.flatMap Vector.toList,
    newContractData.flatMap ContractData.toBuffer,
    l1ToL2MessagesLength, newL1ToL2Messages.flatMap Vector.toList,
    newEncryptedLogs, newUnencryptedLogs].flatten

/-- The effects of the transaction at an index, out of the arrays. -/
def txEffectAt (newNoteHashes newNullifiers newL2ToL1Msgs : List Fr)
    (newPublicDataWrites : List PublicDataWrite) (newContracts : List Fr)
    (newContractData : List ContractData) (newEncryptedLogs newUnencryptedLogs : L2BlockL2Logs)
    (i : ℕ) : Option TxEffect := do
  let noteHashes ← tuple 64 (sliceAt newNoteHashes 64 i)
  let nullifiers ← tuple 64 (sliceAt newNullifiers 64 i)
  let l2ToL1Msgs ← tuple 2 (sliceAt newL2ToL1Msgs 2 i)
  let publicDataWrites ← tuple 32 (sliceAt newPublicDataWrites 32 i)
  let contracts ← tuple 1 (sliceAt newContracts 1 i)
  let contractData ← tuple 1 (sliceAt newContractData 1 i)
  let encryptedLogs ← newEncryptedLogs.txLogs[i]?
  let unencryptedLogs ← newUnencryptedLogs.txLogs[i]?
  return ⟨noteHashes, nullifiers, l2ToL1Msgs, publicDataWrites, contracts, contractData,
    encryptedLogs, unencryptedLogs⟩

/-- What `Body.fromBuffer` does with the arrays that it has read. -/
def assemble (newNoteHashes newNullifiers newL2ToL1Msgs : List Fr)
    (newPublicDataWrites : List PublicDataWrite) (newContracts : List Fr)
    (newContractData : List ContractData) (newL1ToL2Messages : List Fr)
    (newEncryptedLogs newUnencryptedLogs : L2BlockL2Logs) : Option Body :=
  let numberOfNonEmptyTxs := calculateNumTxsFromNullifiers newNullifiers
  if (⟨newEncryptedLogs.txLogs.drop numberOfNonEmptyTxs⟩ : L2BlockL2Logs).getTotalLogCount ≠ 0 ∨
      (⟨newUnencryptedLogs.txLogs.drop numberOfNonEmptyTxs⟩ : L2BlockL2Logs).getTotalLogCount ≠ 0
  then none
  else do
    let txEffects ← (List.range ((newNullifiers.length + 63) / 64)).mapM
      (txEffectAt newNoteHashes newNullifiers newL2ToL1Msgs newPublicDataWrites newContracts
        newContractData newEncryptedLogs newUnencryptedLogs)
    return ⟨newL1ToL2Messages, txEffects⟩

def fromBuffer : BufferReader Body := do
  let newNoteHashes ← readVector Fr.fromBuffer
  let newNullifiers ← readVector Fr.fromBuffer
  let newPublicDataWrites ← readVector PublicDataWrite.fromBuffer
  let newL2ToL1Msgs ← readVector Fr.fromBuffer
  let newContracts ← readVector Fr.fromBuffer
  let newContractData ← readArray ContractData.fromBuffer newContracts.length
  let newL1ToL2Messages ← readVector Fr.fromBuffer
  let newEncryptedLogs ← L2BlockL2Logs.fromBuffer
  let newUnencryptedLogs ← L2BlockL2Logs.fromBuffer
  ofOption (assemble newNoteHashes newNullifiers newL2ToL1Msgs newPublicDataWrites newContracts
    newContractData newL1ToL2Messages newEncryptedLogs newUnencryptedLogs)

def getCalldataHash (sha256 : Bytes → Bytes32) : Option Bytes32 := do
  let leafs ← b.txEffects.mapM (TxEffect.hash sha256)
  computeRoot sha256 leafs.length leafs

end Body

/-! ### Reading the data back -/

section Reading

@[simp] theorem tuple_toList {α : Type} {n : ℕ} (v : Vector α n) : tuple n v.toList = some v := by
  rw [tuple, dif_pos v.length_toList]
  rfl

theorem reads_fr (v : Fr) : Reads Fr.fromBuffer v.toList v := by
  have hpad : tuple 32 (List.replicate (32 - v.toList.length) 0 ++ v.toList) = some v := by
    rw [Vector.length_toList, Nat.sub_self, replicate_zero, nil_append, tuple_toList]
  refine (reads_readBytes v.length_toList).andThen ?_
  exact reads_ofOption hpad

theorem reads_publicDataWrite (write : PublicDataWrite) :
    Reads PublicDataWrite.fromBuffer write.toBuffer write := by
  refine (reads_fr write.leafIndex).bind ?_
  refine (reads_fr write.newValue).andThen ?_
  exact Reads.pure write

theorem reads_contractData (data : ContractData) :
    Reads ContractData.fromBuffer data.toBuffer data := by
  refine (reads_fr data.contractAddress).bind ?_
  refine (reads_readBytes data.portalContractAddress.length_toList).andThen ?_
  refine (reads_ofOption (tuple_toList data.portalContractAddress)).andThen ?_
  exact Reads.pure data

end Reading

/-! ### Logs -/

section Logs

/-- The logs of a function call, behind their length in the buffer. -/
def FunctionL2Logs.content (l : FunctionL2Logs) : Bytes := functionLogs l.logs

def TxL2Logs.content (l : TxL2Logs) : Bytes :=
  TxsHash.functionLogs (l.functionLogs.map FunctionL2Logs.content)

def L2BlockL2Logs.content (l : L2BlockL2Logs) : Bytes :=
  functionLogs (l.txLogs.map TxL2Logs.content)

theorem mapM_toBuffer {α : Type} {toBuffer : α → Option Bytes} {content : α → Bytes}
    (h : ∀ a, toBuffer a = prefixBufferWithLength (content a)) (l : List α) :
    (do let buffers ← l.mapM toBuffer; prefixBufferWithLength buffers.flatten) =
      prefixBufferWithLength (functionLogs (l.map content)) := by
  have hfun : toBuffer = prefixBufferWithLength ∘ content := funext h
  rw [← prefixBufferWithLength_mapM, mapM_map, hfun]

theorem FunctionL2Logs.toBuffer_eq (l : FunctionL2Logs) :
    l.toBuffer = prefixBufferWithLength l.content :=
  prefixBufferWithLength_mapM l.logs

theorem TxL2Logs.toBuffer_eq (l : TxL2Logs) : l.toBuffer = prefixBufferWithLength l.content :=
  mapM_toBuffer FunctionL2Logs.toBuffer_eq l.functionLogs

theorem L2BlockL2Logs.toBuffer_eq (l : L2BlockL2Logs) :
    l.toBuffer = prefixBufferWithLength l.content :=
  mapM_toBuffer TxL2Logs.toBuffer_eq l.txLogs

theorem mapM_map_eq_some {α β : Type} {f : β → Option α} {g : α → β} {l : List α}
    (h : ∀ a ∈ l, f (g a) = some a) : (l.map g).mapM f = some l := by
  have hid : l.mapM (f ∘ g) = some (l.map id) := mapM_eq_some_map h
  rw [mapM_map, hid, List.map_id]

theorem length_content_lt {α : Type} {content : α → Bytes} {l : List α} {a : α} (ha : a ∈ l)
    (h : (functionLogs (l.map content)).length < 2 ^ 32) : (content a).length < 2 ^ 32 :=
  (length_le_functionLogs (mem_map_of_mem ha)).trans_lt h

theorem FunctionL2Logs.fromBuffer_content (l : FunctionL2Logs)
    (hlt : l.content.length < 2 ^ 32) : fromBuffer l.content false = some l := by
  have hread : (logsBufLength false >>= fun length => do
      let logs ← readBufferArray length
      pure (⟨logs⟩ : FunctionL2Logs)) l.content 0 = some (l, l.content.length) := by
    rw [bind_eq_of_eq_some rfl]
    exact bind_eq_of_eq_some (readBufferArray_toEnd hlt)
  exact congrArg (Option.map Prod.fst) hread

theorem TxL2Logs.fromBuffer_content (l : TxL2Logs) (hlt : l.content.length < 2 ^ 32) :
    fromBuffer l.content false = some l := by
  have hitems : (l.functionLogs.map FunctionL2Logs.content).mapM
      (FunctionL2Logs.fromBuffer · false) = some l.functionLogs :=
    mapM_map_eq_some fun logs hlogs => logs.fromBuffer_content (length_content_lt hlogs hlt)
  have hread : (logsBufLength false >>= fun length => do
      let serializedFunctionLogs ← readBufferArray length
      let functionLogs ← ofOption (serializedFunctionLogs.mapM (FunctionL2Logs.fromBuffer · false))
      pure (⟨functionLogs⟩ : TxL2Logs)) l.content 0 = some (l, l.content.length) := by
    rw [bind_eq_of_eq_some rfl]
    refine (bind_eq_of_eq_some (readBufferArray_toEnd hlt)).trans ?_
    rw [hitems]
    rfl
  exact congrArg (Option.map Prod.fst) hread

theorem reads_l2BlockL2Logs (l : L2BlockL2Logs) (hlt : l.content.length < 2 ^ 32) :
    Reads L2BlockL2Logs.fromBuffer (write 4 l.content.length ++ l.content) l := by
  have hitems : (l.txLogs.map TxL2Logs.content).mapM (TxL2Logs.fromBuffer · false) =
      some l.txLogs :=
    mapM_map_eq_some fun logs hlogs => logs.fromBuffer_content (length_content_lt hlogs hlt)
  refine (reads_readNumber hlt).bind ?_
  refine (reads_readBufferArray hlt).andThen ?_
  refine (reads_ofOption hitems).andThen ?_
  exact Reads.pure l

theorem TxL2Logs.hash_eq (sha256 : Bytes → Bytes32) (l : TxL2Logs)
    (hlt : l.content.length < 2 ^ 32) : l.hash sha256 =
      some (kernelLogsHash sha256 (l.functionLogs.map FunctionL2Logs.content)) := by
  have hfold : ∀ (logs : List FunctionL2Logs) (kernel : Bytes32),
      (∀ f ∈ logs, f.content.length < 2 ^ 32) →
      logs.foldlM (fun kernelPublicInputsLogsHash logsFromSingleFunctionCall => do
        let logsHash ← logsFromSingleFunctionCall.hash sha256
        return sha256 (kernelPublicInputsLogsHash.toList ++ logsHash.toList)) kernel =
      some ((logs.map FunctionL2Logs.content).foldl
        (fun hash log => sha256 (hash.toList ++ (sha256 log).toList)) kernel) := by
    intro logs
    induction logs with
    | nil =>
      intro _ _
      rfl
    | cons f logs ih =>
      intro kernel h
      rw [forall_mem_cons] at h
      have hhash : f.hash sha256 = some (sha256 f.content) := by
        rw [FunctionL2Logs.hash, f.toBuffer_eq, prefixBufferWithLength_eq_some.2 ⟨h.1, rfl⟩,
          map_some, drop_left' (length_write _ _)]
      rw [foldlM_cons, hhash, map_cons, foldl_cons, ← ih _ h.2]
      rfl
  exact hfold l.functionLogs _ fun f hf => length_content_lt hf hlt

end Logs

/-! ### The effects out of the arrays -/

section Arrays

variable {α : Type} {n : ℕ}

theorem length_flatMap_vector (f : TxEffect → Vector α n) (effects : List TxEffect) :
    (effects.flatMap fun e => (f e).toList).length = effects.length * n := by
  simp [length_flatMap]

theorem sliceAt_flatMap (f : TxEffect → Vector α n) :
    ∀ {effects : List TxEffect} {i : ℕ} (hi : i < effects.length),
      sliceAt (effects.flatMap fun e => (f e).toList) n i = (f effects[i]).toList := by
  intro effects
  induction effects with
  | nil =>
    intro i hi
    exact absurd hi (Nat.not_lt_zero i)
  | cons e effects ih =>
    intro i hi
    rw [flatMap_cons, sliceAt]
    cases i with
    | zero =>
      rw [Nat.zero_mul, drop_zero, take_left' (f e).length_toList]
      rfl
    | succ i =>
      have hdrop : (i + 1) * n = (f e).toList.length + i * n := by
        rw [Vector.length_toList, Nat.succ_mul, Nat.add_comm]
      rw [hdrop, drop_append, drop_eq_nil_of_le (by omega), nil_append, Nat.add_sub_cancel_left]
      exact ih (Nat.lt_of_succ_lt_succ hi)

theorem mapM_range_eq_some :
    ∀ {l : List α} {f : ℕ → Option α}, (∀ i (hi : i < l.length), f i = some l[i]) →
      (List.range l.length).mapM f = some l := by
  intro l
  induction l with
  | nil =>
    intro f _
    rfl
  | cons a l ih =>
    intro f h
    have hrest : (List.range l.length).mapM (f ∘ Nat.succ) = some l :=
      ih fun i hi => h (i + 1) (Nat.succ_lt_succ hi)
    rw [length_cons, range_succ_eq_map, mapM_cons, h 0 (Nat.succ_pos _), mapM_map, hrest]
    rfl

theorem countP_range {q : α → Bool} :
    ∀ {l : List α} {p : ℕ → Bool}, (∀ i (hi : i < l.length), p i = q l[i]) →
      (List.range l.length).countP p = l.countP q := by
  intro l
  induction l with
  | nil =>
    intro p _
    rfl
  | cons a l ih =>
    intro p h
    have hrest : (List.range l.length).countP (p ∘ Nat.succ) = l.countP q :=
      ih fun i hi => h (i + 1) (Nat.succ_lt_succ hi)
    rw [length_cons, range_succ_eq_map, countP_cons, countP_cons,
      countP_map, hrest, h 0 (Nat.succ_pos _)]
    rfl

/-- A transaction without a first nullifier and without logs. -/
structure TxEffect.IsEmpty (e : TxEffect) : Prop where
  firstNullifier : getElem e.newNullifiers 0 Noir.first_lt_sixtyFour = Fr.zero
  encryptedLogs : e.encryptedLogs.getTotalLogCount = 0
  unencryptedLogs : e.unencryptedLogs.getTotalLogCount = 0

def Body.EmptyAtEnd (b : Body) : Prop :=
  ∃ front back, b.txEffects = front ++ back ∧ 
    (∀ e ∈ front, getElem e.newNullifiers 0 Noir.first_lt_sixtyFour ≠ Fr.zero) ∧
    ∀ e ∈ back, e.IsEmpty

variable {effects : List TxEffect}

theorem turns_eq : ((effects.flatMap fun e => e.newNullifiers.toList).length + 63) / 64 =
    effects.length := by
  rw [length_flatMap_vector]
  omega

theorem calculateNumTxsFromNullifiers_eq :
    calculateNumTxsFromNullifiers (effects.flatMap fun e => e.newNullifiers.toList) =
      effects.countP fun e => getElem e.newNullifiers 0 Noir.first_lt_sixtyFour != Fr.zero := by
  rw [calculateNumTxsFromNullifiers, turns_eq]
  refine countP_range fun i hi => ?_
  have hfirst : (effects.flatMap fun e => e.newNullifiers.toList)[i * 64]? =
      some effects[i].newNullifiers[0] := by
    have hslice := congrArg (·[0]?) (sliceAt_flatMap TxEffect.newNullifiers hi)
    simp only [sliceAt, List.getElem?_take, List.getElem?_drop, Nat.add_zero,
      Nat.succ_pos, if_true] at hslice
    rw [hslice]
    simp
  rw [getD_eq_getElem?_getD, hfirst]
  rfl

theorem getTotalLogCount_eq_zero {logs : TxEffect → TxL2Logs}
    (h : ∀ e ∈ effects, (logs e).getTotalLogCount = 0) :
    (⟨effects.map logs⟩ : L2BlockL2Logs).getTotalLogCount = 0 := by
  refine sum_eq_zero fun n hn => ?_
  rw [List.map_map, mem_map] at hn
  obtain ⟨e, he, rfl⟩ := hn
  exact h e he

theorem Body.assemble_eq {b : Body} (h : b.EmptyAtEnd) :
    assemble (b.txEffects.flatMap fun e => e.newNoteHashes.toList)
        (b.txEffects.flatMap fun e => e.newNullifiers.toList)
        (b.txEffects.flatMap fun e => e.newL2ToL1Msgs.toList)
        (b.txEffects.flatMap fun e => e.newPublicDataWrites.toList)
        (b.txEffects.flatMap fun e => e.contractLeaves.toList)
        (b.txEffects.flatMap fun e => e.contractData.toList) b.l1ToL2Messages b.encryptedLogs
        b.unencryptedLogs = some b := by
  obtain ⟨front, back, heffects, hfront, hback⟩ := h
  have hcount : calculateNumTxsFromNullifiers
      (b.txEffects.flatMap fun e => e.newNullifiers.toList) = front.length := by
    rw [calculateNumTxsFromNullifiers_eq, heffects, countP_append,
      countP_eq_length.2 fun e he => bne_iff_ne.2 (hfront e he),
      countP_eq_zero.2 fun e he => by simp [(hback e he).firstNullifier], Nat.add_zero]
  have hdrop : ∀ logs : TxEffect → TxL2Logs,
      (b.txEffects.map logs).drop front.length = back.map logs := by
    intro logs
    rw [heffects, map_append, drop_left' (by rw [length_map])]
  have hpadded : ¬((⟨b.encryptedLogs.txLogs.drop front.length⟩ : L2BlockL2Logs).getTotalLogCount ≠
        0 ∨
      (⟨b.unencryptedLogs.txLogs.drop front.length⟩ : L2BlockL2Logs).getTotalLogCount ≠ 0) := by
    rw [not_or, not_not, not_not]
    constructor
    · rw [Body.encryptedLogs, hdrop]
      exact getTotalLogCount_eq_zero fun e he => (hback e he).encryptedLogs
    · rw [Body.unencryptedLogs, hdrop]
      exact getTotalLogCount_eq_zero fun e he => (hback e he).unencryptedLogs
  have htxEffects := mapM_range_eq_some (l := b.txEffects) (f := txEffectAt
    (b.txEffects.flatMap fun e => e.newNoteHashes.toList)
    (b.txEffects.flatMap fun e => e.newNullifiers.toList)
    (b.txEffects.flatMap fun e => e.newL2ToL1Msgs.toList)
    (b.txEffects.flatMap fun e => e.newPublicDataWrites.toList)
    (b.txEffects.flatMap fun e => e.contractLeaves.toList)
    (b.txEffects.flatMap fun e => e.contractData.toList) b.encryptedLogs b.unencryptedLogs)
    fun i hi => by
      have hencrypted : b.encryptedLogs.txLogs[i]? = some b.txEffects[i].encryptedLogs := by
        rw [Body.encryptedLogs, List.getElem?_map, List.getElem?_eq_getElem hi, map_some]
      have hunencrypted : b.unencryptedLogs.txLogs[i]? = some b.txEffects[i].unencryptedLogs := by
        rw [Body.unencryptedLogs, List.getElem?_map, List.getElem?_eq_getElem hi, map_some]
      rw [txEffectAt, sliceAt_flatMap TxEffect.newNoteHashes hi,
        sliceAt_flatMap TxEffect.newNullifiers hi, sliceAt_flatMap TxEffect.newL2ToL1Msgs hi,
        sliceAt_flatMap TxEffect.newPublicDataWrites hi, sliceAt_flatMap TxEffect.contractLeaves hi,
        sliceAt_flatMap TxEffect.contractData hi, hencrypted, hunencrypted]
      simp only [tuple_toList]
      rfl
  rw [assemble]
  simp only [hcount, turns_eq]
  rw [if_neg hpadded, htxEffects]
  rfl

end Arrays

/-! ### The codec -/

namespace Body

section Codec

variable (b : Body)

/-- The lengths fit in the four bytes that they are written to. -/
structure LengthsFit : Prop where
  txEffects_lt : b.txEffects.length * 64 < 2 ^ 32
  l1ToL2Messages_lt : b.l1ToL2Messages.length < 2 ^ 32
  encryptedLogs_lt : b.encryptedLogs.content.length < 2 ^ 32
  unencryptedLogs_lt : b.unencryptedLogs.content.length < 2 ^ 32

def bytes : Bytes :=
  [write 4 (b.txEffects.flatMap fun e => e.newNoteHashes.toList).length,
    (b.txEffects.flatMap fun e => e.newNoteHashes.toList).flatMap Vector.toList,
    write 4 (b.txEffects.flatMap fun e => e.newNullifiers.toList).length,
    (b.txEffects.flatMap fun e => e.newNullifiers.toList).flatMap Vector.toList,
    write 4 (b.txEffects.flatMap fun e => e.newPublicDataWrites.toList).length,
    (b.txEffects.flatMap fun e => e.newPublicDataWrites.toList).flatMap PublicDataWrite.toBuffer,
    write 4 (b.txEffects.flatMap fun e => e.newL2ToL1Msgs.toList).length,
    (b.txEffects.flatMap fun e => e.newL2ToL1Msgs.toList).flatMap Vector.toList,
    write 4 (b.txEffects.flatMap fun e => e.contractLeaves.toList).length,
    (b.txEffects.flatMap fun e => e.contractLeaves.toList).flatMap Vector.toList,
    (b.txEffects.flatMap fun e => e.contractData.toList).flatMap ContractData.toBuffer,
    write 4 b.l1ToL2Messages.length, b.l1ToL2Messages.flatMap Vector.toList,
    write 4 b.encryptedLogs.content.length ++ b.encryptedLogs.content,
    write 4 b.unencryptedLogs.content.length ++ b.unencryptedLogs.content].flatten

variable {b}

theorem length_lt {α : Type} {n : ℕ} (hlt : b.txEffects.length * 64 < 2 ^ 32)
    (f : TxEffect → Vector α n) (hn : n ≤ 64) :
    (b.txEffects.flatMap fun e => (f e).toList).length < 2 ^ 32 := by
  rw [length_flatMap_vector]
  exact (Nat.mul_le_mul_left _ hn).trans_lt hlt

theorem toBuffer_eq_some {buf : Bytes} : b.toBuffer = some buf ↔ b.LengthsFit ∧ b.bytes = buf := by
  constructor
  · intro h
    obtain ⟨_, hencrypted, h⟩ := bind_eq_some_iff.1 h
    obtain ⟨_, hunencrypted, h⟩ := bind_eq_some_iff.1 h
    obtain ⟨_, h₁, h⟩ := bind_eq_some_iff.1 h
    obtain ⟨_, h₂, h⟩ := bind_eq_some_iff.1 h
    obtain ⟨_, h₃, h⟩ := bind_eq_some_iff.1 h
    obtain ⟨_, h₄, h⟩ := bind_eq_some_iff.1 h
    obtain ⟨_, h₅, h⟩ := bind_eq_some_iff.1 h
    obtain ⟨_, h₆, h⟩ := bind_eq_some_iff.1 h
    rw [L2BlockL2Logs.toBuffer_eq] at hencrypted hunencrypted
    obtain ⟨henc, rfl⟩ := prefixBufferWithLength_eq_some.1 hencrypted
    obtain ⟨hunenc, rfl⟩ := prefixBufferWithLength_eq_some.1 hunencrypted
    obtain ⟨htxs, rfl⟩ := numToUInt32BE_eq_some.1 h₁
    obtain ⟨-, rfl⟩ := numToUInt32BE_eq_some.1 h₂
    obtain ⟨-, rfl⟩ := numToUInt32BE_eq_some.1 h₃
    obtain ⟨-, rfl⟩ := numToUInt32BE_eq_some.1 h₄
    obtain ⟨-, rfl⟩ := numToUInt32BE_eq_some.1 h₅
    obtain ⟨hl1, rfl⟩ := numToUInt32BE_eq_some.1 h₆
    rw [length_flatMap_vector] at htxs
    exact ⟨⟨htxs, hl1, henc, hunenc⟩, Option.some.inj h⟩
  · rintro ⟨⟨htxs, hl1, hencrypted, hunencrypted⟩, rfl⟩
    exact bind_eq_some_iff.2 ⟨_, (L2BlockL2Logs.toBuffer_eq _).trans
        (prefixBufferWithLength_eq_some.2 ⟨hencrypted, rfl⟩),
      bind_eq_some_iff.2 ⟨_, (L2BlockL2Logs.toBuffer_eq _).trans
        (prefixBufferWithLength_eq_some.2 ⟨hunencrypted, rfl⟩),
      bind_eq_some_iff.2 ⟨_, numToUInt32BE_eq_some.2 ⟨length_lt htxs _ le_rfl, rfl⟩,
      bind_eq_some_iff.2 ⟨_, numToUInt32BE_eq_some.2 ⟨length_lt htxs _ le_rfl, rfl⟩,
      bind_eq_some_iff.2 ⟨_, numToUInt32BE_eq_some.2 ⟨length_lt htxs _ (by norm_num), rfl⟩,
      bind_eq_some_iff.2 ⟨_, numToUInt32BE_eq_some.2 ⟨length_lt htxs _ (by norm_num), rfl⟩,
      bind_eq_some_iff.2 ⟨_, numToUInt32BE_eq_some.2 ⟨length_lt htxs _ (by norm_num), rfl⟩,
      bind_eq_some_iff.2 ⟨_, numToUInt32BE_eq_some.2 ⟨hl1, rfl⟩, rfl⟩⟩⟩⟩⟩⟩⟩⟩

theorem reads_fromBuffer (hfit : b.LengthsFit) (hend : b.EmptyAtEnd) :
    Reads fromBuffer b.bytes b := by
  obtain ⟨htxs, hl1, hencrypted, hunencrypted⟩ := hfit
  have hcontracts : (b.txEffects.flatMap fun e => e.contractLeaves.toList).length =
      (b.txEffects.flatMap fun e => e.contractData.toList).length := by
    rw [length_flatMap_vector, length_flatMap_vector]
  simp only [bytes, flatten_cons, flatten_nil, append_nil]
  unfold fromBuffer
  refine (reads_readVector (length_lt htxs _ le_rfl) fun v _ => reads_fr v).bind_append ?_
  refine (reads_readVector (length_lt htxs _ le_rfl) fun v _ => reads_fr v).bind_append ?_
  refine (reads_readVector (length_lt htxs _ (by norm_num))
    fun v _ => reads_publicDataWrite v).bind_append ?_
  refine (reads_readVector (length_lt htxs _ (by norm_num)) fun v _ => reads_fr v).bind_append ?_
  refine (reads_readVector (length_lt htxs _ (by norm_num)) fun v _ => reads_fr v).bind_append ?_
  rw [hcontracts]
  refine (reads_readArray fun v _ => reads_contractData v).bind ?_
  refine (reads_readVector hl1 fun v _ => reads_fr v).bind_append ?_
  refine (reads_l2BlockL2Logs _ hencrypted).bind ?_
  refine (reads_l2BlockL2Logs _ hunencrypted).andThen ?_
  exact reads_ofOption (assemble_eq hend)

end Codec

end Body

/-! ### The body on L1 -/

section Decoder

open Kernel

theorem write_read_vector {n : ℕ} (v : Vector UInt8 n) : write n (read v.toList) = v.toList := by
  have h := write_read v.toList
  rwa [v.length_toList] at h

/-- The data of a base rollup whose part of the body is that of the transaction.  The class of the
contract is not in the body; here it tells the leaf of the contract. -/
def TxEffect.txData (e : TxEffect) : TxData where
  combined :=
    { emptyTx.combined with
      newNoteHashes := e.newNoteHashes.map fun v => ⟨read v.toList, 0⟩
      newNullifiers := e.newNullifiers.map fun v => ⟨read v.toList, 0, 0⟩
      newL2ToL1Msgs := e.newL2ToL1Msgs.map fun v => read v.toList
      newContracts := #v[⟨read (getElem e.contractData 0 Nat.one_pos).contractAddress.toList,
        read (getElem e.contractData 0 Nat.one_pos).portalContractAddress.toList,
        read (getElem e.contractLeaves 0 Nat.one_pos).toList + 1⟩]
      publicDataUpdateRequests := e.newPublicDataWrites.map fun write =>
        ⟨read write.leafIndex.toList, read write.newValue.toList⟩ }
  encryptedLogs := e.encryptedLogs.functionLogs.map content
  unencryptedLogs := e.unencryptedLogs.functionLogs.map content

def leafOfClass (fields : List Noir.Field) : Noir.Field := fields.getD 2 0 - 1

theorem hashContract_leafOfClass {contract : NewContractData} (h : contract.contractClassId ≠ 0) :
    hashContract leafOfClass contract = contract.contractClassId - 1 := by
  rw [hashContract, if_neg (by simp [isEmptyContract, h])]
  rfl

structure TxEffect.SameParts (e : TxEffect) : Prop where
  noteHashes : e.txData.noteHashes = e.newNoteHashes.toList.flatMap Vector.toList
  nullifiers : e.txData.nullifiers = e.newNullifiers.toList.flatMap Vector.toList
  publicData : e.txData.publicData = e.newPublicDataWrites.toList.flatMap PublicDataWrite.toBuffer
  l2ToL1Msgs : e.txData.l2ToL1Msgs = e.newL2ToL1Msgs.toList.flatMap Vector.toList
  contracts : e.txData.contracts leafOfClass = e.contractLeaves.toList.flatMap Vector.toList
  contractData : e.txData.contractData = e.contractData.toList.flatMap ContractData.toBuffer

theorem toList_vector_one {α : Type} (v : Vector α 1) : v.toList = [getElem v 0 Nat.one_pos] := by
  obtain ⟨⟨l⟩, hl⟩ := v
  match l, hl with
  | [a], _ => rfl

theorem TxEffect.sameParts (e : TxEffect) : e.SameParts where
  noteHashes := by
    simp only [TxData.noteHashes, txData, Vector.toList_map, flatMap_map, write_read_vector]
  nullifiers := by
    simp only [TxData.nullifiers, txData, Vector.toList_map, flatMap_map, write_read_vector]
  publicData := by
    simp only [TxData.publicData, txData, Vector.toList_map, flatMap_map, write_read_vector]
    rfl
  l2ToL1Msgs := by
    simp only [TxData.l2ToL1Msgs, txData, Vector.toList_map, flatMap_map, write_read_vector]
  contracts := by
    have hleaf : hashContract leafOfClass e.txData.combined.newContracts[0] =
        read e.contractLeaves[0].toList := hashContract_leafOfClass (Nat.succ_ne_zero _)
    rw [toList_vector_one, flatMap_singleton, TxData.contracts, hleaf, write_read_vector]
  contractData := by
    rw [toList_vector_one, flatMap_singleton]
    exact congrArg₂ (· ++ ·) (write_read_vector _) (write_read_vector _)

theorem content_eq_flatMap (effects : List TxEffect) (logs : TxEffect → TxL2Logs) :
    (⟨effects.map logs⟩ : L2BlockL2Logs).content =
      effects.flatMap fun e => kernelLogs ((logs e).functionLogs.map FunctionL2Logs.content) := by
  rw [L2BlockL2Logs.content, List.map_map, TxsHash.functionLogs, flatMap_map]
  rfl

variable {b : Body}

theorem Body.encodable (hfit : b.LengthsFit) :
    Encodable (b.txEffects.map TxEffect.txData) b.l1ToL2Messages where
  noteHashes_lt := by
    rw [length_map]
    exact hfit.txEffects_lt
  l1ToL2Msgs_lt := hfit.l1ToL2Messages_lt
  encryptedLogs_lt := by
    rw [flatMap_map]
    exact (content_eq_flatMap b.txEffects TxEffect.encryptedLogs) ▸ hfit.encryptedLogs_lt
  unencryptedLogs_lt := by
    rw [flatMap_map]
    exact (content_eq_flatMap b.txEffects TxEffect.unencryptedLogs) ▸ hfit.unencryptedLogs_lt

theorem Body.bytes_eq (b : Body) : b.bytes =
    encodeBody leafOfClass (b.txEffects.map TxEffect.txData) b.l1ToL2Messages := by
  have hencrypted := content_eq_flatMap b.txEffects TxEffect.encryptedLogs
  have hunencrypted := content_eq_flatMap b.txEffects TxEffect.unencryptedLogs
  simp only [bytes, encodeBody, sections, flatten_cons, flatten_nil, append_nil,
    length_map, flatMap_map, length_flatMap_vector, Nat.mul_one, flatMap_assoc,
    fun e : TxEffect => e.sameParts.noteHashes, fun e : TxEffect => e.sameParts.nullifiers,
    fun e : TxEffect => e.sameParts.publicData, fun e : TxEffect => e.sameParts.l2ToL1Msgs,
    fun e : TxEffect => e.sameParts.contracts, fun e : TxEffect => e.sameParts.contractData,
    Body.encryptedLogs, Body.unencryptedLogs, hencrypted, hunencrypted, append_assoc]
  rfl

end Decoder

/-! ### The hash -/

section Hash

variable {sha256 : Bytes → Bytes32}

theorem TxEffect.hash_eq (e : TxEffect) (hencrypted : e.encryptedLogs.content.length < 2 ^ 32)
    (hunencrypted : e.unencryptedLogs.content.length < 2 ^ 32) :
    e.hash sha256 = some (sha256 (leafOf sha256 leafOfClass e.txData).toBytes) := by
  obtain ⟨h₁, h₂, h₃, h₄, h₅, h₆⟩ := e.sameParts
  rw [toList_vector_one, flatMap_singleton] at h₅
  have hportal : write 20 e.txData.combined.newContracts[0].portalContractAddress =
      e.contractData[0].portalContractAddress.toList := write_read_vector _
  have haddress : write 32 e.txData.combined.newContracts[0].contractAddress =
      e.contractData[0].contractAddress.toList := write_read_vector _
  rw [TxEffect.hash, e.encryptedLogs.hash_eq sha256 hencrypted,
    e.unencryptedLogs.hash_eq sha256 hunencrypted]
  simp only [Option.bind_eq_bind, Option.bind_some, leafOf, TxsDecoder.BaseLeaf.toBytes, h₁, h₂, h₃,
    h₄, h₅, hportal, haddress, EthAddress.toBuffer32, append_assoc]
  rfl

theorem hashLayer_eq (n : ℕ) : ∀ {layer : List Bytes32}, layer.length = 2 * n →
    ∃ layer', hashLayer sha256 layer = some layer' ∧ layer'.length = n ∧
      ∀ i < n, layer'.getD i (Vector.replicate 32 0) =
        hashPair sha256 (layer.getD (2 * i) (Vector.replicate 32 0))
          (layer.getD (2 * i + 1) (Vector.replicate 32 0)) := by
  induction n with
  | zero =>
    intro layer hlen
    obtain rfl := length_eq_zero_iff.1 hlen
    exact ⟨[], rfl, rfl, fun i hi => absurd hi (Nat.not_lt_zero i)⟩
  | succ n ih =>
    intro layer hlen
    match layer, hlen with
    | left :: right :: rest, hlen =>
      obtain ⟨layer', hlayer, hlen', hget⟩ := @ih rest (by simp at hlen; omega)
      refine ⟨sha256 (left.toList ++ right.toList) :: layer', ?_, by simp [hlen'], ?_⟩
      · rw [hashLayer, hlayer]
        rfl
      · intro i hi
        cases i with
        | zero => rfl
        | succ i => exact hget i (Nat.lt_of_succ_lt_succ hi)

theorem computeRoot_eq_node {f : ℕ → Bytes32} (depth : ℕ) :
    ∀ {turns height : ℕ} {layer : List Bytes32}, layer.length = 2 ^ depth → depth ≤ turns →
      (∀ i < 2 ^ depth, layer.getD i (Vector.replicate 32 0) =
        Merkle.node (hashPair sha256) f height i) → computeRoot sha256 turns layer =
        some (Merkle.node (hashPair sha256) f (height + depth) 0) := by
  induction depth with
  | zero =>
    intro turns height layer hlen _ h
    obtain ⟨root, rfl⟩ := length_eq_one_iff.1 hlen
    have hroot : root = Merkle.node (hashPair sha256) f height 0 := h 0 (by norm_num)
    rw [Nat.add_zero, ← hroot]
    cases turns with
    | zero => rfl
    | succ turns => exact if_neg (lt_irrefl 1)
  | succ depth ih =>
    intro turns height layer hlen hturns h
    obtain ⟨turns, rfl⟩ : ∃ t, turns = t + 1 := ⟨turns - 1, by omega⟩
    have hpos : 0 < 2 ^ depth := Nat.two_pow_pos depth
    rw [pow_succ] at hlen h
    obtain ⟨layer', hlayer, hlen', hget⟩ := @hashLayer_eq sha256 (2 ^ depth) layer (by omega)
    have hmany : layer.length > 1 := by omega
    have hnext : ∀ i < 2 ^ depth, layer'.getD i (Vector.replicate 32 0) =
        Merkle.node (hashPair sha256) f (height + 1) i := by
      intro i hi
      rw [hget i hi, h _ (by omega), h _ (by omega), Merkle.node_succ]
    rw [computeRoot, if_pos hmany, hlayer]
    refine (ih hlen' (by omega) hnext).trans ?_
    rw [Nat.add_assoc, Nat.add_comm 1 depth]

theorem Body.getCalldataHash_eq {b : Body} {k : ℕ} (memory : ℕ → Bytes32)
    (hcount : b.txEffects.length = 2 ^ k) (hfit : b.LengthsFit) :
    ∃ hash, b.getCalldataHash sha256 = some hash ∧
      TxsDecoder.decode sha256 memory b.bytes = some hash := by
  have hleafs : b.txEffects.mapM (TxEffect.hash sha256) = some (b.txEffects.map fun e =>
      sha256 (leafOf sha256 leafOfClass e.txData).toBytes) := by
    refine mapM_eq_some_map fun e he => e.hash_eq ?_ ?_
    · exact length_content_lt (mem_map_of_mem he) hfit.encryptedLogs_lt
    · exact length_content_lt (mem_map_of_mem he) hfit.unencryptedLogs_lt
  obtain ⟨offsets, hdecode, -⟩ :=
    @decodeLeaves_encodeBody leafOfClass _ _ sha256 (Body.encodable hfit)
  rw [← b.bytes_eq, List.map_map] at hdecode
  have hsame : (b.txEffects.map (leafOf sha256 leafOfClass ∘ TxEffect.txData)).map
      (fun leaf => sha256 leaf.toBytes) =
      b.txEffects.map fun e => sha256 (leafOf sha256 leafOfClass e.txData).toBytes := by
    rw [List.map_map]
    rfl
  have hlen : (b.txEffects.map fun e =>
      sha256 (leafOf sha256 leafOfClass e.txData).toBytes).length = 2 ^ k := by
    rw [length_map, hcount]
  have hroot := @TxsHash.computeRoot_eq sha256 k _ hlen memory
  have hlayers := @computeRoot_eq_node sha256 _ k _ 0 _ hlen
    (hlen ▸ Nat.lt_two_pow_self.le) fun i _ => rfl
  rw [Nat.zero_add] at hlayers
  refine ⟨TxsDecoder.computeRoot sha256 memory (b.txEffects.map fun e =>
    sha256 (leafOf sha256 leafOfClass e.txData).toBytes), ?_, ?_⟩
  · rw [Body.getCalldataHash, hleafs, hroot]
    exact hlayers
  · rw [TxsDecoder.decode, hdecode, map_some, hsame]

end Hash

/-- **The codec and the hash of a body.**  When the lengths fit in four bytes, the body is read back
from its bytes to their end, and its calldata hash is the one that the decoder on L1 returns on the
bytes.  When they do not fit, no bytes are returned. -/
theorem fromBuffer_toBuffer_and_decode (sha256 : Bytes → Bytes32) (memory : ℕ → Bytes32) (k : ℕ)
    (b : Body) (hcount : b.txEffects.length = 2 ^ k) (hend : b.EmptyAtEnd) :
    (b.LengthsFit → ∃ buf, b.toBuffer = some buf ∧ Body.fromBuffer buf 0 = some (b, buf.length) ∧
      ∃ hash, b.getCalldataHash sha256 = some hash ∧
        TxsDecoder.decode sha256 memory buf = some hash) ∧ (¬b.LengthsFit → b.toBuffer = none) := by
  constructor
  · intro hfit
    have hread := Body.reads_fromBuffer hfit hend b.bytes 0 ⟨[], [], by simp, rfl⟩
    rw [Nat.zero_add] at hread
    exact ⟨b.bytes, Body.toBuffer_eq_some.2 ⟨hfit, rfl⟩, hread,
      Body.getCalldataHash_eq memory hcount hfit⟩
  · intro hfit
    rw [Option.eq_none_iff_forall_ne_some]
    exact fun buf hbuf => hfit (Body.toBuffer_eq_some.1 hbuf).1

def emptyTxEffect : TxEffect where
  newNoteHashes := Vector.replicate 64 Fr.zero
  newNullifiers := Vector.replicate 64 Fr.zero
  newL2ToL1Msgs := Vector.replicate 2 Fr.zero
  newPublicDataWrites := Vector.replicate 32 ⟨Fr.zero, Fr.zero⟩
  contractLeaves := Vector.replicate 1 Fr.zero
  contractData := Vector.replicate 1 ⟨Fr.zero, Vector.replicate 20 0⟩
  encryptedLogs := ⟨[]⟩
  unencryptedLogs := ⟨[]⟩

def oneLogTxEffect : TxEffect :=
  { emptyTxEffect with
    newNullifiers := emptyTxEffect.newNullifiers.set 0 (Vector.replicate 32 1)
      Noir.first_lt_sixtyFour
    encryptedLogs := ⟨[⟨[[1, 2, 3]]⟩]⟩ }

/-- The body of two transactions is read back. -/
theorem fromBuffer_toBuffer_and_decode_two :
    ∃ buf, (⟨[Vector.replicate 32 5], [oneLogTxEffect, emptyTxEffect]⟩ : Body).toBuffer = some buf ∧
      Body.fromBuffer buf 0 =
        some (⟨[Vector.replicate 32 5], [oneLogTxEffect, emptyTxEffect]⟩, buf.length) ∧
      ∃ hash, (⟨[Vector.replicate 32 5], [oneLogTxEffect, emptyTxEffect]⟩ : Body).getCalldataHash
          (fun _ => Vector.replicate 32 7) = some hash ∧
        TxsDecoder.decode (fun _ => Vector.replicate 32 7) (fun _ => Fr.zero) buf = some hash :=
  (fromBuffer_toBuffer_and_decode _ _ 1 _ rfl
    ⟨[oneLogTxEffect], [emptyTxEffect], rfl,
      fun e he => mem_singleton.1 he ▸ by decide,
      fun e he => mem_singleton.1 he ▸ ⟨by decide, rfl, rfl⟩⟩).1
    ⟨by decide, by decide, by decide, by decide⟩

end CircuitTypes
