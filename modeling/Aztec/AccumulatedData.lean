/-
**Accumulated data of a transaction, and its split by the private kernel tail.**

The private kernel accumulates the side effects of a transaction in one record; its tail circuit
splits them at `min_revertible_side_effect_counter` into a non-revertible and a revertible part.
The public kernel then works on the two parts, each a record of arrays in its inputs and outputs
and of bounded vectors in between.  Three flags say which phases of the public kernel are still to
run, and they are computed from the two public call stacks alone.
-/

import Aztec.KernelTypes

namespace Kernel

open Noir Failing

/-! ### The two parts -/

structure NullifierKeyValidationRequestContext where
  publicKeyX : Field
  publicKeyY : Field
  secretKeyHigh : Field
  secretKeyLow : Field
  contractAddress : Field
  deriving DecidableEq, Repr

instance : Empty NullifierKeyValidationRequestContext := ⟨⟨0, 0, 0, 0, 0⟩⟩

structure NonRevertibleData where
  newNoteHashes : Vector SideEffect 8
  newNullifiers : Vector SideEffectLinkedToNoteHash 8
  publicCallStack : Vector CallRequest 3
  publicDataUpdateRequests : Vector PublicDataUpdateRequest 16
  publicDataReads : Vector PublicDataRead 16

/-- `PublicAccumulatedRevertibleData`. -/
structure RevertibleData where
  readRequests : Vector SideEffect 128
  nullifierKeyValidationRequests : Vector NullifierKeyValidationRequestContext 4
  newNoteHashes : Vector SideEffect 56
  newNullifiers : Vector SideEffectLinkedToNoteHash 56
  privateCallStack : Vector CallRequest 8
  publicCallStack : Vector CallRequest 5
  newL2ToL1Msgs : Vector Field 2
  encryptedLogsHash : Vector Field 2
  unencryptedLogsHash : Vector Field 2
  encryptedLogPreimagesLength : Field
  unencryptedLogPreimagesLength : Field
  newContracts : Vector NewContractData 1
  publicDataUpdateRequests : Vector PublicDataUpdateRequest 16
  publicDataReads : Vector PublicDataRead 16

structure NonRevertibleBuilder where
  newNoteHashes : BoundedVec SideEffect 8
  newNullifiers : BoundedVec SideEffectLinkedToNoteHash 8
  publicCallStack : BoundedVec CallRequest 3
  publicDataUpdateRequests : BoundedVec PublicDataUpdateRequest 16
  publicDataReads : BoundedVec PublicDataRead 16

/-- `AccumulatedRevertibleDataBuilder`. -/
structure RevertibleBuilder where
  readRequests : BoundedVec SideEffect 128
  nullifierKeyValidationRequests : BoundedVec NullifierKeyValidationRequestContext 4
  newNoteHashes : BoundedVec SideEffect 56
  newNullifiers : BoundedVec SideEffectLinkedToNoteHash 56
  privateCallStack : BoundedVec CallRequest 8
  publicCallStack : BoundedVec CallRequest 5
  newL2ToL1Msgs : BoundedVec Field 2
  encryptedLogsHash : Vector Field 2
  unencryptedLogsHash : Vector Field 2
  encryptedLogPreimagesLength : Field
  unencryptedLogPreimagesLength : Field
  newContracts : BoundedVec NewContractData 1
  publicDataUpdateRequests : BoundedVec PublicDataUpdateRequest 16
  publicDataReads : BoundedVec PublicDataRead 16

/-- `unsafe::zeroed()` at a bounded vector. -/
def zeroedVec {T : Type} [Empty T] {n : ℕ} : BoundedVec T n := BoundedVec.new Empty.empty

def NonRevertibleBuilder.zeroed : NonRevertibleBuilder :=
  ⟨zeroedVec, zeroedVec, zeroedVec, zeroedVec, zeroedVec⟩

/-- `unsafe::zeroed()` at the revertible part. -/
def RevertibleBuilder.zeroed : RevertibleBuilder :=
  ⟨zeroedVec, zeroedVec, zeroedVec, zeroedVec, zeroedVec, zeroedVec, zeroedVec,
    Vector.replicate 2 0, Vector.replicate 2 0, 0, 0, zeroedVec, zeroedVec, zeroedVec⟩

def NonRevertibleBuilder.toPublic (b : NonRevertibleBuilder) : NonRevertibleData :=
  { newNoteHashes := b.newNoteHashes.storage
    newNullifiers := b.newNullifiers.storage
    publicCallStack := b.publicCallStack.storage
    publicDataUpdateRequests := b.publicDataUpdateRequests.storage
    publicDataReads := b.publicDataReads.storage }

def RevertibleBuilder.toPublic (b : RevertibleBuilder) : RevertibleData :=
  { readRequests := b.readRequests.storage
    nullifierKeyValidationRequests := b.nullifierKeyValidationRequests.storage
    newNoteHashes := b.newNoteHashes.storage
    newNullifiers := b.newNullifiers.storage
    privateCallStack := b.privateCallStack.storage
    publicCallStack := b.publicCallStack.storage
    newL2ToL1Msgs := b.newL2ToL1Msgs.storage
    encryptedLogsHash := b.encryptedLogsHash
    unencryptedLogsHash := b.unencryptedLogsHash
    encryptedLogPreimagesLength := b.encryptedLogPreimagesLength
    unencryptedLogPreimagesLength := b.unencryptedLogPreimagesLength
    newContracts := b.newContracts.storage
    publicDataUpdateRequests := b.publicDataUpdateRequests.storage
    publicDataReads := b.publicDataReads.storage }

/-- `CombinedAccumulatedData`. -/
structure CombinedData where
  readRequests : Vector SideEffect 128
  nullifierKeyValidationRequests : Vector NullifierKeyValidationRequestContext 4
  newNoteHashes : Vector SideEffect 64
  newNullifiers : Vector SideEffectLinkedToNoteHash 64
  privateCallStack : Vector CallRequest 8
  publicCallStack : Vector CallRequest 8
  newL2ToL1Msgs : Vector Field 2
  encryptedLogsHash : Vector Field 2
  unencryptedLogsHash : Vector Field 2
  encryptedLogPreimagesLength : Field
  unencryptedLogPreimagesLength : Field
  newContracts : Vector NewContractData 1
  publicDataUpdateRequests : Vector PublicDataUpdateRequest 32
  publicDataReads : Vector PublicDataRead 32

def NonRevertibleData.needsSetup (d : NonRevertibleData) : Bool := !d.publicCallStack[1].isEmpty

def NonRevertibleData.needsTeardown (d : NonRevertibleData) : Bool :=
  !d.publicCallStack[0].isEmpty

def RevertibleData.needsAppLogic (d : RevertibleData) : Bool := !d.publicCallStack[0].isEmpty

/-- The constants of a transaction the public kernel reads: `tx_context.version` and
`tx_context.chain_id`. -/
structure CombinedConstantData where
  version : Field
  chainId : Field
  deriving DecidableEq, Repr

structure KernelPublicInputs where
  endNonRevertible : NonRevertibleData
  «end» : RevertibleData
  constants : CombinedConstantData
  needsSetup : Bool
  needsAppLogic : Bool
  needsTeardown : Bool

/-- `PublicKernelCircuitPublicInputsBuilder`. -/
structure KernelBuilder where
  endNonRevertible : NonRevertibleBuilder
  «end» : RevertibleBuilder
  constants : CombinedConstantData

/-! ### The split by the private kernel tail -/

/-- `CombinedAccumulatedDataBuilder`. -/
structure CombinedBuilder where
  readRequests : BoundedVec SideEffect 128
  nullifierKeyValidationRequests : BoundedVec NullifierKeyValidationRequestContext 4
  newNoteHashes : BoundedVec SideEffect 64
  newNullifiers : BoundedVec SideEffectLinkedToNoteHash 64
  privateCallStack : BoundedVec CallRequest 8
  publicCallStack : BoundedVec CallRequest 8
  newL2ToL1Msgs : BoundedVec Field 2
  encryptedLogsHash : Vector Field 2
  unencryptedLogsHash : Vector Field 2
  encryptedLogPreimagesLength : Field
  unencryptedLogPreimagesLength : Field
  newContracts : BoundedVec NewContractData 1
  publicDataUpdateRequests : BoundedVec PublicDataUpdateRequest 32
  publicDataReads : BoundedVec PublicDataRead 32

/-- One of the loops of `split`: the non-empty items go to the first vector when they are below
the threshold, and to the second otherwise. -/
def splitBy {T : Type} [DecidableEq T] [Empty T] {n a b : ℕ} (below : T → Bool)
    (items : Vector T n) : Circuit (BoundedVec T a × BoundedVec T b) :=
  items.toList.foldlM
    (fun (parts : BoundedVec T a × BoundedVec T b) item =>
      if isEmpty item then return parts
      else if below item then return (← parts.1.push item, parts.2)
      else return (parts.1, ← parts.2.push item))
    (zeroedVec, zeroedVec)

def CombinedBuilder.split (b : CombinedBuilder) (minRevertibleSideEffectCounter : ℕ) :
    Circuit (NonRevertibleBuilder × RevertibleBuilder) := do
  let noteHashes ← splitBy (fun item : SideEffect =>
    item.counter < minRevertibleSideEffectCounter) b.newNoteHashes.storage
  let nullifiers ← splitBy (fun item : SideEffectLinkedToNoteHash =>
    item.counter < minRevertibleSideEffectCounter) b.newNullifiers.storage
  let calls ← splitBy (fun item : CallRequest =>
    item.startSideEffectCounter < minRevertibleSideEffectCounter) b.publicCallStack.storage
  return (
    { NonRevertibleBuilder.zeroed with
      newNoteHashes := noteHashes.1
      newNullifiers := nullifiers.1
      publicCallStack := calls.1 },
    { RevertibleBuilder.zeroed with
      newNoteHashes := noteHashes.2
      newNullifiers := nullifiers.2
      publicCallStack := calls.2
      privateCallStack := b.privateCallStack
      newL2ToL1Msgs := b.newL2ToL1Msgs
      encryptedLogsHash := b.encryptedLogsHash
      unencryptedLogsHash := b.unencryptedLogsHash
      encryptedLogPreimagesLength := b.encryptedLogPreimagesLength
      unencryptedLogPreimagesLength := b.unencryptedLogPreimagesLength
      newContracts := b.newContracts })

/-- `to_inner`: the flags are computed from the call stacks of the result. -/
def KernelBuilder.toInner (b : KernelBuilder) : KernelPublicInputs :=
  { endNonRevertible := b.endNonRevertible.toPublic
    «end» := b.end.toPublic
    constants := b.constants
    needsSetup := b.endNonRevertible.toPublic.needsSetup
    needsAppLogic := b.end.toPublic.needsAppLogic
    needsTeardown := b.endNonRevertible.toPublic.needsTeardown }

/-- `to_tail`.  The records of the tail have no public data, read requests or key validation
requests; they are filled with empty values when the output is handed to the public kernel, and
those are the values the zeroed builders hold. -/
def toTail (b : CombinedBuilder) (minRevertibleSideEffectCounter : ℕ)
    (constants : CombinedConstantData) : Circuit KernelPublicInputs := do
  let (endNonRevertible, endRevertible) ← b.split minRevertibleSideEffectCounter
  return KernelBuilder.toInner ⟨endNonRevertible, endRevertible, constants⟩

theorem splitBy_stack {T : Type} [DecidableEq T] [Empty T] {n a b : ℕ} {below : T → Bool}
    {items : Vector T n} {parts : BoundedVec T a × BoundedVec T b}
    (h : splitBy below items = .ok parts) :
    Stack parts.1 (items.toList.filter fun item => !isEmpty item && below item) ∧
      Stack parts.2 (items.toList.filter fun item => !isEmpty item && !below item) ∧
      parts.1.emptyValue = Empty.empty ∧ parts.2.emptyValue = Empty.empty := by
  refine foldlM_invariant (fun before (parts : BoundedVec T a × BoundedVec T b) =>
      Stack parts.1 (before.filter fun item => !isEmpty item && below item) ∧
        Stack parts.2 (before.filter fun item => !isEmpty item && !below item) ∧
        parts.1.emptyValue = Empty.empty ∧ parts.2.emptyValue = Empty.empty)
    ?_ ⟨Stack.new _, Stack.new _, rfl, rfl⟩ h
  rintro before item parts parts' ⟨hl, hr, hel, her⟩ h
  rw [List.filter_append, List.filter_append]
  cases he : isEmpty item with
  | true =>
    simp only [he, if_true, pure_eq_ok] at h
    subst h
    simpa [he] using ⟨hl, hr, hel, her⟩
  | false =>
    cases hb : below item with
    | true =>
      simp only [he, hb, Bool.false_eq_true, if_false, if_true, bind_eq_ok, pure_eq_ok] at h
      obtain ⟨v, hv, rfl⟩ := h
      obtain ⟨hl', hempty⟩ := hl.push hv
      simpa [he, hb] using ⟨hl', hr, hempty.trans hel, her⟩
    | false =>
      simp only [he, hb, Bool.false_eq_true, if_false, bind_eq_ok, pure_eq_ok] at h
      obtain ⟨v, hv, rfl⟩ := h
      obtain ⟨hr', hempty⟩ := hr.push hv
      simpa [he, hb] using ⟨hl, hr', hel, hempty.trans her⟩

/-! ### Call stacks and flags -/

structure RequestStack {n : ℕ} (array : Vector CallRequest n) (l : List CallRequest) : Prop where
  toList_eq : array.toList = l ++ List.replicate (n - l.length) Empty.empty
  hash_ne_zero : ∀ r ∈ l, r.hash ≠ 0

namespace RequestStack

variable {n : ℕ} {array : Vector CallRequest n} {l : List CallRequest}

theorem ne_empty_of_hash {r : CallRequest} (h : r.hash ≠ 0) : r ≠ Empty.empty := by
  rintro rfl
  exact h rfl

theorem ofStack {v : BoundedVec CallRequest n} (hv : Stack v l)
    (hempty : v.emptyValue = Empty.empty) (hl : ∀ r ∈ l, r.hash ≠ 0) : RequestStack v.storage l :=
  ⟨by rw [hv.storage_eq, hempty], hl⟩

theorem toStack (h : RequestStack array l) : Stack (arrayToBoundedVec array) l :=
  stack_arrayToBoundedVec h.toList_eq fun r hr => ne_empty_of_hash (h.hash_ne_zero r hr)

theorem isEmpty_getElem (h : RequestStack array l) {i : ℕ} (hi : i < n) :
    (!array[i].isEmpty) = decide (i < l.length) := by
  have hget : array[i]? = (l ++ List.replicate (n - l.length) Empty.empty)[i]? := by
    rw [← Vector.getElem?_toList, h.toList_eq]
  rw [Vector.getElem?_eq_getElem hi] at hget
  rcases Nat.lt_or_ge i l.length with hlt | hge
  · rw [List.getElem?_append_left hlt, List.getElem?_eq_getElem hlt, Option.some.injEq] at hget
    simpa [hget, hlt, CallRequest.isEmpty] using h.hash_ne_zero _ (List.getElem_mem hlt)
  · rw [List.getElem?_append_right hge, List.getElem?_replicate, if_pos (by omega),
      Option.some.injEq] at hget
    simp [hget, Nat.not_lt.2 hge]

end RequestStack

/-- The call stacks of the public kernel's inputs or outputs stand for the given lists, and the
flags are those computed from them. -/
structure Consistent (p : KernelPublicInputs) (nonRevertible revertible : List CallRequest) :
    Prop where
  nonRevertible_stack : RequestStack p.endNonRevertible.publicCallStack nonRevertible
  revertible_stack : RequestStack p.end.publicCallStack revertible
  needsSetup_eq : p.needsSetup = p.endNonRevertible.needsSetup
  needsAppLogic_eq : p.needsAppLogic = p.end.needsAppLogic
  needsTeardown_eq : p.needsTeardown = p.endNonRevertible.needsTeardown

namespace Consistent

variable {p : KernelPublicInputs} {nonRevertible revertible : List CallRequest}

section

variable (h : Consistent p nonRevertible revertible)
include h

theorem needsSetup_iff : p.needsSetup = true ↔ 1 < nonRevertible.length := by
  rw [h.needsSetup_eq, NonRevertibleData.needsSetup,
    h.nonRevertible_stack.isEmpty_getElem (by decide), decide_eq_true_eq]

theorem needsTeardown_iff : p.needsTeardown = true ↔ 0 < nonRevertible.length := by
  rw [h.needsTeardown_eq, NonRevertibleData.needsTeardown,
    h.nonRevertible_stack.isEmpty_getElem (by decide), decide_eq_true_eq]

theorem needsAppLogic_iff : p.needsAppLogic = true ↔ 0 < revertible.length := by
  rw [h.needsAppLogic_eq, RevertibleData.needsAppLogic,
    h.revertible_stack.isEmpty_getElem (by decide), decide_eq_true_eq]

end

end Consistent

theorem KernelBuilder.toInner_consistent {b : KernelBuilder}
    {nonRevertible revertible : List CallRequest}
    (h₁ : RequestStack b.endNonRevertible.publicCallStack.storage nonRevertible)
    (h₂ : RequestStack b.end.publicCallStack.storage revertible) :
    Consistent b.toInner nonRevertible revertible :=
  ⟨h₁, h₂, rfl, rfl, rfl⟩

variable {b : CombinedBuilder} {minCounter : ℕ} {constants : CombinedConstantData}

section

variable {p : KernelPublicInputs}
  (hhash : ∀ r ∈ b.publicCallStack.storage.toList, r ≠ Empty.empty → r.hash ≠ 0)
  (h : toTail b minCounter constants = .ok p)
include hhash h

/-- **The stacks of the private kernel tail's output**, when every public call request it splits has
a hash: a request is on one of them only. -/
theorem toTail_stacks : ∃ nonRevertible revertible, Consistent p nonRevertible revertible ∧
      ∀ r ∈ nonRevertible, r ∉ revertible := by
  simp only [toTail, CombinedBuilder.split, bind_eq_ok, pure_eq_ok] at h
  obtain ⟨_, ⟨noteHashes, -, nullifiers, -, calls, hcalls, rfl⟩, rfl⟩ := h
  obtain ⟨hl, hr, hel, her⟩ := splitBy_stack hcalls
  have hfilter : ∀ (q : CallRequest → Bool) (r : CallRequest),
      r ∈ b.publicCallStack.storage.toList.filter (fun item => !isEmpty item && q item) →
        r.hash ≠ 0 := by
    intro q r hmem
    obtain ⟨hmem, hp⟩ := List.mem_filter.1 hmem
    refine hhash r hmem fun he => ?_
    simp [he, isEmpty] at hp
  refine ⟨_, _, KernelBuilder.toInner_consistent (.ofStack hl hel (hfilter _))
    (.ofStack hr her (hfilter _)), fun r hbelow habove => ?_⟩
  -- the counter of a request is below the first revertible one or it is not
  have h₁ := (List.mem_filter.1 hbelow).2
  have h₂ := (List.mem_filter.1 habove).2
  simp_all

theorem toTail_consistent : ∃ nonRevertible revertible, Consistent p nonRevertible revertible := by
  obtain ⟨nonRevertible, revertible, hp, -⟩ := toTail_stacks hhash h
  exact ⟨nonRevertible, revertible, hp⟩

end

end Kernel
