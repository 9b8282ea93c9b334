/-
**The side effects of a public kernel iteration.**

An iteration appends the side effects of its call to the accumulators of its phase: those of setup
and teardown to the non-revertible ones, those of app logic to the revertible ones.  They are to be
siloed with the storage address of the call, which a delegate call makes differ from the address of
the code.

The functions of the non-revertible phases are copies of those of the revertible one, and differ
from them in two places: storage updates and reads are siloed with the address of the code, and
messages to L1 are not taken over.
-/

import Aztec.PublicKernelPhases

namespace Kernel

open Noir Failing

/-! ### Accumulators -/

section Accumulators

variable {T : Type} [Empty T] {n : ℕ}

def Holds (array : Vector T n) (l : List T) : Prop :=
  array.toList = l ++ List.replicate (n - l.length) Empty.empty

/-- The second array consists of the entries of the first, then the items, then padding. -/
def Appends (before after : Vector T n) (items : List T) : Prop :=
  ∃ l, Holds before l ∧ (∀ e ∈ l, e ≠ Empty.empty) ∧ Holds after (l ++ items)

variable {array before after : Vector T n} {l items items' : List T}

theorem Holds.emptyLast (h : Holds array l) (hne : ∀ e ∈ l, e ≠ Empty.empty) : EmptyLast array := by
  intro i j hij hi
  have hget : ∀ k : Fin n, some array[k] =
      (l ++ List.replicate (n - l.length) Empty.empty)[k.val]? := by
    intro k
    rw [← h, Vector.getElem?_toList, Vector.getElem?_eq_getElem k.isLt]
    rfl
  have hpast : l.length ≤ i.val := by
    by_contra hlt
    have hentry := hget i
    rw [List.getElem?_append_left (not_le.1 hlt), List.getElem?_eq_getElem (not_le.1 hlt),
      Option.some.injEq, hi] at hentry
    exact hne _ (List.getElem_mem _) hentry.symm
  have hpadding := hget j
  have hj : l.length ≤ j.val := hpast.trans (Fin.lt_def.1 hij).le
  rw [List.getElem?_append_right hj, List.getElem?_replicate, if_pos (by omega),
    Option.some.injEq] at hpadding
  exact hpadding

theorem Appends.emptyLast (h : Appends before after items) (hitems : ∀ e ∈ items, e ≠ Empty.empty) :
    EmptyLast after := by
  obtain ⟨l, -, hne, hafter⟩ := h
  refine hafter.emptyLast fun e he => ?_
  rcases List.mem_append.1 he with he | he
  · exact hne e he
  · exact hitems e he

theorem Holds.filter_eq {p : T → Bool} (h : Holds array l) (hp : p Empty.empty = false)
    (hl : ∀ e ∈ l, p e = true) : array.toList.filter p = l := by
  have hpadding : (List.replicate (n - l.length) (Empty.empty : T)).filter p = [] := by
    refine List.filter_eq_nil_iff.2 fun e he => ?_
    rw [List.eq_of_mem_replicate he, hp]
    exact Bool.false_ne_true
  rw [Holds] at h
  rw [h, List.filter_append, hpadding, List.append_nil, List.filter_eq_self.2 hl]

variable [DecidableEq T]

theorem exists_holds (h : EmptyLast array) : ∃ l, Holds array l ∧ ∀ e ∈ l, e ≠ Empty.empty := by
  obtain ⟨hlist, hlength, hne⟩ := toList_eq_of_emptyLast h
  exact ⟨_, by rwa [Holds, hlength], hne⟩

theorem appends_of_stack {before : Vector T n} {v : BoundedVec T n} {items : List T}
    (hbefore : EmptyLast before)
    (h : ∀ l, Stack (arrayToBoundedVec before) l → Stack v (l ++ items) ∧
      v.emptyValue = Empty.empty) : Appends before v.storage items := by
  obtain ⟨l, hl, hne⟩ := exists_holds hbefore
  obtain ⟨hv, hempty⟩ := h l (stack_arrayToBoundedVec hl hne)
  exact ⟨l, hl, hne, by rw [Holds, hv.storage_eq, hempty]⟩

theorem appends_refl (h : EmptyLast array) : Appends array array [] := by
  obtain ⟨l, hl, hne⟩ := exists_holds h
  exact ⟨l, hl, hne, by rwa [List.append_nil]⟩

theorem Holds.filter_nonEmpty (h : Holds array l) (hne : ∀ e ∈ l, e ≠ Empty.empty) :
    array.toList.filter (fun e => !isEmpty e) = l :=
  h.filter_eq (by simp [isEmpty]) fun e he => by simpa [isEmpty] using hne e he

theorem Holds.unique {m : List T} (hl : Holds array l) (hm : Holds array m)
    (hlne : ∀ e ∈ l, e ≠ Empty.empty) (hmne : ∀ e ∈ m, e ≠ Empty.empty) : l = m := by
  rw [← hl.filter_nonEmpty hlne, ← hm.filter_nonEmpty hmne]

section

variable (h : Appends before after items)
include h

theorem Appends.holds (hl : Holds before l) (hne : ∀ e ∈ l, e ≠ Empty.empty) :
    Holds after (l ++ items) := by
  obtain ⟨l', hl', hne', hafter⟩ := h
  rwa [hl.unique hl' hne hne']

theorem Appends.padded_eq (h' : Appends before after items') :
    ∃ k k', items ++ List.replicate k Empty.empty = items' ++ List.replicate k' Empty.empty := by
  obtain ⟨l, hl, hne, hafter⟩ := h
  obtain ⟨l', hl', hne', hafter'⟩ := h'
  obtain rfl := hl.unique hl' hne hne'
  have hboth := hafter.symm.trans hafter'
  rw [List.append_assoc, List.append_assoc, List.append_cancel_left_eq] at hboth
  exact ⟨_, _, hboth⟩

theorem Appends.unique (h' : Appends before after items') (hlength : items.length = items'.length) :
    items = items' := by
  obtain ⟨k, k', heq⟩ := h.padded_eq h'
  exact List.append_inj_left heq hlength

theorem Appends.eq_nil (h' : Appends before after []) (hne : ∀ e ∈ items, e ≠ Empty.empty) :
    items = [] := by
  obtain ⟨k, k', heq⟩ := h.padded_eq h'
  refine List.eq_nil_iff_forall_not_mem.2 fun e he => hne e he ?_
  have hmem : e ∈ List.replicate k' (Empty.empty : T) := by
    rw [List.nil_append] at heq
    exact heq ▸ List.mem_append_left _ he
  exact List.eq_of_mem_replicate hmem

end

theorem Appends.trans {last : Vector T n} (h : Appends before after items) (hitems : ∀ e ∈ items, e ≠ Empty.empty)
    (h' : Appends after last items') : Appends before last (items ++ items') := by
  obtain ⟨l, hl, hne, hafter⟩ := h
  refine ⟨l, hl, hne, ?_⟩
  rw [← List.append_assoc]
  exact h'.holds hafter fun e he => (List.mem_append.1 he).elim (hne e) (hitems e)

end Accumulators

/-! ### What is appended -/

theorem propagate_stack {S U : Type} [Empty U] {n m k : ℕ} {items : Vector S n} {skip : S → Bool}
    {convert : S → U} {target v : BoundedVec U m} {l : List U} (hl : Stack target l)
    (h : propagate k items skip convert target = .ok v) :
    Stack v (l ++ (items.toList.filter fun item => !skip item).map convert) ∧
      v.emptyValue = target.emptyValue := by
  obtain ⟨fresh, hfresh, h⟩ := bind_eq_ok.1 h
  have hstack : Stack fresh ((items.toList.filter fun item => !skip item).map convert) := by
    refine foldlM_invariant (fun before (fresh : BoundedVec U k) =>
      Stack fresh ((before.filter fun item => !skip item).map convert)) ?_ (Stack.new _) hfresh
    intro before item fresh fresh' hbefore hturn
    rw [List.filter_append, List.map_append]
    cases hskip : skip item with
    | true =>
      simp only [hskip, if_true, pure_eq_ok] at hturn
      subst hturn
      simpa [hskip] using hbefore
    | false =>
      simp only [hskip, Bool.false_eq_true, if_false] at hturn
      simpa [hskip] using (hbefore.push hturn).1
  exact hl.extend hstack h

section Siloed

variable (hashes : KernelHashes) (publicCall : PublicCallData)

/-- The address the side effects of a call belong to. -/
def storageContractAddress : Field :=
  publicCall.callStackItem.publicInputs.callContext.storageContractAddress

def updateRequests : List StorageUpdateRequest :=
  publicCall.callStackItem.publicInputs.contractStorageUpdateRequests.toList.filter
    fun request => !request.isEmpty

def readRequests : List StorageRead :=
  publicCall.callStackItem.publicInputs.contractStorageReads.toList.filter
    fun request => !request.isEmpty

def messages : List L2ToL1Message :=
  publicCall.callStackItem.publicInputs.newL2ToL1Msgs.toList.filter
    fun message => !isEmpty message

def siloedNullifiers : List SideEffectLinkedToNoteHash :=
  (publicCall.callStackItem.publicInputs.newNullifiers.toList.filter
    fun nullifier => !decide (nullifier.value = 0)).map fun nullifier =>
      { value := hashes.siloNullifier (storageContractAddress publicCall) nullifier.value
        counter := nullifier.counter
        noteHash := nullifier.noteHash }

def siloedNoteHashes : List SideEffect :=
  (publicCall.callStackItem.publicInputs.newNoteHashes.toList.filter
    fun noteHash => !decide (noteHash.value = 0)).map fun noteHash =>
      { value := hashes.siloNoteHash (storageContractAddress publicCall) noteHash.value
        counter := noteHash.counter }

def siloedUpdates (address : Field) : List PublicDataUpdateRequest :=
  (updateRequests publicCall).map fun request =>
    { leafSlot := hashes.computePublicDataTreeIndex address request.storageSlot
      newValue := request.newValue }

def siloedReads (address : Field) : List PublicDataRead :=
  (readRequests publicCall).map fun request =>
    { leafSlot := hashes.computePublicDataTreeIndex address request.storageSlot
      value := request.currentValue }

def siloedMessages (constants : CombinedConstantData) : List Field :=
  (messages publicCall).map (hashes.computeL2ToL1Hash (storageContractAddress publicCall)
    constants.version constants.chainId)

/-- Side effects of the kinds that both parts of the accumulated data have. -/
structure Effects where
  nullifiers : List SideEffectLinkedToNoteHash
  noteHashes : List SideEffect
  updates : List PublicDataUpdateRequest
  reads : List PublicDataRead

def Effects.none : Effects := ⟨[], [], [], []⟩

/-- The side effects of the call, with the address its public data is siloed with. -/
def siloedEffects (address : Field) : Effects where
  nullifiers := siloedNullifiers hashes publicCall
  noteHashes := siloedNoteHashes hashes publicCall
  updates := siloedUpdates hashes publicCall address
  reads := siloedReads hashes publicCall address

end Siloed

/-! ### The accumulators of an iteration -/

/-- The padding of the non-revertible accumulators comes last. -/
structure NonRevertibleData.Tidy (d : NonRevertibleData) : Prop where
  newNullifiers : EmptyLast d.newNullifiers
  newNoteHashes : EmptyLast d.newNoteHashes
  publicDataUpdateRequests : EmptyLast d.publicDataUpdateRequests
  publicDataReads : EmptyLast d.publicDataReads

/-- The padding of the revertible accumulators comes last. -/
structure RevertibleData.Tidy (d : RevertibleData) : Prop where
  newNullifiers : EmptyLast d.newNullifiers
  newNoteHashes : EmptyLast d.newNoteHashes
  publicDataUpdateRequests : EmptyLast d.publicDataUpdateRequests
  publicDataReads : EmptyLast d.publicDataReads
  newL2ToL1Msgs : EmptyLast d.newL2ToL1Msgs

structure KernelPublicInputs.Tidy (p : KernelPublicInputs) : Prop where
  nonRevertible : p.endNonRevertible.Tidy
  revertible : p.end.Tidy

structure NonRevertibleData.Appends (before after : NonRevertibleData) (effects : Effects) :
    Prop where
  newNullifiers : Kernel.Appends before.newNullifiers after.newNullifiers effects.nullifiers
  newNoteHashes : Kernel.Appends before.newNoteHashes after.newNoteHashes effects.noteHashes
  publicDataUpdateRequests : Kernel.Appends before.publicDataUpdateRequests
    after.publicDataUpdateRequests effects.updates
  publicDataReads : Kernel.Appends before.publicDataReads after.publicDataReads effects.reads

/-- The revertible accumulators consist of those before, of the effects and of the messages. -/
structure RevertibleData.Appends (before after : RevertibleData) (effects : Effects)
    (messages : List Field) : Prop where
  newNullifiers : Kernel.Appends before.newNullifiers after.newNullifiers effects.nullifiers
  newNoteHashes : Kernel.Appends before.newNoteHashes after.newNoteHashes effects.noteHashes
  publicDataUpdateRequests : Kernel.Appends before.publicDataUpdateRequests
    after.publicDataUpdateRequests effects.updates
  publicDataReads : Kernel.Appends before.publicDataReads after.publicDataReads effects.reads
  newL2ToL1Msgs : Kernel.Appends before.newL2ToL1Msgs after.newL2ToL1Msgs messages

/-- The iteration appends side effects to the two parts, and messages. -/
structure AppendsEffects (previous next : KernelPublicInputs) (nonRevertible revertible : Effects)
    (messages : List Field) : Prop where
  nonRevertible : previous.endNonRevertible.Appends next.endNonRevertible nonRevertible
  revertible : previous.end.Appends next.end revertible messages

/-- **Nothing is lost and nothing misplaced**: the accumulators of the phase take over the side
effects of the call, siloed with its storage address, and the messages are taken over. -/
def TakesOver (hashes : KernelHashes) (phase : Phase) (previous : KernelPublicInputs)
    (publicCall : PublicCallData) (next : KernelPublicInputs) : Prop :=
  let effects := siloedEffects hashes publicCall (storageContractAddress publicCall)
  let messages := siloedMessages hashes publicCall previous.constants
  match phase with
  | .appLogic => AppendsEffects previous next .none effects messages
  | _ => AppendsEffects previous next effects .none messages

section Iterations

variable {hashes : KernelHashes} {previous next : KernelPublicInputs} {publicCall : PublicCallData}

theorem NonRevertibleData.Tidy.appends_none {d : NonRevertibleData} (h : d.Tidy) :
    d.Appends d .none :=
  ⟨appends_refl h.newNullifiers, appends_refl h.newNoteHashes,
    appends_refl h.publicDataUpdateRequests, appends_refl h.publicDataReads⟩

/-- **What an iteration of setup or teardown appends**: storage updates and reads under the address
of the code, and no messages. -/
theorem runNonRevertible_appends (hp : previous.Tidy)
    (h : runNonRevertible hashes previous publicCall = .ok next) : AppendsEffects previous next
      (siloedEffects hashes publicCall publicCall.callStackItem.contractAddress) .none [] := by
  simp only [runNonRevertible, bind_eq_ok, pure_eq_ok] at h
  obtain ⟨⟨request, stack⟩, -, _, -, b₁, hupdate, b₂, hlogs, rfl⟩ := h
  simp only [updatePublicEndNonRevertibleValues, propagateNewNullifiersNonRevertible,
    propagateNewNoteHashesNonRevertible, propagateValidNonRevertiblePublicDataUpdateRequests,
    propagateValidNonRevertiblePublicDataReads, bind_eq_ok, pure_eq_ok] at hupdate
  obtain ⟨_, -, _, -, _, -, _, ⟨nullifiers, hnullifiers, rfl⟩, _, ⟨noteHashes, hnoteHashes, rfl⟩, _,
    ⟨updates, hupdates, rfl⟩, reads, hreads, rfl⟩ := hupdate
  simp only [accumulateUnencryptedLogs, bind_eq_ok, pure_eq_ok] at hlogs
  obtain ⟨-, -, rfl⟩ := hlogs
  obtain ⟨hnr, hr⟩ := hp
  exact ⟨⟨appends_of_stack hnr.newNullifiers fun l hl => propagate_stack hl hnullifiers,
      appends_of_stack hnr.newNoteHashes fun l hl => propagate_stack hl hnoteHashes,
      appends_of_stack hnr.publicDataUpdateRequests fun l hl => propagate_stack hl hupdates,
      appends_of_stack hnr.publicDataReads fun l hl => propagate_stack hl hreads⟩,
    ⟨appends_refl hr.newNullifiers, appends_refl hr.newNoteHashes,
      appends_refl hr.publicDataUpdateRequests, appends_refl hr.publicDataReads,
      appends_refl hr.newL2ToL1Msgs⟩⟩

theorem appLogic_appends (hp : previous.Tidy)
    (h : publicKernelAppLogic hashes previous publicCall = .ok next) :
    AppendsEffects previous next .none
      (siloedEffects hashes publicCall (storageContractAddress publicCall))
      (siloedMessages hashes publicCall previous.constants) := by
  simp only [publicKernelAppLogic, bind_eq_ok, pure_eq_ok] at h
  obtain ⟨_, -, _, -, ⟨request, stack⟩, -, _, -, b₁, hupdate, b₂, hlogs, rfl⟩ := h
  simp only [updatePublicEndValues, propagateNewNullifiers, propagateNewNoteHashes,
    propagateNewL2ToL1Messages, propagateValidPublicDataUpdateRequests,
    propagateValidPublicDataReads, bind_eq_ok, pure_eq_ok] at hupdate
  obtain ⟨_, -, _, -, _, -, _, ⟨nullifiers, hnullifiers, rfl⟩, _, ⟨noteHashes, hnoteHashes, rfl⟩, _,
    ⟨msgs, hmsgs, rfl⟩, _, ⟨updates, hupdates, rfl⟩, reads, hreads, rfl⟩ := hupdate
  simp only [accumulateUnencryptedLogs, bind_eq_ok, pure_eq_ok] at hlogs
  obtain ⟨-, -, rfl⟩ := hlogs
  obtain ⟨hnr, hr⟩ := hp
  exact ⟨hnr.appends_none,
    ⟨appends_of_stack hr.newNullifiers fun l hl => propagate_stack hl hnullifiers,
      appends_of_stack hr.newNoteHashes fun l hl => propagate_stack hl hnoteHashes,
      appends_of_stack hr.publicDataUpdateRequests fun l hl => propagate_stack hl hupdates,
      appends_of_stack hr.publicDataReads fun l hl => propagate_stack hl hreads,
      appends_of_stack hr.newL2ToL1Msgs fun l hl => propagate_stack hl hmsgs⟩⟩

theorem address_of_validate {request : CallRequest}
    (h : validateCallAgainstRequest hashes publicCall request = .ok ()) :
    publicCall.callStackItem.publicInputs.callContext.isDelegateCall = true ↔
      publicCall.callStackItem.contractAddress ≠ storageContractAddress publicCall := by
  have hcontext : if publicCall.callStackItem.publicInputs.callContext.isDelegateCall then
      publicCall.callStackItem.contractAddress ≠ storageContractAddress publicCall
    else storageContractAddress publicCall = publicCall.callStackItem.contractAddress := by
    obtain ⟨_, -, h⟩ := bind_eq_ok.1 h
    dsimp only at h
    split
    · next hdelegate =>
      simp only [if_pos hdelegate] at h
      split at h
      · simp only [bind_eq_ok, assert_eq_ok, decide_eq_true_eq] at h
        obtain ⟨_, -, _, -, _, -, _, -, hne⟩ := h
        exact hne
      · simp only [bind_eq_ok, assert_eq_ok, decide_eq_true_eq] at h
        obtain ⟨_, -, _, -, _, -, hne⟩ := h
        exact hne
    · next hdelegate =>
      simp only [if_neg hdelegate] at h
      split at h
      · simp only [bind_eq_ok, assert_eq_ok, decide_eq_true_eq] at h
        obtain ⟨_, -, _, -, heq⟩ := h
        exact heq
      · simp only [bind_eq_ok, assert_eq_ok, decide_eq_true_eq] at h
        obtain ⟨_, -, heq⟩ := h
        exact heq
  split at hcontext
  · next hdelegate => exact ⟨fun _ => hcontext, fun _ => hdelegate⟩
  · next hdelegate => exact ⟨fun h' => absurd h' hdelegate, fun hne => absurd hcontext.symm hne⟩

end Iterations

/-! ### The iterations that lose and misplace nothing -/

/-- No hash is the value of an empty place. -/
structure KernelHashes.NeverEmpty (hashes : KernelHashes) : Prop where
  index_ne_zero : ∀ address slot, hashes.computePublicDataTreeIndex address slot ≠ 0
  nullifier_ne_zero : ∀ address value, hashes.siloNullifier address value ≠ 0
  noteHash_ne_zero : ∀ address value, hashes.siloNoteHash address value ≠ 0
  message_ne_zero : ∀ address version chainId message,
    hashes.computeL2ToL1Hash address version chainId message ≠ 0

/-- The hashes do what the circuits rely on: none is empty, and an index tells the address it was
computed with. -/
structure KernelHashes.Ideal (hashes : KernelHashes) : Prop extends hashes.NeverEmpty where
  index_injective : ∀ address address' slot, hashes.computePublicDataTreeIndex address slot =
    hashes.computePublicDataTreeIndex address' slot → address = address'

/-- The call is one of app logic, or it sends no message and, if it is a delegate call, it neither
updates nor reads storage. -/
def Covered (phase : Phase) (publicCall : PublicCallData) : Prop :=
  phase = .appLogic ∨ messages publicCall = [] ∧
    (publicCall.callStackItem.publicInputs.callContext.isDelegateCall = false ∨
      updateRequests publicCall = [] ∧ readRequests publicCall = [])

section TakesOver

variable {hashes : KernelHashes} {previous next : KernelPublicInputs} {publicCall : PublicCallData}

theorem map_eq_nil_of_address {S U : Type} {l : List S} {convert convert' : S → U}
    (h : l.map convert = l.map convert') (hne : ∀ s, convert s ≠ convert' s) : l = [] := by
  cases l with
  | nil => rfl
  | cons s l =>
    rw [List.map_cons, List.map_cons, List.cons.injEq] at h
    exact absurd h.1 (hne s)

theorem takesOver_of_covered {effects : Effects} (hcovered : messages publicCall = [] ∧
      (publicCall.callStackItem.contractAddress = storageContractAddress publicCall ∨
        updateRequests publicCall = [] ∧ readRequests publicCall = []))
    (h : AppendsEffects previous next
      (siloedEffects hashes publicCall publicCall.callStackItem.contractAddress) effects []) :
    AppendsEffects previous next
      (siloedEffects hashes publicCall (storageContractAddress publicCall)) effects
      (siloedMessages hashes publicCall previous.constants) := by
  obtain ⟨hmessages, haddress | ⟨hupdates, hreads⟩⟩ := hcovered
  · rw [siloedMessages, hmessages, List.map_nil, ← haddress]
    exact h
  · rw [siloedMessages, hmessages, List.map_nil]
    simp only [siloedEffects, siloedUpdates, siloedReads, hupdates, hreads, List.map_nil] at h ⊢
    exact h

theorem covered_of_takesOver {effects : Effects} (hideal : hashes.Ideal)
    (h : AppendsEffects previous next
      (siloedEffects hashes publicCall publicCall.callStackItem.contractAddress) effects [])
    (htakes : AppendsEffects previous next
      (siloedEffects hashes publicCall (storageContractAddress publicCall)) effects
      (siloedMessages hashes publicCall previous.constants)) : messages publicCall = [] ∧
      (publicCall.callStackItem.contractAddress = storageContractAddress publicCall ∨
        updateRequests publicCall = [] ∧ readRequests publicCall = []) := by
  constructor
  · have hnil := htakes.revertible.newL2ToL1Msgs.eq_nil h.revertible.newL2ToL1Msgs (by
      intro e he
      obtain ⟨message, -, rfl⟩ := List.mem_map.1 he
      exact hideal.message_ne_zero _ _ _ _)
    exact List.map_eq_nil_iff.1 hnil
  · by_cases haddress : publicCall.callStackItem.contractAddress = storageContractAddress publicCall
    · exact .inl haddress
    · have hupdates := h.nonRevertible.publicDataUpdateRequests.unique
        htakes.nonRevertible.publicDataUpdateRequests
        (by simp [siloedEffects, siloedUpdates])
      have hreads := h.nonRevertible.publicDataReads.unique htakes.nonRevertible.publicDataReads
        (by simp [siloedEffects, siloedReads])
      refine .inr ⟨map_eq_nil_of_address hupdates fun request heq => ?_,
        map_eq_nil_of_address hreads fun request heq => ?_⟩
      · rw [PublicDataUpdateRequest.mk.injEq] at heq
        exact haddress (hideal.index_injective _ _ _ heq.1)
      · rw [PublicDataRead.mk.injEq] at heq
        exact haddress (hideal.index_injective _ _ _ heq.1)

/-- **The iterations that lose and misplace nothing**: those of app logic, and those of setup and
teardown whose call sends no message and, if it is a delegate call, leaves storage alone. -/
theorem takesOver_iff {phase : Phase} (hp : previous.Tidy)
    (h : iteration hashes previous publicCall phase = .ok next) :
    (Covered phase publicCall → TakesOver hashes phase previous publicCall next) ∧
      (hashes.Ideal → TakesOver hashes phase previous publicCall next →
        Covered phase publicCall) := by
  have hnonRevertible : phase ≠ .appLogic →
      runNonRevertible hashes previous publicCall = .ok next →
      (Covered phase publicCall → AppendsEffects previous next
        (siloedEffects hashes publicCall (storageContractAddress publicCall)) .none
        (siloedMessages hashes publicCall previous.constants)) ∧
      (hashes.Ideal → AppendsEffects previous next
        (siloedEffects hashes publicCall (storageContractAddress publicCall)) .none
        (siloedMessages hashes publicCall previous.constants) → Covered phase publicCall) := by
    intro hphase hrun
    have happends := runNonRevertible_appends hp hrun
    simp only [runNonRevertible, bind_eq_ok] at hrun
    obtain ⟨⟨request, stack⟩, -, _, hvalidate, -⟩ := hrun
    have haddress : publicCall.callStackItem.publicInputs.callContext.isDelegateCall = false ↔
        publicCall.callStackItem.contractAddress = storageContractAddress publicCall := by
      rw [← Bool.not_eq_true, address_of_validate hvalidate, not_not]
    rw [Covered, or_iff_right hphase, haddress]
    exact ⟨fun hcovered => takesOver_of_covered hcovered happends,
      fun hideal htakes => covered_of_takesOver hideal happends htakes⟩
  cases phase with
  | setup =>
    simp only [iteration, publicKernelSetup, bind_eq_ok] at h
    obtain ⟨_, -, _, -, hrun⟩ := h
    exact hnonRevertible (by simp) hrun
  | appLogic => exact ⟨fun _ => appLogic_appends hp h, fun _ _ => .inl rfl⟩
  | teardown =>
    simp only [iteration, publicKernelTeardown, bind_eq_ok] at h
    obtain ⟨_, -, _, -, hrun⟩ := h
    exact hnonRevertible (by simp) hrun

end TakesOver

/-! ### The accumulators of a chain -/

section Chains

variable {hashes : KernelHashes} {publicCall : PublicCallData}

structure Effects.NonEmpty (effects : Effects) : Prop where
  nullifiers : ∀ e ∈ effects.nullifiers, e ≠ Empty.empty
  noteHashes : ∀ e ∈ effects.noteHashes, e ≠ Empty.empty
  updates : ∀ e ∈ effects.updates, e ≠ Empty.empty
  reads : ∀ e ∈ effects.reads, e ≠ Empty.empty

theorem Effects.nonEmpty_none : Effects.none.NonEmpty :=
  ⟨by simp [Effects.none], by simp [Effects.none], by simp [Effects.none], by simp [Effects.none]⟩

theorem siloedEffects_nonEmpty (hhashes : hashes.NeverEmpty) (address : Field) :
    (siloedEffects hashes publicCall address).NonEmpty := by
  constructor
  · intro e he hempty
    obtain ⟨nullifier, -, rfl⟩ := List.mem_map.1 he
    exact hhashes.nullifier_ne_zero _ _ (congrArg SideEffectLinkedToNoteHash.value hempty)
  · intro e he hempty
    obtain ⟨noteHash, -, rfl⟩ := List.mem_map.1 he
    exact hhashes.noteHash_ne_zero _ _ (congrArg SideEffect.value hempty)
  · intro e he hempty
    obtain ⟨request, -, rfl⟩ := List.mem_map.1 he
    exact hhashes.index_ne_zero _ _ (congrArg PublicDataUpdateRequest.leafSlot hempty)
  · intro e he hempty
    obtain ⟨request, -, rfl⟩ := List.mem_map.1 he
    exact hhashes.index_ne_zero _ _ (congrArg PublicDataRead.leafSlot hempty)

theorem AppendsEffects.tidy {previous next : KernelPublicInputs}
    {nonRevertible revertible : Effects} {messages : List Field}
    (h : AppendsEffects previous next nonRevertible revertible messages)
    (hnr : nonRevertible.NonEmpty) (hr : revertible.NonEmpty)
    (hmessages : ∀ e ∈ messages, e ≠ Empty.empty) : next.Tidy :=
  ⟨⟨h.nonRevertible.newNullifiers.emptyLast hnr.nullifiers,
      h.nonRevertible.newNoteHashes.emptyLast hnr.noteHashes,
      h.nonRevertible.publicDataUpdateRequests.emptyLast hnr.updates,
      h.nonRevertible.publicDataReads.emptyLast hnr.reads⟩,
    ⟨h.revertible.newNullifiers.emptyLast hr.nullifiers,
      h.revertible.newNoteHashes.emptyLast hr.noteHashes,
      h.revertible.publicDataUpdateRequests.emptyLast hr.updates,
      h.revertible.publicDataReads.emptyLast hr.reads,
      h.revertible.newL2ToL1Msgs.emptyLast hmessages⟩⟩

theorem iteration_tidy {phase : Phase} {previous next : KernelPublicInputs} (hhashes : hashes.NeverEmpty)
    (hp : previous.Tidy) (h : iteration hashes previous publicCall phase = .ok next) :
    next.Tidy := by
  have hnone : ∀ e ∈ ([] : List Field), e ≠ Empty.empty := by simp
  cases phase with
  | setup =>
    simp only [iteration, publicKernelSetup, bind_eq_ok] at h
    obtain ⟨_, -, _, -, hrun⟩ := h
    exact (runNonRevertible_appends hp hrun).tidy (siloedEffects_nonEmpty hhashes _)
      Effects.nonEmpty_none hnone
  | appLogic =>
    refine (appLogic_appends hp h).tidy Effects.nonEmpty_none (siloedEffects_nonEmpty hhashes _) ?_
    intro e he
    obtain ⟨message, -, rfl⟩ := List.mem_map.1 he
    exact hhashes.message_ne_zero _ _ _ _
  | teardown =>
    simp only [iteration, publicKernelTeardown, bind_eq_ok] at h
    obtain ⟨_, -, _, -, hrun⟩ := h
    exact (runNonRevertible_appends hp hrun).tidy (siloedEffects_nonEmpty hhashes _)
      Effects.nonEmpty_none hnone

theorem emptyLast_of_stack {T : Type} [DecidableEq T] [Empty T] {n : ℕ} {v : BoundedVec T n}
    {below : T → Bool} {l : List T} (h : Stack v (l.filter fun item => !isEmpty item && below item))
    (hempty : v.emptyValue = Empty.empty) : EmptyLast v.storage := by
  refine Holds.emptyLast (l := l.filter fun item => !isEmpty item && below item) ?_ ?_
  · rw [Holds, h.storage_eq, hempty]
  · intro e he hnone
    simp [hnone, isEmpty] at he

def Effects.append (a b : Effects) : Effects :=
  ⟨a.nullifiers ++ b.nullifiers, a.noteHashes ++ b.noteHashes, a.updates ++ b.updates,
    a.reads ++ b.reads⟩

theorem AppendsEffects.trans {p q r : KernelPublicInputs}
    {nonRevertible revertible nonRevertible' revertible' : Effects} {messages messages' : List Field}
    (h : AppendsEffects p q nonRevertible revertible messages) (hnr : nonRevertible.NonEmpty)
    (hr : revertible.NonEmpty) (hmessages : ∀ e ∈ messages, e ≠ Empty.empty)
    (h' : AppendsEffects q r nonRevertible' revertible' messages') :
    AppendsEffects p r (nonRevertible.append nonRevertible') (revertible.append revertible')
      (messages ++ messages') :=
  ⟨⟨h.1.1.trans hnr.1 h'.1.1, h.1.2.trans hnr.2 h'.1.2, h.1.3.trans hnr.3 h'.1.3,
      h.1.4.trans hnr.4 h'.1.4⟩,
    ⟨h.2.1.trans hr.1 h'.2.1, h.2.2.trans hr.2 h'.2.2, h.2.3.trans hr.3 h'.2.3,
      h.2.4.trans hr.4 h'.2.4, h.2.5.trans hmessages h'.2.5⟩⟩

/-- What is appended to the non-revertible accumulators, to the revertible ones, and to the
messages. -/
structure AllEffects where
  nonRevertible : Effects
  revertible : Effects
  messages : List Field

def AllEffects.Appended (effects : AllEffects) (previous next : KernelPublicInputs) : Prop :=
  AppendsEffects previous next effects.nonRevertible effects.revertible effects.messages

def stepEffects (hashes : KernelHashes) (constants : CombinedConstantData)
    (step : Phase × PublicCallData) : AllEffects :=
  match step.1 with
  | .appLogic => ⟨.none, siloedEffects hashes step.2 (storageContractAddress step.2),
      siloedMessages hashes step.2 constants⟩
  | _ => ⟨siloedEffects hashes step.2 step.2.callStackItem.contractAddress, .none, []⟩

def chainEffects (hashes : KernelHashes) (constants : CombinedConstantData) :
    List (Phase × PublicCallData) → AllEffects
  | [] => ⟨.none, .none, []⟩
  | step :: steps =>
    let first := stepEffects hashes constants step
    let rest := chainEffects hashes constants steps
    ⟨first.nonRevertible.append rest.nonRevertible, first.revertible.append rest.revertible,
      first.messages ++ rest.messages⟩

theorem constants_iteration {phase : Phase}
    (h : iteration hashes previous publicCall phase = .ok next) :
    next.constants = previous.constants := by
  have hrun : ∀ {next}, runNonRevertible hashes previous publicCall = .ok next →
      next.constants = previous.constants := by
    intro next h
    simp only [runNonRevertible, updatePublicEndNonRevertibleValues, accumulateUnencryptedLogs,
      propagateNewNullifiersNonRevertible, propagateNewNoteHashesNonRevertible,
      propagateValidNonRevertiblePublicDataUpdateRequests,
      propagateValidNonRevertiblePublicDataReads, bind_eq_ok, pure_eq_ok] at h
    obtain ⟨_, -, _, -, _, ⟨_, -, _, -, _, -, _, ⟨_, -, rfl⟩, _, ⟨_, -, rfl⟩, _, ⟨_, -, rfl⟩, _, -,
      rfl⟩, _, ⟨-, -, rfl⟩, rfl⟩ := h
    rfl
  cases phase with
  | setup =>
    simp only [iteration, publicKernelSetup, bind_eq_ok] at h
    obtain ⟨_, -, _, -, h⟩ := h
    exact hrun h
  | appLogic =>
    simp only [iteration, publicKernelAppLogic, updatePublicEndValues, accumulateUnencryptedLogs,
      propagateNewNullifiers, propagateNewNoteHashes, propagateNewL2ToL1Messages,
      propagateValidPublicDataUpdateRequests, propagateValidPublicDataReads, bind_eq_ok,
      pure_eq_ok] at h
    obtain ⟨_, -, _, -, _, -, _, -, _, ⟨_, -, _, -, _, -, _, ⟨_, -, rfl⟩, _, ⟨_, -, rfl⟩, _,
      ⟨_, -, rfl⟩, _, ⟨_, -, rfl⟩, _, -, rfl⟩, _, ⟨-, -, rfl⟩, rfl⟩ := h
    rfl
  | teardown =>
    simp only [iteration, publicKernelTeardown, bind_eq_ok] at h
    obtain ⟨_, -, _, -, h⟩ := h
    exact hrun h

theorem stepEffects_nonEmpty (hhashes : hashes.NeverEmpty) (constants : CombinedConstantData)
    (step : Phase × PublicCallData) : (stepEffects hashes constants step).nonRevertible.NonEmpty ∧
      (stepEffects hashes constants step).revertible.NonEmpty ∧
      ∀ e ∈ (stepEffects hashes constants step).messages, e ≠ Empty.empty := by
  obtain ⟨phase, publicCall⟩ := step
  cases phase with
  | appLogic =>
    refine ⟨Effects.nonEmpty_none, siloedEffects_nonEmpty hhashes _, fun e he => ?_⟩
    obtain ⟨message, -, rfl⟩ := List.mem_map.1 he
    exact hhashes.message_ne_zero _ _ _ _
  | _ => exact ⟨siloedEffects_nonEmpty hhashes _, Effects.nonEmpty_none, by simp [stepEffects]⟩

theorem iteration_appends {phase : Phase} (hp : previous.Tidy)
    (h : iteration hashes previous publicCall phase = .ok next) :
    (stepEffects hashes previous.constants (phase, publicCall)).Appended previous next := by
  cases phase with
  | setup =>
    simp only [iteration, publicKernelSetup, bind_eq_ok] at h
    obtain ⟨_, -, _, -, hrun⟩ := h
    exact runNonRevertible_appends hp hrun
  | appLogic => exact appLogic_appends hp h
  | teardown =>
    simp only [iteration, publicKernelTeardown, bind_eq_ok] at h
    obtain ⟨_, -, _, -, hrun⟩ := h
    exact runNonRevertible_appends hp hrun

theorem runChain_appends (hhashes : hashes.NeverEmpty) (steps : List (Phase × PublicCallData)) :
    ∀ {p q : KernelPublicInputs}, p.Tidy → runChain hashes p steps = .ok q →
      (chainEffects hashes p.constants steps).Appended p q ∧ q.Tidy := by
  induction steps with
  | nil =>
    intro p q hp h
    obtain rfl := pure_eq_ok.1 h
    obtain ⟨hnr, hr⟩ := hp
    exact ⟨⟨hnr.appends_none, ⟨appends_refl hr.1, appends_refl hr.2, appends_refl hr.3,
      appends_refl hr.4, appends_refl hr.5⟩⟩, hnr, hr⟩
  | cons step steps ih =>
    intro p q hp h
    rw [runChain, List.foldlM_cons, bind_eq_ok] at h
    obtain ⟨next, hstep, hrest⟩ := h
    obtain ⟨hnr, hr, hmessages⟩ := stepEffects_nonEmpty hhashes p.constants step
    have hlater := ih (iteration_tidy hhashes hp hstep) hrest
    rw [constants_iteration hstep] at hlater
    exact ⟨(iteration_appends hp hstep).trans hnr hr hmessages hlater.1, hlater.2⟩

variable {b : CombinedBuilder} {minCounter : ℕ} {constants : CombinedConstantData}
  {p : KernelPublicInputs}

theorem toTail_tidy (hmessages : EmptyLast b.newL2ToL1Msgs.storage)
    (h : toTail b minCounter constants = .ok p) : p.Tidy := by
  have hzeroed : ∀ {T : Type} [DecidableEq T] [Empty T] (n : ℕ),
      EmptyLast (zeroedVec : BoundedVec T n).storage := by
    intro T _ _ n i j _ _
    simp [zeroedVec, BoundedVec.new]
  simp only [toTail, CombinedBuilder.split, bind_eq_ok, pure_eq_ok] at h
  obtain ⟨_, ⟨noteHashes, hnoteHashes, nullifiers, hnullifiers, calls, -, rfl⟩, rfl⟩ := h
  obtain ⟨hnl, hnr, hnel, hner⟩ := splitBy_stack hnoteHashes
  obtain ⟨hul, hur, huel, huer⟩ := splitBy_stack hnullifiers
  exact ⟨⟨emptyLast_of_stack hul huel, emptyLast_of_stack hnl hnel, hzeroed _, hzeroed _⟩,
    ⟨emptyLast_of_stack hur huer, emptyLast_of_stack hnr hner, hzeroed _, hzeroed _, hmessages⟩⟩

/-- **A chain of public kernels loses and repeats no side effect**: its accumulators are those of
the private tail and then the effects of the calls in their order, those of setup and teardown in
the non-revertible part and those of app logic in the revertible one, and padding comes last. -/
theorem chain_effects {q : KernelPublicInputs} {steps : List (Phase × PublicCallData)}
    (hhashes : hashes.NeverEmpty) (hmessages : EmptyLast b.newL2ToL1Msgs.storage)
    (hp : toTail b minCounter constants = .ok p) (h : runChain hashes p steps = .ok q) :
    (chainEffects hashes p.constants steps).Appended p q ∧ q.Tidy :=
  runChain_appends hhashes steps (toTail_tidy hmessages hp) h

end Chains

/-! ### A delegate call in setup -/

namespace DelegateInSetup

def hashes : KernelHashes where
  callStackItem item := item.contractAddress + 100
  siloNoteHash address value := address + value + 1
  siloNullifier address value := address + value + 1
  computePublicDataTreeIndex address slot := address + slot + 1
  computeL2ToL1Hash address _ _ message := address + message.content + 1
  accumulateSha256 _ := Vector.replicate 2 0

theorem ideal_hashes : hashes.Ideal where
  index_injective address address' slot h := by
    exact Nat.add_right_cancel (Nat.add_right_cancel h)
  index_ne_zero _ _ := Nat.succ_ne_zero _
  nullifier_ne_zero _ _ := Nat.succ_ne_zero _
  noteHash_ne_zero _ _ := Nat.succ_ne_zero _
  message_ne_zero _ _ _ _ := Nat.succ_ne_zero _

/-- A call of contract 4 that writes 6 to slot 5, with the storage of contract 7 when it is a
delegate call. -/
def call (isDelegateCall : Bool) : PublicCallData :=
  let plain := BackToSetup.call 4 7 (Vector.replicate 4 Empty.empty)
  let item := plain.callStackItem
  let context := item.publicInputs.callContext
  { plain with
    callStackItem :=
      { item with
        publicInputs :=
          { item.publicInputs with
            callContext :=
              if isDelegateCall then
                { context with msgSender := 9, storageContractAddress := 7, isDelegateCall := true }
              else context
            contractStorageUpdateRequests := (Vector.replicate 16 ⟨0, 0⟩).set! 0 ⟨5, 6⟩ } } }

/-- The inputs of a setup iteration that is to run the call. -/
def previous (isDelegateCall : Bool) : KernelPublicInputs :=
  let request := BackToSetup.request 4 7 4
  let request :=
    if isDelegateCall then { request with callerContext := ⟨9, 7⟩ } else request
  KernelBuilder.toInner
    ⟨{ NonRevertibleBuilder.zeroed with
        publicCallStack :=
          { storage := #v[BackToSetup.request 1 7 2, request, Empty.empty]
            len := 2, emptyValue := Empty.empty } },
      RevertibleBuilder.zeroed, ⟨1, 1⟩⟩

theorem tidy_previous (isDelegateCall : Bool) : (previous isDelegateCall).Tidy := by
  have hzeroed : ∀ {T : Type} [DecidableEq T] [Empty T] (n : ℕ),
      EmptyLast (zeroedVec : BoundedVec T n).storage := by
    intro T _ _ n i j _ _
    simp [zeroedVec, BoundedVec.new]
  cases isDelegateCall with
  | false =>
    exact ⟨⟨hzeroed _, hzeroed _, hzeroed _, hzeroed _⟩,
      ⟨hzeroed _, hzeroed _, hzeroed _, hzeroed _, hzeroed _⟩⟩
  | true =>
    exact ⟨⟨hzeroed _, hzeroed _, hzeroed _, hzeroed _⟩,
      ⟨hzeroed _, hzeroed _, hzeroed _, hzeroed _, hzeroed _⟩⟩

theorem accepted (isDelegateCall : Bool) :
    ∃ next, iteration hashes (previous isDelegateCall) (call isDelegateCall) .setup = .ok next := by
  have h :
      (iteration hashes (previous isDelegateCall) (call isDelegateCall) .setup).isOk = true := by
    cases isDelegateCall with
    | false => decide +kernel
    | true => decide +kernel
  cases hrun : iteration hashes (previous isDelegateCall) (call isDelegateCall) .setup with
  | error msg => simp [hrun, Except.isOk, Except.toBool] at h
  | ok next => exact ⟨next, rfl⟩

end DelegateInSetup

open DelegateInSetup in
/-- The call that is not a delegate call. -/
theorem takesOver_call : ∃ next, iteration hashes (previous false) (call false) .setup = .ok next ∧
    TakesOver hashes .setup (previous false) (call false) next := by
  obtain ⟨next, h⟩ := accepted false
  exact ⟨next, h, (takesOver_iff (tidy_previous false) h).1 (.inr ⟨by decide, .inl rfl⟩)⟩

open DelegateInSetup in
/-- **The write of a delegate call in setup is misplaced.** -/
theorem not_takesOver : ¬ ∀ (hashes : KernelHashes) (phase : Phase) (previous : KernelPublicInputs)
    (publicCall : PublicCallData) (next : KernelPublicInputs), hashes.Ideal → previous.Tidy →
      iteration hashes previous publicCall phase = .ok next →
        TakesOver hashes phase previous publicCall next := by
  intro hall
  obtain ⟨next, h⟩ := accepted true
  have htakes := hall hashes .setup (previous true) (call true) next ideal_hashes
    (tidy_previous true) h
  simp only [iteration, publicKernelSetup, bind_eq_ok] at h
  obtain ⟨_, -, _, -, hrun⟩ := h
  obtain ⟨-, haddress | ⟨hupdates, -⟩⟩ := covered_of_takesOver ideal_hashes
    (runNonRevertible_appends (tidy_previous true) hrun) htakes
  · revert haddress
    decide
  · revert hupdates
    decide

namespace Effectful

open BackToSetup

/-- The call with a note hash, a nullifier, an update, a read and a message of its own. -/
def withEffects (value : Field) (plain : PublicCallData) : PublicCallData :=
  let item := plain.callStackItem
  { plain with
    callStackItem :=
      { item with
        publicInputs :=
          { item.publicInputs with
            newNoteHashes := item.publicInputs.newNoteHashes.set! 0 ⟨value, 1⟩
            newNullifiers := item.publicInputs.newNullifiers.set! 0 ⟨value + 1, 0, 2⟩
            contractStorageUpdateRequests :=
              item.publicInputs.contractStorageUpdateRequests.set! 0 ⟨value + 2, 5⟩
            contractStorageReads := item.publicInputs.contractStorageReads.set! 0 ⟨value + 3, 6⟩
            newL2ToL1Msgs := item.publicInputs.newL2ToL1Msgs.set! 0 ⟨7, value + 4⟩ } } }

def steps : List (Phase × PublicCallData) :=
  inOrder.mapIdx fun i step => (step.1, withEffects (10 * i + 5) step.2)

/-- A tail with a note hash that cannot be reverted and one that can. -/
def tail : CombinedBuilder :=
  { builder with
    newNoteHashes :=
      { storage := (zeroedVec : BoundedVec SideEffect 64).storage.set! 0 ⟨8, 3⟩ |>.set! 1 ⟨9, 12⟩
        len := 2, emptyValue := Empty.empty } }

end Effectful

open Effectful in
theorem chain_effects_everyPhase : ∃ p q, toTail tail 10 ⟨1, 1⟩ = .ok p ∧
    (chainEffects DelegateInSetup.hashes p.constants steps).Appended p q ∧ q.Tidy := by
  have h : (toTail tail 10 ⟨1, 1⟩ >>= fun p =>
    runChain DelegateInSetup.hashes p steps).isOk = true := by decide +kernel
  cases hrun : toTail tail 10 ⟨1, 1⟩ >>= fun p => runChain DelegateInSetup.hashes p steps with
  | error msg => simp [hrun, Except.isOk, Except.toBool] at h
  | ok q =>
    obtain ⟨p, hp, hq⟩ := bind_eq_ok.1 hrun
    exact ⟨p, q, hp,
      chain_effects DelegateInSetup.ideal_hashes.toNeverEmpty (by decide) hp hq⟩

end Kernel
