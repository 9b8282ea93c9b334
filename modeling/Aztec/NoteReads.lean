/-
**Reads of notes in the private kernel.**

The kernel looks for a read request in the note hash tree, or forwards it, siloed with the storage
address of the call, to be found among the note hashes of the transaction: the witness of the prover
says which.  The header of the note, which the oracle gives, says how the request was hashed.  The
two need not agree.
-/

import Aztec.NoteGetter

namespace NoteReads

open Noir Failing Kernel PrivateKernel NoteNonces NoteGetter

/-! ### Read requests in the kernel -/

section Definitions

variable (hashes : PrivateKernelHashes) (c : PrivateCallData)

def storageAddress : Field := c.callStackItem.publicInputs.callContext.storageContractAddress

def InTree (root hash : Field) : Prop :=
  ∃ leafIndex siblingPath, hashes.readRequestRootFromSiblings hash leafIndex siblingPath = root

def witnessedReads : List (SideEffect × ReadRequestMembershipWitness) :=
  c.callStackItem.publicInputs.readRequests.toList.zip c.readRequestMembershipWitnesses.toList

def transientReads : List SideEffect :=
  ((witnessedReads c).filter fun item => item.2.isTransient && decide (item.1.value ≠ 0)).map
    fun item =>
      { counter := item.1.counter
        value := hashes.siloNoteHash (storageAddress c) item.1.value }

/-- The read requests that are not forwarded are in the tree. -/
def Checked (root : Field) : Prop :=
  ∀ item ∈ witnessedReads c, item.1.value ≠ 0 → item.2.isTransient = false →
    InTree hashes root item.1.value

structure Forwards (root : Field) (calls : List PrivateCallData) (p : InnerPublicInputs) :
    Prop where
  treeRoot : p.constants.historicalHeader.noteHashTreeRoot = root
  forwarded : Holds p.end.readRequests (calls.flatMap (transientReads hashes))
  checked : ∀ c ∈ calls, Checked hashes c root

end Definitions

section Calls

variable {hashes : PrivateKernelHashes} {c : PrivateCallData} {out out' : Builder}
  {l : List SideEffect} {root : Field}

theorem checked_of_validateReadRequests {u : Unit} (h : validateReadRequests hashes root
    c.callStackItem.publicInputs.readRequests c.readRequestMembershipWitnesses = .ok u) :
    Checked hashes c root := by
  intro item hitem hvalue htransient
  have hassert := forM_eq_ok.1 h item hitem
  rw [if_pos ⟨hvalue, htransient⟩, assert_eq_ok, decide_eq_true_eq] at hassert
  exact ⟨_, _, hassert⟩

theorem updateEndValues_reads (h : updateEndValues hashes c out = .ok out')
    (hl : Stack out.end.readRequests l) (hempty : out.end.readRequests.emptyValue = Empty.empty) :
    Stack out'.end.readRequests (l ++ transientReads hashes c) ∧
      out'.end.readRequests.emptyValue = Empty.empty ∧ out'.constants = out.constants := by
  simp only [updateEndValues, bind_eq_ok, pure_eq_ok] at h
  obtain ⟨_, -, reads, hreads, keys, -, nullifiers', -, noteHashes', -, _, -,
    privateStack, -, _, -, publicStack, -, messages, -, encrypted, -, unencrypted, -,
    rfl⟩ := h
  obtain ⟨hstack, hempty'⟩ := propagate_stack hl hreads
  simp only [Bool.not_not, Vector.toList_zip] at hstack
  exact ⟨hstack, hempty'.trans hempty, rfl⟩

variable {data : ContractDeploymentData} {functionData : FunctionData}
  {calls : List PrivateCallData}

theorem contractLogic_reads (h : contractLogic hashes c data functionData out = .ok out') :
    out'.end.readRequests = out.end.readRequests ∧ out'.constants = out.constants := by
  unfold contractLogic at h
  split at h
  · simp only [bind_eq_ok, pure_eq_ok] at h
    obtain ⟨_, -, contracts, -, _, -, nullifiers', -, rfl⟩ := h
    exact ⟨rfl, rfl⟩
  · simp only [bind_eq_ok, pure_eq_ok] at h
    obtain ⟨_, -, _, -, rfl⟩ := h
    exact ⟨rfl, rfl⟩

theorem transientReads_ne_empty (hideal : NoteHashesIdeal hashes) :
    ∀ r ∈ transientReads hashes c, r ≠ Empty.empty := by
  intro r hr hempty
  obtain ⟨item, -, rfl⟩ := List.mem_map.1 hr
  exact hideal.noteHash_ne_zero _ _ (congrArg SideEffect.value hempty)

theorem forwards_of_call {out₁ : Builder}
    (hroot : out.constants.historicalHeader.noteHashTreeRoot = root)
    (hl : Stack out.end.readRequests (calls.flatMap (transientReads hashes)))
    (hempty : out.end.readRequests.emptyValue = Empty.empty)
    (hchecked : ∀ c' ∈ calls, Checked hashes c' root) (hcall : Checked hashes c root)
    (hupdate : updateEndValues hashes c out = .ok out₁)
    (hlogic : contractLogic hashes c data functionData out₁ = .ok out') :
    Forwards hashes root (calls ++ [c]) out'.toInner := by
  obtain ⟨hstack, hempty', hconstants⟩ := updateEndValues_reads hupdate hl hempty
  obtain ⟨hsame, hconstants'⟩ := contractLogic_reads hlogic
  refine ⟨?_, ?_, fun c' hc' => ?_⟩
  · show out'.constants.historicalHeader.noteHashTreeRoot = root
    rw [hconstants', hconstants]
    exact hroot
  · have hstorage := hstack.storage_eq
    rw [← hsame] at hstorage hempty'
    rw [hempty'] at hstorage
    rw [List.flatMap_append, List.flatMap_singleton]
    exact hstorage
  · rcases List.mem_append.1 hc' with hc' | hc'
    · exact hchecked c' hc'
    · rw [List.mem_singleton.1 hc']
      exact hcall

theorem init_forwards {txRequest : TxRequest} {p : InnerPublicInputs}
    (h : init hashes txRequest c = .ok p) :
    Forwards hashes c.callStackItem.publicInputs.historicalHeader.noteHashTreeRoot [c] p := by
  simp only [init, bind_eq_ok, pure_eq_ok] at h
  obtain ⟨_, -, _, -, _, -, _, hreads, nullifiers, -, out₁, hupdate, out₂, hlogic, rfl⟩ := h
  exact @forwards_of_call hashes c _ out₂ _ _ _ [] out₁ rfl (Stack.new _) rfl
    (fun _ hc' => absurd hc' List.not_mem_nil) (checked_of_validateReadRequests hreads) hupdate
    hlogic

theorem inner_forwards {p q : InnerPublicInputs} (hideal : NoteHashesIdeal hashes)
    (hp : Forwards hashes root calls p) (h : PrivateKernel.inner hashes p c = .ok q) :
    Forwards hashes root (calls ++ [c]) q := by
  simp only [PrivateKernel.inner, bind_eq_ok, pure_eq_ok] at h
  obtain ⟨_, -, _, -, _, -, _, -, ⟨request, stack⟩, -, _, -, _, hreads, out₁, hupdate, _, -, out₂,
    hlogic, rfl⟩ := h
  have hne : ∀ r ∈ calls.flatMap (transientReads hashes), r ≠ Empty.empty := by
    intro r hr
    obtain ⟨c', -, hr⟩ := List.mem_flatMap.1 hr
    exact transientReads_ne_empty hideal r hr
  have hroot : p.constants.historicalHeader.noteHashTreeRoot = root := hp.treeRoot
  have hcall : Checked hashes c root := by
    rw [← hroot]
    exact checked_of_validateReadRequests hreads
  exact @forwards_of_call hashes c _ out₂ root _ _ calls out₁ hroot
    (stack_arrayToBoundedVec hp.forwarded hne) rfl hp.checked hcall hupdate hlogic

theorem inner_run_forwards (hideal : NoteHashesIdeal hashes) (later : List PrivateCallData) :
    ∀ {calls : List PrivateCallData} {p q : InnerPublicInputs}, Forwards hashes root calls p →
      later.foldlM (PrivateKernel.inner hashes) p = .ok q →
        Forwards hashes root (calls ++ later) q := by
  induction later with
  | nil =>
    intro calls p q hp h
    simp only [List.foldlM_nil, pure_eq_ok] at h
    subst h
    rwa [List.append_nil]
  | cons c later ih =>
    intro calls p q hp h
    rw [List.foldlM_cons, bind_eq_ok] at h
    obtain ⟨mid, hstep, hrest⟩ := h
    have hq := ih (inner_forwards hideal hp hstep) hrest
    rwa [List.append_assoc] at hq

theorem tail_matches {hints : TailHints} {p : InnerPublicInputs} {result : KernelPublicInputs}
    (h : tail hashes hints p = .ok result) {r : SideEffect} (hr : r ∈ p.end.readRequests.toList)
    (hvalue : r.value ≠ 0) :
    ∃ hash ∈ hints.sortedNewNoteHashes.toList, hash.value = r.value ∧ hash.counter < r.counter := by
  simp only [tail, bind_eq_ok] at h
  obtain ⟨_, -, _, -, _, -, _, -, _, -, _, hmatch, -⟩ := h
  obtain ⟨i, hi, rfl⟩ := List.getElem_of_mem hr
  have hlength : p.end.readRequests.toList.length = hints.readCommitmentHints.toList.length := by
    simp
  have hi' : i < hints.readCommitmentHints.toList.length := hlength ▸ hi
  have hzip : i < (p.end.readRequests.toList.zip hints.readCommitmentHints.toList).length := by
    rw [List.length_zip]
    exact lt_min hi hi'
  have hmem := List.getElem_mem hzip
  rw [List.getElem_zip] at hmem
  have hitem := forM_eq_ok.1 hmatch _ hmem
  rw [if_pos hvalue] at hitem
  simp only [bind_eq_ok, get_eq_ok, assert_eq_ok, decide_eq_true_eq] at hitem
  obtain ⟨hash, hget, _, heq, hlt⟩ := hitem
  obtain ⟨hbound, hhash⟩ := Vector.getElem?_eq_some_iff.1 hget
  refine ⟨hash, ?_, heq.symm, hlt⟩
  rw [← hhash]
  exact Vector.mem_toList_iff.2 (Vector.getElem_mem _)

end Calls

/-! ### Notes that exist -/

/-- What hashes are relied on for: none is the value of an empty place, and the hash tells its
inputs and its generator index. -/
structure PedersenIdeal (pedersenHash : List Field → ℕ → Field) (hashes : PrivateKernelHashes) :
    Prop where
  ne_zero : ∀ inputs index, pedersenHash inputs index ≠ 0
  injective : ∀ inputs index inputs' index', pedersenHash inputs index =
    pedersenHash inputs' index' → inputs = inputs' ∧ index = index'
  silo : ∀ address value,
    hashes.siloNoteHash address value = computeSiloedHash pedersenHash address value

section Notes

variable (pedersenHash : List Field → ℕ → Field) (hashes : PrivateKernelHashes)

/-- The call is a run of a private function that does this with notes. -/
def Executes (c : PrivateCallData) (actions : List Action) : Prop :=
  ∃ context, run pedersenHash (.new c.callStackItem.publicInputs.callContext) actions =
      .ok context ∧
    c.callStackItem.publicInputs.readRequests = context.readRequests.storage ∧
      c.callStackItem.publicInputs.newNoteHashes = context.newNoteHashes.storage

def noteHash (storageSlot contentHash : Field) : Field := pedersenHash [storageSlot, contentHash] 0

/-- The note, which a call read in a slot: the call asks for its hash, and for every such request the
note is in the tree, siloed with the storage address of the call, or a call with that address
emitted it with a smaller counter. -/
def NoteExists (root : Field) (calls : List PrivateCallData) (c : PrivateCallData)
    (note : Field × NoteView) : Prop :=
  let inner := noteHash pedersenHash note.1 note.2.contentHash
  let siloed := computeSiloedHash pedersenHash (storageAddress c) inner
  let requested := fun r => r ∈ c.callStackItem.publicInputs.readRequests.toList ∧
    r.value = computeNoteHashForConsumption pedersenHash note.2
  (∃ r, requested r) ∧ ∀ r, requested r → InTree hashes root siloed ∨
    (∃ nonce, InTree hashes root (computeUniqueHash pedersenHash nonce siloed)) ∨
    ∃ c' ∈ calls, storageAddress c' = storageAddress c ∧
      ∃ emitted ∈ c'.callStackItem.publicInputs.newNoteHashes.toList,
        emitted.value = inner ∧ emitted.counter < r.counter

/-- The sorted note hashes of the tail are those of the calls; calls emit note hashes without an
address, and the tree has none of these. -/
structure Separated (root : Field) (calls : List PrivateCallData) (p : InnerPublicInputs)
    (hints : TailHints) : Prop where
  reordered : Reordered p.end.newNoteHashes hints.sortedNewNoteHashes
  emitted : ∀ c ∈ calls, ∀ emitted ∈ c.callStackItem.publicInputs.newNoteHashes.toList,
    emitted.value ≠ 0 → ∃ inputs, emitted.value = pedersenHash inputs 0
  leaves : ∀ hash, hash ≠ 0 → InTree hashes root hash →
    ∃ inputs index, index ≠ 0 ∧ hash = pedersenHash inputs index

end Notes

section Chains

variable {pedersenHash : List Field → ℕ → Field} {hashes : PrivateKernelHashes}
  {txRequest : TxRequest} {first : PrivateCallData} {later : List PrivateCallData}
  {hints : TailHints} {p : InnerPublicInputs} {result : KernelPublicInputs}

theorem found_of_chain (hideal : NoteHashesIdeal hashes)
    (hrun : (init hashes txRequest first >>= fun p => later.foldlM (PrivateKernel.inner hashes) p) =
      .ok p) (htail : tail hashes hints p = .ok result)
    (hreordered : Reordered p.end.newNoteHashes hints.sortedNewNoteHashes)
    {c : PrivateCallData} (hc : c ∈ first :: later) {r : SideEffect}
    (hr : r ∈ c.callStackItem.publicInputs.readRequests.toList) (hvalue : r.value ≠ 0) :
    InTree hashes first.callStackItem.publicInputs.historicalHeader.noteHashTreeRoot r.value ∨
      ∃ c' ∈ first :: later, ∃ emitted ∈ c'.callStackItem.publicInputs.newNoteHashes.toList,
        emitted.value ≠ 0 ∧ hashes.siloNoteHash (storageAddress c') emitted.value =
          hashes.siloNoteHash (storageAddress c) r.value ∧ emitted.counter < r.counter := by
  obtain ⟨p₀, hinit, hinner⟩ := bind_eq_ok.1 hrun
  have hforwards := inner_run_forwards hideal later (init_forwards hinit) hinner
  obtain ⟨nullifiers₀, hp₀⟩ := init_output hideal hinit
  obtain ⟨nullifiers, hp⟩ := inner_run_output hideal later hp₀ hinner
  -- the witness of the request
  obtain ⟨w, hmem⟩ : ∃ w, (r, w) ∈ witnessedReads c := by
    obtain ⟨i, hi, rfl⟩ := List.getElem_of_mem hr
    have hzip : i < (witnessedReads c).length := by
      rw [witnessedReads, List.length_zip]
      simpa using hi
    have hmem := List.getElem_mem hzip
    simp only [witnessedReads, List.getElem_zip] at hmem
    exact ⟨_, hmem⟩
  cases htransient : w.isTransient with
  | false => exact .inl (hforwards.checked c hc _ hmem hvalue htransient)
  | true =>
    refine .inr ?_
    have hforwarded : ({ counter := r.counter
                         value := hashes.siloNoteHash (storageAddress c) r.value } : SideEffect) ∈
        p.end.readRequests.toList := by
      rw [hforwards.forwarded]
      refine List.mem_append_left _ (List.mem_flatMap.2 ⟨c, hc, List.mem_map.2 ⟨(r, w), ?_, rfl⟩⟩)
      exact List.mem_filter.2 ⟨hmem, by simp [htransient, hvalue]⟩
    obtain ⟨hash, hhash, heq, hlt⟩ := tail_matches htail hforwarded (hideal.noteHash_ne_zero _ _)
    -- the hint is a note hash of a call
    have horiginal := hreordered.1.mem_iff.1 hhash
    rw [hp.newNoteHashes] at horiginal
    rcases List.mem_append.1 horiginal with hcreated | hpadding
    · obtain ⟨c', hc', hcreated⟩ := List.mem_flatMap.1 hcreated
      obtain ⟨emitted, hemitted, rfl⟩ := List.mem_map.1 hcreated
      obtain ⟨hemitted, hne⟩ := List.mem_filter.1 hemitted
      exact ⟨c', hc', emitted, hemitted, by simpa using hne, heq, hlt⟩
    · rw [List.eq_of_mem_replicate hpadding] at heq
      exact absurd heq.symm (hideal.noteHash_ne_zero _ _)

/-- **Notes that are read exist.** -/
theorem noteExists_of_chain (hideal : NoteHashesIdeal hashes)
    (hpedersen : PedersenIdeal pedersenHash hashes)
    (hrun : (init hashes txRequest first >>= fun p => later.foldlM (PrivateKernel.inner hashes) p) =
      .ok p) (htail : tail hashes hints p = .ok result) (hseparated : Separated pedersenHash hashes
      first.callStackItem.publicInputs.historicalHeader.noteHashTreeRoot (first :: later) p hints)
    {c : PrivateCallData} (hc : c ∈ first :: later) {actions : List Action}
    (hexecutes : Executes pedersenHash c actions) {note : Field × NoteView}
    (hnote : note ∈ actions.flatMap Action.returned) : NoteExists pedersenHash hashes
      first.callStackItem.publicInputs.historicalHeader.noteHashTreeRoot (first :: later) c
        note := by
  obtain ⟨context, hcontext, hreads, -⟩ := hexecutes
  obtain ⟨haddress, hslot, r₀, hr₀, heq₀⟩ := recorded_of_run hcontext hnote
  rw [← hreads] at hr₀
  refine ⟨⟨r₀, hr₀, heq₀⟩, ?_⟩
  rintro r ⟨hr, heq⟩
  have hvalue : r.value ≠ 0 := by
    rw [heq, computeNoteHashForConsumption]
    split
    · exact hpedersen.ne_zero _ _
    · split
      · exact hpedersen.ne_zero _ _
      · exact hpedersen.ne_zero _ _
  have hinner : computeInnerNoteHash pedersenHash note.2 =
      noteHash pedersenHash note.1 note.2.contentHash := by
    rw [computeInnerNoteHash, hslot, noteHash]
  have hsiloed : computeSiloedNoteHash pedersenHash note.2 =
      computeSiloedHash pedersenHash (storageAddress c)
        (noteHash pedersenHash note.1 note.2.contentHash) := by
    rw [computeSiloedNoteHash, hinner, haddress]
    rfl
  rcases found_of_chain hideal hrun htail hseparated.reordered hc hr hvalue with
    htree | ⟨c', hc', emitted, hemitted, hne, hsilo, hlt⟩
  · -- hashes of the tree have an address
    rw [heq, computeNoteHashForConsumption] at htree
    split at htree
    · obtain ⟨inputs, index, hindex, hhash⟩ := hseparated.leaves _ (hpedersen.ne_zero _ _) htree
      exact absurd (hpedersen.injective _ _ _ _ hhash).2.symm hindex
    · split at htree
      · exact .inl (hsiloed ▸ htree)
      · rw [NoteGetter.computeUniqueSiloedNoteHash, hsiloed] at htree
        exact .inr (.inl ⟨_, htree⟩)
  · -- hashes that calls emit have none
    rw [hpedersen.silo, hpedersen.silo] at hsilo
    obtain ⟨hinputs, -⟩ := hpedersen.injective _ _ _ _ hsilo
    obtain ⟨hstorage, hemittedValue⟩ : storageAddress c' = storageAddress c ∧
        emitted.value = r.value := by simpa using hinputs
    obtain ⟨inputs, hzero⟩ := hseparated.emitted c' hc' emitted hemitted hne
    rw [hemittedValue, heq, computeNoteHashForConsumption] at hzero
    split at hzero
    · next htransient =>
      refine .inr (.inr ⟨c', hc', hstorage, emitted, hemitted, ?_, hlt⟩)
      rw [hemittedValue, heq, computeNoteHashForConsumption, if_pos htransient, hinner]
    · split at hzero
      · have := (hpedersen.injective _ _ _ _ hzero).2
        simp [siloedNoteHashIndex] at this
      · have := (hpedersen.injective _ _ _ _ hzero).2
        simp [uniqueNoteHashIndex] at this

end Chains

/-! ### A call that creates and reads a note -/

namespace OneNote

def pedersenHash (inputs : List Field) (index : ℕ) : Field := Encodable.encode (inputs, index) + 1

def hashes : PrivateKernelHashes :=
  { OneNested.hashes with
    siloNoteHash := computeSiloedHash pedersenHash
    siloNullifier := fun address value => pedersenHash [address, value] 7
    computeL2ToL1Hash := fun address _ _ message => pedersenHash [address, message.content] 8
    readRequestRootFromSiblings := fun value _ _ => value + 1
    computeNoteHashNonce := fun first index => pedersenHash [first, index] 2
    computeUniqueSiloedNoteHash := computeUniqueHash pedersenHash }

theorem pedersenHash_injective {inputs inputs' : List Field} {index index' : ℕ}
    (h : pedersenHash inputs index = pedersenHash inputs' index') :
    inputs = inputs' ∧ index = index' :=
  Prod.mk.inj (Encodable.encode_injective (Nat.succ_injective h))

theorem pedersenIdeal : PedersenIdeal pedersenHash hashes :=
  ⟨fun _ _ => Nat.succ_ne_zero _, fun _ _ _ _ => pedersenHash_injective, fun _ _ => rfl⟩

theorem noteHashesIdeal : NoteHashesIdeal hashes where
  noteHash_ne_zero _ _ := Nat.succ_ne_zero _
  nullifier_ne_zero _ _ := Nat.succ_ne_zero _
  message_ne_zero _ _ _ _ := Nat.succ_ne_zero _
  unique_ne_zero _ _ := Nat.succ_ne_zero _
  unique_injective _ _ _ _ h := by
    have heq := (pedersenHash_injective h).1
    simpa using heq
  nonce_injective _ _ _ h := by
    have heq := (pedersenHash_injective h).1
    simpa using heq

def interface : NoteInterface NoteView 0 := ⟨id, fun _ => #v[]⟩

def note : NoteView := ⟨⟨7, 0, 3, true⟩, 5⟩

def callContext : CallContext := ⟨0, 7, 0, 1, false, false, false, 0⟩

def contextOf (actions : List Action) : PrivateContext :=
  (run pedersenHash (.new callContext) actions).toOption.getD (.new callContext)

/-- A call with this context; its first read request is forwarded. -/
def call (context : PrivateContext) : PrivateCallData :=
  let c := OneNested.call 7 0 false context.newNoteHashes.storage OneNested.noRequests
    OneNested.noRequests
  { c with
    callStackItem :=
      { c.callStackItem with
        publicInputs :=
          { c.callStackItem.publicInputs with readRequests := context.readRequests.storage } }
    readRequestMembershipWitnesses :=
      c.readRequestMembershipWitnesses.set 0 ⟨0, Vector.replicate 32 0, true⟩ }

def hints (indexes : Vector ℕ 64) : TailHints :=
  { OneNested.hints with
    sortedNewNoteHashes := (Vector.replicate 64 ⟨0, 0⟩).set 0
      ⟨computeSiloedHash pedersenHash 7 (computeInnerNoteHash pedersenHash note), 0⟩
      first_lt_sixtyFour
    sortedNewNoteHashesIndexes := indexes }

theorem exists_of_isOk {α : Type} {x : Circuit α} (h : x.isOk = true) :
    ∃ a, x = .ok a ∧ x.toOption = some a := by
  cases x with
  | ok a => exact ⟨a, rfl, rfl⟩
  | error e => cases h

theorem executes_contextOf {actions : List Action}
    (h : (run pedersenHash (.new callContext) actions).isOk = true) :
    Executes pedersenHash (call (contextOf actions)) actions := by
  obtain ⟨context, hrun, hsome⟩ := exists_of_isOk h
  have hcontext : contextOf actions = context := by
    rw [contextOf, hsome, Option.getD_some]
  exact ⟨context, hrun, congrArg (fun s => s.readRequests.storage) hcontext,
    congrArg (fun s => s.newNoteHashes.storage) hcontext⟩

theorem not_inTree (hash : Field) : ¬InTree hashes 0 hash :=
  fun ⟨_, _, h⟩ => Nat.succ_ne_zero hash h

def creating : List Action :=
  [.pushNewNoteHash (computeInnerNoteHash pedersenHash note), .getNote interface 3 note]

def reading : List Action := [.pushOther, .getNote interface 3 note]

def created : PrivateCallData := call (contextOf creating)

def createdHints : TailHints := hints (Vector.ofFn fun i => i.val)

theorem separated {p : InnerPublicInputs}
    (hp : (init hashes OneNested.txRequest created).toOption = some p) :
    Separated pedersenHash hashes 0 [created] p createdHints := by
  have hsame : (init hashes OneNested.txRequest created).toOption.map
      (fun p => p.end.newNoteHashes) = some createdHints.sortedNewNoteHashes := by decide +kernel
  rw [hp, Option.map_some, Option.some.injEq] at hsame
  have hemitted : ∀ e ∈ created.callStackItem.publicInputs.newNoteHashes.toList, e.value ≠ 0 →
      e.value = pedersenHash [3, 5] 0 := by decide
  refine ⟨?_, fun c hc e he hne => ?_, fun hash _ hhash => absurd hhash (not_inTree hash)⟩
  · rw [hsame]
    refine ⟨.refl _, 1, by omega, fun i hi hlt => ?_, fun i hi hle => ?_, fun i j hij _ hj => ?_⟩
    · obtain rfl : i = 0 := by omega
      exact fun h => Nat.succ_ne_zero _ (congrArg SideEffect.value h)
    · show ((Vector.replicate 64 _).set 0 _)[i] = _
      rw [Vector.getElem_set_ne _ _ (by omega), Vector.getElem_replicate]
      rfl
    · omega
  · rw [List.mem_singleton.1 hc] at he
    exact ⟨[3, 5], hemitted e he hne⟩

end OneNote

open OneNote in
/-- The note that was created exists. -/
theorem noteExists_of_chain_created :
    NoteExists pedersenHash hashes 0 [created] created (3, note) := by
  obtain ⟨p, hinit, hsome⟩ := exists_of_isOk
    (by decide +kernel : (init hashes OneNested.txRequest created).isOk = true)
  obtain ⟨result, hchain, -⟩ := exists_of_isOk
    (by decide +kernel : (chain hashes OneNested.txRequest created [] createdHints).isOk = true)
  rw [chain, hinit] at hchain
  have hrun : (init hashes OneNested.txRequest created >>= fun p =>
      ([] : List PrivateCallData).foldlM (PrivateKernel.inner hashes) p) = .ok p := by
    rw [hinit]
    rfl
  exact noteExists_of_chain noteHashesIdeal pedersenIdeal hrun hchain (separated hsome)
    (List.mem_singleton_self _) (executes_contextOf (by decide) :
      Executes pedersenHash created creating) (List.mem_singleton_self _)

open OneNote in
/-- **A note that was never created can be read**: the tail finds it among sorted note hashes that
no call emitted. -/
theorem not_noteExists : ¬∀ (pedersenHash : List Field → ℕ → Field) (hashes : PrivateKernelHashes)
    (txRequest : TxRequest) (first : PrivateCallData) (later : List PrivateCallData)
    (hints : TailHints) (result : KernelPublicInputs) (c : PrivateCallData) (actions : List Action)
    (note : Field × NoteView), NoteHashesIdeal hashes → PedersenIdeal pedersenHash hashes →
      chain hashes txRequest first later hints = .ok result → c ∈ first :: later →
        Executes pedersenHash c actions → note ∈ actions.flatMap Action.returned →
          NoteExists pedersenHash hashes
            first.callStackItem.publicInputs.historicalHeader.noteHashTreeRoot (first :: later) c
              note := by
  intro h
  obtain ⟨result, hchain, -⟩ := exists_of_isOk (by decide +kernel :
    (chain hashes OneNested.txRequest (call (contextOf reading)) []
      (hints (Vector.replicate 64 1))).isOk = true)
  obtain ⟨⟨r, hr⟩, hexists⟩ := h pedersenHash hashes OneNested.txRequest (call (contextOf reading))
    [] (hints (Vector.replicate 64 1)) result (call (contextOf reading)) reading (3, note)
    noteHashesIdeal pedersenIdeal hchain (List.mem_singleton_self _)
    (executes_contextOf (by decide)) (List.mem_singleton_self _)
  have hnone : ∀ e ∈ (call (contextOf reading)).callStackItem.publicInputs.newNoteHashes.toList,
      e.value = 0 := by decide
  rcases hexists r hr with htree | ⟨nonce, htree⟩ | ⟨c', hc', -, emitted, hemitted, hvalue, -⟩
  · exact not_inTree _ htree
  · exact not_inTree _ htree
  · rw [List.mem_singleton.1 hc'] at hemitted
    exact Nat.succ_ne_zero _ (hvalue.symm.trans (hnone emitted hemitted))

end NoteReads
