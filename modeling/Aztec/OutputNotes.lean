/-
**The notes that the kernel prover returns.**

`KernelProver.prove` keeps the new notes of all calls under their siloed note hashes, and looks them
up with the note hashes of the final output.  The private kernel tail has made these unique, so that
none is found.
-/

import Aztec.NoteDiscovery

namespace OutputNotes

open BlockBody Noir Failing Kernel PrivateKernel NoteNonces KernelLogs StackTraversal

structure OutputNoteData (Note : Type) where
  contractAddress : Field
  data : Note
  commitment : Field

variable {sha256 : Bytes → Bytes32} {Note : Type} (hashes : PrivateKernelHashes)
  (txRequest : TxRequest) (computeHints : InnerPublicInputs → TailHints)
  (newNotes : PrivateExecution sha256 → List Note)

def getNewNotes (execution : PrivateExecution sha256) : List (OutputNoteData Note) :=
  let publicInputs := execution.callData.callStackItem.publicInputs
  let contractAddress := publicInputs.callContext.storageContractAddress
  ((newNotes execution).zip publicInputs.newNoteHashes.toList).map fun note =>
    ⟨contractAddress, note.1, hashes.siloNoteHash contractAddress note.2.value⟩

/-- A turn of the loop, with the new notes in the order in which they are written. -/
def proveTurn (s : Option InnerPublicInputs × List (OutputNoteData Note))
    (execution : PrivateExecution sha256) :
    Circuit (Option InnerPublicInputs × List (OutputNoteData Note)) := do
  let output ← proveCall hashes txRequest s.1 execution
  -- the commitment of a note without a note hash is undefined
  assert ((newNotes execution).length ≤ 16) "Cannot read properties of undefined"
  return (output, s.2 ++ getNewNotes hashes newNotes execution)

/-- `prove`: the output of the tail, and `outputNotes`; the last note under a note hash counts. -/
def prove (executionResult : RoseTree (PrivateExecution sha256)) :
    Circuit (KernelPublicInputs × List (OutputNoteData Note)) := do
  let s ← loop (proveTurn hashes txRequest newNotes) [executionResult] (none, [])
  match s.1 with
  | none => throw "no private call has been proven"
  | some output => do
    let out ← tail (withSha256 hashes sha256) (computeHints output) output
    return (out, out.end.newNoteHashes.toList.filterMap fun c =>
      s.2.reverse.find? fun n => n.commitment = c.value)

def allNotes (executionResult : RoseTree (PrivateExecution sha256)) : List (OutputNoteData Note) :=
  (executionResult.collect id).flatMap (getNewNotes hashes newNotes)

def squashedHashes (executionResult : RoseTree (PrivateExecution sha256)) : List Field :=
  nullified ((executionResult.collect id).flatMap fun e => createdNullifiers hashes e.callData)

/-- The notes are those of the calls, each once, without one for each squashed note hash. -/
def Exact (executionResult : RoseTree (PrivateExecution sha256))
    (outputNotes : List (OutputNoteData Note)) : Prop :=
  ∃ squashed, (allNotes hashes newNotes executionResult).Perm (squashed ++ outputNotes) ∧
    (squashed.map OutputNoteData.commitment).Perm (squashedHashes hashes executionResult)

variable {hashes txRequest computeHints newNotes}

theorem tail_noteHashes {hints : TailHints} {p : InnerPublicInputs} {out : KernelPublicInputs}
    (h : tail hashes hints p = .ok out) :
    ∀ noteHash ∈ out.end.newNoteHashes.toList, noteHash.value = 0 ∨ ∃ nonce value,
      noteHash.value = hashes.computeUniqueSiloedNoteHash nonce value := by
  simp only [tail, bind_eq_ok] at h
  obtain ⟨_, -, _, -, _, -, _, -, _, -, _, -, squashed, -, unique, hunique, htail⟩ := h
  simp only [Builder.toTail, Kernel.toTail, CombinedBuilder.split, bind_eq_ok, pure_eq_ok] at htail
  obtain ⟨_, ⟨noteHashes, hsplit, _, -, _, -, rfl⟩, rfl⟩ := htail
  obtain ⟨-, hstack, -, hempty⟩ := splitBy_stack hsplit
  intro noteHash hmem
  have hmem : noteHash ∈ noteHashes.2.storage.toList := hmem
  rw [hstack.storage_eq, hempty, List.mem_append] at hmem
  obtain hmem | hmem := hmem
  · simp only [applyNoteHashNonces, bind_eq_ok, pure_eq_ok] at hunique
    obtain ⟨_, -, first, -, rfl⟩ := hunique
    obtain ⟨i, hi, rfl⟩ := List.mem_iff_getElem.1 (List.mem_filter.1 hmem).1
    rw [Vector.getElem_toList, Vector.getElem_mapFinIdx]
    split
    · exact .inr ⟨_, _, rfl⟩
    · next hzero => exact .inl (not_not.1 hzero)
  · rw [List.eq_of_mem_replicate hmem]
    exact .inl rfl

theorem loop_siloed {executionResult : RoseTree (PrivateExecution sha256)}
    {s : Option InnerPublicInputs × List (OutputNoteData Note)}
    (h : loop (proveTurn hashes txRequest newNotes) [executionResult] (none, []) = .ok s) :
    ∀ n ∈ s.2, ∃ address value, n.commitment = hashes.siloNoteHash address value := by
  rw [loop_eq] at h
  refine foldlM_preserves (fun s : Option InnerPublicInputs × List (OutputNoteData Note) =>
    ∀ n ∈ s.2, ∃ address value, n.commitment = hashes.siloNoteHash address value)
    (fun e s s' hs hturn n hn => ?_) (fun n hn => absurd hn List.not_mem_nil) h
  simp only [proveTurn, bind_eq_ok, pure_eq_ok] at hturn
  obtain ⟨output, -, _, -, rfl⟩ := hturn
  obtain hn | hn := List.mem_append.1 hn
  · exact hs n hn
  · obtain ⟨note, -, rfl⟩ := List.mem_map.1 hn
    exact ⟨_, _, rfl⟩

section Output

variable (hzero : ∀ address value, hashes.siloNoteHash address value ≠ 0)
  (hseparate : ∀ address value nonce value', hashes.siloNoteHash address value ≠
    hashes.computeUniqueSiloedNoteHash nonce value')
  {executionResult : RoseTree (PrivateExecution sha256)} {out : KernelPublicInputs}
  {outputNotes : List (OutputNoteData Note)}
include hzero hseparate

theorem outputNotes_eq_nil (h : prove hashes txRequest computeHints newNotes executionResult =
    .ok (out, outputNotes)) : outputNotes = [] := by
  rw [prove, bind_eq_ok] at h
  obtain ⟨⟨output, notes⟩, hloop, h⟩ := h
  cases output with
  | none => cases h
  | some output =>
    simp only [bind_eq_ok, pure_eq_ok, Prod.mk.injEq] at h
    obtain ⟨out, htail, rfl, rfl⟩ := h
    refine List.filterMap_eq_nil_iff.2 fun c hc => List.find?_eq_none.2 fun n hn heq => ?_
    obtain ⟨address, value, hsiloed⟩ := loop_siloed hloop n (List.mem_reverse.1 hn)
    have heq : n.commitment = c.value := of_decide_eq_true heq
    rw [hsiloed] at heq
    obtain hempty | ⟨nonce, value', hunique⟩ := tail_noteHashes htail c hc
    · exact hzero address value (heq.trans hempty)
    · exact hseparate address value nonce value' (heq.trans hunique)

/-- **The notes that are returned are the surviving ones exactly when every note is squashed.** -/
theorem returnsSurviving_iff (h : prove hashes txRequest computeHints newNotes executionResult =
    .ok (out, outputNotes)) : Exact hashes newNotes executionResult outputNotes ↔
      ((allNotes hashes newNotes executionResult).map OutputNoteData.commitment).Perm
        (squashedHashes hashes executionResult) := by
  rw [outputNotes_eq_nil hzero hseparate h]
  constructor
  · rintro ⟨squashed, hnotes, hsquashed⟩
    rw [List.append_nil] at hnotes
    exact (hnotes.map _).trans hsquashed
  · intro hsquashed
    exact ⟨_, by rw [List.append_nil], hsquashed⟩

end Output

/-! ### A revertible note -/

namespace OneNote

open NoteDiscovery TwoPhases

def note : RoseTree (PrivateExecution checksum) :=
  .node (privateExecution RevertibleNote.first ⟨[]⟩ ⟨[]⟩ (by decide)) []

theorem exists_prove : ∃ result : KernelPublicInputs × List (OutputNoteData Unit),
    prove RevertibleNote.privateHashes PrivateKernel.OneNested.txRequest
      (fun _ => RevertibleNote.hints) (fun _ => [()]) note = .ok result := by
  have hrun : (prove RevertibleNote.privateHashes PrivateKernel.OneNested.txRequest
      (fun _ => RevertibleNote.hints) (fun _ => [()]) note).isOk = true := by
    rw [prove, loop_eq, note]
    simp only [List.flatMap_singleton, RoseTree.collect_node, List.reverse_nil, List.flatMap_nil,
      id_eq]
    decide +kernel
  cases hprove : prove RevertibleNote.privateHashes PrivateKernel.OneNested.txRequest
      (fun _ => RevertibleNote.hints) (fun _ => [()]) note with
  | error msg => rw [hprove] at hrun; cases hrun
  | ok result => exact ⟨result, rfl⟩

theorem separate (address value nonce value' : ℕ) :
    RevertibleNote.privateHashes.siloNoteHash address value ≠
      RevertibleNote.privateHashes.computeUniqueSiloedNoteHash nonce value' := by
  change 2 * (address + value) + 1 ≠ 2 * Nat.pair nonce value' + 2
  omega

end OneNote

open NoteDiscovery OneNote in
theorem returnsSurviving_iff_one : ∃ (out : KernelPublicInputs)
    (outputNotes : List (OutputNoteData Unit)),
    prove RevertibleNote.privateHashes PrivateKernel.OneNested.txRequest
      (fun _ => RevertibleNote.hints) (fun _ => [()]) note = .ok (out, outputNotes) ∧
    (Exact RevertibleNote.privateHashes (fun _ => [()]) note outputNotes ↔
      ((allNotes RevertibleNote.privateHashes (fun _ => [()]) note).map
        OutputNoteData.commitment).Perm (squashedHashes RevertibleNote.privateHashes note)) := by
  obtain ⟨⟨out, outputNotes⟩, hprove⟩ := exists_prove
  exact ⟨out, outputNotes, hprove, returnsSurviving_iff RevertibleNote.ideal_privateHashes.noteHash_ne_zero
    separate hprove⟩

open NoteDiscovery OneNote in
/-- The note is not nullified, and it is not returned. -/
theorem not_returnsSurviving : ∃ (out : KernelPublicInputs)
    (outputNotes : List (OutputNoteData Unit)),
    prove RevertibleNote.privateHashes PrivateKernel.OneNested.txRequest
      (fun _ => RevertibleNote.hints) (fun _ => [()]) note = .ok (out, outputNotes) ∧
    ¬Exact RevertibleNote.privateHashes (fun _ => [()]) note outputNotes := by
  obtain ⟨⟨out, outputNotes⟩, hprove⟩ := exists_prove
  refine ⟨out, outputNotes, hprove, ?_⟩
  rintro ⟨squashed, hnotes, hsquashed⟩
  rw [outputNotes_eq_nil RevertibleNote.ideal_privateHashes.noteHash_ne_zero separate
    hprove, List.append_nil] at hnotes
  have hlength := (hnotes.map OutputNoteData.commitment).trans hsquashed |>.length_eq
  rw [allNotes, squashedHashes, note] at hlength
  simp only [RoseTree.collect_node, List.reverse_nil, List.flatMap_nil, id_eq] at hlength
  exact absurd hlength (by decide)

end OutputNotes
