/-
**How a client finds its notes.**

A client that has decrypted the payload of a note looks for its note hash among those of the
transaction: it computes the nonce of each place, makes the note hash unique with it, and takes the
first place where the array has the result.  The places it has taken are excluded for the other
notes of the transaction, since these may have equal payloads.
-/

import Aztec.NoteNonces

open Option

open List hiding Vector

namespace NoteDiscovery

open Noir Failing Kernel PrivateKernel NoteNonces

/-! ### The search -/

structure L1NotePayload where
  note : List Field
  contractAddress : Field
  storageSlot : Field
  noteTypeId : Field

structure NoteHashes where
  innerNoteHash : Field
  siloedNoteHash : Field
  uniqueSiloedNoteHash : Field
  innerNullifier : Field

/-- `computeNoteHashAndNullifier` of the simulator, which runs code of the contract: of the contract
address, the nonce, the storage slot, the note type and the note. -/
abbrev Simulator := Field → Field → Field → Field → List Field → Except String NoteHashes

/-- What `produceNoteDao` throws: what the simulator throws, or, with the siloed hash of the note
if it was computed, that no note hash matches. -/
inductive NoteError where
  | simulator (message : String)
  | noMatch (siloedNoteHash : Option Field)
  deriving DecidableEq, Repr

structure NoteDao where
  note : List Field
  contractAddress : Field
  storageSlot : Field
  noteTypeId : Field
  txHash : Field
  nonce : Field
  innerNoteHash : Field
  siloedNullifier : Field
  index : ℕ
  publicKey : Field × Field

section Client

variable (hashes : PrivateKernelHashes) (simulator : Simulator)

/-- The simulator, with its errors among those of the search. -/
def simulate (nonce : Field) (payload : L1NotePayload) : Except NoteError NoteHashes :=
  match simulator payload.contractAddress nonce payload.storageSlot payload.noteTypeId
      payload.note with
  | .ok noteHashes => .ok noteHashes
  | .error message => .error (.simulator message)

/-- The loop of `findNoteIndexAndNullifier`, over the commitments from an index on.  It keeps the
hashes of the last note it has tried. -/
def findCommitment (firstNullifier : Field) (payload : L1NotePayload) (excludedIndices : List ℕ) :
    ℕ → Option NoteHashes → List Field → Except NoteError (ℕ × Field × NoteHashes)
  | _, last, [] => .error (.noMatch (last.map NoteHashes.siloedNoteHash))
  | commitmentIndex, last, commitment :: commitments =>
    if commitmentIndex ∈ excludedIndices then
      findCommitment firstNullifier payload excludedIndices (commitmentIndex + 1) last commitments
    else if commitment = 0 then .error (.noMatch (last.map NoteHashes.siloedNoteHash))
    else do
      let expectedNonce := hashes.computeNoteHashNonce firstNullifier commitmentIndex
      let noteHashes ← simulate simulator expectedNonce payload
      if commitment = noteHashes.uniqueSiloedNoteHash then
        return (commitmentIndex, expectedNonce, noteHashes)
      else
        findCommitment firstNullifier payload excludedIndices (commitmentIndex + 1)
          (some noteHashes) commitments

/-- `produceNoteDao`, with the indexes that are excluded afterwards. -/
def produceNoteDao (publicKey : Field × Field) (payload : L1NotePayload) (txHash : Field)
    (newNoteHashes : List Field) (dataStartIndexForTx : ℕ) (excludedIndices : List ℕ) :
    Except NoteError (NoteDao × List ℕ) := do
  let (commitmentIndex, nonce, noteHashes) ←
    findCommitment hashes simulator txHash payload excludedIndices 0 none newNoteHashes
  return (
    { note := payload.note
      contractAddress := payload.contractAddress
      storageSlot := payload.storageSlot
      noteTypeId := payload.noteTypeId
      txHash := txHash
      nonce := nonce
      innerNoteHash := noteHashes.innerNoteHash
      siloedNullifier := hashes.siloNullifier payload.contractAddress noteHashes.innerNullifier
      index := dataStartIndexForTx + commitmentIndex
      publicKey := publicKey },
    excludedIndices ++ [commitmentIndex])

/-- The calls of `produceNoteDao` for the payloads of a transaction, with one set of excluded
indexes. -/
def produceNoteDaos (publicKey : Field × Field) (txHash : Field) (newNoteHashes : List Field)
    (dataStartIndexForTx : ℕ) (payloads : List L1NotePayload) :
    Except NoteError (List NoteDao × List ℕ) :=
  payloads.foldlM
    (fun (state : List NoteDao × List ℕ) payload => do
      let (noteDao, excludedIndices) ← produceNoteDao hashes simulator publicKey payload txHash
        newNoteHashes dataStartIndexForTx state.2
      return (state.1 ++ [noteDao], excludedIndices))
    ([], [])

end Client

/-! ### The leaves of a block -/

/-- The leaves of the note hash tree after a block, to which each transaction adds its array of note
hashes. -/
def noteHashTree (leaves : List Field) (txEffects : List (List Field)) : List Field :=
  leaves ++ txEffects.flatten

/-- `dataStartIndexForTx` of `NoteProcessor.process`. -/
def dataStartIndexForTx (dataEndIndexForBlock txs indexOfTxInABlock : ℕ) : ℕ :=
  dataEndIndexForBlock - (txs - indexOfTxInABlock) * 64

variable {txEffects : List (List Field)} {k j : ℕ} {noteHashes : List Field}

section

variable (hlength : ∀ noteHashes ∈ txEffects, noteHashes.length = 64)
include hlength

theorem getElem?_flatten (hget : txEffects[k]? = some noteHashes) (hj : j < noteHashes.length) :
    txEffects.flatten[k * 64 + j]? = noteHashes[j]? := by
  induction txEffects generalizing k with
  | nil => cases hget
  | cons first txEffects ih =>
    obtain ⟨hfirst, hlater⟩ := forall_mem_cons.1 hlength
    cases k with
    | zero =>
      rw [List.getElem?_cons_zero, some.injEq] at hget
      subst hget
      rw [flatten_cons, Nat.zero_mul, Nat.zero_add, List.getElem?_append_left hj]
    | succ k =>
      rw [List.getElem?_cons_succ] at hget
      rw [flatten_cons, List.getElem?_append_right (by rw [hfirst]; omega), hfirst]
      have hindex : (k + 1) * 64 + j - 64 = k * 64 + j := by omega
      rw [hindex]
      exact ih hlater hget

theorem length_flatten : txEffects.flatten.length = txEffects.length * 64 := by
  induction txEffects with
  | nil => rfl
  | cons first txEffects ih =>
    obtain ⟨hfirst, hlater⟩ := forall_mem_cons.1 hlength
    rw [flatten_cons, length_append, ih hlater, hfirst, length_cons]
    omega

theorem getElem?_noteHashTree {leaves : List Field} (hget : txEffects[k]? = some noteHashes)
    (hj : j < noteHashes.length) :
    (noteHashTree leaves txEffects)[dataStartIndexForTx (noteHashTree leaves txEffects).length
      txEffects.length k + j]? = noteHashes[j]? := by
  have hk : k < txEffects.length := (List.getElem?_eq_some_iff.1 hget).1
  have hstart : dataStartIndexForTx (noteHashTree leaves txEffects).length txEffects.length k =
      leaves.length + k * 64 := by
    rw [dataStartIndexForTx, noteHashTree, length_append, length_flatten hlength]
    omega
  rw [hstart, noteHashTree, Nat.add_assoc, List.getElem?_append_right (Nat.le_add_right _ _),
    Nat.add_sub_cancel_left]
  exact getElem?_flatten hlength hget hj

end

/-! ### What the search finds -/

def Computes (hashes : PrivateKernelHashes) (simulator : Simulator) (payload : L1NotePayload)
    (innerNoteHash : Field) : Prop :=
  ∀ nonce, ∃ innerNullifier,
    simulator payload.contractAddress nonce payload.storageSlot payload.noteTypeId payload.note =
      .ok { innerNoteHash := innerNoteHash
            siloedNoteHash := hashes.siloNoteHash payload.contractAddress innerNoteHash
            uniqueSiloedNoteHash := hashes.computeUniqueSiloedNoteHash nonce
              (hashes.siloNoteHash payload.contractAddress innerNoteHash)
            innerNullifier := innerNullifier }

section Search

variable {hashes : PrivateKernelHashes} {simulator : Simulator} {firstNullifier : Field}
  {values : List Field}

/-- The commitments from an index on begin with the values from that index on, unique at their
places. -/
def Unique (hashes : PrivateKernelHashes) (firstNullifier : Field) (values : List Field) (k : ℕ)
    (commitments : List Field) : Prop :=
  ∀ i value, k ≤ i → values[i]? = some value → commitments[i - k]? =
    some (hashes.computeUniqueSiloedNoteHash (hashes.computeNoteHashNonce firstNullifier i) value)

theorem Unique.tail {k : ℕ} {commitment : Field} {commitments : List Field}
    (h : Unique hashes firstNullifier values k (commitment :: commitments)) :
    Unique hashes firstNullifier values (k + 1) commitments := by
  intro i value hki hvalue
  have hget := h i value (by omega) hvalue
  have hindex : i - k = i - (k + 1) + 1 := by omega
  rwa [hindex, List.getElem?_cons_succ] at hget

variable {excludedIndices : List ℕ}

theorem findCommitment_spec (hideal : NoteHashesIdeal hashes) {payload : L1NotePayload}
    {innerNoteHash : Field} (hcomputes : Computes hashes simulator payload innerNoteHash) (commitments : List Field) :
    ∀ (k : ℕ) (last : Option NoteHashes), Unique hashes firstNullifier values k commitments →
      (∃ i, k ≤ i ∧ i ∉ excludedIndices ∧
        values[i]? = some (hashes.siloNoteHash payload.contractAddress innerNoteHash)) →
      ∃ j noteHashes, findCommitment hashes simulator firstNullifier payload excludedIndices k last
          commitments = .ok (j, hashes.computeNoteHashNonce firstNullifier j, noteHashes) ∧
        j ∉ excludedIndices ∧
        values[j]? = some (hashes.siloNoteHash payload.contractAddress innerNoteHash) := by
  induction commitments with
  | nil =>
    rintro k last hunique ⟨i, hki, -, hvalue⟩
    have hget := hunique i _ hki hvalue
    rw [List.getElem?_nil] at hget
    cases hget
  | cons commitment commitments ih =>
    rintro k last hunique ⟨i, hki, hfree, hvalue⟩
    have hlater : i ≠ k → ∃ i, k + 1 ≤ i ∧ i ∉ excludedIndices ∧
        values[i]? = some (hashes.siloNoteHash payload.contractAddress innerNoteHash) :=
      fun hne => ⟨i, by omega, hfree, hvalue⟩
    rw [findCommitment]
    by_cases hexcluded : k ∈ excludedIndices
    · rw [if_pos hexcluded]
      exact ih (k + 1) last hunique.tail (hlater fun he => hfree (he ▸ hexcluded))
    · -- the array has a unique note hash at this place, since one comes here or later
      obtain ⟨value, hk⟩ : ∃ value, values[k]? = some value :=
        ⟨_, List.getElem?_eq_getElem (hki.trans_lt (List.getElem?_eq_some_iff.1 hvalue).1)⟩
      have hcommitment := hunique k value le_rfl hk
      rw [Nat.sub_self, List.getElem?_cons_zero, some.injEq] at hcommitment
      have hzero : commitment ≠ 0 := hcommitment ▸ hideal.unique_ne_zero _ _
      obtain ⟨innerNullifier, hsimulator⟩ :=
        hcomputes (hashes.computeNoteHashNonce firstNullifier k)
      rw [if_neg hexcluded, if_neg hzero]
      simp only [simulate, hsimulator, bind, Except.bind]
      split
      · next hmatch =>
        rw [hcommitment] at hmatch
        have hsame := (hideal.unique_injective _ _ _ _ hmatch).2
        exact ⟨k, _, rfl, hexcluded, hsame ▸ hk⟩
      · next hdiffer =>
        refine ih (k + 1) _ hunique.tail (hlater ?_)
        rintro rfl
        rw [hk, some.injEq] at hvalue
        exact hdiffer (hvalue ▸ hcommitment)

theorem findCommitment_sound {payload : L1NotePayload} {innerNoteHash : Field}
    (hcomputes : Computes hashes simulator payload innerNoteHash) {found : ℕ × Field × NoteHashes} (commitments : List Field) :
    ∀ (k : ℕ) (last : Option NoteHashes),
      findCommitment hashes simulator firstNullifier payload excludedIndices k last commitments =
        .ok found → k ≤ found.1 ∧ found.1 ∉ excludedIndices ∧ ∃ value, commitments[found.1 - k]? =
        some (hashes.computeUniqueSiloedNoteHash
          (hashes.computeNoteHashNonce firstNullifier found.1) value) := by
  induction commitments with
  | nil => exact fun k last h => by cases h
  | cons commitment commitments ih =>
    intro k last h
    have hlater : k + 1 ≤ found.1 ∧ found.1 ∉ excludedIndices ∧
        (∃ value, commitments[found.1 - (k + 1)]? = some (hashes.computeUniqueSiloedNoteHash
          (hashes.computeNoteHashNonce firstNullifier found.1) value)) →
        k ≤ found.1 ∧ found.1 ∉ excludedIndices ∧
          ∃ value, (commitment :: commitments)[found.1 - k]? =
            some (hashes.computeUniqueSiloedNoteHash
              (hashes.computeNoteHashNonce firstNullifier found.1) value) := by
      rintro ⟨hle, hfree, value, hget⟩
      have hindex : found.1 - k = found.1 - (k + 1) + 1 := by omega
      exact ⟨by omega, hfree, value, by rw [hindex, List.getElem?_cons_succ, hget]⟩
    rw [findCommitment] at h
    split at h
    · exact hlater (ih (k + 1) last h)
    · next hfree =>
      split at h
      · cases h
      · obtain ⟨innerNullifier, hsimulator⟩ :=
          hcomputes (hashes.computeNoteHashNonce firstNullifier k)
        simp only [simulate, hsimulator, bind, Except.bind] at h
        split at h
        · next hmatch =>
          simp only [pure_eq_ok] at h
          subst h
          exact ⟨le_rfl, hfree, _, by rw [Nat.sub_self, List.getElem?_cons_zero, hmatch]⟩
        · exact hlater (ih (k + 1) _ h)

variable {innerNoteHash : L1NotePayload → Field} {payloads : List L1NotePayload}

variable {newNoteHashes : List Field}

theorem produceNoteDaos_sound {publicKey : Field × Field} {start : ℕ} (hcomputes : ∀ payload, Computes hashes simulator payload (innerNoteHash payload))
    {noteDaos : List NoteDao} (h : produceNoteDaos hashes simulator publicKey firstNullifier newNoteHashes start payloads =
      .ok (noteDaos, excludedIndices)) :
    excludedIndices.Nodup ∧ excludedIndices.length = payloads.length ∧
      ∀ place ∈ excludedIndices, ∃ value, newNoteHashes[place]? =
        some (hashes.computeUniqueSiloedNoteHash
          (hashes.computeNoteHashNonce firstNullifier place) value) := by
  refine foldlM_invariant (fun (before : List L1NotePayload) (state : List NoteDao × List ℕ) =>
      state.2.Nodup ∧ state.2.length = before.length ∧ ∀ place ∈ state.2, ∃ value,
        newNoteHashes[place]? = some (hashes.computeUniqueSiloedNoteHash
          (hashes.computeNoteHashNonce firstNullifier place) value))
    ?_ ⟨nodup_nil, rfl, fun _ hmem => absurd hmem not_mem_nil⟩ h
  rintro before payload ⟨noteDaos, used⟩ state' ⟨hnodup, hlength, hplaces⟩ hturn
  simp only [produceNoteDao, bind_eq_ok, pure_eq_ok] at hturn
  obtain ⟨_, ⟨⟨place, nonce, noteHashes⟩, hfind, rfl⟩, rfl⟩ := hturn
  obtain ⟨-, hfree, hstands⟩ := findCommitment_sound (hcomputes payload) newNoteHashes 0 none hfind
  rw [Nat.sub_zero] at hstands
  refine ⟨nodup_append.2 ⟨hnodup, nodup_singleton _, fun a ha b hb he =>
    hfree (mem_singleton.1 hb ▸ he ▸ ha)⟩, ?_, fun place' hmem => ?_⟩
  · simpa using hlength
  · rcases mem_append.1 hmem with hmem | hmem
    · exact hplaces place' hmem
    · rw [mem_singleton.1 hmem]
      exact hstands

/-- What is known after the first payloads: the notes have places of their own, at which the array
has their note hashes. -/
structure Decoded (hashes : PrivateKernelHashes) (firstNullifier : Field) (values : List Field)
    (start : ℕ) (siloed : L1NotePayload → Field) (payloads : List L1NotePayload)
    (state : List NoteDao × List ℕ) : Prop where
  nodup : state.2.Nodup
  index_eq : state.1.map NoteDao.index = state.2.map fun place => start + place
  values_eq : state.2.map (fun place => values[place]?) = (payloads.map siloed).map some
  found : List.Forall₂ (fun payload (noteDao : NoteDao) => ∃ place,
    noteDao.index = start + place ∧ values[place]? = some (siloed payload) ∧
      noteDao.nonce = hashes.computeNoteHashNonce firstNullifier place) payloads state.1

theorem exists_place {used : List ℕ} {before after : List Field} {value : Field}
    (hused : used.map (fun place => values[place]?) = before.map some)
    (hperm : (before ++ value :: after).Perm values) :
    ∃ place, place ∉ used ∧ values[place]? = some value := by
  have hcount : used.countP (fun place => (values[place]?).any fun v => v = value) <
      values.countP fun v => v = value := by
    have hlooked : used.countP (fun place => (values[place]?).any fun v => v = value) =
        before.countP fun v => v = value := by
      have h := congrArg (List.countP fun v : Option Field => v.any fun v => v = value) hused
      rw [countP_map, countP_map] at h
      exact h
    rw [hlooked, ← hperm.countP_eq, countP_append, countP_cons_of_pos (by simp)]
    omega
  obtain ⟨place, hplace, hvalue, hfree⟩ :=
    ProverHints.exists_free (fun _ hproperty => hproperty) hcount
  exact ⟨place, hfree, by rw [List.getElem?_eq_getElem hplace, of_decide_eq_true hvalue]⟩

theorem produceNoteDaos_spec (hideal : NoteHashesIdeal hashes) (publicKey : Field × Field)
    (start : ℕ) (hcomputes : ∀ payload ∈ payloads, Computes hashes simulator payload (innerNoteHash payload))
    (hperm : (payloads.map fun payload =>
      hashes.siloNoteHash payload.contractAddress (innerNoteHash payload)).Perm values)
    (hunique : Unique hashes firstNullifier values 0 newNoteHashes) :
    ∃ state, produceNoteDaos hashes simulator publicKey firstNullifier newNoteHashes start
        payloads = .ok state ∧ Decoded hashes firstNullifier values start (fun payload =>
        hashes.siloNoteHash payload.contractAddress (innerNoteHash payload)) payloads state := by
  refine foldlM_total (Decoded hashes firstNullifier values start fun payload =>
    hashes.siloNoteHash payload.contractAddress (innerNoteHash payload))
    ⟨nodup_nil, rfl, rfl, .nil⟩ ?_
  rintro before payload after ⟨noteDaos, used⟩ hsplit ⟨hnodup, hindex, hvalues, hfound⟩
  rw [hsplit, map_append, map_cons] at hperm
  obtain ⟨place, hfree, hvalue⟩ := exists_place hvalues hperm
  obtain ⟨j, noteHashes, hfind, hj, hjvalue⟩ := findCommitment_spec hideal
    (hcomputes payload (by rw [hsplit]; simp)) newNoteHashes 0 none hunique
    ⟨place, Nat.zero_le _, hfree, hvalue⟩
  refine ⟨_, bind_eq_ok.2 ⟨_, bind_eq_ok.2 ⟨_, hfind, rfl⟩, rfl⟩, ?_, ?_, ?_, ?_⟩
  · exact nodup_append.2 ⟨hnodup, nodup_singleton _, fun a ha b hb he =>
      hj (mem_singleton.1 hb ▸ he ▸ ha)⟩
  · rw [map_append, map_append, hindex]
    rfl
  · rw [map_append, map_append, map_append, hvalues, map_singleton, hjvalue]
    rfl
  · exact rel_append hfound (.cons ⟨j, rfl, hjvalue, rfl⟩ .nil)

end Search

/-! ### Discoverable notes -/

/-- The recombined array has the note hash, unique with the nonce of a place, at that place. -/
def StandsAt (hashes : PrivateKernelHashes) (combined : Kernel.CombinedData) (value : Field)
    (place : ℕ) : Prop :=
  (combined.newNoteHashes.toList.map SideEffect.value)[place]? =
    some (hashes.computeUniqueSiloedNoteHash
      (hashes.computeNoteHashNonce combined.newNullifiers[0].value place) value)

/-- The client finds all notes: for the payloads of the note hashes, in any order, no call of
`produceNoteDao` throws, the indexes are pairwise different, and each is that of the leaf of the
note. -/
def Finds (hashes : PrivateKernelHashes) (combined : Kernel.CombinedData)
    (noteHashes : List SideEffect) : Prop :=
  ∀ (simulator : Simulator) (innerNoteHash : L1NotePayload → Field) (publicKey : Field × Field)
    (payloads : List L1NotePayload) (leaves : List Field) (txEffects : List (List Field))
    (indexOfTxInABlock : ℕ),
    (∀ payload ∈ payloads, Computes hashes simulator payload (innerNoteHash payload)) →
    (payloads.map fun payload => hashes.siloNoteHash payload.contractAddress
      (innerNoteHash payload)).Perm (noteHashes.map SideEffect.value) →
    (∀ newNoteHashes ∈ txEffects, newNoteHashes.length = 64) →
    txEffects[indexOfTxInABlock]? =
      some (combined.newNoteHashes.toList.map SideEffect.value) →
    ∃ noteDaos excludedIndices,
      produceNoteDaos hashes simulator publicKey combined.newNullifiers[0].value
        (combined.newNoteHashes.toList.map SideEffect.value)
        (dataStartIndexForTx (noteHashTree leaves txEffects).length txEffects.length
          indexOfTxInABlock) payloads = .ok (noteDaos, excludedIndices) ∧
      (noteDaos.map NoteDao.index).Nodup ∧
      List.Forall₂ (fun payload noteDao => (noteHashTree leaves txEffects)[noteDao.index]? =
        some (hashes.computeUniqueSiloedNoteHash noteDao.nonce
          (hashes.siloNoteHash payload.contractAddress (innerNoteHash payload))))
        payloads noteDaos

/-- **The notes of the private calls are discoverable**: whichever of equal note hashes are taken to
be squashed, each surviving one stands at a place, and the client finds them all. -/
def Discoverable (hashes : PrivateKernelHashes) (calls : List PrivateCallData)
    (combined : Kernel.CombinedData) : Prop :=
  let noteHashes := calls.flatMap (createdNoteHashes hashes)
  let values := nullified (calls.flatMap (createdNullifiers hashes))
  (∃ surviving, Survive noteHashes values surviving) ∧
    ∀ surviving, Survive noteHashes values surviving →
      (∀ noteHash ∈ surviving, ∃ place, StandsAt hashes combined noteHash.value place) ∧
        Finds hashes combined surviving

section Discoverable

variable {hashes : PrivateKernelHashes} {combined : Kernel.CombinedData}
  {surviving others : List SideEffect}

theorem unique_of_places (hplaces : combined.newNoteHashes.toList =
      makeUnique hashes combined.newNullifiers[0].value surviving ++ others) :
    Unique hashes combined.newNullifiers[0].value (surviving.map SideEffect.value) 0
      (combined.newNoteHashes.toList.map SideEffect.value) := by
  intro i value _ hvalue
  have hi : i < surviving.length := by
    simpa using (List.getElem?_eq_some_iff.1 hvalue).1
  rw [List.getElem?_map, List.getElem?_eq_getElem hi, map_some, some.injEq] at hvalue
  subst hvalue
  rw [Nat.sub_zero, hplaces, List.getElem?_map, List.getElem?_append_left (by simpa [makeUnique]),
    List.getElem?_eq_getElem (by simpa [makeUnique])]
  simp [makeUnique]

theorem finds_of_places (hideal : NoteHashesIdeal hashes) (hplaces : combined.newNoteHashes.toList =
      makeUnique hashes combined.newNullifiers[0].value surviving ++ others)
    {noteHashes : List SideEffect}
    (hperm : (noteHashes.map SideEffect.value).Perm (surviving.map SideEffect.value)) :
    Finds hashes combined noteHashes := by
  intro simulator innerNoteHash publicKey payloads leaves txEffects k hcomputes hpayloads hlength
    htx
  have hunique := unique_of_places hplaces
  obtain ⟨⟨noteDaos, excludedIndices⟩, hok, hdecoded⟩ :=
    produceNoteDaos_spec hideal publicKey
      (dataStartIndexForTx (noteHashTree leaves txEffects).length txEffects.length k) hcomputes
      (hpayloads.trans hperm) hunique
  obtain ⟨hnodup, hindex, -, hfound⟩ := hdecoded
  refine ⟨noteDaos, excludedIndices, hok, ?_, hfound.imp ?_⟩
  · rw [hindex]
    exact hnodup.map fun place place' he => Nat.add_left_cancel he
  · rintro payload noteDao ⟨place, hplace, hvalue, hnonce⟩
    have hstands := hunique place _ (Nat.zero_le _) hvalue
    rw [Nat.sub_zero] at hstands
    rw [hplace, hnonce, getElem?_noteHashTree hlength htx
      (List.getElem?_eq_some_iff.1 hstands).1, hstands]

end Discoverable

/-! ### When notes are lost -/

def Separate (privateHashes : PrivateKernelHashes) (hashes : KernelHashes) : Prop :=
  ∀ address value nonce value', hashes.siloNoteHash address value ≠
    privateHashes.computeUniqueSiloedNoteHash nonce value'

section Lost

variable {hashes : PrivateKernelHashes} {publicHashes : KernelHashes} {firstNullifier : Field}
  {surviving low high x y : List SideEffect}

theorem value_of_makeUnique {i : ℕ} {noteHash : SideEffect}
    (h : (makeUnique hashes firstNullifier surviving)[i]? = some noteHash) :
    ∃ value, noteHash.value = hashes.computeUniqueSiloedNoteHash
      (hashes.computeNoteHashNonce firstNullifier i) value := by
  rw [makeUnique, List.getElem?_mapIdx] at h
  obtain ⟨item, -, rfl⟩ := map_eq_some_iff.1 h
  exact ⟨_, rfl⟩

theorem lt_of_unique (hideal : NoteHashesIdeal hashes) (hseparate : Separate hashes publicHashes)
    {noteHashes : Vector SideEffect 64}
    (hunique : low ++ high = makeUnique hashes firstNullifier surviving)
    (hholds : Holds noteHashes ((low ++ x) ++ (high ++ y)))
    (hsiloed : ∀ noteHash ∈ x ++ y, Siloed publicHashes noteHash) (hx : x ≠ []) {place : ℕ}
    {value : Field} (hstands : (noteHashes.toList.map SideEffect.value)[place]? =
      some (hashes.computeUniqueSiloedNoteHash
        (hashes.computeNoteHashNonce firstNullifier place) value)) : place < low.length := by
  by_contra hge
  have hpos : 0 < x.length := length_pos_iff.2 hx
  have hnot : ∀ noteHash ∈ x ++ y, noteHash.value ≠ hashes.computeUniqueSiloedNoteHash
      (hashes.computeNoteHashNonce firstNullifier place) value := by
    intro noteHash hmem he
    obtain ⟨address, inner, hsilo⟩ := hsiloed noteHash hmem
    exact hseparate _ _ _ _ (hsilo.symm.trans he)
  rw [List.getElem?_map] at hstands
  obtain ⟨noteHash, hget, hvalue⟩ := map_eq_some_iff.1 hstands
  rw [Holds] at hholds
  rw [hholds] at hget
  simp only [append_assoc] at hget
  rw [List.getElem?_append_right (not_lt.1 hge)] at hget
  rcases Nat.lt_or_ge (place - low.length) x.length with hlt | hge'
  · rw [List.getElem?_append_left hlt] at hget
    exact hnot noteHash (mem_append_left _ (mem_of_getElem? hget)) hvalue
  · rw [List.getElem?_append_right hge'] at hget
    rcases Nat.lt_or_ge (place - low.length - x.length) high.length with hlt | hge''
    · -- a revertible note hash was made unique with the nonce of an earlier place
      rw [List.getElem?_append_left hlt] at hget
      have hplace : (low ++ high)[place - x.length]? = some noteHash := by
        rw [List.getElem?_append_right (by omega), Nat.sub_right_comm, hget]
      rw [hunique] at hplace
      obtain ⟨value', hvalue'⟩ := value_of_makeUnique hplace
      have hnonce := (hideal.unique_injective _ _ _ _ (hvalue'.symm.trans hvalue)).1
      have hsame : (place - x.length : ℕ) = place := hideal.nonce_injective _ _ _ hnonce
      omega
    · rw [List.getElem?_append_right hge''] at hget
      rcases mem_append.1 (mem_of_getElem? hget) with hmem | hmem
      · exact hnot noteHash (mem_append_right _ hmem) hvalue
      · rw [eq_of_mem_replicate hmem] at hvalue
        exact hideal.unique_ne_zero _ _ hvalue.symm

theorem exists_payloads {noteHashes : List SideEffect} (h : ∀ noteHash ∈ noteHashes,
      ∃ address value, noteHash.value = hashes.siloNoteHash address value) :
    ∃ payloads : List L1NotePayload, (payloads.map fun payload =>
      hashes.siloNoteHash payload.contractAddress payload.noteTypeId) =
        noteHashes.map SideEffect.value := by
  induction noteHashes with
  | nil => exact ⟨[], rfl⟩
  | cons noteHash noteHashes ih =>
    obtain ⟨⟨address, value, hvalue⟩, hlater⟩ := forall_mem_cons.1 h
    obtain ⟨payloads, hpayloads⟩ := ih hlater
    exact ⟨⟨[], address, 0, value⟩ :: payloads, by rw [map_cons, map_cons, hpayloads, hvalue]⟩

theorem parts_of_finds (hideal : NoteHashesIdeal hashes) (hseparate : Separate hashes publicHashes)
    {combined : Kernel.CombinedData}
    (hunique : low ++ high = makeUnique hashes combined.newNullifiers[0].value surviving)
    (hholds : Holds combined.newNoteHashes ((low ++ x) ++ (high ++ y)))
    (hsiloed : ∀ noteHash ∈ x ++ y, Siloed publicHashes noteHash)
    (hcreated : ∀ noteHash ∈ surviving, ∃ address value,
      noteHash.value = hashes.siloNoteHash address value)
    (hfinds : Finds hashes combined surviving) : x = [] ∨ high = [] := by
  by_contra hneither
  obtain ⟨hx, hhigh⟩ := not_or.1 hneither
  obtain ⟨payloads, hpayloads⟩ := exists_payloads hcreated
  -- a contract whose note types are the inner note hashes
  let simulator : Simulator := fun address nonce _ noteTypeId _ =>
    .ok { innerNoteHash := noteTypeId
          siloedNoteHash := hashes.siloNoteHash address noteTypeId
          uniqueSiloedNoteHash := hashes.computeUniqueSiloedNoteHash nonce
            (hashes.siloNoteHash address noteTypeId)
          innerNullifier := 0 }
  have hcomputes : ∀ payload, Computes hashes simulator payload payload.noteTypeId :=
    fun payload nonce => ⟨0, rfl⟩
  obtain ⟨noteDaos, excludedIndices, hok, -⟩ := hfinds simulator L1NotePayload.noteTypeId (0, 0)
    payloads [] [combined.newNoteHashes.toList.map SideEffect.value] 0
    (fun payload _ => hcomputes payload) (.of_eq hpayloads)
    (fun newNoteHashes hmem => by simp [mem_singleton.1 hmem]) rfl
  obtain ⟨hnodup, hlength, hplaces⟩ := produceNoteDaos_sound hcomputes hok
  have hsubset : excludedIndices ⊆ List.range low.length := by
    intro place hmem
    obtain ⟨value, hstands⟩ := hplaces place hmem
    exact mem_range.2 (lt_of_unique hideal hseparate hunique hholds hsiloed hx hstands)
  have hle := (hnodup.subperm hsubset).length_le
  have htotal := congrArg List.length hunique
  have hmany := congrArg List.length hpayloads
  have hpos : 0 < high.length := length_pos_iff.2 hhigh
  simp only [makeUnique, length_append, length_mapIdx] at htotal
  simp only [length_map] at hmany
  rw [length_range] at hle
  omega

end Lost

/-- **The notes of a transaction are discoverable exactly when** no call of setup or teardown emits
a note hash while private note hashes are revertible, provided the tail is given reorderings of its
arrays. -/
theorem notes_discoverable_iff (privateHashes : PrivateKernelHashes) (hashes : KernelHashes)
    (txRequest : TxRequest) (first : PrivateCallData) (later : List PrivateCallData)
    (hints : TailHints) (p : InnerPublicInputs) (out : KernelPublicInputs)
    (steps : List (Phase × PublicCallData)) (q : KernelPublicInputs)
    (hideal : NoteHashesIdeal privateHashes) (hideal' : hashes.Ideal)
    (hseparate : Separate privateHashes hashes)
    (h : Accepted privateHashes hashes txRequest first later hints p out steps q)
    (hreorders : Reorders hints p) : ∃ combined, recombine q.endNonRevertible q.end = .ok combined ∧
      (Discoverable privateHashes (first :: later) combined ↔ ∀ step ∈ steps, StepOk out step) := by
  obtain ⟨surviving, low, high, x, y, combined, hsurvive, hcombined, hunique, hholds, hsiloed,
    hparts⟩ := recombine_parts hideal hideal' h hreorders
  refine ⟨combined, hcombined, ?_⟩
  rw [← hparts]
  constructor
  · rintro ⟨-, hall⟩
    obtain ⟨squashed, hperm, -⟩ := id hsurvive
    refine parts_of_finds hideal hseparate hunique hholds hsiloed (fun noteHash hmem => ?_)
      (hall surviving hsurvive).2
    obtain ⟨c, -, hcreated⟩ :=
      mem_flatMap.1 (hperm.symm.subset (mem_append_right squashed hmem))
    obtain ⟨item, -, rfl⟩ := mem_map.1 hcreated
    exact ⟨_, _, rfl⟩
  · intro hsplit
    obtain ⟨others, hplaces⟩ := toList_of_parts hunique hholds hsplit
    refine ⟨⟨surviving, hsurvive⟩, fun surviving' hsurvive' => ?_⟩
    have hperm := hsurvive'.perm hsurvive
    refine ⟨fun noteHash hmem => ?_, finds_of_places hideal hplaces hperm⟩
    obtain ⟨i, hi, hget⟩ := getElem_of_mem
      (hperm.mem_iff.1 (mem_map_of_mem (f := SideEffect.value) hmem))
    have hstands := unique_of_places hplaces i noteHash.value (Nat.zero_le _)
      (by rw [List.getElem?_eq_getElem hi, hget])
    exact ⟨i, by rwa [Nat.sub_zero] at hstands⟩

/-! ### A revertible note and a teardown call -/

namespace RevertibleNote

open OneNested

/-- Hashes that add, and pair what the nonces are for.  Siloed note hashes are odd and unique ones
even. -/
def privateHashes : PrivateKernelHashes :=
  { OneNested.hashes with
    siloNoteHash := fun address value => 2 * (address + value) + 1
    siloNullifier := fun address value => address + value + 1
    computeL2ToL1Hash := fun address _ _ message => address + message.content + 1
    computeNoteHashNonce := Nat.pair
    computeUniqueSiloedNoteHash := fun nonce value => 2 * Nat.pair nonce value + 2 }

def publicHashes : KernelHashes :=
  { DelegateInSetup.hashes with
    siloNoteHash := fun address value => 2 * (address + value) + 1 }

theorem ideal_privateHashes : NoteHashesIdeal privateHashes where
  noteHash_ne_zero _ _ := Nat.succ_ne_zero _
  nullifier_ne_zero _ _ := Nat.succ_ne_zero _
  message_ne_zero _ _ _ _ := Nat.succ_ne_zero _
  unique_ne_zero _ _ := Nat.succ_ne_zero _
  unique_injective nonce value nonce' value' h := by
    have h : 2 * Nat.pair nonce value + 2 = 2 * Nat.pair nonce' value' + 2 := h
    exact Nat.pair_eq_pair.1 (by omega)
  nonce_injective _ _ _ h := (Nat.pair_eq_pair.1 h).2

theorem ideal_publicHashes : publicHashes.Ideal where
  index_injective := DelegateInSetup.ideal_hashes.index_injective
  index_ne_zero := DelegateInSetup.ideal_hashes.index_ne_zero
  nullifier_ne_zero := DelegateInSetup.ideal_hashes.nullifier_ne_zero
  noteHash_ne_zero _ _ := Nat.succ_ne_zero _
  message_ne_zero := DelegateInSetup.ideal_hashes.message_ne_zero

theorem separate_hashes : Separate privateHashes publicHashes := by
  intro address value nonce value' h
  have hodd : ∀ a b : ℕ, 2 * a + 1 ≠ 2 * b + 2 := by omega
  exact hodd _ _ h

/-- The entry point, contract 7, creates a note hash after the first revertible counter, and
enqueues a call of contract 9 before it. -/
def first : PrivateCallData :=
  let c := OneNested.call 7 0 false (noNoteHashes.set 0 ⟨5, 20⟩) noRequests
    (noRequests.set 0 (request 9 7))
  { c with
    callStackItem :=
      { c.callStackItem with
        publicInputs :=
          { c.callStackItem.publicInputs with minRevertibleSideEffectCounter := 10 } } }

def hints : TailHints :=
  { OneNested.hints with
    sortedNewNoteHashes := (Vector.replicate 64 ⟨0, 0⟩).set 0 ⟨25, 20⟩
    sortedNewNoteHashesIndexes := Vector.ofFn fun i => i.val }

def publicCall (noteHashes : Vector SideEffect 16) : PublicCallData :=
  let c := BackToSetup.call 9 7 (Vector.replicate 4 Empty.empty)
  { c with
    callStackItem :=
      { c.callStackItem with
        publicInputs := { c.callStackItem.publicInputs with newNoteHashes := noteHashes } } }

def steps (noteHashes : Vector SideEffect 16) : List (Phase × PublicCallData) :=
  [(.teardown, publicCall noteHashes)]

def transaction (noteHashes : Vector SideEffect 16) :
    Circuit (InnerPublicInputs × KernelPublicInputs × KernelPublicInputs) := do
  let p ← init privateHashes OneNested.txRequest first
  let out ← PrivateKernel.tail privateHashes hints p
  let q ← runChain publicHashes out (steps noteHashes)
  return (p, out, q)

variable {noteHashes : Vector SideEffect 16} {p : InnerPublicInputs}

theorem accepted_of_transaction {out q : KernelPublicInputs}
    (h : transaction noteHashes = .ok (p, out, q)) :
    Accepted privateHashes publicHashes OneNested.txRequest first [] hints p out
      (steps noteHashes) q := by
  simp only [transaction, bind_eq_ok, pure_eq_ok, Prod.mk.injEq] at h
  obtain ⟨p', hp, out', hout, q', hq, rfl, rfl, rfl⟩ := h
  exact ⟨bind_eq_ok.2 ⟨p', hp, rfl⟩, hout, hq⟩

theorem reordered_self {T : Type} [DecidableEq T] [Empty T] [Ordered T] {array : Vector T 64}
    {item : T} (h : array = (Vector.replicate 64 Empty.empty).set 0 item)
    (hne : item ≠ Empty.empty) : Reordered array array := by
  subst h
  refine ⟨.refl _, 1, by decide, fun i hi hone => ?_, fun i hi hone => ?_,
    fun i j hij hj hone => ?_⟩
  · obtain rfl : i = 0 := by omega
    simpa using hne
  · rw [Vector.getElem_set_ne _ _ (by omega), Vector.getElem_replicate]
  · omega

theorem reorders_of_arrays (hnoteHashes : p.end.newNoteHashes = hints.sortedNewNoteHashes)
    (hnullifiers : p.end.newNullifiers = hints.sortedNewNullifiers) : Reorders hints p := by
  refine ⟨?_, ?_⟩
  · rw [hnoteHashes]
    exact reordered_self rfl (by decide)
  · rw [hnullifiers]
    exact reordered_self rfl (by decide)

/-- What the accepted transaction has in the arrays, and what is recombined. -/
def observed (result : InnerPublicInputs × KernelPublicInputs × KernelPublicInputs) :
    Bool × Option (List Field × Field) :=
  (decide (result.1.end.newNoteHashes = hints.sortedNewNoteHashes ∧
      result.1.end.newNullifiers = hints.sortedNewNullifiers),
    (recombine result.2.2.endNonRevertible result.2.2.end).toOption.map fun combined =>
      (combined.newNoteHashes.toList.map SideEffect.value, combined.newNullifiers[0].value))

theorem accepted_of_observed {values : List Field × Field}
    (h : (transaction noteHashes).toOption.map observed = some (true, some values)) :
    ∃ p out q, Accepted privateHashes publicHashes OneNested.txRequest first [] hints p
        out (steps noteHashes) q ∧ Reorders hints p ∧
      ∀ combined, recombine q.endNonRevertible q.end = .ok combined →
        (combined.newNoteHashes.toList.map SideEffect.value, combined.newNullifiers[0].value) =
          values := by
  cases hrun : transaction noteHashes with
  | error msg => rw [hrun] at h; cases h
  | ok result =>
    obtain ⟨p, out, q⟩ := result
    rw [hrun] at h
    simp only [observed, Except.toOption, map_some, some.injEq, Prod.mk.injEq,
      decide_eq_true_eq] at h
    obtain ⟨⟨hnoteHashes, hnullifiers⟩, hvalues⟩ := h
    refine ⟨p, out, q, accepted_of_transaction hrun,
      reorders_of_arrays hnoteHashes hnullifiers, fun combined hcombined => ?_⟩
    rw [hcombined] at hvalues
    exact some.inj hvalues

theorem observed_quiet : (transaction noNoteHashes).toOption.map observed =
    some (true, some (132670701436 :: List.replicate 63 0, 507)) := by
  decide +kernel

theorem observed_emitting : (transaction (noNoteHashes.set 0 ⟨6, 30⟩)).toOption.map observed =
    some (true, some (31 :: 132670701436 :: List.replicate 62 0, 507)) := by
  decide +kernel

end RevertibleNote

open RevertibleNote in
/-- The note is discoverable when the teardown call emits no note hash. -/
theorem notes_discoverable_quiet : ∃ combined, Discoverable privateHashes [first] combined := by
  obtain ⟨p, out, q, haccepted, hreorders, -⟩ := accepted_of_observed observed_quiet
  have hquiet : EmitsNone (publicCall OneNested.noNoteHashes) := by
    unfold EmitsNone
    decide
  obtain ⟨combined, -, hiff⟩ := notes_discoverable_iff privateHashes publicHashes
    OneNested.txRequest first [] hints p out (steps OneNested.noNoteHashes) q ideal_privateHashes
    ideal_publicHashes separate_hashes haccepted hreorders
  exact ⟨combined, hiff.2 fun step hstep => .inr (.inl (mem_singleton.1 hstep ▸ hquiet))⟩

open RevertibleNote in
/-- **The note is lost when the teardown call emits a note hash**, which comes before it. -/
theorem not_discoverable : ¬ ∀ (privateHashes : PrivateKernelHashes) (hashes : KernelHashes)
    (txRequest : TxRequest) (first : PrivateCallData) (later : List PrivateCallData)
    (hints : TailHints) (p : InnerPublicInputs) (out : KernelPublicInputs)
    (steps : List (Phase × PublicCallData)) (q : KernelPublicInputs),
    NoteHashesIdeal privateHashes → hashes.Ideal → Separate privateHashes hashes →
    Accepted privateHashes hashes txRequest first later hints p out steps q →
    Reorders hints p → ∃ combined, recombine q.endNonRevertible q.end = .ok combined ∧
      Discoverable privateHashes (first :: later) combined := by
  intro hall
  obtain ⟨p, out, q, haccepted, hreorders, hvalues⟩ := accepted_of_observed observed_emitting
  obtain ⟨combined, hcombined, -, hdiscoverable⟩ := hall _ _ _ _ _ _ _ _ _ _ ideal_privateHashes
    ideal_publicHashes separate_hashes haccepted hreorders
  obtain ⟨hplaces, -⟩ := hdiscoverable [⟨25, 20⟩] ⟨[], .of_eq (by decide), .of_eq (by decide)⟩
  obtain ⟨place, hstands⟩ := hplaces ⟨25, 20⟩ mem_cons_self
  obtain ⟨hlist, hfirst⟩ := Prod.mk.inj (hvalues combined hcombined)
  rw [StandsAt, hlist, hfirst] at hstands
  have hlt : place < 64 := by
    simpa using (List.getElem?_eq_some_iff.1 hstands).1
  have hnone : ∀ place < 64, (31 :: 132670701436 :: List.replicate 62 0)[place]? ≠
      some (privateHashes.computeUniqueSiloedNoteHash
        (privateHashes.computeNoteHashNonce 507 place) 25) := by
    decide
  exact hnone place hlt hstands

end NoteDiscovery
