/-
**Deferred notes.**

A note whose contract the client does not know is kept back with what is needed to decode it, and is
decoded when the contract is added.  The notes that are found right away, in the blocks, share a set
of excluded places for each transaction; the deferred notes of a contract are each decoded with a
set of their own, since the map that is to group them by transaction is keyed by objects that the
database has just built.
-/

import Aztec.NoteDiscovery

open List

namespace DeferredNotes

open Noir Failing PrivateKernel NoteNonces NoteDiscovery

/-! ### The data -/

abbrev PublicKey := Field × Field

/-- What a contract computes for a note: its inner hash, and its nullifier under a nonce. -/
structure ContractNote where
  innerNoteHash : Field
  innerNullifier : Field → Field

/-- What is left of the outside: the hashes, and the functions `compute_note_hash_and_nullifier` of
all contracts, which may fail. -/
structure Outside where
  hashes : PrivateKernelHashes
  contract : L1NotePayload → Option ContractNote

/-- A transaction of a block, with the payloads of its logs that an account can decrypt. -/
structure TxEffect where
  txHash : Field
  newNoteHashes : List Field
  newNullifiers : List Field
  dataStartIndexForTx : ℕ
  payloads : PublicKey → List L1NotePayload

structure DeferredNote where
  publicKey : PublicKey
  payload : L1NotePayload
  txHash : Field
  newNoteHashes : List Field
  dataStartIndexForTx : ℕ

/-- The message of the error `ContractNotFoundError`. -/
def contractNotFound : String := "DB has no contract with this address"

variable (o : Outside)

def simulatorOf (known : List Field) : Simulator := fun address nonce storageSlot noteTypeId note =>
  if address ∈ known then
    match o.contract ⟨note, address, storageSlot, noteTypeId⟩ with
    | none => .error "Could not compute the note hash"
    | some c =>
      let siloedNoteHash := o.hashes.siloNoteHash address c.innerNoteHash
      .ok { innerNoteHash := c.innerNoteHash
            siloedNoteHash := siloedNoteHash
            uniqueSiloedNoteHash := o.hashes.computeUniqueSiloedNoteHash nonce siloedNoteHash
            innerNullifier := c.innerNullifier nonce }
  else .error contractNotFound

def siloedOf (payload : L1NotePayload) : Option Field :=
  (o.contract payload).map fun c =>
    o.hashes.siloNoteHash payload.contractAddress c.innerNoteHash

/-- The note hashes that the payloads of a transaction can have do not collide. -/
structure HashesOk (tx : TxEffect) (payloads : List L1NotePayload) : Prop where
  unique_ne_zero : ∀ payload ∈ payloads, ∀ value, siloedOf o payload = some value → ∀ j,
    o.hashes.computeUniqueSiloedNoteHash (o.hashes.computeNoteHashNonce tx.txHash j) value ≠ 0
  unique_injective : ∀ payload ∈ payloads, ∀ payload' ∈ payloads, ∀ value value',
    siloedOf o payload = some value → siloedOf o payload' = some value' → ∀ j,
    o.hashes.computeUniqueSiloedNoteHash (o.hashes.computeNoteHashNonce tx.txHash j) value =
      o.hashes.computeUniqueSiloedNoteHash (o.hashes.computeNoteHashNonce tx.txHash j) value' →
    value = value'
  contract : ∀ payload ∈ payloads, ∀ payload' ∈ payloads, ∀ value,
    siloedOf o payload = some value → siloedOf o payload' = some value →
    payload.contractAddress = payload'.contractAddress

/-! ### The notes of a transaction -/

/-- The state of the loop over the payloads of a transaction. -/
structure TxState where
  noteDaos : List NoteDao
  deferred : List DeferredNote
  excludedIndices : List ℕ

/-- The turn of the loop of `NoteProcessor.process` for a payload. -/
def decodePayload (known : List Field) (publicKey : PublicKey) (tx : TxEffect) (s : TxState)
    (payload : L1NotePayload) : TxState :=
  match produceNoteDao o.hashes (simulatorOf o known) publicKey payload tx.txHash tx.newNoteHashes
      tx.dataStartIndexForTx s.excludedIndices with
  | .ok (noteDao, excludedIndices) =>
    { s with noteDaos := s.noteDaos ++ [noteDao], excludedIndices := excludedIndices }
  | .error e =>
    if e = .simulator contractNotFound then
      { s with
        deferred := s.deferred ++
          [⟨publicKey, payload, tx.txHash, tx.newNoteHashes, tx.dataStartIndexForTx⟩] }
    else s

/-- The loop of `NoteProcessor.process` over the payloads of a transaction. -/
def decodePayloads (known : List Field) (publicKey : PublicKey) (tx : TxEffect)
    (payloads : List L1NotePayload) : TxState :=
  payloads.foldl (decodePayload o known publicKey tx) ⟨[], [], []⟩

def decodeTx (known : List Field) (publicKey : PublicKey) (tx : TxEffect) : TxState :=
  decodePayloads o known publicKey tx (tx.payloads publicKey)

/-- `decodeDeferredNotes`, of one note: its set of excluded indexes is empty. -/
def decodeDeferredNote (known : List Field) (note : DeferredNote) : Option NoteDao :=
  (produceNoteDao o.hashes (simulatorOf o known) note.publicKey note.payload note.txHash
    note.newNoteHashes note.dataStartIndexForTx []).toOption.map Prod.fst

section Search

variable {o} {known known' : List Field} {firstNullifier : Field} {payload : L1NotePayload}
  {excluded excluded' : List ℕ}

def Irrelevant (o : Outside) (firstNullifier : Field) (payload : L1NotePayload) (place : ℕ)
    (commitment : Field) : Prop :=
  commitment ≠ 0 ∧ ∀ value, siloedOf o payload = some value → commitment ≠
    o.hashes.computeUniqueSiloedNoteHash (o.hashes.computeNoteHashNonce firstNullifier place) value

theorem simulate_of_known (h : payload.contractAddress ∈ known) (nonce : Field) :
    simulate (simulatorOf o known) nonce payload =
      match o.contract payload with
      | none => .error (.simulator "Could not compute the note hash")
      | some c => .ok
          { innerNoteHash := c.innerNoteHash
            siloedNoteHash := o.hashes.siloNoteHash payload.contractAddress c.innerNoteHash
            uniqueSiloedNoteHash := o.hashes.computeUniqueSiloedNoteHash nonce
              (o.hashes.siloNoteHash payload.contractAddress c.innerNoteHash)
            innerNullifier := c.innerNullifier nonce } := by
  obtain ⟨note, address, storageSlot, noteTypeId⟩ := payload
  simp only [simulate, simulatorOf, if_pos h]
  cases o.contract ⟨note, address, storageSlot, noteTypeId⟩ <;> rfl

theorem simulate_of_unknown (h : payload.contractAddress ∉ known) (nonce : Field) :
    simulate (simulatorOf o known) nonce payload = .error (.simulator contractNotFound) := by
  simp only [simulate, simulatorOf, if_neg h]

/-- No commitment is found by a simulator that always fails. -/
theorem find_of_error {e : Field → NoteError}
    (h : ∀ nonce, simulate (simulatorOf o known) nonce payload = .error (e nonce))
    (commitments : List Field) : ∀ (k : ℕ) (last : Option NoteHashes),
      (findCommitment o.hashes (simulatorOf o known) firstNullifier payload excluded k last
        commitments).toOption = none := by
  induction commitments with
  | nil => exact fun k last => rfl
  | cons commitment commitments ih =>
    intro k last
    rw [findCommitment]
    split
    · exact ih (k + 1) last
    · split
      · rfl
      · simp [h, bind, Except.bind, Except.toOption]

theorem find_of_none (h : payload.contractAddress ∈ known) (hnone : o.contract payload = none)
    (commitments : List Field) (k : ℕ) (last : Option NoteHashes) :
    (findCommitment o.hashes (simulatorOf o known) firstNullifier payload excluded k last
      commitments).toOption = none :=
  find_of_error (fun nonce => by rw [simulate_of_known h, hnone]) commitments k last

/-- **Which places are excluded makes no difference** where the search would not stop, nor does it
matter which other contracts are known. -/
theorem find_congr (h : payload.contractAddress ∈ known) (h' : payload.contractAddress ∈ known')
    (commitments : List Field) : ∀ (k : ℕ) (last last' : Option NoteHashes),
      (∀ j commitment, k ≤ j → commitments[j - k]? = some commitment →
        (j ∈ excluded ↔ j ∈ excluded') ∨ Irrelevant o firstNullifier payload j commitment) →
      (findCommitment o.hashes (simulatorOf o known) firstNullifier payload excluded k last
          commitments).toOption =
        (findCommitment o.hashes (simulatorOf o known') firstNullifier payload excluded' k last'
          commitments).toOption := by
  cases hcontract : o.contract payload with
  | none =>
    intro k last last' _
    rw [find_of_none h hcontract, find_of_none h' hcontract]
  | some c =>
    induction commitments with
    | nil => exact fun k last last' _ => rfl
    | cons commitment commitments ih =>
      intro k last last' hplaces
      have hlater := fun last last' => ih (k + 1) last last' fun j commitment' hj hget =>
        hplaces j commitment' (by omega) (by
          have hindex : j - k = j - (k + 1) + 1 := by omega
          rw [hindex, getElem?_cons_succ, hget])
      have hhere := hplaces k commitment le_rfl (by simp)
      have hsiloed : siloedOf o payload =
          some (o.hashes.siloNoteHash payload.contractAddress c.innerNoteHash) := by
        rw [siloedOf, hcontract]
        rfl
      rw [findCommitment, findCommitment]
      simp only [simulate_of_known h, simulate_of_known h', hcontract, bind, Except.bind]
      rcases hhere with hsame | ⟨hzero, hdiffer⟩
      · by_cases hk : k ∈ excluded
        · rw [if_pos hk, if_pos (hsame.1 hk)]
          exact hlater last last'
        · rw [if_neg hk, if_neg fun hk' => hk (hsame.2 hk')]
          split
          · rfl
          · split
            · rfl
            · exact hlater _ _
      · have hne := hdiffer _ hsiloed
        simp only [if_neg hzero, if_neg hne]
        split
        · split
          · exact hlater _ _
          · exact hlater _ _
        · split
          · exact hlater _ _
          · exact hlater _ _

theorem find_of_unknown (h : payload.contractAddress ∉ known)
    (hsub : ∀ j ∈ excluded, j ∈ excluded') (commitments : List Field) :
    ∀ (k : ℕ) (last last' : Option NoteHashes) {found : ℕ × Field × NoteHashes},
      (∀ j commitment, k ≤ j → commitments[j - k]? = some commitment → j ∈ excluded' →
        commitment ≠ 0) →
      findCommitment o.hashes (simulatorOf o known') firstNullifier payload excluded' k last'
        commitments = .ok found →
      findCommitment o.hashes (simulatorOf o known) firstNullifier payload excluded k last
        commitments = .error (.simulator contractNotFound) := by
  induction commitments with
  | nil =>
    intro k last last' found _ hfound
    cases hfound
  | cons commitment commitments ih =>
    intro k last last' found hplaces hfound
    have hlater : ∀ j commitment', k + 1 ≤ j → commitments[j - (k + 1)]? = some commitment' →
        j ∈ excluded' → commitment' ≠ 0 := fun j commitment' hj hget =>
      hplaces j commitment' (by omega) (by
        have hindex : j - k = j - (k + 1) + 1 := by omega
        rw [hindex, getElem?_cons_succ, hget])
    rw [findCommitment] at hfound
    rw [findCommitment]
    by_cases hk : k ∈ excluded
    · rw [if_pos (hsub k hk)] at hfound
      rw [if_pos hk]
      exact ih (k + 1) last last' hlater hfound
    · have hzero : commitment ≠ 0 := by
        rintro rfl
        by_cases hk' : k ∈ excluded'
        · exact hplaces k 0 le_rfl (by simp) hk' rfl
        · rw [if_neg hk', if_pos rfl] at hfound
          cases hfound
      simp only [if_neg hk, if_neg hzero, simulate_of_unknown h, bind, Except.bind]

theorem find_sound (h : payload.contractAddress ∈ known) (commitments : List Field) :
    ∀ (k : ℕ) (last : Option NoteHashes) {found : ℕ × Field × NoteHashes},
      findCommitment o.hashes (simulatorOf o known) firstNullifier payload excluded k last
        commitments = .ok found →
      k ≤ found.1 ∧ ∃ value, siloedOf o payload = some value ∧ commitments[found.1 - k]? =
        some (o.hashes.computeUniqueSiloedNoteHash
          (o.hashes.computeNoteHashNonce firstNullifier found.1) value) := by
  induction commitments with
  | nil =>
    intro k last found hfound
    cases hfound
  | cons commitment commitments ih =>
    intro k last found hfound
    have hlater : (k + 1 ≤ found.1 ∧ ∃ value, siloedOf o payload = some value ∧
        commitments[found.1 - (k + 1)]? = some (o.hashes.computeUniqueSiloedNoteHash
          (o.hashes.computeNoteHashNonce firstNullifier found.1) value)) →
        k ≤ found.1 ∧ ∃ value, siloedOf o payload = some value ∧
          (commitment :: commitments)[found.1 - k]? =
            some (o.hashes.computeUniqueSiloedNoteHash
              (o.hashes.computeNoteHashNonce firstNullifier found.1) value) := by
      rintro ⟨hle, value, hvalue, hget⟩
      have hindex : found.1 - k = found.1 - (k + 1) + 1 := by omega
      exact ⟨by omega, value, hvalue, by rw [hindex, getElem?_cons_succ, hget]⟩
    rw [findCommitment] at hfound
    split at hfound
    · exact hlater (ih (k + 1) last hfound)
    · split at hfound
      · cases hfound
      · cases hcontract : o.contract payload with
        | none =>
          simp only [simulate_of_known h, hcontract, bind, Except.bind] at hfound
          cases hfound
        | some c =>
          simp only [simulate_of_known h, hcontract, bind, Except.bind] at hfound
          split at hfound
          · next hmatch =>
            simp only [pure_eq_ok] at hfound
            subst hfound
            refine ⟨le_rfl, _, by rw [siloedOf, hcontract]; rfl, ?_⟩
            rw [Nat.sub_self, getElem?_cons_zero, hmatch]
          · exact hlater (ih (k + 1) _ hfound)

theorem find_unknown (firstNullifier : Field) (excluded : List ℕ)
    (h : payload.contractAddress ∉ known) (commitments : List Field) (k : ℕ)
    (last : Option NoteHashes) :
    (findCommitment o.hashes (simulatorOf o known) firstNullifier payload excluded k last
      commitments).toOption = none :=
  find_of_error (simulate_of_unknown h) commitments k last

theorem find_ne_notFound (h : payload.contractAddress ∈ known) (commitments : List Field) :
    ∀ (k : ℕ) (last : Option NoteHashes),
      findCommitment o.hashes (simulatorOf o known) firstNullifier payload excluded k last
        commitments ≠ .error (.simulator contractNotFound) := by
  induction commitments with
  | nil => exact fun k last => by simp [findCommitment]
  | cons commitment commitments ih =>
    intro k last
    rw [findCommitment]
    split
    · exact ih (k + 1) last
    · split
      · simp
      · simp only [simulate_of_known h, bind, Except.bind]
        cases o.contract payload with
        | none => simp [contractNotFound]
        | some c =>
          simp only
          split
          · simp [pure, Except.pure]
          · exact ih (k + 1) _

end Search

section Lock

variable {o} {known : List Field} {publicKey : PublicKey} {tx : TxEffect} {payload : L1NotePayload}

def noteDaoOf (o : Outside) (publicKey : PublicKey) (tx : TxEffect) (payload : L1NotePayload)
    (found : ℕ × Field × NoteHashes) : NoteDao :=
  { note := payload.note
    contractAddress := payload.contractAddress
    storageSlot := payload.storageSlot
    noteTypeId := payload.noteTypeId
    txHash := tx.txHash
    nonce := found.2.1
    innerNoteHash := found.2.2.innerNoteHash
    siloedNullifier := o.hashes.siloNullifier payload.contractAddress found.2.2.innerNullifier
    index := tx.dataStartIndexForTx + found.1
    publicKey := publicKey }

def find (o : Outside) (known : List Field) (tx : TxEffect) (payload : L1NotePayload)
    (excluded : List ℕ) : Except NoteError (ℕ × Field × NoteHashes) :=
  findCommitment o.hashes (simulatorOf o known) tx.txHash payload excluded 0 none tx.newNoteHashes

def deferredOf (publicKey : PublicKey) (tx : TxEffect) (payload : L1NotePayload) : DeferredNote :=
  ⟨publicKey, payload, tx.txHash, tx.newNoteHashes, tx.dataStartIndexForTx⟩

theorem produceNoteDao_eq (excluded : List ℕ) :
    produceNoteDao o.hashes (simulatorOf o known) publicKey payload tx.txHash tx.newNoteHashes
        tx.dataStartIndexForTx excluded = (find o known tx payload excluded).map fun found =>
        (noteDaoOf o publicKey tx payload found, excluded ++ [found.1]) := by
  rw [produceNoteDao, find]
  cases findCommitment o.hashes (simulatorOf o known) tx.txHash payload excluded 0 none
    tx.newNoteHashes <;> rfl

theorem decodeDeferredNote_eq : decodeDeferredNote o known (deferredOf publicKey tx payload) =
    (find o known tx payload []).toOption.map (noteDaoOf o publicKey tx payload) := by
  rw [decodeDeferredNote, deferredOf, produceNoteDao_eq]
  cases find o known tx payload [] <;> rfl

theorem decodePayload_cases (known : List Field) (publicKey : PublicKey) (tx : TxEffect)
    (payload : L1NotePayload) (s : TxState) :
    (∃ found, find o known tx payload s.excludedIndices = .ok found ∧
      decodePayload o known publicKey tx s payload = { s with
          noteDaos := s.noteDaos ++ [noteDaoOf o publicKey tx payload found]
          excludedIndices := s.excludedIndices ++ [found.1] }) ∨
    ((find o known tx payload s.excludedIndices).toOption = none ∧
      (decodePayload o known publicKey tx s payload = s ∨
        payload.contractAddress ∉ known ∧ decodePayload o known publicKey tx s payload =
          { s with deferred := s.deferred ++ [deferredOf publicKey tx payload] })) := by
  rw [decodePayload, produceNoteDao_eq]
  cases hfind : find o known tx payload s.excludedIndices with
  | ok found => exact .inl ⟨found, rfl, rfl⟩
  | error e =>
    refine .inr ⟨rfl, ?_⟩
    by_cases he : e = .simulator contractNotFound
    · refine .inr ⟨fun hknown => ?_, ?_⟩
      · exact find_ne_notFound hknown _ _ _ (he ▸ hfind)
      · simp [Except.map, he, deferredOf]
    · exact .inl (by simp [Except.map, he])

/-- The states of the loop when the contracts `known` are known, and when the contracts `all`
are. -/
structure Lock (o : Outside) (all known : List Field) (publicKey : PublicKey) (tx : TxEffect)
    (before : List L1NotePayload) (whole s : TxState) : Prop where
  noteDaos : ∀ d, d ∈ s.noteDaos ↔ d ∈ whole.noteDaos ∧ d.contractAddress ∈ known
  owner : ∀ d ∈ whole.noteDaos, d.publicKey = publicKey ∧ d.contractAddress ∈ all
  excluded : ∀ j ∈ whole.excludedIndices, ∃ payload ∈ before, ∃ value,
    siloedOf o payload = some value ∧
    tx.newNoteHashes[j]? = some (o.hashes.computeUniqueSiloedNoteHash
      (o.hashes.computeNoteHashNonce tx.txHash j) value) ∧
    payload.contractAddress ∈ all ∧
    (j ∈ s.excludedIndices ↔ payload.contractAddress ∈ known)
  sub : ∀ j ∈ s.excludedIndices, j ∈ whole.excludedIndices
  deferred : ∀ d ∈ whole.noteDaos, d.contractAddress ∉ known → ∃ e ∈ s.deferred,
    e.payload.contractAddress = d.contractAddress ∧ decodeDeferredNote o all e = some d
  sound : ∀ e ∈ s.deferred, e.publicKey = publicKey ∧ e.payload.contractAddress ∉ known ∧
    (e.payload.contractAddress ∈ all → ∀ d, decodeDeferredNote o all e = some d →
      d ∈ whole.noteDaos)

/-- No two payloads of a contract that is added later have the same note hash. -/
def NoTwin (o : Outside) (all known : List Field) (payload later : L1NotePayload) : Prop :=
  payload.contractAddress ∈ all → payload.contractAddress ∉ known → ∀ value,
    siloedOf o payload = some value → siloedOf o later ≠ some value

variable {all : List Field} {before payloads : List L1NotePayload} {whole s : TxState}

theorem irrelevant_of_taken (hok : HashesOk o tx payloads) (hmem : payload ∈ payloads)
    {payload' : L1NotePayload} (hmem' : payload' ∈ payloads) {j : ℕ} {commitment value : Field}
    (hvalue : siloedOf o payload' = some value) (hget : tx.newNoteHashes[j]? = some commitment)
    (htaken : tx.newNoteHashes[j]? = some (o.hashes.computeUniqueSiloedNoteHash
      (o.hashes.computeNoteHashNonce tx.txHash j) value))
    (hdiffer : siloedOf o payload ≠ some value) : Irrelevant o tx.txHash payload j commitment := by
  rw [hget, Option.some.injEq] at htaken
  subst htaken
  refine ⟨hok.unique_ne_zero _ hmem' _ hvalue _, fun value' hvalue' he => hdiffer ?_⟩
  rw [hvalue', hok.unique_injective _ hmem' _ hmem _ _ hvalue hvalue' _ he]

section

variable (hok : HashesOk o tx payloads) (hbefore : ∀ p ∈ before, p ∈ payloads)
  (hmem : payload ∈ payloads) (h : Lock o all known publicKey tx before whole s)
include hok hbefore hmem h

theorem Lock.find_known (hknown : payload.contractAddress ∈ known) (hall : payload.contractAddress ∈ all) :
    (find o known tx payload s.excludedIndices).toOption =
      (find o all tx payload whole.excludedIndices).toOption := by
  refine find_congr hknown hall _ 0 none none fun j commitment _ hget => ?_
  by_cases hj : j ∈ whole.excludedIndices
  · obtain ⟨payload', hmem', value, hvalue, htaken, -, hiff⟩ := h.excluded j hj
    have hmem' := hbefore _ hmem'
    by_cases hk : payload'.contractAddress ∈ known
    · exact .inl ⟨fun _ => hj, fun _ => hiff.2 hk⟩
    · refine .inr (irrelevant_of_taken hok hmem hmem' hvalue hget htaken fun hsame => hk ?_)
      rwa [hok.contract _ hmem' _ hmem _ hvalue hsame]
  · exact .inl ⟨fun hj' => h.sub j hj', fun hj' => absurd hj' hj⟩

theorem Lock.find_alone (htwins : ∀ payload' ∈ before, NoTwin o all known payload' payload)
    (hknown : payload.contractAddress ∉ known) (hall : payload.contractAddress ∈ all) :
    (find o all tx payload []).toOption =
      (find o all tx payload whole.excludedIndices).toOption := by
  refine find_congr hall hall _ 0 none none fun j commitment _ hget => ?_
  by_cases hj : j ∈ whole.excludedIndices
  · obtain ⟨payload', hfirst, value, hvalue, htaken, hall', -⟩ := h.excluded j hj
    have hmem' := hbefore _ hfirst
    refine .inr (irrelevant_of_taken hok hmem hmem' hvalue hget htaken fun hsame => ?_)
    have hcontract := hok.contract _ hmem' _ hmem _ hvalue hsame
    exact htwins payload' hfirst hall' (by rwa [hcontract]) value hvalue hsame
  · exact .inl ⟨fun hj' => absurd hj' not_mem_nil, fun hj' => absurd hj' hj⟩

end

section

variable (h : Lock o all known publicKey tx before whole s)
include h

theorem Lock.mono :
    Lock o all known publicKey tx (before ++ [payload]) whole s :=
  { h with
    excluded := fun j hj => by
      obtain ⟨payload', hmem, hrest⟩ := h.excluded j hj
      exact ⟨payload', mem_append_left _ hmem, hrest⟩ }

theorem Lock.found (hknown : payload.contractAddress ∈ known) (hall : payload.contractAddress ∈ all)
    {found : ℕ × Field × NoteHashes}
    (hfind : find o all tx payload whole.excludedIndices = .ok found) :
    Lock o all known publicKey tx (before ++ [payload]) { whole with
        noteDaos := whole.noteDaos ++ [noteDaoOf o publicKey tx payload found]
        excludedIndices := whole.excludedIndices ++ [found.1] }
      { s with
        noteDaos := s.noteDaos ++ [noteDaoOf o publicKey tx payload found]
        excludedIndices := s.excludedIndices ++ [found.1] } := by
  obtain ⟨-, value, hvalue, hget⟩ := find_sound hall _ 0 none hfind
  constructor
  · intro d
    simp only [mem_append, mem_singleton, h.noteDaos]
    constructor
    · rintro (⟨hd, hk⟩ | rfl)
      · exact ⟨.inl hd, hk⟩
      · exact ⟨.inr rfl, hknown⟩
    · rintro ⟨hd | rfl, hk⟩
      · exact .inl ⟨hd, hk⟩
      · exact .inr rfl
  · intro d hd
    rcases mem_append.1 hd with hd | hd
    · exact h.owner d hd
    · rw [mem_singleton.1 hd]
      exact ⟨rfl, hall⟩
  · intro j hj
    by_cases hnew : j = found.1
    · subst hnew
      exact ⟨payload, by simp, value, hvalue, hget, hall, fun _ => hknown, fun _ => by simp⟩
    · rcases mem_append.1 hj with hj | hj
      · obtain ⟨payload', hmem, value', hvalue', hget', hall', hiff⟩ := h.excluded j hj
        refine ⟨payload', mem_append_left _ hmem, value', hvalue', hget', hall', ?_⟩
        simpa [hnew] using hiff
      · exact absurd (mem_singleton.1 hj) hnew
  · intro j hj
    rcases mem_append.1 hj with hj | hj
    · exact mem_append_left _ (h.sub j hj)
    · exact mem_append_right _ hj
  · intro d hd hk
    rcases mem_append.1 hd with hd | hd
    · exact h.deferred d hd hk
    · rw [mem_singleton.1 hd] at hk
      exact absurd hknown hk
  · intro e he
    obtain ⟨hkey, hk, hsound⟩ := h.sound e he
    exact ⟨hkey, hk, fun ha d hd => mem_append_left _ (hsound ha d hd)⟩

theorem Lock.foundLater (hknown : payload.contractAddress ∉ known) (hall : payload.contractAddress ∈ all)
    {found : ℕ × Field × NoteHashes}
    (hfind : find o all tx payload whole.excludedIndices = .ok found)
    (halone : decodeDeferredNote o all (deferredOf publicKey tx payload) =
      some (noteDaoOf o publicKey tx payload found)) :
    Lock o all known publicKey tx (before ++ [payload]) { whole with
        noteDaos := whole.noteDaos ++ [noteDaoOf o publicKey tx payload found]
        excludedIndices := whole.excludedIndices ++ [found.1] }
      { s with deferred := s.deferred ++ [deferredOf publicKey tx payload] } := by
  obtain ⟨-, value, hvalue, hget⟩ := find_sound hall _ 0 none hfind
  constructor
  · intro d
    simp only [mem_append, mem_singleton, h.noteDaos]
    constructor
    · exact fun ⟨hd, hk⟩ => ⟨.inl hd, hk⟩
    · rintro ⟨hd | rfl, hk⟩
      · exact ⟨hd, hk⟩
      · exact absurd hk hknown
  · intro d hd
    rcases mem_append.1 hd with hd | hd
    · exact h.owner d hd
    · rw [mem_singleton.1 hd]
      exact ⟨rfl, hall⟩
  · intro j hj
    by_cases hold : j ∈ whole.excludedIndices
    · obtain ⟨payload', hmem, hrest⟩ := h.excluded j hold
      exact ⟨payload', mem_append_left _ hmem, hrest⟩
    · have hnew : j = found.1 := by
        rcases mem_append.1 hj with hj | hj
        · exact absurd hj hold
        · exact mem_singleton.1 hj
      subst hnew
      exact ⟨payload, by simp, value, hvalue, hget, hall, fun hj' => absurd (h.sub _ hj') hold,
        fun hk => absurd hk hknown⟩
  · exact fun j hj => mem_append_left _ (h.sub j hj)
  · intro d hd hk
    rcases mem_append.1 hd with hd | hd
    · obtain ⟨e, he, hrest⟩ := h.deferred d hd hk
      exact ⟨e, mem_append_left _ he, hrest⟩
    · rw [mem_singleton.1 hd]
      exact ⟨_, mem_append_right _ mem_cons_self, rfl, halone⟩
  · intro e he
    rcases mem_append.1 he with he | he
    · obtain ⟨hkey, hk, hsound⟩ := h.sound e he
      exact ⟨hkey, hk, fun ha d hd => mem_append_left _ (hsound ha d hd)⟩
    · rw [mem_singleton.1 he]
      refine ⟨rfl, hknown, fun _ d hd => mem_append_right _ ?_⟩
      rw [halone, Option.some.injEq] at hd
      simp [hd]

theorem Lock.lost (hknown : payload.contractAddress ∉ known) (halone : payload.contractAddress ∈ all →
      decodeDeferredNote o all (deferredOf publicKey tx payload) = none) :
    Lock o all known publicKey tx (before ++ [payload]) whole
      { s with deferred := s.deferred ++ [deferredOf publicKey tx payload] } := by
  have hmono : Lock o all known publicKey tx (before ++ [payload]) whole s := h.mono
  obtain ⟨hnoteDaos, howner, hexcluded, hsub, hdeferred, hsound⟩ := hmono
  refine ⟨hnoteDaos, howner, hexcluded, hsub, fun d hd hk => ?_, fun e he => ?_⟩
  · obtain ⟨e, he, hrest⟩ := hdeferred d hd hk
    exact ⟨e, mem_append_left _ he, hrest⟩
  · rcases mem_append.1 he with he | he
    · exact hsound e he
    · rw [mem_singleton.1 he]
      refine ⟨rfl, hknown, fun ha d hd => ?_⟩
      rw [halone ha] at hd
      cases hd

theorem Lock.whole_deferred (deferred : List DeferredNote) :
    Lock o all known publicKey tx before { whole with deferred := deferred } s :=
  ⟨h.noteDaos, h.owner, h.excluded, h.sub, h.deferred, h.sound⟩

end

theorem toOption_eq_some {ε α : Type} {x : Except ε α} {a : α} (h : x.toOption = some a) :
    x = .ok a := by
  cases x with
  | error e => cases h
  | ok b => rw [Option.some.inj h]

theorem Lock.step (hok : HashesOk o tx payloads) (hbefore : ∀ p ∈ before, p ∈ payloads)
    (hmem : payload ∈ payloads) (hsub : ∀ address ∈ known, address ∈ all)
    (h : Lock o all known publicKey tx before whole s)
    (htwins : ∀ payload' ∈ before, NoTwin o all known payload' payload) :
    Lock o all known publicKey tx (before ++ [payload])
      (decodePayload o all publicKey tx whole payload)
      (decodePayload o known publicKey tx s payload) := by
  by_cases hall : payload.contractAddress ∈ all
  · by_cases hknown : payload.contractAddress ∈ known
    · have hsame := h.find_known hok hbefore hmem hknown hall
      rcases decodePayload_cases all publicKey tx payload whole with
        ⟨found, hfind, hwhole⟩ | ⟨hnone, hwhole⟩
      · rw [hfind] at hsame
        have hfind' := toOption_eq_some hsame
        rcases decodePayload_cases known publicKey tx payload s with
          ⟨found', hfound', hs⟩ | ⟨hnone, -⟩
        · obtain rfl : found = found' := Except.ok.inj (hfind'.symm.trans hfound')
          rw [hwhole, hs]
          exact h.found hknown hall hfind
        · rw [hfind'] at hnone
          cases hnone
      · rw [hnone] at hsame
        have hwhole' : decodePayload o all publicKey tx whole payload = whole :=
          hwhole.resolve_right fun hunknown => hunknown.1 hall
        rcases decodePayload_cases known publicKey tx payload s with ⟨found', hfound', -⟩ | ⟨-, hs⟩
        · rw [hfound'] at hsame
          cases hsame
        · rw [hwhole', hs.resolve_right fun hunknown => hunknown.1 hknown]
          exact h.mono
    · have halone : decodeDeferredNote o all (deferredOf publicKey tx payload) =
          (find o all tx payload whole.excludedIndices).toOption.map
            (noteDaoOf o publicKey tx payload) := by
        rw [decodeDeferredNote_eq, h.find_alone hok hbefore hmem htwins hknown hall]
      rcases decodePayload_cases all publicKey tx payload whole with
        ⟨found, hfind, hwhole⟩ | ⟨hnone, hwhole⟩
      · rw [hfind] at halone
        have hunknown : find o known tx payload s.excludedIndices =
            .error (.simulator contractNotFound) := by
          refine find_of_unknown hknown h.sub _ 0 none none (fun j commitment _ hget hj => ?_) hfind
          obtain ⟨payload', hmem', value, hvalue, htaken, -⟩ := h.excluded j hj
          rw [Nat.sub_zero, htaken, Option.some.injEq] at hget
          exact hget ▸ hok.unique_ne_zero _ (hbefore _ hmem') _ hvalue _
        have hs : decodePayload o known publicKey tx s payload =
            { s with deferred := s.deferred ++ [deferredOf publicKey tx payload] } := by
          rw [decodePayload, produceNoteDao_eq, hunknown]
          simp [Except.map, deferredOf]
        rw [hwhole, hs]
        exact h.foundLater hknown hall hfind halone
      · rw [hnone] at halone
        rw [hwhole.resolve_right fun hunknown => hunknown.1 hall]
        rcases decodePayload_cases known publicKey tx payload s with
          ⟨found', hfound', -⟩ | ⟨-, hs | ⟨-, hs⟩⟩
        · have hno : (find o known tx payload s.excludedIndices).toOption = none :=
            find_unknown _ _ hknown _ 0 none
          rw [hfound'] at hno
          cases hno
        · rw [hs]
          exact h.mono
        · rw [hs]
          exact h.lost hknown fun _ => halone
  · have hknown : payload.contractAddress ∉ known := fun hk => hall (hsub _ hk)
    have hno : ∀ {known : List Field} (s : TxState), payload.contractAddress ∉ known →
        decodePayload o known publicKey tx s payload = s ∨
          decodePayload o known publicKey tx s payload =
            { s with deferred := s.deferred ++ [deferredOf publicKey tx payload] } := by
      intro known s hknown
      rcases decodePayload_cases known publicKey tx payload s with ⟨found', hfound', -⟩ | ⟨-, hs⟩
      · have hno : (find o known tx payload s.excludedIndices).toOption = none :=
          find_unknown _ _ hknown _ 0 none
        rw [hfound'] at hno
        cases hno
      · exact hs.imp_right And.right
    have hs : Lock o all known publicKey tx (before ++ [payload]) whole
        (decodePayload o known publicKey tx s payload) := by
      rcases hno s hknown with hs | hs
      · rw [hs]
        exact h.mono
      · rw [hs]
        exact h.lost hknown fun ha => absurd ha hall
    rcases hno whole hall with hwhole | hwhole
    · rw [hwhole]
      exact hs
    · rw [hwhole]
      exact hs.whole_deferred _

theorem decodePayloads_lock (hok : HashesOk o tx payloads) (hsub : ∀ address ∈ known, address ∈ all)
    (hbefore : ∀ p ∈ before, p ∈ payloads) (htwins : before.Pairwise (NoTwin o all known)) :
    Lock o all known publicKey tx before (decodePayloads o all publicKey tx before)
      (decodePayloads o known publicKey tx before) := by
  induction before using reverseRecOn with
  | nil =>
    refine ⟨fun d => ?_, ?_, ?_, ?_, ?_, ?_⟩ <;> simp [decodePayloads]
  | append_singleton before payload ih =>
    obtain ⟨hfirst, -, hlast⟩ := pairwise_append.1 htwins
    have hbefore' := fun p hp => hbefore p (mem_append_left _ hp)
    have hstep := (ih hbefore' hfirst).step hok hbefore'
      (hbefore payload (mem_append_right _ mem_cons_self)) hsub fun payload' hmem =>
      hlast payload' hmem payload mem_cons_self
    rw [decodePayloads, decodePayloads, foldl_append, foldl_append]
    exact hstep

theorem decodeTx_lock (hok : HashesOk o tx (tx.payloads publicKey))
    (hsub : ∀ address ∈ known, address ∈ all)
    (htwins : (tx.payloads publicKey).Pairwise (NoTwin o all known)) :
    Lock o all known publicKey tx (tx.payloads publicKey) (decodeTx o all publicKey tx)
      (decodeTx o known publicKey tx) :=
  decodePayloads_lock hok hsub (fun _ h => h) htwins

end Lock

end DeferredNotes
