/-
**The notes in the database of a client.**

The database keeps a table of active notes and a table of nullified ones, a map from the nullifiers
of active notes to their places, and for each table four indexes, by contract, storage slot,
transaction and owner.  A query goes through one index, chosen by the first of its filters, and
tests the others on every note.  The owner of a filter is an address, of which the database looks up
the public key; when the address is not registered there is no key, and the filter is as if it had
no owner.
-/

import Aztec.DeferredRuns

open Function Option

namespace NoteDatabase

open Noir NoteDiscovery DeferredNotes

/-! ### Tables and indexes -/

/-- A table of notes by their place in the tree, with the places that it has. -/
structure NoteTable where
  get : ℕ → Option NoteDao
  keys : Finset ℕ
  mem_keys : ∀ i, i ∈ keys ↔ (get i).isSome = true

def NoteTable.empty : NoteTable := ⟨fun _ => none, ∅, by simp⟩

def NoteTable.set (t : NoteTable) (noteIndex : ℕ) (dao : NoteDao) : NoteTable where
  get := Function.update t.get noteIndex (some dao)
  keys := insert noteIndex t.keys
  mem_keys i := by
    by_cases h : i = noteIndex
    · simp [h]
    · simp [h, t.mem_keys]

def NoteTable.delete (t : NoteTable) (noteIndex : ℕ) : NoteTable where
  get := Function.update t.get noteIndex none
  keys := t.keys.erase noteIndex
  mem_keys i := by
    by_cases h : i = noteIndex
    · simp [h]
    · simp [h, t.mem_keys]

/-- An `AztecMultiMap` of places: the values of a key are a set. -/
abbrev MultiMap (κ : Type) := κ → Finset ℕ

def MultiMap.set {κ : Type} [DecidableEq κ] (m : MultiMap κ) (key : κ) (noteIndex : ℕ) :
    MultiMap κ :=
  Function.update m key (insert noteIndex (m key))

def MultiMap.deleteValue {κ : Type} [DecidableEq κ] (m : MultiMap κ) (key : κ) (noteIndex : ℕ) :
    MultiMap κ :=
  Function.update m key ((m key).erase noteIndex)

structure NoteIndexes where
  byContract : MultiMap Field
  byStorageSlot : MultiMap Field
  byTxHash : MultiMap Field
  byOwner : MultiMap PublicKey

def NoteIndexes.empty : NoteIndexes := ⟨fun _ => ∅, fun _ => ∅, fun _ => ∅, fun _ => ∅⟩

def NoteIndexes.set (x : NoteIndexes) (dao : NoteDao) (noteIndex : ℕ) : NoteIndexes where
  byContract := x.byContract.set dao.contractAddress noteIndex
  byStorageSlot := x.byStorageSlot.set dao.storageSlot noteIndex
  byTxHash := x.byTxHash.set dao.txHash noteIndex
  byOwner := x.byOwner.set dao.publicKey noteIndex

def NoteIndexes.deleteValue (x : NoteIndexes) (note : NoteDao) (account : PublicKey)
    (noteIndex : ℕ) : NoteIndexes where
  byContract := x.byContract.deleteValue note.contractAddress noteIndex
  byStorageSlot := x.byStorageSlot.deleteValue note.storageSlot noteIndex
  byTxHash := x.byTxHash.deleteValue note.txHash noteIndex
  byOwner := x.byOwner.deleteValue account noteIndex

/-! ### The database -/

structure CompleteAddress where
  address : Field
  publicKey : PublicKey
  partialAddress : Field
deriving DecidableEq

inductive NoteStatus where
  | active
  | activeOrNullified
deriving DecidableEq

structure NoteFilter where
  txHash : Option Field
  contractAddress : Option Field
  storageSlot : Option Field
  owner : Option Field
  status : Option NoteStatus

/-- The notes and addresses in `KVPxeDatabase`. -/
structure KVPxeDatabase where
  addresses : List CompleteAddress
  addressIndex : Field → Option ℕ
  notes : NoteTable
  nullifiedNotes : NoteTable
  nullifierToNoteId : Field → Option ℕ
  notesBy : NoteIndexes
  nullifiedNotesBy : NoteIndexes

def KVPxeDatabase.empty : KVPxeDatabase :=
  ⟨[], fun _ => none, .empty, .empty, fun _ => none, .empty, .empty⟩

/-- The turn of the loop of `addNotes`. -/
def addNote (db : KVPxeDatabase) (dao : NoteDao) : KVPxeDatabase :=
  let noteIndex := dao.index
  { db with
    notes := db.notes.set noteIndex dao
    nullifierToNoteId :=
      Function.update db.nullifierToNoteId dao.siloedNullifier (some noteIndex)
    notesBy := db.notesBy.set dao noteIndex }

def addNotes (db : KVPxeDatabase) (notes : List NoteDao) : KVPxeDatabase :=
  notes.foldl addNote db

/-- The turn of the loop of `removeNullifiedNotes`.  The state is the database and the notes that
were removed. -/
def removeNullifiedNote (account : PublicKey) (s : KVPxeDatabase × List NoteDao)
    (nullifier : Field) : KVPxeDatabase × List NoteDao :=
  let db := s.1
  match db.nullifierToNoteId nullifier with
  | none => s
  | some noteIndex =>
    match db.notes.get noteIndex with
    | none => s
    | some note =>
      if note.publicKey = account then
        ({ db with
          notes := db.notes.delete noteIndex
          notesBy := db.notesBy.deleteValue note account noteIndex
          nullifiedNotes := db.nullifiedNotes.set noteIndex note
          nullifiedNotesBy := db.nullifiedNotesBy.set note noteIndex
          nullifierToNoteId := Function.update db.nullifierToNoteId nullifier none },
          s.2 ++ [note])
      else s

def removeNullifiedNotes (db : KVPxeDatabase) (nullifiers : List Field) (account : PublicKey) :
    KVPxeDatabase × List NoteDao :=
  nullifiers.foldl (removeNullifiedNote account) (db, [])

def getCompleteAddress (db : KVPxeDatabase) (address : Field) : Option CompleteAddress :=
  match db.addressIndex address with
  | none => none
  | some index => db.addresses[index]?

/-- `addCompleteAddress`, whose result says whether the address is new. -/
def addCompleteAddress (db : KVPxeDatabase) (completeAddress : CompleteAddress) :
    Except String (KVPxeDatabase × Bool) :=
  match db.addressIndex completeAddress.address with
  | none =>
    .ok ({ db with
      addresses := db.addresses ++ [completeAddress]
      addressIndex := Function.update db.addressIndex completeAddress.address
        (some db.addresses.length) }, true)
  | some existing =>
    if db.addresses[existing]? = some completeAddress then .ok (db, false)
    else .error ("Complete address with aztec address " ++ toString completeAddress.address ++
      " but different public key or partial key already exists in memory database")

/-- The places that `getNotes` goes through in a table: an index of the first filter that is given,
in the order owner, transaction, contract, storage slot. -/
def candidateIds (table : NoteTable) (x : NoteIndexes) (publicKey : Option PublicKey)
    (filter : NoteFilter) : List ℕ :=
  match publicKey, filter.txHash, filter.contractAddress, filter.storageSlot with
  | some publicKey, _, _, _ => (x.byOwner publicKey).sort (· ≤ ·)
  | none, some txHash, _, _ => (x.byTxHash txHash).sort (· ≤ ·)
  | none, none, some contractAddress, _ => (x.byContract contractAddress).sort (· ≤ ·)
  | none, none, none, some storageSlot => (x.byStorageSlot storageSlot).sort (· ≤ ·)
  | none, none, none, none => table.keys.sort (· ≤ ·)

/-- The tests of `getNotes` on a note. -/
def passes (publicKey : Option PublicKey) (filter : NoteFilter) (note : NoteDao) : Bool :=
  filter.contractAddress.all (note.contractAddress = ·) && filter.txHash.all (note.txHash = ·) &&
    filter.storageSlot.all (note.storageSlot = ·) && publicKey.all (note.publicKey = ·)

/-- What `getNotes` finds in a table. -/
def notesOfSource (table : NoteTable) (x : NoteIndexes) (publicKey : Option PublicKey)
    (filter : NoteFilter) : List NoteDao :=
  ((candidateIds table x publicKey filter).filterMap table.get).filter (passes publicKey filter)

def getNotes (db : KVPxeDatabase) (filter : NoteFilter) : List NoteDao :=
  let publicKey := filter.owner.bind fun owner =>
    (getCompleteAddress db owner).map CompleteAddress.publicKey
  let status := filter.status.getD .active
  notesOfSource db.notes db.notesBy publicKey filter ++
    if status = .activeOrNullified then
      notesOfSource db.nullifiedNotes db.nullifiedNotesBy publicKey filter
    else []

/-! ### The tables -/

def toDatabase (db : KVPxeDatabase) : Database :=
  ⟨db.notes.get, db.nullifiedNotes.get, db.nullifierToNoteId, []⟩

theorem toDatabase_addNotes (notes : List NoteDao) : ∀ db : KVPxeDatabase,
    toDatabase (addNotes db notes) = DeferredNotes.addNotes (toDatabase db) notes := by
  induction notes with
  | nil => exact fun _ => rfl
  | cons dao notes ih => exact fun db => ih (addNote db dao)

variable (account : PublicKey)

theorem toDatabase_removeNullifiedNote (s : KVPxeDatabase × List NoteDao) (nullifier : Field) :
    toDatabase (removeNullifiedNote account s nullifier).1 =
      DeferredNotes.removeNullifiedNote account (toDatabase s.1) nullifier := by
  rw [removeNullifiedNote, DeferredNotes.removeNullifiedNote]
  simp only [toDatabase]
  cases s.1.nullifierToNoteId nullifier with
  | none => rfl
  | some noteIndex =>
    simp only
    cases s.1.notes.get noteIndex with
    | none => rfl
    | some note =>
      simp only
      split <;> rfl

theorem toDatabase_removeNullifiedNotes (nullifiers : List Field) :
    ∀ s : KVPxeDatabase × List NoteDao,
      toDatabase (nullifiers.foldl (removeNullifiedNote account) s).1 =
        DeferredNotes.removeNullifiedNotes (toDatabase s.1) nullifiers account := by
  induction nullifiers with
  | nil => exact fun _ => rfl
  | cons nullifier nullifiers ih =>
    intro s
    rw [List.foldl_cons, ih, toDatabase_removeNullifiedNote]
    rfl

/-! ### The indexes -/

section Indexes

variable {κ : Type} [DecidableEq κ] {m : MultiMap κ} {key key' : κ} {i j : ℕ}

@[simp] theorem MultiMap.mem_set : j ∈ m.set key i key' ↔ j ∈ m key' ∨ key' = key ∧ j = i := by
  by_cases h : key' = key
  · subst h
    simp [MultiMap.set, or_comm]
  · simp [MultiMap.set, h]

theorem MultiMap.mem_deleteValue_of_ne (hne : j ≠ i) (h : j ∈ m key') :
    j ∈ m.deleteValue key i key' := by
  by_cases hkey : key' = key
  · subst hkey
    simp [MultiMap.deleteValue, hne, h]
  · simp [MultiMap.deleteValue, hkey, h]

end Indexes

/-- **The indexes lead to the notes of a table.**  They may also lead to places where there is no
note any more, or another one. -/
structure Leads (x : NoteIndexes) (table : NoteTable) : Prop where
  byContract : ∀ {i d}, table.get i = some d → i ∈ x.byContract d.contractAddress
  byStorageSlot : ∀ {i d}, table.get i = some d → i ∈ x.byStorageSlot d.storageSlot
  byTxHash : ∀ {i d}, table.get i = some d → i ∈ x.byTxHash d.txHash
  byOwner : ∀ {i d}, table.get i = some d → i ∈ x.byOwner d.publicKey

section Leads

variable {x : NoteIndexes} {table : NoteTable}

theorem Leads.empty : Leads .empty .empty :=
  ⟨nofun, nofun, nofun, nofun⟩

theorem Leads.set (h : Leads x table) (dao : NoteDao) (noteIndex : ℕ) :
    Leads (x.set dao noteIndex) (table.set noteIndex dao) := by
  have hcases : ∀ {i d}, (table.set noteIndex dao).get i = some d →
      i = noteIndex ∧ d = dao ∨ table.get i = some d := by
    intro i d hget
    by_cases hi : i = noteIndex
    · subst hi
      simp only [NoteTable.set, update_self, some.injEq] at hget
      exact .inl ⟨rfl, hget.symm⟩
    · simp only [NoteTable.set, update_of_ne hi] at hget
      exact .inr hget
  constructor
  all_goals
    intro i d hget
    rcases hcases hget with ⟨rfl, rfl⟩ | hget
  · exact MultiMap.mem_set.2 (.inr ⟨rfl, rfl⟩)
  · exact MultiMap.mem_set.2 (.inl (h.byContract hget))
  · exact MultiMap.mem_set.2 (.inr ⟨rfl, rfl⟩)
  · exact MultiMap.mem_set.2 (.inl (h.byStorageSlot hget))
  · exact MultiMap.mem_set.2 (.inr ⟨rfl, rfl⟩)
  · exact MultiMap.mem_set.2 (.inl (h.byTxHash hget))
  · exact MultiMap.mem_set.2 (.inr ⟨rfl, rfl⟩)
  · exact MultiMap.mem_set.2 (.inl (h.byOwner hget))

theorem Leads.delete (h : Leads x table) (note : NoteDao) (account : PublicKey) (noteIndex : ℕ) :
    Leads (x.deleteValue note account noteIndex) (table.delete noteIndex) := by
  have hkept : ∀ {i d}, (table.delete noteIndex).get i = some d →
      i ≠ noteIndex ∧ table.get i = some d := by
    intro i d hget
    by_cases hi : i = noteIndex
    · subst hi
      simp [NoteTable.delete] at hget
    · simp only [NoteTable.delete, update_of_ne hi] at hget
      exact ⟨hi, hget⟩
  constructor
  all_goals
    intro i d hget
    obtain ⟨hne, hget⟩ := hkept hget
  · exact MultiMap.mem_deleteValue_of_ne hne (h.byContract hget)
  · exact MultiMap.mem_deleteValue_of_ne hne (h.byStorageSlot hget)
  · exact MultiMap.mem_deleteValue_of_ne hne (h.byTxHash hget)
  · exact MultiMap.mem_deleteValue_of_ne hne (h.byOwner hget)

/-! ### Queries -/

theorem nodup_candidateIds (publicKey : Option PublicKey) (filter : NoteFilter) :
    (candidateIds table x publicKey filter).Nodup := by
  unfold candidateIds
  split <;> exact Finset.sort_nodup _ _

theorem Leads.mem_candidateIds (h : Leads x table) {publicKey : Option PublicKey}
    {filter : NoteFilter} {i : ℕ} {d : NoteDao} (hget : table.get i = some d)
    (hpasses : passes publicKey filter d = true) : i ∈ candidateIds table x publicKey filter := by
  simp only [passes, Bool.and_eq_true] at hpasses
  obtain ⟨⟨⟨hcontract, htxHash⟩, hslot⟩, hkey⟩ := hpasses
  unfold candidateIds
  split
  · next key =>
    simp only [all_some, decide_eq_true_eq] at hkey
    exact (Finset.mem_sort _).2 (hkey ▸ h.byOwner hget)
  · next htx =>
    rw [htx, all_some, decide_eq_true_eq] at htxHash
    exact (Finset.mem_sort _).2 (htxHash ▸ h.byTxHash hget)
  · next haddress =>
    rw [haddress, all_some, decide_eq_true_eq] at hcontract
    exact (Finset.mem_sort _).2 (hcontract ▸ h.byContract hget)
  · next hstorage =>
    rw [hstorage, all_some, decide_eq_true_eq] at hslot
    exact (Finset.mem_sort _).2 (hslot ▸ h.byStorageSlot hget)
  · exact (Finset.mem_sort _).2 ((table.mem_keys i).2 (by rw [hget]; rfl))

theorem Leads.mem_notesOfSource (h : Leads x table)
    (hindex : ∀ i d, table.get i = some d → d.index = i) (publicKey : Option PublicKey)
    (filter : NoteFilter) (d : NoteDao) : d ∈ notesOfSource table x publicKey filter ↔
      table.get d.index = some d ∧ passes publicKey filter d = true := by
  rw [notesOfSource, List.mem_filter, List.mem_filterMap]
  constructor
  · rintro ⟨⟨i, -, hget⟩, hpasses⟩
    exact ⟨hindex i d hget ▸ hget, hpasses⟩
  · rintro ⟨hget, hpasses⟩
    exact ⟨⟨d.index, h.mem_candidateIds hget hpasses, hget⟩, hpasses⟩

theorem nodup_notesOfSource (hindex : ∀ i d, table.get i = some d → d.index = i)
    (publicKey : Option PublicKey) (filter : NoteFilter) :
    (notesOfSource table x publicKey filter).Nodup := by
  refine ((nodup_candidateIds publicKey filter).filterMap ?_).filter _
  intro i j d hi hj
  rw [← hindex i d hi, ← hindex j d hj]

end Leads

/-! ### Sequences of calls -/

inductive Call where
  | addNotes (notes : List NoteDao)
  | removeNullifiedNotes (nullifiers : List Field) (account : PublicKey)
  | addCompleteAddress (completeAddress : CompleteAddress)

/-- A call that throws leaves the database as it was. -/
def step (db : KVPxeDatabase) : Call → KVPxeDatabase
  | .addNotes notes => addNotes db notes
  | .removeNullifiedNotes nullifiers account => (removeNullifiedNotes db nullifiers account).1
  | .addCompleteAddress completeAddress =>
    match addCompleteAddress db completeAddress with
    | .ok (db', _) => db'
    | .error _ => db

def run (calls : List Call) : KVPxeDatabase :=
  calls.foldl step .empty

def Added (calls : List Call) (d : NoteDao) : Prop :=
  ∃ notes, .addNotes notes ∈ calls ∧ d ∈ notes

/-- The nullifier of the note was passed for its own account after it was added. -/
def Nullified (calls : List Call) (d : NoteDao) : Prop :=
  ∃ before nullifiers after,
    calls = before ++ .removeNullifiedNotes nullifiers d.publicKey :: after ∧
      Added before d ∧ d.siloedNullifier ∈ nullifiers

def Call.completeAddress? : Call → Option CompleteAddress
  | .addCompleteAddress completeAddress => some completeAddress
  | _ => none

/-- What is registered under the address: what was added first. -/
def registered (calls : List Call) (address : Field) : Option CompleteAddress :=
  (calls.filterMap Call.completeAddress?).find? (·.address = address)

/-- The notes have places and nullifiers of their own, and a nullified note is not added again. -/
structure AddsOk (calls : List Call) : Prop where
  apart : Apart (Added calls)
  notAgain : ∀ before notes after, calls = before ++ .addNotes notes :: after →
    ∀ d ∈ notes, ¬ Nullified before d

section History

variable {calls : List Call} {d : NoteDao}

theorem added_concat (c : Call) : Added (calls ++ [c]) d ↔
    Added calls d ∨ ∃ notes, c = .addNotes notes ∧ d ∈ notes := by
  simp only [Added, List.mem_append, List.mem_singleton]
  constructor
  · rintro ⟨notes, hmem | rfl, hd⟩
    · exact .inl ⟨notes, hmem, hd⟩
    · exact .inr ⟨notes, rfl, hd⟩
  · rintro (⟨notes, hmem, hd⟩ | ⟨notes, rfl, hd⟩)
    · exact ⟨notes, .inl hmem, hd⟩
    · exact ⟨notes, .inr rfl, hd⟩

theorem nullified_concat (c : Call) : Nullified (calls ++ [c]) d ↔ Nullified calls d ∨
    ∃ nullifiers, c = .removeNullifiedNotes nullifiers d.publicKey ∧ Added calls d ∧
      d.siloedNullifier ∈ nullifiers := by
  constructor
  · rintro ⟨before, nullifiers, after, hcalls, hadded, hmem⟩
    rcases List.eq_nil_or_concat after with rfl | ⟨after, last, rfl⟩
    · obtain ⟨rfl, hlast⟩ := List.append_inj' hcalls rfl
      rw [List.singleton_inj] at hlast
      exact .inr ⟨nullifiers, hlast, hadded, hmem⟩
    · rw [List.concat_eq_append, ← List.cons_append, ← List.append_assoc] at hcalls
      exact .inl ⟨before, nullifiers, after, (List.append_inj' hcalls rfl).1, hadded, hmem⟩
  · rintro (⟨before, nullifiers, after, rfl, hadded, hmem⟩ | ⟨nullifiers, rfl, hadded, hmem⟩)
    · exact ⟨before, nullifiers, after ++ [c], by simp, hadded, hmem⟩
    · exact ⟨calls, nullifiers, [], rfl, hadded, hmem⟩

theorem Nullified.added (h : Nullified calls d) : Added calls d := by
  obtain ⟨before, nullifiers, after, rfl, ⟨notes, hmem, hd⟩, -⟩ := h
  exact ⟨notes, List.mem_append_left _ hmem, hd⟩

theorem AddsOk.of_concat {c : Call} (h : AddsOk (calls ++ [c])) : AddsOk calls := by
  have hadded : ∀ {d}, Added calls d → Added (calls ++ [c]) d :=
    fun hd => (added_concat c).2 (.inl hd)
  refine ⟨⟨fun hd hd' => h.apart.index (hadded hd) (hadded hd'),
    fun hd hd' => h.apart.siloedNullifier (hadded hd) (hadded hd')⟩, ?_⟩
  rintro before notes after rfl
  exact h.notAgain before notes (after ++ [c]) (by simp)

end History

/-! ### The invariant -/

structure Led (db : KVPxeDatabase) : Prop where
  notes : Leads db.notesBy db.notes
  nullifiedNotes : Leads db.nullifiedNotesBy db.nullifiedNotes

theorem Led.addNotes (notes : List NoteDao) :
    ∀ {db : KVPxeDatabase}, Led db → Led (addNotes db notes) := by
  induction notes with
  | nil => exact fun h => h
  | cons dao notes ih =>
    intro db h
    exact ih ⟨h.notes.set dao dao.index, h.nullifiedNotes⟩

theorem Led.removeNullifiedNote (account : PublicKey) (nullifier : Field)
    {s : KVPxeDatabase × List NoteDao} (h : Led s.1) :
    Led (removeNullifiedNote account s nullifier).1 := by
  rw [NoteDatabase.removeNullifiedNote]
  split
  · exact h
  · split
    · exact h
    · next noteIndex _ _ note _ =>
      split
      · exact ⟨h.notes.delete note account noteIndex, h.nullifiedNotes.set note noteIndex⟩
      · exact h

theorem Led.removeNullifiedNotes (nullifiers : List Field) :
    ∀ {s : KVPxeDatabase × List NoteDao}, Led s.1 →
      Led (nullifiers.foldl (NoteDatabase.removeNullifiedNote account) s).1 := by
  induction nullifiers with
  | nil => exact fun h => h
  | cons nullifier nullifiers ih => exact fun h => ih (h.removeNullifiedNote account nullifier)

@[simp] theorem addNotes_addresses (notes : List NoteDao) : ∀ db : KVPxeDatabase,
    (addNotes db notes).addresses = db.addresses ∧
      (addNotes db notes).addressIndex = db.addressIndex := by
  induction notes with
  | nil => exact fun _ => ⟨rfl, rfl⟩
  | cons dao notes ih => exact fun db => ih (addNote db dao)

theorem removeNullifiedNote_addresses (s : KVPxeDatabase × List NoteDao) (nullifier : Field) :
    (removeNullifiedNote account s nullifier).1.addresses = s.1.addresses ∧
      (removeNullifiedNote account s nullifier).1.addressIndex = s.1.addressIndex := by
  rw [removeNullifiedNote]
  split
  · exact ⟨rfl, rfl⟩
  · split
    · exact ⟨rfl, rfl⟩
    · split <;> exact ⟨rfl, rfl⟩

theorem removeNullifiedNotes_addresses (nullifiers : List Field) :
    ∀ s : KVPxeDatabase × List NoteDao,
      (nullifiers.foldl (removeNullifiedNote account) s).1.addresses = s.1.addresses ∧
        (nullifiers.foldl (removeNullifiedNote account) s).1.addressIndex = s.1.addressIndex := by
  induction nullifiers with
  | nil => exact fun _ => ⟨rfl, rfl⟩
  | cons nullifier nullifiers ih =>
    intro s
    have hstep := removeNullifiedNote_addresses account s nullifier
    exact ⟨(ih _).1.trans hstep.1, (ih _).2.trans hstep.2⟩

structure Addressed (db : KVPxeDatabase) (registered : Field → Option CompleteAddress) : Prop where
  bound : ∀ address i, db.addressIndex address = some i → i < db.addresses.length
  get : ∀ address, getCompleteAddress db address = registered address

variable {db : KVPxeDatabase}

theorem Addressed.congr {db' : KVPxeDatabase} {registered : Field → Option CompleteAddress}
    (h : Addressed db registered)
    (hsame : db'.addresses = db.addresses ∧ db'.addressIndex = db.addressIndex) :
    Addressed db' registered := by
  constructor
  · intro address i hi
    rw [hsame.2] at hi
    rw [hsame.1]
    exact h.bound address i hi
  · intro address
    rw [getCompleteAddress, hsame.1, hsame.2]
    exact h.get address

theorem Addressed.addCompleteAddress {registered : Field → Option CompleteAddress}
    (h : Addressed db registered) (completeAddress : CompleteAddress) :
    Addressed (step db (.addCompleteAddress completeAddress)) fun address =>
      (registered address).or
        (if completeAddress.address = address then some completeAddress else none) := by
  rw [step, NoteDatabase.addCompleteAddress]
  have hget := h.get completeAddress.address
  rw [getCompleteAddress] at hget
  cases hindex : db.addressIndex completeAddress.address with
  | none =>
    rw [hindex] at hget
    constructor
    · intro address i hi
      rw [List.length_append, List.length_singleton]
      by_cases haddress : address = completeAddress.address
      · simp only [haddress, update_self, some.injEq] at hi
        omega
      · simp only [update_of_ne haddress] at hi
        exact Nat.lt_succ_of_lt (h.bound address i hi)
    · intro address
      rw [getCompleteAddress]
      by_cases haddress : address = completeAddress.address
      · simp only [haddress, update_self, ← hget, none_or, if_true]
        exact List.getElem?_concat_length
      · simp only [update_of_ne haddress, if_neg (Ne.symm haddress), or_none]
        rw [← h.get address, getCompleteAddress]
        cases hi : db.addressIndex address with
        | none => rfl
        | some i => exact List.getElem?_append_left (h.bound address i hi)
  | some existing =>
    rw [hindex] at hget
    -- the address is known: whatever is added, nothing changes
    have hsame : (fun address => (registered address).or
        (if completeAddress.address = address then some completeAddress else none)) =
          registered := by
      funext address
      by_cases haddress : completeAddress.address = address
      · subst haddress
        rw [← hget]
        dsimp only
        rw [List.getElem?_eq_getElem (h.bound _ _ hindex), some_or]
      · rw [if_neg haddress, or_none]
    rw [hsame]
    dsimp only
    by_cases hequal : db.addresses[existing]? = some completeAddress
    · rw [if_pos hequal]
      exact h
    · rw [if_neg hequal]
      exact h

structure Inv (db : KVPxeDatabase) (calls : List Call) : Prop where
  stored : Stored (toDatabase db) (fun d => Added calls d ∧ ¬ Nullified calls d) (Nullified calls)
  led : Led db
  addressed : Addressed db (registered calls)

section

variable {calls : List Call} (h : Inv db calls)
include h

theorem Inv.addNotes {notes : List NoteDao}
    (hok : AddsOk (calls ++ [.addNotes notes])) :
    Inv (step db (.addNotes notes)) (calls ++ [.addNotes notes]) := by
  have hadded : ∀ {d}, Added (calls ++ [.addNotes notes]) d ↔ Added calls d ∨ d ∈ notes := by
    intro d
    rw [added_concat]
    simp
  have hnullified : ∀ {d}, Nullified (calls ++ [.addNotes notes]) d ↔ Nullified calls d := by
    intro d
    rw [nullified_concat]
    simp
  have hnew : ∀ d ∈ notes, ¬ Nullified calls d := hok.notAgain calls notes [] rfl
  refine ⟨?_, h.led.addNotes notes, ?_⟩
  · rw [step, toDatabase_addNotes]
    refine (Stored.addNotes hok.apart notes h.stored (fun d hd => hadded.2 (.inl hd.1))
      fun d hd => hadded.2 (.inr hd)).congr (fun d => ?_) fun d => hnullified.symm
    rw [hadded, hnullified]
    constructor
    · rintro (⟨hd, hactive⟩ | hd)
      · exact ⟨.inl hd, hactive⟩
      · exact ⟨.inr hd, hnew d hd⟩
    · rintro ⟨hd | hd, hactive⟩
      · exact .inl ⟨hd, hactive⟩
      · exact .inr hd
  · have hregistered : registered (calls ++ [.addNotes notes]) = registered calls := by
      funext address
      simp [registered, Call.completeAddress?]
    rw [hregistered]
    exact h.addressed.congr (addNotes_addresses notes db)

theorem Inv.removeNullifiedNotes (hapart : Apart (Added calls)) (nullifiers : List Field) (account : PublicKey) :
    Inv (step db (.removeNullifiedNotes nullifiers account))
      (calls ++ [.removeNullifiedNotes nullifiers account]) := by
  have hadded : ∀ {d}, Added (calls ++ [.removeNullifiedNotes nullifiers account]) d ↔
      Added calls d := by
    intro d
    rw [added_concat]
    simp
  have hnullified : ∀ {d}, Nullified (calls ++ [.removeNullifiedNotes nullifiers account]) d ↔
      Nullified calls d ∨ Added calls d ∧ d.siloedNullifier ∈ nullifiers ∧
        d.publicKey = account := by
    intro d
    rw [nullified_concat]
    refine or_congr_right ⟨?_, ?_⟩
    · rintro ⟨_, heq, hd, hmem⟩
      cases heq
      exact ⟨hd, hmem, rfl⟩
    · rintro ⟨hd, hmem, rfl⟩
      exact ⟨nullifiers, rfl, hd, hmem⟩
  refine ⟨?_, h.led.removeNullifiedNotes account nullifiers, ?_⟩
  · rw [step, NoteDatabase.removeNullifiedNotes, toDatabase_removeNullifiedNotes]
    refine (Stored.removeNullifiedNotes hapart account nullifiers h.stored (fun d hd => hd.1)
      fun d hd => hd.added).congr (fun d => ?_) fun d => ?_
    · rw [hadded, hnullified]
      tauto
    · rw [hnullified]
      tauto
  · have hregistered : registered (calls ++ [.removeNullifiedNotes nullifiers account]) =
        registered calls := by
      funext address
      simp [registered, Call.completeAddress?]
    rw [hregistered]
    exact h.addressed.congr (removeNullifiedNotes_addresses account nullifiers (db, []))

theorem Inv.addCompleteAddress (completeAddress : CompleteAddress) : Inv (step db (.addCompleteAddress completeAddress))
      (calls ++ [.addCompleteAddress completeAddress]) := by
  have hadded : ∀ d, Added (calls ++ [.addCompleteAddress completeAddress]) d ↔ Added calls d := by
    intro d
    rw [added_concat]
    simp
  have hnullified : ∀ d, Nullified (calls ++ [.addCompleteAddress completeAddress]) d ↔
      Nullified calls d := by
    intro d
    rw [nullified_concat]
    simp
  have hregistered : registered (calls ++ [.addCompleteAddress completeAddress]) = fun address =>
      (registered calls address).or
        (if completeAddress.address = address then some completeAddress else none) := by
    funext address
    rw [registered, List.filterMap_append, List.find?_append, registered]
    refine congrArg _ ?_
    change List.find? _ [completeAddress] = _
    by_cases haddress : completeAddress.address = address
    · simp [haddress]
    · simp [haddress]
  have hnotes : toDatabase (step db (.addCompleteAddress completeAddress)) = toDatabase db ∧
      (Led db → Led (step db (.addCompleteAddress completeAddress))) := by
    rw [step, NoteDatabase.addCompleteAddress]
    cases db.addressIndex completeAddress.address with
    | none => exact ⟨rfl, fun h => ⟨h.notes, h.nullifiedNotes⟩⟩
    | some existing =>
      dsimp only
      by_cases hequal : db.addresses[existing]? = some completeAddress
      · rw [if_pos hequal]
        exact ⟨rfl, id⟩
      · rw [if_neg hequal]
        exact ⟨rfl, id⟩
  refine ⟨?_, hnotes.2 h.led, ?_⟩
  · rw [hnotes.1]
    exact h.stored.congr (fun d => by rw [hadded, hnullified]) fun d => (hnullified d).symm
  · rw [hregistered]
    exact h.addressed.addCompleteAddress completeAddress

end

/-- **After every sequence of calls the tables hold the active and the nullified notes, and the
indexes lead to them.** -/
theorem run_inv (calls : List Call) (hok : AddsOk calls) : Inv (run calls) calls := by
  induction calls using List.reverseRecOn with
  | nil =>
    have hnone : ∀ d, ¬ Added [] d := by
      rintro d ⟨notes, hmem, -⟩
      cases hmem
    refine ⟨Stored.empty.congr (fun d => ?_) fun d => ?_, ⟨Leads.empty, Leads.empty⟩, ?_⟩
    · exact ⟨False.elim, fun hd => hnone d hd.1⟩
    · exact ⟨False.elim, fun hd => hnone d hd.added⟩
    · exact ⟨nofun, fun _ => rfl⟩
  | append_singleton calls c ih =>
    have h := ih hok.of_concat
    rw [run, List.foldl_append]
    cases c with
    | addNotes notes => exact h.addNotes hok
    | removeNullifiedNotes nullifiers account =>
      exact h.removeNullifiedNotes hok.of_concat.apart nullifiers account
    | addCompleteAddress completeAddress => exact h.addCompleteAddress completeAddress

/-! ### Exact answers -/

/-- The note satisfies the fields of the filter other than the owner. -/
structure SatisfiesRest (filter : NoteFilter) (d : NoteDao) : Prop where
  txHash : ∀ txHash, filter.txHash = some txHash → d.txHash = txHash
  contractAddress : ∀ address, filter.contractAddress = some address → d.contractAddress = address
  storageSlot : ∀ storageSlot, filter.storageSlot = some storageSlot → d.storageSlot = storageSlot

/-- The note satisfies every field of the filter.  The owner of a note is the address that is
registered with its public key. -/
structure Satisfies (calls : List Call) (filter : NoteFilter) (d : NoteDao) : Prop where
  rest : SatisfiesRest filter d
  owner : ∀ owner, filter.owner = some owner → ∃ completeAddress,
    registered calls owner = some completeAddress ∧ d.publicKey = completeAddress.publicKey

/-- **The exact answer to a filter**: the active notes that satisfy it, and then the nullified ones
when the filter asks for them, each once. -/
def Answers (calls : List Call) (filter : NoteFilter) (result : List NoteDao) : Prop :=
  ∃ active nullified, result = active ++ nullified ∧ result.Nodup ∧
    (∀ d, d ∈ active ↔ (Added calls d ∧ ¬ Nullified calls d) ∧ Satisfies calls filter d) ∧
    ∀ d, d ∈ nullified ↔ filter.status = some .activeOrNullified ∧ Nullified calls d ∧
      Satisfies calls filter d

/-- The note is one of those that the status of the filter asks for. -/
def Selected (calls : List Call) (filter : NoteFilter) (d : NoteDao) : Prop :=
  (Added calls d ∧ ¬ Nullified calls d) ∨
    filter.status = some .activeOrNullified ∧ Nullified calls d

section Answers

variable {calls : List Call} {filter : NoteFilter}

theorem passes_iff (publicKey : Option PublicKey) (filter : NoteFilter) (d : NoteDao) :
    passes publicKey filter d = true ↔
      SatisfiesRest filter d ∧ ∀ key, publicKey = some key → d.publicKey = key := by
  simp only [passes, Bool.and_eq_true, all_eq_true, decide_eq_true_eq]
  constructor
  · rintro ⟨⟨⟨hcontract, htxHash⟩, hslot⟩, hkey⟩
    exact ⟨⟨htxHash, hcontract, hslot⟩, hkey⟩
  · rintro ⟨⟨htxHash, hcontract, hslot⟩, hkey⟩
    exact ⟨⟨⟨hcontract, htxHash⟩, hslot⟩, hkey⟩

/-- The key that the database looks up for the owner of a filter. -/
def ownerKey (calls : List Call) (filter : NoteFilter) : Option PublicKey :=
  filter.owner.bind fun owner => (registered calls owner).map CompleteAddress.publicKey

theorem getNotes_split (hok : AddsOk calls) (filter : NoteFilter) :
    ∃ active nullified, getNotes (run calls) filter = active ++ nullified ∧
      (getNotes (run calls) filter).Nodup ∧
      (∀ d, d ∈ active ↔ (Added calls d ∧ ¬ Nullified calls d) ∧
        passes (ownerKey calls filter) filter d = true) ∧
      ∀ d, d ∈ nullified ↔ filter.status = some .activeOrNullified ∧ Nullified calls d ∧
        passes (ownerKey calls filter) filter d = true := by
  have h := run_inv calls hok
  have hkey : (filter.owner.bind fun owner =>
      (getCompleteAddress (run calls) owner).map CompleteAddress.publicKey) =
        ownerKey calls filter := by
    simp only [h.addressed.get, ownerKey]
  have hnotes : ∀ i d, (run calls).notes.get i = some d ↔
      (Added calls d ∧ ¬ Nullified calls d) ∧ d.index = i := h.stored.notes
  have hnullifiedNotes : ∀ i d, (run calls).nullifiedNotes.get i = some d ↔
      Nullified calls d ∧ d.index = i := h.stored.nullifiedNotes
  have hindex : ∀ i d, (run calls).notes.get i = some d → d.index = i :=
    fun i d hget => ((hnotes i d).1 hget).2
  have hindex' : ∀ i d, (run calls).nullifiedNotes.get i = some d → d.index = i :=
    fun i d hget => ((hnullifiedNotes i d).1 hget).2
  have hactive := h.led.notes.mem_notesOfSource hindex (ownerKey calls filter) filter
  have hnullified := h.led.nullifiedNotes.mem_notesOfSource hindex' (ownerKey calls filter) filter
  have hstatus : filter.status.getD .active = .activeOrNullified ↔
      filter.status = some .activeOrNullified := by
    cases filter.status with
    | none => simp
    | some status => simp
  rw [getNotes, hkey]
  refine ⟨_, _, rfl, ?_, fun d => ?_, fun d => ?_⟩
  · refine (nodup_notesOfSource hindex _ _).append ?_ fun d hd hd' => ?_
    · split
      · exact nodup_notesOfSource hindex' _ _
      · exact List.nodup_nil
    · split at hd'
      · exact ((hnotes _ d).1 ((hactive d).1 hd).1).1.2
          ((hnullifiedNotes _ d).1 ((hnullified d).1 hd').1).1
      · cases hd'
  · rw [hactive, hnotes]
    simp
  · split
    · next hboth =>
      rw [hnullified, hnullifiedNotes]
      simp [hstatus.1 hboth]
    · next hboth =>
      simp [mt hstatus.2 hboth]

theorem passes_iff_satisfies (howner : ∀ owner, filter.owner = some owner →
    (registered calls owner).isSome = true) (d : NoteDao) :
    passes (ownerKey calls filter) filter d = true ↔ Satisfies calls filter d := by
  rw [passes_iff, ownerKey]
  constructor
  · rintro ⟨hrest, hkey⟩
    refine ⟨hrest, fun owner hfilter => ?_⟩
    obtain ⟨completeAddress, hregistered⟩ := isSome_iff_exists.1 (howner owner hfilter)
    exact ⟨completeAddress, hregistered, hkey _ (by simp [hfilter, hregistered])⟩
  · rintro ⟨hrest, hsatisfies⟩
    refine ⟨hrest, fun key hkey => ?_⟩
    obtain ⟨owner, hfilter, hmap⟩ := bind_eq_some_iff.1 hkey
    obtain ⟨completeAddress, hregistered, rfl⟩ := map_eq_some_iff.1 hmap
    obtain ⟨completeAddress', hregistered', hd⟩ := hsatisfies owner hfilter
    rw [hregistered, some_inj] at hregistered'
    rw [hd, hregistered']

theorem passes_iff_rest {owner : Field} (hfilter : filter.owner = some owner)
    (hregistered : registered calls owner = none) (d : NoteDao) :
    passes (ownerKey calls filter) filter d = true ↔ SatisfiesRest filter d := by
  rw [passes_iff, ownerKey, hfilter]
  simp [hregistered]

end Answers

/-- **A query is answered exactly if and only if** the filter has no owner, or one that is
registered, or no note that its status asks for satisfies the rest of it. -/
theorem getNotes_answers_iff (calls : List Call) (hok : AddsOk calls) (filter : NoteFilter) :
    Answers calls filter (getNotes (run calls) filter) ↔
      (∀ owner, filter.owner = some owner → (registered calls owner).isSome = true) ∨
        ∀ d, Selected calls filter d → ¬ SatisfiesRest filter d := by
  obtain ⟨active, nullified, hresult, hnodup, hactive, hnullified⟩ := getNotes_split hok filter
  by_cases howner : ∀ owner, filter.owner = some owner → (registered calls owner).isSome = true
  · refine iff_of_true ⟨active, nullified, hresult, hnodup, fun d => ?_, fun d => ?_⟩ (.inl howner)
    · rw [hactive, passes_iff_satisfies howner]
    · rw [hnullified, passes_iff_satisfies howner]
  push Not at howner
  obtain ⟨owner, hfilter, hnone⟩ := howner
  have hregistered : registered calls owner = none := by
    cases hget : registered calls owner with
    | none => rfl
    | some completeAddress => exact absurd (by rw [hget]; rfl) hnone
  have hnever : ∀ d, ¬ Satisfies calls filter d := by
    intro d hd
    obtain ⟨completeAddress, hsome, -⟩ := hd.owner owner hfilter
    rw [hregistered] at hsome
    cases hsome
  have hmem : ∀ d, d ∈ getNotes (run calls) filter ↔
      Selected calls filter d ∧ SatisfiesRest filter d := by
    intro d
    rw [hresult, List.mem_append, hactive, hnullified, passes_iff_rest hfilter hregistered,
      Selected]
    tauto
  constructor
  · rintro ⟨active', nullified', hresult', -, hactive', hnullified'⟩
    refine .inr fun d hselected hrest => ?_
    have hd := (hmem d).2 ⟨hselected, hrest⟩
    rw [hresult', List.mem_append, hactive', hnullified'] at hd
    rcases hd with hd | hd
    · exact hnever d hd.2
    · exact hnever d hd.2.2
  · rintro (hall | hno)
    · exact absurd (hall owner hfilter) hnone
    · have hempty : getNotes (run calls) filter = [] := by
        rw [List.eq_nil_iff_forall_not_mem]
        intro d hd
        exact hno d ((hmem d).1 hd).1 ((hmem d).1 hd).2
      refine ⟨[], [], by rw [hempty]; rfl, by rw [hempty]; exact List.nodup_nil,
        fun d => ?_, fun d => ?_⟩
      · exact iff_of_false (List.not_mem_nil) fun hd => hnever d hd.2
      · exact iff_of_false (List.not_mem_nil) fun hd => hnever d hd.2.2

/-! ### A filter with an owner and with nullified notes -/

namespace Registered

def note : NoteDao := ⟨[7], 1, 2, 3, 4, 5, 6, 8, 0, (9, 10)⟩

def spent : NoteDao := ⟨[7], 1, 2, 3, 4, 15, 16, 18, 1, (9, 10)⟩

def calls : List Call := [.addCompleteAddress ⟨11, (9, 10), 12⟩, .addNotes [note, spent],
  .removeNullifiedNotes [77, spent.siloedNullifier] (9, 10)]

def filter : NoteFilter :=
  ⟨some note.txHash, some note.contractAddress, some note.storageSlot, some 11,
    some .activeOrNullified⟩

theorem mem_calls {d : NoteDao} : Added calls d ↔ d = note ∨ d = spent := by
  simp [Added, calls]

/-- The notes are added before the only call that nullifies one. -/
theorem addsOk : AddsOk calls := by
  refine ⟨⟨fun hd hd' h => ?_, fun hd hd' h => ?_⟩, fun before notes after h d _ => ?_⟩
  · rcases mem_calls.1 hd with rfl | rfl <;> rcases mem_calls.1 hd' with rfl | rfl
    all_goals first | rfl | cases h
  · rcases mem_calls.1 hd with rfl | rfl <;> rcases mem_calls.1 hd' with rfl | rfl
    all_goals first | rfl | cases h
  · obtain ⟨c, rfl⟩ : ∃ c, before = [.addCompleteAddress c] := by
      rcases before with _ | ⟨c, _ | ⟨c', _ | ⟨c'', before⟩⟩⟩
      all_goals simp_all [calls]
      exact ⟨_, h.1.symm⟩
    rintro ⟨before', nullifiers, after', h', -, -⟩
    have hmem : Call.removeNullifiedNotes nullifiers d.publicKey ∈
        [Call.addCompleteAddress c] := by
      rw [h']
      simp
    simp at hmem

end Registered

open Registered in
/-- All the fields are given, and one of the two notes is nullified. -/
theorem getNotes_answers_iff_registered : Answers calls filter (getNotes (run calls) filter) := by
  refine (getNotes_answers_iff calls addsOk filter).2 (.inl fun owner howner => ?_)
  cases howner
  decide

/-! ### A filter by an owner that is not registered -/

namespace Unregistered

def note : NoteDao := ⟨[7], 1, 2, 3, 4, 5, 6, 8, 0, (9, 10)⟩

def calls : List Call := [.addNotes [note]]

def filter : NoteFilter := ⟨none, none, none, some 11, none⟩

theorem mem_calls {d : NoteDao} : Added calls d ↔ d = note := by
  simp [Added, calls]

theorem not_nullified {before after : List Call} (h : calls = before ++ after) (d : NoteDao) :
    ¬ Nullified before d := by
  rintro ⟨before', nullifiers, after', rfl, -, -⟩
  have hmem : Call.removeNullifiedNotes nullifiers d.publicKey ∈ calls := by
    rw [h]
    simp
  simp [calls] at hmem

theorem addsOk : AddsOk calls := by
  refine ⟨⟨fun hd hd' _ => ?_, fun hd hd' _ => ?_⟩, fun before notes after h d _ => ?_⟩
  · rw [mem_calls.1 hd, mem_calls.1 hd']
  · rw [mem_calls.1 hd, mem_calls.1 hd']
  · exact not_nullified h d

end Unregistered

open Unregistered in
/-- **A filter by an owner that is not registered is answered with the notes of others.** -/
theorem not_answers : ¬ ∀ calls, AddsOk calls → ∀ filter,
    Answers calls filter (getNotes (run calls) filter) := by
  intro h
  obtain ⟨active, nullified, hresult, -, hactive, hnullified⟩ := h calls addsOk filter
  have hget : getNotes (run calls) filter = [note] := by decide +kernel
  have hmem : note ∈ active ++ nullified := by
    rw [← hresult, hget]
    exact List.mem_singleton_self note
  have hnever : ¬ Satisfies calls filter note := by
    intro hd
    obtain ⟨completeAddress, hsome, -⟩ := hd.owner 11 rfl
    cases hsome
  rcases List.mem_append.1 hmem with hd | hd
  · exact hnever ((hactive note).1 hd).2
  · exact hnever ((hnullified note).1 hd).2.2

end NoteDatabase
