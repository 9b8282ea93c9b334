/-
**A contract that is added later.**

When a contract is added, the notes that were kept back for it are decoded and removed, and those
that are nullified in the tree of the node are marked so.  This module runs the note processors of
the accounts of a client, its database and the reprocessing together, and compares a run with the
one in which all contracts were known from the start.  The two can differ in two ways: each deferred
note is decoded with a set of excluded indexes of its own, and the notes of accounts that are still
catching up are removed without being decoded.
-/

import Aztec.DeferredNotes

open List Function

namespace DeferredNotes

open Noir Failing PrivateKernel NoteNonces NoteDiscovery

/-! ### The database -/

/-- The notes in `KVPxeDatabase`.  The maps that are only looked through are left out. -/
structure Database where
  notes : ℕ → Option NoteDao
  nullifiedNotes : ℕ → Option NoteDao
  nullifierToNoteId : Field → Option ℕ
  deferredNotes : List DeferredNote

def Database.empty : Database :=
  ⟨fun _ => none, fun _ => none, fun _ => none, []⟩

/-- The turn of the loop of `addNotes`. -/
def addNote (db : Database) (dao : NoteDao) : Database :=
  { db with
    notes := Function.update db.notes dao.index (some dao)
    nullifierToNoteId :=
      Function.update db.nullifierToNoteId dao.siloedNullifier (some dao.index) }

def addNotes (db : Database) (notes : List NoteDao) : Database :=
  notes.foldl addNote db

/-- The turn of the loop of `removeNullifiedNotes`. -/
def removeNullifiedNote (account : PublicKey) (db : Database) (nullifier : Field) : Database :=
  match db.nullifierToNoteId nullifier with
  | none => db
  | some noteIndex =>
    match db.notes noteIndex with
    | none => db
    | some note =>
      if note.publicKey = account then
        { db with
          notes := Function.update db.notes noteIndex none
          nullifiedNotes := Function.update db.nullifiedNotes noteIndex (some note)
          nullifierToNoteId := Function.update db.nullifierToNoteId nullifier none }
      else db

def removeNullifiedNotes (db : Database) (nullifiers : List Field) (account : PublicKey) :
    Database :=
  nullifiers.foldl (removeNullifiedNote account) db

def addDeferredNotes (db : Database) (notes : List DeferredNote) : Database :=
  { db with deferredNotes := db.deferredNotes ++ notes }

def getDeferredNotesByContract (db : Database) (contractAddress : Field) : List DeferredNote :=
  db.deferredNotes.filter (·.payload.contractAddress = contractAddress)

def removeDeferredNotesByContract (db : Database) (contractAddress : Field) : Database :=
  { db with
    deferredNotes := db.deferredNotes.filter (·.payload.contractAddress ≠ contractAddress) }

@[simp] theorem addNotes_deferredNotes (notes : List NoteDao) :
    ∀ db, (addNotes db notes).deferredNotes = db.deferredNotes := by
  induction notes with
  | nil => exact fun _ => rfl
  | cons dao notes ih => exact fun db => ih (addNote db dao)

@[simp] theorem removeNullifiedNote_deferredNotes (account : PublicKey) (db : Database)
    (nullifier : Field) :
    (removeNullifiedNote account db nullifier).deferredNotes = db.deferredNotes := by
  rw [removeNullifiedNote]
  split
  · rfl
  · split
    · rfl
    · split <;> rfl

@[simp] theorem removeNullifiedNotes_deferredNotes (account : PublicKey) (nullifiers : List Field) :
    ∀ db, (removeNullifiedNotes db nullifiers account).deferredNotes = db.deferredNotes := by
  induction nullifiers with
  | nil => exact fun _ => rfl
  | cons nullifier nullifiers ih =>
    exact fun db => (ih _).trans (removeNullifiedNote_deferredNotes account db nullifier)

section Stored

variable {db : Database} {A N U : NoteDao → Prop}

/-- The active notes are `A` and the nullified ones are `N`. -/
structure Stored (db : Database) (A N : NoteDao → Prop) : Prop where
  notes : ∀ i d, db.notes i = some d ↔ A d ∧ d.index = i
  nullifiedNotes : ∀ i d, db.nullifiedNotes i = some d ↔ N d ∧ d.index = i
  nullifierToNoteId : ∀ n i, db.nullifierToNoteId n = some i ↔
    ∃ d, A d ∧ d.siloedNullifier = n ∧ d.index = i

/-- No two notes share their place in the tree or their nullifier. -/
structure Apart (U : NoteDao → Prop) : Prop where
  index : ∀ {d d'}, U d → U d' → d.index = d'.index → d = d'
  siloedNullifier : ∀ {d d'}, U d → U d' → d.siloedNullifier = d'.siloedNullifier → d = d'

theorem Stored.congr (h : Stored db A N) {A' N' : NoteDao → Prop} (hA : ∀ d, A d ↔ A' d)
    (hN : ∀ d, N d ↔ N' d) : Stored db A' N' := by
  obtain rfl : A = A' := funext fun d => propext (hA d)
  obtain rfl : N = N' := funext fun d => propext (hN d)
  exact h

theorem Stored.deferredNotes (h : Stored db A N) (deferredNotes : List DeferredNote) :
    Stored { db with deferredNotes := deferredNotes } A N :=
  ⟨h.notes, h.nullifiedNotes, h.nullifierToNoteId⟩

theorem Stored.empty : Stored Database.empty (fun _ => False) fun _ => False := by
  refine ⟨fun i d => ?_, fun i d => ?_, fun n i => ?_⟩ <;> simp [Database.empty]

theorem Stored.addNote (h : Stored db A N) (hapart : Apart U) (hA : ∀ d, A d → U d)
    {dao : NoteDao} (hdao : U dao) : Stored (addNote db dao) (fun d => A d ∨ d = dao) N := by
  refine ⟨fun i d => ?_, h.nullifiedNotes, fun n i => ?_⟩
  · by_cases hi : i = dao.index
    · subst hi
      simp only [DeferredNotes.addNote, update_self, Option.some.injEq]
      constructor
      · rintro rfl
        exact ⟨.inr rfl, rfl⟩
      · rintro ⟨hd | rfl, hindex⟩
        · exact (hapart.index (hA _ hd) hdao hindex).symm
        · rfl
    · simp only [DeferredNotes.addNote, update_of_ne hi, h.notes]
      constructor
      · exact fun ⟨hd, hindex⟩ => ⟨.inl hd, hindex⟩
      · rintro ⟨hd | rfl, hindex⟩
        · exact ⟨hd, hindex⟩
        · exact absurd hindex.symm hi
  · by_cases hn : n = dao.siloedNullifier
    · subst hn
      simp only [DeferredNotes.addNote, update_self, Option.some.injEq]
      constructor
      · rintro rfl
        exact ⟨dao, .inr rfl, rfl, rfl⟩
      · rintro ⟨d, hd | rfl, hnullifier, rfl⟩
        · rw [hapart.siloedNullifier (hA _ hd) hdao hnullifier]
        · rfl
    · simp only [DeferredNotes.addNote, update_of_ne hn, h.nullifierToNoteId]
      constructor
      · rintro ⟨d, hd, hrest⟩
        exact ⟨d, .inl hd, hrest⟩
      · rintro ⟨d, hd | rfl, hnullifier, hindex⟩
        · exact ⟨d, hd, hnullifier, hindex⟩
        · exact absurd hnullifier.symm hn

theorem Stored.addNotes (hapart : Apart U) (notes : List NoteDao) :
    ∀ {db : Database} {A : NoteDao → Prop}, Stored db A N → (∀ d, A d → U d) →
      (∀ d ∈ notes, U d) → Stored (addNotes db notes) (fun d => A d ∨ d ∈ notes) N := by
  induction notes with
  | nil =>
    intro db A h _ _
    exact h.congr (by simp) fun _ => Iff.rfl
  | cons dao notes ih =>
    intro db A h hA hnotes
    have hdao : U dao := hnotes dao mem_cons_self
    have hrest := ih (h.addNote hapart hA hdao) (by rintro d (hd | rfl); exacts [hA d hd, hdao])
      fun d hd => hnotes d (mem_cons_of_mem _ hd)
    exact hrest.congr (by simp [or_assoc]) fun _ => Iff.rfl

theorem Stored.removeNullifiedNote (h : Stored db A N) (hapart : Apart U) (hA : ∀ d, A d → U d)
    (hN : ∀ d, N d → U d) (account : PublicKey) (nullifier : Field) :
    Stored (removeNullifiedNote account db nullifier)
      (fun d => A d ∧ ¬ (d.siloedNullifier = nullifier ∧ d.publicKey = account))
      (fun d => N d ∨ A d ∧ d.siloedNullifier = nullifier ∧ d.publicKey = account) := by
  -- nothing is removed when no active note of the account has the nullifier
  have hnone (hno : ∀ d, A d → d.siloedNullifier = nullifier → d.publicKey ≠ account) :
      Stored db (fun d => A d ∧ ¬ (d.siloedNullifier = nullifier ∧ d.publicKey = account))
        (fun d => N d ∨ A d ∧ d.siloedNullifier = nullifier ∧ d.publicKey = account) :=
    h.congr (fun d => ⟨fun hd => ⟨hd, fun hn => hno d hd hn.1 hn.2⟩, And.left⟩)
      fun d => ⟨.inl, fun hd => hd.resolve_right fun hd => hno d hd.1 hd.2.1 hd.2.2⟩
  rw [DeferredNotes.removeNullifiedNote]
  cases hid : db.nullifierToNoteId nullifier with
  | none =>
    refine hnone fun d hd hnullifier _ => ?_
    have hsome := (h.nullifierToNoteId nullifier d.index).2 ⟨d, hd, hnullifier, rfl⟩
    rw [hid] at hsome
    cases hsome
  | some noteIndex =>
    obtain ⟨note, hnote, rfl, rfl⟩ := (h.nullifierToNoteId _ _).1 hid
    have hget := (h.notes note.index note).2 ⟨hnote, rfl⟩
    have honly : ∀ d, A d → d.siloedNullifier = note.siloedNullifier → d = note :=
      fun d hd => hapart.siloedNullifier (hA d hd) (hA note hnote)
    simp only [hget]
    by_cases hkey : note.publicKey = account
    · rw [if_pos hkey]
      refine ⟨fun i d => ?_, fun i d => ?_, fun n i => ?_⟩
      · by_cases hi : i = note.index
        · subst hi
          simp only [update_self]
          refine iff_of_false nofun fun ⟨⟨hd, hkept⟩, hindex⟩ => hkept ?_
          rw [hapart.index (hA d hd) (hA note hnote) hindex]
          exact ⟨rfl, hkey⟩
        · simp only [update_of_ne hi, h.notes]
          refine ⟨fun ⟨hd, hindex⟩ => ⟨⟨hd, fun hn => hi ?_⟩, hindex⟩,
            fun ⟨⟨hd, _⟩, hindex⟩ => ⟨hd, hindex⟩⟩
          rw [← hindex, honly d hd hn.1]
      · by_cases hi : i = note.index
        · subst hi
          simp only [update_self, Option.some.injEq]
          constructor
          · rintro rfl
            exact ⟨.inr ⟨hnote, rfl, hkey⟩, rfl⟩
          · rintro ⟨hd | ⟨hd, -, -⟩, hindex⟩
            · exact (hapart.index (hN d hd) (hA note hnote) hindex).symm
            · exact (hapart.index (hA d hd) (hA note hnote) hindex).symm
        · simp only [update_of_ne hi, h.nullifiedNotes]
          constructor
          · exact fun ⟨hd, hindex⟩ => ⟨.inl hd, hindex⟩
          · rintro ⟨hd | ⟨hd, hn, -⟩, hindex⟩
            · exact ⟨hd, hindex⟩
            · exact absurd (by rw [← hindex, honly d hd hn]) hi
      · by_cases hn : n = note.siloedNullifier
        · subst hn
          simp only [update_self]
          refine iff_of_false nofun ?_
          rintro ⟨d, ⟨hd, hkept⟩, hnullifier, -⟩
          exact hkept ⟨hnullifier, honly d hd hnullifier ▸ hkey⟩
        · simp only [update_of_ne hn, h.nullifierToNoteId]
          constructor
          · rintro ⟨d, hd, hnullifier, hindex⟩
            exact ⟨d, ⟨hd, fun hgone => hn (hnullifier.symm.trans hgone.1)⟩, hnullifier, hindex⟩
          · rintro ⟨d, ⟨hd, -⟩, hrest⟩
            exact ⟨d, hd, hrest⟩
    · rw [if_neg hkey]
      exact hnone fun d hd hnullifier => honly d hd hnullifier ▸ hkey

theorem Stored.removeNullifiedNotes (hapart : Apart U) (account : PublicKey)
    (nullifiers : List Field) :
    ∀ {db : Database} {A N : NoteDao → Prop}, Stored db A N → (∀ d, A d → U d) →
      (∀ d, N d → U d) → Stored (removeNullifiedNotes db nullifiers account)
        (fun d => A d ∧ ¬ (d.siloedNullifier ∈ nullifiers ∧ d.publicKey = account))
        (fun d => N d ∨ A d ∧ d.siloedNullifier ∈ nullifiers ∧ d.publicKey = account) := by
  induction nullifiers with
  | nil =>
    intro db A N h _ _
    exact h.congr (by simp) (by simp)
  | cons nullifier nullifiers ih =>
    intro db A N h hA hN
    have hrest := ih (h.removeNullifiedNote hapart hA hN account nullifier)
      (fun d hd => hA d hd.1) (by rintro d (hd | hd); exacts [hN d hd, hA d hd.1])
    refine hrest.congr (fun d => ?_) fun d => ?_
    · simp only [mem_cons]
      tauto
    · simp only [mem_cons]
      tauto

def relevantNullifiers (tree : List Field) (newNotes : List NoteDao) (publicKey : PublicKey) :
    List Field :=
  ((newNotes.filter (·.publicKey = publicKey)).map NoteDao.siloedNullifier).filter (· ∈ tree)

/-- The loop that looks for the nullifiers of the new notes in the tree of the node, for the
accounts that have new notes. -/
def removeFound (tree : List Field) (newNotes : List NoteDao) (publicKeys : List PublicKey)
    (db : Database) : Database :=
  publicKeys.foldl (fun db publicKey =>
    removeNullifiedNotes db (relevantNullifiers tree newNotes publicKey) publicKey) db

@[simp] theorem removeFound_deferredNotes (tree : List Field) (newNotes : List NoteDao)
    (publicKeys : List PublicKey) :
    ∀ db, (DeferredNotes.removeFound tree newNotes publicKeys db).deferredNotes =
      db.deferredNotes := by
  induction publicKeys with
  | nil => exact fun _ => rfl
  | cons publicKey publicKeys ih =>
    exact fun db => (ih _).trans (removeNullifiedNotes_deferredNotes publicKey _ db)

theorem Stored.removeFound (hapart : Apart U) (tree : List Field) (newNotes : List NoteDao)
    (publicKeys : List PublicKey) :
    ∀ {db : Database} {A N : NoteDao → Prop}, Stored db A N → (∀ d, A d → U d) →
      (∀ d, N d → U d) → Stored (removeFound tree newNotes publicKeys db)
        (fun d => A d ∧ ¬ (d.publicKey ∈ publicKeys ∧
          d.siloedNullifier ∈ relevantNullifiers tree newNotes d.publicKey))
        (fun d => N d ∨ A d ∧ d.publicKey ∈ publicKeys ∧
          d.siloedNullifier ∈ relevantNullifiers tree newNotes d.publicKey) := by
  induction publicKeys with
  | nil =>
    intro db A N h _ _
    exact h.congr (by simp) (by simp)
  | cons publicKey publicKeys ih =>
    intro db A N h hA hN
    have hrest := ih (h.removeNullifiedNotes hapart publicKey
        (relevantNullifiers tree newNotes publicKey) hA hN)
      (fun d hd => hA d hd.1) (by rintro d (hd | hd); exacts [hN d hd, hA d hd.1])
    refine hrest.congr (fun d => ?_) fun d => ?_
    · by_cases hkey : d.publicKey = publicKey
      · subst hkey
        simp only [mem_cons, true_or, true_and, and_true]
        tauto
      · simp only [mem_cons, hkey, false_or, and_false, not_false_eq_true, and_true]
    · by_cases hkey : d.publicKey = publicKey
      · subst hkey
        simp only [mem_cons, true_or, true_and, and_true]
        tauto
      · simp only [mem_cons, hkey, false_or, and_false, not_false_eq_true, and_true, or_false]

theorem Stored.removeNew (hapart : Apart U) (tree : List Field) (newNotes : List NoteDao)
    (h : Stored db A N) (hA : ∀ d, A d → U d) (hN : ∀ d, N d → U d) (hnew : ∀ d ∈ newNotes, U d) :
    Stored (DeferredNotes.removeFound tree newNotes (newNotes.map NoteDao.publicKey).eraseDups db)
      (fun d => A d ∧ ¬ (d ∈ newNotes ∧ d.siloedNullifier ∈ tree))
      (fun d => N d ∨ A d ∧ d ∈ newNotes ∧ d.siloedNullifier ∈ tree) := by
  have hiff : ∀ d, A d → ((d.publicKey ∈ (newNotes.map NoteDao.publicKey).eraseDups ∧
      d.siloedNullifier ∈ relevantNullifiers tree newNotes d.publicKey) ↔
        d ∈ newNotes ∧ d.siloedNullifier ∈ tree) := by
    intro d hd
    simp only [relevantNullifiers, mem_filter, mem_map, decide_eq_true_eq]
    constructor
    · rintro ⟨-, ⟨d', ⟨hd', -⟩, hnullifier⟩, htree⟩
      rw [hapart.siloedNullifier (hA d hd) (hnew d' hd') hnullifier.symm]
      exact ⟨hd', hnullifier ▸ htree⟩
    · rintro ⟨hmem, htree⟩
      exact ⟨mem_eraseDups.2 (mem_map_of_mem hmem), ⟨d, ⟨hmem, rfl⟩, rfl⟩, htree⟩
  refine (Stored.removeFound hapart tree newNotes _ h hA hN).congr (fun d => ?_) fun d => ?_
  · exact and_congr_right fun hd => not_congr (hiff d hd)
  · exact or_congr_right (and_congr_right fun hd => hiff d hd)

end Stored

/-! ### The note processor of an account -/

abbrev Block := List TxEffect

def nullifiersOf (block : Block) : List Field :=
  block.flatMap TxEffect.newNullifiers

variable (o : Outside)

def notesOf (known : List Field) (publicKey : PublicKey) (block : Block) : List NoteDao :=
  block.flatMap fun tx => (decodeTx o known publicKey tx).noteDaos

def deferredIn (known : List Field) (publicKey : PublicKey) (block : Block) : List DeferredNote :=
  block.flatMap fun tx => (decodeTx o known publicKey tx).deferred

/-- `NoteProcessor.process`, with `processBlocksAndNotes` and `processDeferredNotes`. -/
def process (known : List Field) (publicKey : PublicKey) (blocks : List Block) (db : Database) :
    Database :=
  let db := addNotes db (blocks.flatMap (notesOf o known publicKey))
  let db := removeNullifiedNotes db (blocks.flatMap nullifiersOf) publicKey
  addDeferredNotes db (blocks.flatMap (deferredIn o known publicKey))

/-- `NoteProcessor.decodeDeferredNotes`: the notes share a set of excluded indexes. -/
def decodeDeferredNotes (known : List Field) (publicKey : PublicKey) (notes : List DeferredNote) :
    List NoteDao :=
  (notes.foldl (fun (s : List NoteDao × List ℕ) note =>
    match produceNoteDao o.hashes (simulatorOf o known) publicKey note.payload note.txHash
        note.newNoteHashes note.dataStartIndexForTx s.2 with
    | .ok (noteDao, excludedIndices) => (s.1 ++ [noteDao], excludedIndices)
    | .error _ => s) ([], [])).1

/-! ### The synchronizer -/

/-- The synchronizer with its database, and the number of blocks that the node has. -/
structure State where
  noteProcessors : List PublicKey
  noteProcessorsToCatchUp : List PublicKey
  syncedToBlock : PublicKey → ℕ
  known : List Field
  db : Database
  latest : ℕ

/-- The groups of deferred notes that `reprocessDeferredNotesForContract` makes.  The keys of its
map are the objects of the transaction hashes, and the database makes a new one for each note that
it reads, so that no two notes come into one group. -/
def txHashToDeferredNotes (notes : List DeferredNote) : List (List DeferredNote) :=
  notes.map fun note => [note]

/-- The notes that `reprocessDeferredNotesForContract` decodes. -/
def decodeGroups (known : List Field) (noteProcessors : List PublicKey)
    (groups : List (List DeferredNote)) : List NoteDao :=
  groups.flatMap fun deferredNotes => noteProcessors.flatMap fun processor =>
    decodeDeferredNotes o known processor (deferredNotes.filter (·.publicKey = processor))

def reprocessDeferredNotesForContract (chain : List Block) (contractAddress : Field) (s : State) :
    Database :=
  let newNotes := decodeGroups o s.known s.noteProcessors
    (txHashToDeferredNotes (getDeferredNotesByContract s.db contractAddress))
  let db := addNotes (removeDeferredNotesByContract s.db contractAddress) newNotes
  removeFound ((chain.take s.latest).flatMap nullifiersOf) newNotes
    (newNotes.map NoteDao.publicKey).eraseDups db

/-- What happens to a client.  An order of steps that the synchronizer would not choose is a run
too. -/
inductive Step where
  | newBlocks (n : ℕ)
  | addAccount (publicKey : PublicKey)
  | process (publicKey : PublicKey) (limit : ℕ)
  | caughtUp (publicKey : PublicKey)
  | addContract (contractAddress : Field)

def batch (chain : List Block) (s : State) (publicKey : PublicKey) (limit : ℕ) : List Block :=
  ((chain.take s.latest).drop (s.syncedToBlock publicKey)).take limit

def step (chain : List Block) (s : State) : Step → State
  | .newBlocks n => { s with latest := min (s.latest + n) chain.length }
  | .addAccount publicKey =>
    if publicKey ∈ s.noteProcessors ∨ publicKey ∈ s.noteProcessorsToCatchUp then s
    else { s with noteProcessorsToCatchUp := s.noteProcessorsToCatchUp ++ [publicKey] }
  | .process publicKey limit =>
    if publicKey ∈ s.noteProcessors ∨ publicKey ∈ s.noteProcessorsToCatchUp then
      { s with
        db := process o s.known publicKey (batch chain s publicKey limit) s.db
        syncedToBlock := Function.update s.syncedToBlock publicKey
          (s.syncedToBlock publicKey + (batch chain s publicKey limit).length) }
    else s
  | .caughtUp publicKey =>
    if publicKey ∈ s.noteProcessorsToCatchUp then
      { s with
        noteProcessorsToCatchUp := s.noteProcessorsToCatchUp.filter (· ≠ publicKey)
        noteProcessors := s.noteProcessors ++ [publicKey] }
    else s
  | .addContract contractAddress =>
    let s := { s with known := s.known ++ [contractAddress] }
    { s with db := reprocessDeferredNotesForContract o chain contractAddress s }

def run (chain : List Block) (s : State) (steps : List Step) : State :=
  steps.foldl (step o chain) s

/-- A client whose accounts start after some blocks, with an empty database. -/
def initial (start : PublicKey → ℕ) (known : List Field) : State :=
  ⟨[], [], start, known, Database.empty, 0⟩

def added (steps : List Step) : List Field :=
  steps.filterMap fun
    | .addContract contractAddress => some contractAddress
    | _ => none

def AllSynced (chain : List Block) (s : State) : Prop :=
  s.latest = chain.length ∧ ∀ publicKey ∈ s.noteProcessors ++ s.noteProcessorsToCatchUp,
    s.syncedToBlock publicKey = chain.length

/-- **When nothing is lost**: the notes of a transaction that are deferred have different note
hashes, and when a contract is added, the accounts of its deferred notes have caught up. -/
def StepOk (chain : List Block) (all : List Field) (s : State) : Step → Prop
  | .process publicKey limit => ∀ block ∈ batch chain s publicKey limit, ∀ tx ∈ block,
      (tx.payloads publicKey).Pairwise (NoTwin o all s.known)
  | .addContract contractAddress => ∀ note ∈ s.db.deferredNotes,
      note.payload.contractAddress = contractAddress → note.publicKey ∈ s.noteProcessors
  | _ => True

def StepsOk (chain : List Block) (all : List Field) : State → List Step → Prop
  | _, [] => True
  | s, x :: steps => StepOk o chain all s x ∧ StepsOk chain all (step o chain s x) steps

def NoteAt (all : List Field) (chain : List Block) (i : ℕ) (d : NoteDao) : Prop :=
  ∃ block, chain[i]? = some block ∧ d ∈ notesOf o all d.publicKey block

def NullifiedBefore (chain : List Block) (n : ℕ) (d : NoteDao) : Prop :=
  d.siloedNullifier ∈ (chain.take n).flatMap nullifiersOf

/-- The notes of a chain have places and nullifiers of their own, so that no note is one of two
accounts, and are not nullified before the block that has them. -/
structure ChainOk (all : List Field) (chain : List Block) : Prop where
  hashes : ∀ block ∈ chain, ∀ tx ∈ block, ∀ publicKey, HashesOk o tx (tx.payloads publicKey)
  index : ∀ {i j d d'}, NoteAt o all chain i d → NoteAt o all chain j d' → d.index = d'.index →
    i = j ∧ d = d'
  siloedNullifier : ∀ {i j d d'}, NoteAt o all chain i d → NoteAt o all chain j d' →
    d.siloedNullifier = d'.siloedNullifier → d = d'
  later : ∀ {i d}, NoteAt o all chain i d → ¬ NullifiedBefore chain i d

section Blocks

variable {o} {all known : List Field} {publicKey : PublicKey} {block : Block}

theorem mem_notesOf (hok : ∀ tx ∈ block, HashesOk o tx (tx.payloads publicKey))
    (hsub : ∀ address ∈ known, address ∈ all)
    (htwins : ∀ tx ∈ block, (tx.payloads publicKey).Pairwise (NoTwin o all known)) (d : NoteDao) :
    d ∈ notesOf o known publicKey block ↔
      d ∈ notesOf o all publicKey block ∧ d.contractAddress ∈ known := by
  simp only [notesOf, mem_flatMap]
  constructor
  · rintro ⟨tx, htx, hd⟩
    have hlock := decodeTx_lock (hok tx htx) hsub (htwins tx htx)
    obtain ⟨hd, hknown⟩ := (hlock.noteDaos d).1 hd
    exact ⟨⟨tx, htx, hd⟩, hknown⟩
  · rintro ⟨⟨tx, htx, hd⟩, hknown⟩
    have hlock := decodeTx_lock (hok tx htx) hsub (htwins tx htx)
    exact ⟨tx, htx, (hlock.noteDaos d).2 ⟨hd, hknown⟩⟩

variable {d : NoteDao} {e : DeferredNote}

section

variable (hok : ∀ tx ∈ block, HashesOk o tx (tx.payloads publicKey))
include hok

section

variable (hsub : ∀ address ∈ known, address ∈ all)
  (htwins : ∀ tx ∈ block, (tx.payloads publicKey).Pairwise (NoTwin o all known))
include hsub htwins

theorem deferredIn_cover (hd : d ∈ notesOf o all publicKey block) (hknown : d.contractAddress ∉ known) :
    ∃ e ∈ deferredIn o known publicKey block,
      e.payload.contractAddress = d.contractAddress ∧ decodeDeferredNote o all e = some d := by
  obtain ⟨tx, htx, hd⟩ := mem_flatMap.1 hd
  have hlock := decodeTx_lock (hok tx htx) hsub (htwins tx htx)
  obtain ⟨e, he, hrest⟩ := hlock.deferred d hd hknown
  exact ⟨e, mem_flatMap.2 ⟨tx, htx, he⟩, hrest⟩

theorem deferredIn_sound (he : e ∈ deferredIn o known publicKey block) :
    e.publicKey = publicKey ∧ e.payload.contractAddress ∉ known ∧
      (e.payload.contractAddress ∈ all → ∀ d, decodeDeferredNote o all e = some d →
        d ∈ notesOf o all publicKey block) := by
  obtain ⟨tx, htx, he⟩ := mem_flatMap.1 he
  have hlock := decodeTx_lock (hok tx htx) hsub (htwins tx htx)
  obtain ⟨hkey, hknown, hsound⟩ := hlock.sound e he
  exact ⟨hkey, hknown, fun hall d hd => mem_flatMap.2 ⟨tx, htx, hsound hall d hd⟩⟩

end

theorem notesOf_owner (hd : d ∈ notesOf o all publicKey block) :
    d.publicKey = publicKey ∧ d.contractAddress ∈ all := by
  obtain ⟨tx, htx, hd⟩ := mem_flatMap.1 hd
  have hlock : Lock o all all publicKey tx _ _ _ := decodeTx_lock (hok tx htx) (fun _ h => h)
    (pairwise_of_forall fun _ _ hall hknown => absurd hall hknown)
  exact hlock.owner d hd

end

theorem decodeDeferredNote_find (known : List Field) (e : DeferredNote) :
    decodeDeferredNote o known e =
      (findCommitment o.hashes (simulatorOf o known) e.txHash e.payload [] 0 none
        e.newNoteHashes).toOption.map (noteDaoOf o e.publicKey
          ⟨e.txHash, e.newNoteHashes, [], e.dataStartIndexForTx, fun _ => []⟩ e.payload) := by
  have he : e = deferredOf e.publicKey
    ⟨e.txHash, e.newNoteHashes, [], e.dataStartIndexForTx, fun _ => []⟩ e.payload := rfl
  conv_lhs => rw [he]
  exact decodeDeferredNote_eq

theorem decodeDeferredNote_owner (h : decodeDeferredNote o known e = some d) :
    d.publicKey = e.publicKey ∧ d.contractAddress = e.payload.contractAddress := by
  rw [decodeDeferredNote_find] at h
  obtain ⟨found, -, rfl⟩ := Option.map_eq_some_iff.1 h
  exact ⟨rfl, rfl⟩

theorem decodeDeferredNote_congr (h : e.payload.contractAddress ∈ known)
    (h' : e.payload.contractAddress ∈ all) :
    decodeDeferredNote o known e = decodeDeferredNote o all e := by
  rw [decodeDeferredNote_find, decodeDeferredNote_find,
    find_congr h h' e.newNoteHashes 0 none none fun _ _ _ _ => .inl Iff.rfl]

theorem decodeDeferredNotes_singleton (e : DeferredNote) :
    decodeDeferredNotes o known e.publicKey [e] = (decodeDeferredNote o known e).toList := by
  rw [decodeDeferredNotes, decodeDeferredNote, foldl_cons, foldl_nil]
  cases produceNoteDao o.hashes (simulatorOf o known) e.publicKey e.payload e.txHash
    e.newNoteHashes e.dataStartIndexForTx [] <;> rfl

theorem mem_decodeGroups {noteProcessors : List PublicKey} {notes : List DeferredNote}
    (d : NoteDao) : d ∈ decodeGroups o known noteProcessors (txHashToDeferredNotes notes) ↔
      ∃ e ∈ notes, e.publicKey ∈ noteProcessors ∧ decodeDeferredNote o known e = some d := by
  simp only [decodeGroups, txHashToDeferredNotes, flatMap_map, mem_flatMap]
  constructor
  · rintro ⟨e, he, processor, hprocessor, hd⟩
    by_cases hkey : e.publicKey = processor
    · subst hkey
      rw [filter_cons_of_pos (by simp), filter_nil, decodeDeferredNotes_singleton] at hd
      exact ⟨e, he, hprocessor, by simpa using hd⟩
    · rw [filter_cons_of_neg (by simpa using hkey), filter_nil] at hd
      cases hd
  · rintro ⟨e, he, hprocessor, hd⟩
    refine ⟨e, he, e.publicKey, hprocessor, ?_⟩
    rw [filter_cons_of_pos (by simp), filter_nil, decodeDeferredNotes_singleton]
    simpa using hd

end Blocks

section Invariant

variable {o} {all : List Field} {chain : List Block} {start : PublicKey → ℕ} {s : State}
  {A N : NoteDao → Prop}

/-- A note of a block that its account has processed. -/
def Seen (o : Outside) (all : List Field) (chain : List Block) (start : PublicKey → ℕ) (s : State)
    (d : NoteDao) : Prop :=
  ∃ i, start d.publicKey ≤ i ∧ i < s.syncedToBlock d.publicKey ∧ NoteAt o all chain i d

/-- **The invariant**: the notes in the database are the notes that were seen and whose contract is
known, and each note whose contract is not known has a deferred note. -/
structure Inv (o : Outside) (all : List Field) (chain : List Block) (start : PublicKey → ℕ)
    (s : State) (A N : NoteDao → Prop) : Prop where
  stored : Stored s.db A N
  latest : s.latest ≤ chain.length
  synced : ∀ publicKey, start publicKey ≤ s.syncedToBlock publicKey ∧
    s.syncedToBlock publicKey ≤ max s.latest (start publicKey)
  idle : ∀ publicKey, publicKey ∉ s.noteProcessors → publicKey ∉ s.noteProcessorsToCatchUp →
    s.syncedToBlock publicKey = start publicKey
  known : ∀ address ∈ s.known, address ∈ all
  notes : ∀ d, A d ∨ N d ↔ Seen o all chain start s d ∧ d.contractAddress ∈ s.known
  active : ∀ d, A d → ¬ NullifiedBefore chain (s.syncedToBlock d.publicKey) d
  nullified : ∀ d, N d → NullifiedBefore chain s.latest d
  cover : ∀ d, Seen o all chain start s d → d.contractAddress ∉ s.known →
    ∃ e ∈ s.db.deferredNotes, e.payload.contractAddress = d.contractAddress ∧
      decodeDeferredNote o all e = some d
  sound : ∀ e ∈ s.db.deferredNotes, e.payload.contractAddress ∉ s.known ∧
    (e.payload.contractAddress ∈ all → ∀ d, decodeDeferredNote o all e = some d →
      Seen o all chain start s d)

variable {n limit : ℕ} {d : NoteDao} {contractAddress : Field}

theorem NullifiedBefore.mono {m : ℕ} (h : NullifiedBefore chain n d) (hle : n ≤ m) :
    NullifiedBefore chain m d := by
  obtain ⟨block, hblock, hmem⟩ := mem_flatMap.1 h
  exact mem_flatMap.2 ⟨block, (take_sublist_take_left hle).subset hblock, hmem⟩

theorem batch_getElem? (publicKey : PublicKey) (limit : ℕ) {k : ℕ}
    (hk : k < (batch chain s publicKey limit).length) :
    (batch chain s publicKey limit)[k]? = chain[s.syncedToBlock publicKey + k]? := by
  simp only [batch, length_take, length_drop] at hk
  rw [batch, List.getElem?_take_of_lt (by omega), List.getElem?_drop,
    List.getElem?_take_of_lt (by omega)]

theorem batch_length_le (publicKey : PublicKey) (limit : ℕ) :
    s.syncedToBlock publicKey + (batch chain s publicKey limit).length ≤
      max s.latest (s.syncedToBlock publicKey) := by
  simp only [batch, length_take, length_drop]
  omega

theorem mem_batch (publicKey : PublicKey) (limit : ℕ) (block : Block) :
    block ∈ batch chain s publicKey limit ↔ ∃ i, s.syncedToBlock publicKey ≤ i ∧
      i < s.syncedToBlock publicKey + (batch chain s publicKey limit).length ∧
      chain[i]? = some block := by
  rw [mem_iff_getElem?]
  constructor
  · rintro ⟨k, hget⟩
    obtain ⟨hk, -⟩ := List.getElem?_eq_some_iff.1 hget
    rw [batch_getElem? publicKey limit hk] at hget
    exact ⟨s.syncedToBlock publicKey + k, by omega, by omega, hget⟩
  · rintro ⟨i, hlow, hhigh, hget⟩
    refine ⟨i - s.syncedToBlock publicKey, ?_⟩
    rw [batch_getElem? publicKey limit (by omega), Nat.add_sub_cancel' hlow, hget]

theorem nullifiedBefore_iff : NullifiedBefore chain n d ↔
    ∃ i < n, ∃ block, chain[i]? = some block ∧ d.siloedNullifier ∈ nullifiersOf block := by
  rw [NullifiedBefore, mem_flatMap]
  constructor
  · rintro ⟨block, hblock, hmem⟩
    obtain ⟨i, hget⟩ := mem_iff_getElem?.1 hblock
    have hi : i < n := by
      obtain ⟨hi, -⟩ := List.getElem?_eq_some_iff.1 hget
      simp only [length_take] at hi
      omega
    rw [List.getElem?_take_of_lt hi] at hget
    exact ⟨i, hi, block, hget, hmem⟩
  · rintro ⟨i, hi, block, hget, hmem⟩
    exact ⟨block, mem_iff_getElem?.2 ⟨i, by rw [List.getElem?_take_of_lt hi, hget]⟩, hmem⟩

theorem ChainOk.apart (hok : ChainOk o all chain) : Apart fun d => ∃ i, NoteAt o all chain i d :=
  ⟨fun ⟨_, h⟩ ⟨_, h'⟩ he => (hok.index h h' he).2,
    fun ⟨_, h⟩ ⟨_, h'⟩ he => hok.siloedNullifier h h' he⟩

theorem Seen.noteAt (h : Seen o all chain start s d) : ∃ i, NoteAt o all chain i d :=
  let ⟨i, _, _, hat⟩ := h
  ⟨i, hat⟩

section

variable (h : Inv o all chain start s A N)
include h

theorem Inv.active_noteAt (hd : A d) : ∃ i, NoteAt o all chain i d :=
  ((h.notes d).1 (.inl hd)).1.noteAt

theorem Inv.nullified_noteAt (hd : N d) : ∃ i, NoteAt o all chain i d :=
  ((h.notes d).1 (.inr hd)).1.noteAt

theorem Inv.synced_le (hd : Seen o all chain start s d) :
    s.syncedToBlock d.publicKey ≤ s.latest := by
  obtain ⟨i, hlow, hhigh, -⟩ := hd
  obtain ⟨-, hmax⟩ := h.synced d.publicKey
  omega

end

theorem initial_inv (known : List Field) (hknown : ∀ address ∈ known, address ∈ all) :
    Inv o all chain start (initial start known) (fun _ => False) fun _ => False := by
  have hseen : ∀ d, ¬ Seen o all chain start (initial start known) d := by
    rintro d ⟨i, hlow, hhigh, -⟩
    exact absurd hhigh (not_lt.2 hlow)
  refine ⟨.empty, Nat.zero_le _, fun publicKey => ⟨le_rfl, le_max_right _ _⟩,
    fun _ _ _ => rfl, hknown,
    fun d => by simp [hseen], fun _ h => h.elim, fun _ h => h.elim, fun d hd => absurd hd (hseen d),
    fun e he => ?_⟩
  cases he

/-! ### The steps -/

variable {publicKey : PublicKey}

theorem mem_chain_of_batch {block : Block}
    (h : block ∈ batch chain s publicKey limit) : block ∈ chain :=
  ((take_sublist _ _).trans ((drop_sublist _ _).trans (take_sublist _ _))).subset h

theorem mem_batchNotes (hok : ChainOk o all chain) (hsub : ∀ address ∈ s.known, address ∈ all) {limit : ℕ} (hstep : StepOk o chain all s (.process publicKey limit))
    (d : NoteDao) : d ∈ (batch chain s publicKey limit).flatMap (notesOf o s.known publicKey) ↔
      d.publicKey = publicKey ∧ d.contractAddress ∈ s.known ∧ ∃ i, s.syncedToBlock publicKey ≤ i ∧
          i < s.syncedToBlock publicKey + (batch chain s publicKey limit).length ∧
          NoteAt o all chain i d := by
  rw [mem_flatMap]
  constructor
  · rintro ⟨block, hblock, hd⟩
    have hhashes := fun tx htx => hok.hashes block (mem_chain_of_batch hblock) tx htx publicKey
    obtain ⟨hd, hknown⟩ := (mem_notesOf hhashes hsub (hstep block hblock) d).1 hd
    obtain ⟨i, hlow, hhigh, hget⟩ := (mem_batch publicKey limit block).1 hblock
    obtain ⟨rfl, -⟩ := notesOf_owner hhashes hd
    exact ⟨rfl, hknown, i, hlow, hhigh, block, hget, hd⟩
  · rintro ⟨rfl, hknown, i, hlow, hhigh, block, hget, hd⟩
    have hblock := (mem_batch d.publicKey limit block).2 ⟨i, hlow, hhigh, hget⟩
    have hhashes := fun tx htx => hok.hashes block (mem_chain_of_batch hblock) tx htx d.publicKey
    exact ⟨block, hblock, (mem_notesOf hhashes hsub (hstep block hblock) d).2 ⟨hd, hknown⟩⟩

def processed (o : Outside) (chain : List Block) (s : State) (publicKey : PublicKey) (limit : ℕ) :
    State :=
  { s with
    db := process o s.known publicKey (batch chain s publicKey limit) s.db
    syncedToBlock := Function.update s.syncedToBlock publicKey
      (s.syncedToBlock publicKey + (batch chain s publicKey limit).length) }

theorem processed_deferredNotes (publicKey : PublicKey) (limit : ℕ) :
    (processed o chain s publicKey limit).db.deferredNotes = s.db.deferredNotes ++
      (batch chain s publicKey limit).flatMap (deferredIn o s.known publicKey) := by
  simp [processed, process, addDeferredNotes]

theorem seen_processed (h : Inv o all chain start s A N) (publicKey : PublicKey) (limit : ℕ)
    (d : NoteDao) : Seen o all chain start (processed o chain s publicKey limit) d ↔
      Seen o all chain start s d ∨ d.publicKey = publicKey ∧ ∃ i, s.syncedToBlock publicKey ≤ i ∧
          i < s.syncedToBlock publicKey + (batch chain s publicKey limit).length ∧
          NoteAt o all chain i d := by
  obtain ⟨hstart, -⟩ := h.synced publicKey
  by_cases hkey : d.publicKey = publicKey
  · subst hkey
    simp only [Seen, processed, update_self]
    constructor
    · rintro ⟨i, hlow, hhigh, hat⟩
      by_cases hi : i < s.syncedToBlock d.publicKey
      · exact .inl ⟨i, hlow, hi, hat⟩
      · exact .inr ⟨trivial, i, not_lt.1 hi, hhigh, hat⟩
    · rintro (⟨i, hlow, hhigh, hat⟩ | ⟨-, i, hlow, hhigh, hat⟩)
      · exact ⟨i, hlow, by omega, hat⟩
      · exact ⟨i, by omega, hhigh, hat⟩
  · simp only [Seen, processed, update_of_ne hkey, hkey, false_and, or_false]

theorem nullifiedBefore_batch (hbefore : ¬ NullifiedBefore chain (s.syncedToBlock publicKey) d) :
    NullifiedBefore chain (s.syncedToBlock publicKey + (batch chain s publicKey limit).length) d ↔
      d.siloedNullifier ∈ (batch chain s publicKey limit).flatMap nullifiersOf := by
  rw [nullifiedBefore_iff, mem_flatMap]
  constructor
  · rintro ⟨i, hhigh, block, hget, hmem⟩
    have hlow : s.syncedToBlock publicKey ≤ i := not_lt.1 fun hi =>
      hbefore (nullifiedBefore_iff.2 ⟨i, hi, block, hget, hmem⟩)
    exact ⟨block, (mem_batch publicKey limit block).2 ⟨i, hlow, hhigh, hget⟩, hmem⟩
  · rintro ⟨block, hblock, hmem⟩
    obtain ⟨i, -, hhigh, hget⟩ := (mem_batch publicKey limit block).1 hblock
    exact ⟨i, hhigh, block, hget, hmem⟩

theorem nullifiedBefore_of_batch
    (h : d.siloedNullifier ∈ (batch chain s publicKey limit).flatMap nullifiersOf) :
    NullifiedBefore chain s.latest d := by
  obtain ⟨block, hblock, hmem⟩ := mem_flatMap.1 h
  have hblock' : block ∈ chain.take s.latest :=
    ((take_sublist _ _).trans (drop_sublist _ _)).subset hblock
  exact mem_flatMap.2 ⟨block, hblock', hmem⟩

theorem moved_iff {a n moved : Prop} : (a ∧ ¬ moved) ∨ (n ∨ a ∧ moved) ↔ a ∨ n := by
  tauto

theorem Inv.processed (hok : ChainOk o all chain) (h : Inv o all chain start s A N)
    (hmem : publicKey ∈ s.noteProcessors ∨ publicKey ∈ s.noteProcessorsToCatchUp)
    (hstep : StepOk o chain all s (.process publicKey limit)) :
    ∃ A' N', Inv o all chain start (processed o chain s publicKey limit) A' N' := by
  have hnew := mem_batchNotes hok h.known hstep
  have hadd := Stored.addNotes hok.apart
    ((batch chain s publicKey limit).flatMap (notesOf o s.known publicKey)) h.stored
    (fun d hd => h.active_noteAt hd) fun d hd =>
      let ⟨_, _, i, _, _, hat⟩ := (hnew d).1 hd
      ⟨i, hat⟩
  have hremove := Stored.removeNullifiedNotes hok.apart publicKey
    ((batch chain s publicKey limit).flatMap nullifiersOf) hadd
    (by
      rintro d (hd | hd)
      · exact h.active_noteAt hd
      · obtain ⟨-, -, i, -, -, hat⟩ := (hnew d).1 hd
        exact ⟨i, hat⟩)
    fun d hd => h.nullified_noteAt hd
  refine ⟨_, _, hremove.deferredNotes _, h.latest, fun key => ?_, fun key hkey hkey' => ?_, h.known,
    fun d => ?_, fun d hd => ?_, fun d hd => ?_, fun d hd hknown => ?_, fun e he => ?_⟩
  · obtain ⟨hstart, hmax⟩ := h.synced key
    by_cases hkey : key = publicKey
    · subst hkey
      have hlen := @batch_length_le chain s key limit
      simp only [DeferredNotes.processed, update_self]
      omega
    · simp only [DeferredNotes.processed, update_of_ne hkey]
      exact ⟨hstart, hmax⟩
  · have hne : key ≠ publicKey := by
      rintro rfl
      exact hmem.elim hkey hkey'
    simp only [DeferredNotes.processed, update_of_ne hne]
    exact h.idle key hkey hkey'
  · -- what is found is what was seen
    rw [seen_processed h publicKey limit d, moved_iff, or_right_comm, h.notes, hnew]
    change _ ↔ _ ∧ d.contractAddress ∈ s.known
    rw [or_and_right]
    exact or_congr_right ⟨fun ⟨hkey, hknown, hat⟩ => ⟨⟨hkey, hat⟩, hknown⟩,
      fun ⟨⟨hkey, hat⟩, hknown⟩ => ⟨hkey, hknown, hat⟩⟩
  · -- an active note of the account is not nullified in the batch, nor before
    obtain ⟨hd, hkept⟩ := hd
    by_cases hkey : d.publicKey = publicKey
    · subst hkey
      simp only [DeferredNotes.processed, update_self]
      have hbefore : ¬ NullifiedBefore chain (s.syncedToBlock d.publicKey) d := by
        rcases hd with hd | hd
        · exact h.active d hd
        · obtain ⟨-, -, i, hlow, -, hat⟩ := (hnew d).1 hd
          exact fun hn => hok.later hat (hn.mono hlow)
      rw [nullifiedBefore_batch hbefore]
      exact fun hn => hkept ⟨hn, rfl⟩
    · simp only [DeferredNotes.processed, update_of_ne hkey]
      rcases hd with hd | hd
      · exact h.active d hd
      · exact absurd ((hnew d).1 hd).1 hkey
  · rcases hd with hd | ⟨-, hd, -⟩
    · exact h.nullified d hd
    · exact nullifiedBefore_of_batch (s := s) hd
  · rcases (seen_processed h publicKey limit d).1 hd with
      hd | ⟨rfl, i, hlow, hhigh, block, hget, hd⟩
    · obtain ⟨e, he, hrest⟩ := h.cover d hd hknown
      exact ⟨e, processed_deferredNotes publicKey limit ▸ mem_append_left _ he, hrest⟩
    · have hblock := (mem_batch d.publicKey limit block).2 ⟨i, hlow, hhigh, hget⟩
      obtain ⟨e, he, hrest⟩ := deferredIn_cover
        (fun tx htx => hok.hashes block (mem_chain_of_batch hblock) tx htx d.publicKey) h.known
        (hstep block hblock) hd hknown
      refine ⟨e, ?_, hrest⟩
      rw [processed_deferredNotes]
      exact mem_append_right _ (mem_flatMap.2 ⟨block, hblock, he⟩)
  · rw [processed_deferredNotes] at he
    rcases mem_append.1 he with he | he
    · obtain ⟨hknown, hsound⟩ := h.sound e he
      exact ⟨hknown, fun hall d hd =>
        (seen_processed h publicKey limit d).2 (.inl (hsound hall d hd))⟩
    · obtain ⟨block, hblock, he⟩ := mem_flatMap.1 he
      have hhashes := fun tx htx => hok.hashes block (mem_chain_of_batch hblock) tx htx publicKey
      obtain ⟨hkey, hknown, hsound⟩ := deferredIn_sound hhashes h.known (hstep block hblock) he
      refine ⟨hknown, fun hall d hd => (seen_processed h publicKey limit d).2 (.inr ?_)⟩
      have hd := hsound hall d hd
      obtain ⟨i, hlow, hhigh, hget⟩ := (mem_batch publicKey limit block).1 hblock
      obtain ⟨rfl, -⟩ := notesOf_owner hhashes hd
      exact ⟨rfl, i, hlow, hhigh, block, hget, hd⟩

def contractAdded (o : Outside) (chain : List Block) (s : State) (contractAddress : Field) :
    State :=
  let s := { s with known := s.known ++ [contractAddress] }
  { s with db := reprocessDeferredNotesForContract o chain contractAddress s }

theorem mem_getDeferred {db : Database} {e : DeferredNote} :
    e ∈ getDeferredNotesByContract db contractAddress ↔
      e ∈ db.deferredNotes ∧ e.payload.contractAddress = contractAddress := by
  simp [getDeferredNotesByContract]

theorem mem_newNotes (h : Inv o all chain start s A N) (hall : contractAddress ∈ all)
    (hstep : StepOk o chain all s (.addContract contractAddress)) (d : NoteDao) :
    d ∈ decodeGroups o (s.known ++ [contractAddress]) s.noteProcessors
        (txHashToDeferredNotes (getDeferredNotesByContract s.db contractAddress)) ↔
      Seen o all chain start s d ∧ d.contractAddress = contractAddress ∧
        contractAddress ∉ s.known := by
  rw [mem_decodeGroups]
  constructor
  · rintro ⟨e, he, -, hd⟩
    obtain ⟨hmem, rfl⟩ := mem_getDeferred.1 he
    obtain ⟨hknown, hsound⟩ := h.sound e hmem
    rw [decodeDeferredNote_congr (by simp) hall] at hd
    exact ⟨hsound hall d hd, (decodeDeferredNote_owner hd).2, hknown⟩
  · rintro ⟨hd, rfl, hknown⟩
    obtain ⟨e, he, hcontract, hdecode⟩ := h.cover d hd hknown
    refine ⟨e, mem_getDeferred.2 ⟨he, hcontract⟩, hstep e he hcontract, ?_⟩
    rw [decodeDeferredNote_congr (by simp [hcontract]) (hcontract ▸ hall), hdecode]

theorem Inv.contractAdded (hok : ChainOk o all chain) (h : Inv o all chain start s A N)
    (hall : contractAddress ∈ all) (hstep : StepOk o chain all s (.addContract contractAddress)) :
    ∃ A' N', Inv o all chain start (contractAdded o chain s contractAddress) A' N' := by
  have hnew := mem_newNotes h hall hstep
  have hadd := Stored.addNotes hok.apart
    (decodeGroups o (s.known ++ [contractAddress]) s.noteProcessors
      (txHashToDeferredNotes (getDeferredNotesByContract s.db contractAddress)))
    (h.stored.deferredNotes (s.db.deferredNotes.filter
      (·.payload.contractAddress ≠ contractAddress)))
    (fun d hd => h.active_noteAt hd) fun d hd => ((hnew d).1 hd).1.noteAt
  have hremove := hadd.removeNew hok.apart ((chain.take s.latest).flatMap nullifiersOf)
    (decodeGroups o (s.known ++ [contractAddress]) s.noteProcessors
      (txHashToDeferredNotes (getDeferredNotesByContract s.db contractAddress)))
    (by
      rintro d (hd | hd)
      · exact h.active_noteAt hd
      · exact ((hnew d).1 hd).1.noteAt)
    (fun d hd => h.nullified_noteAt hd) fun d hd => ((hnew d).1 hd).1.noteAt
  have hdeferred : (DeferredNotes.contractAdded o chain s contractAddress).db.deferredNotes =
      s.db.deferredNotes.filter (·.payload.contractAddress ≠ contractAddress) := by
    simp [DeferredNotes.contractAdded, reprocessDeferredNotesForContract,
      removeDeferredNotesByContract]
  have hknown : ∀ address, address ∈ (DeferredNotes.contractAdded o chain s contractAddress).known ↔
      address ∈ s.known ∨ address = contractAddress := by
    intro address
    simp [DeferredNotes.contractAdded]
  refine ⟨_, _, hremove, h.latest, h.synced, h.idle, fun address haddress => ?_, fun d => ?_,
    fun d hd => ?_,
    fun d hd => ?_, fun d hd hunknown => ?_, fun e he => ?_⟩
  · rcases (hknown address).1 haddress with haddress | rfl
    · exact h.known address haddress
    · exact hall
  · -- the notes of the contract are new if it was not known
    rw [moved_iff, or_right_comm, h.notes, hnew, hknown]
    change _ ↔ Seen o all chain start s d ∧ _
    constructor
    · rintro (⟨hd, hk⟩ | ⟨hd, hk, -⟩)
      · exact ⟨hd, .inl hk⟩
      · exact ⟨hd, .inr hk⟩
    · rintro ⟨hd, hk | rfl⟩
      · exact .inl ⟨hd, hk⟩
      · by_cases hk : d.contractAddress ∈ s.known
        · exact .inl ⟨hd, hk⟩
        · exact .inr ⟨hd, rfl, hk⟩
  · obtain ⟨hd, hkept⟩ := hd
    rcases hd with hd | hd
    · exact h.active d hd
    · exact fun hn => hkept ⟨hd, hn.mono (h.synced_le ((hnew d).1 hd).1)⟩
  · rcases hd with hd | ⟨-, -, hd⟩
    · exact h.nullified d hd
    · exact hd
  · rw [hknown, not_or] at hunknown
    obtain ⟨e, he, hcontract, hdecode⟩ := h.cover d hd hunknown.1
    refine ⟨e, ?_, hcontract, hdecode⟩
    rw [hdeferred]
    exact mem_filter.2 ⟨he, by simpa [hcontract] using hunknown.2⟩
  · rw [hdeferred] at he
    obtain ⟨he, hne⟩ := mem_filter.1 he
    obtain ⟨hunknown, hsound⟩ := h.sound e he
    refine ⟨?_, hsound⟩
    rw [hknown, not_or]
    exact ⟨hunknown, by simpa using hne⟩

/-- **A step keeps the invariant.** -/
theorem step_inv (hok : ChainOk o all chain) (h : Inv o all chain start s A N) {x : Step}
    (hadded : ∀ address ∈ added [x], address ∈ all) (hstep : StepOk o chain all s x) :
    ∃ A' N', Inv o all chain start (step o chain s x) A' N' := by
  cases x with
  | newBlocks n =>
    have hgrow : s.latest ≤ min (s.latest + n) chain.length := le_min (by omega) h.latest
    exact ⟨A, N, h.stored, min_le_right _ _, fun key => ⟨(h.synced key).1, (h.synced key).2.trans
      (max_le_max hgrow le_rfl)⟩, h.idle, h.known, h.notes, h.active,
      fun d hd => (h.nullified d hd).mono hgrow, h.cover, h.sound⟩
  | addAccount publicKey =>
    rw [step]
    split
    · exact ⟨A, N, h⟩
    · exact ⟨A, N, h.stored, h.latest, h.synced,
        fun key hkey hkey' => h.idle key hkey fun hmem => hkey' (mem_append_left _ hmem),
        h.known, h.notes, h.active, h.nullified, h.cover, h.sound⟩
  | process publicKey limit =>
    rw [step]
    split
    · next hmem => exact h.processed hok hmem hstep
    · exact ⟨A, N, h⟩
  | caughtUp publicKey =>
    rw [step]
    split
    · refine ⟨A, N, h.stored, h.latest, h.synced, fun key hkey hkey' => ?_, h.known, h.notes,
        h.active,
        h.nullified, h.cover, h.sound⟩
      rw [mem_append, not_or, mem_singleton] at hkey
      exact h.idle key hkey.1 fun hmem => hkey' (mem_filter.2 ⟨hmem, by simpa using hkey.2⟩)
    · exact ⟨A, N, h⟩
  | addContract contractAddress =>
    exact h.contractAdded hok (hadded _ (by simp [added])) hstep

/-- **A run keeps the invariant.** -/
theorem run_inv (hok : ChainOk o all chain) (steps : List Step) :
    ∀ {s : State} {A N : NoteDao → Prop}, Inv o all chain start s A N →
      (∀ address ∈ added steps, address ∈ all) → StepsOk o chain all s steps →
      ∃ A' N', Inv o all chain start (run o chain s steps) A' N' := by
  induction steps with
  | nil => exact fun h _ _ => ⟨_, _, h⟩
  | cons x steps ih =>
    intro s A N h hadded hsteps
    have hsplit : added (x :: steps) = added [x] ++ added steps :=
      filterMap_append (l := [x])
    rw [hsplit] at hadded
    obtain ⟨A', N', h'⟩ := step_inv hok h
      (fun address hmem => hadded address (mem_append_left _ hmem)) hsteps.1
    exact ih h' (fun address hmem => hadded address (mem_append_right _ hmem)) hsteps.2

theorem step_frame {s' : State} (x : Step) (hmain : s'.noteProcessors = s.noteProcessors)
    (hcatchUp : s'.noteProcessorsToCatchUp = s.noteProcessorsToCatchUp)
    (hsynced : s'.syncedToBlock = s.syncedToBlock) (hlatest : s'.latest = s.latest) :
    (step o chain s' x).noteProcessors = (step o chain s x).noteProcessors ∧
      (step o chain s' x).noteProcessorsToCatchUp = (step o chain s x).noteProcessorsToCatchUp ∧
      (step o chain s' x).syncedToBlock = (step o chain s x).syncedToBlock ∧
      (step o chain s' x).latest = (step o chain s x).latest := by
  cases x <;> simp only [step, hmain, hcatchUp, batch, hsynced, hlatest, and_self] <;>
    split <;> simp [hmain, hcatchUp, hsynced, hlatest]

theorem run_frame (steps : List Step) : ∀ {s s' : State}, s'.noteProcessors = s.noteProcessors →
      s'.noteProcessorsToCatchUp = s.noteProcessorsToCatchUp →
      s'.syncedToBlock = s.syncedToBlock → s'.latest = s.latest →
      (run o chain s' steps).noteProcessors = (run o chain s steps).noteProcessors ∧
        (run o chain s' steps).noteProcessorsToCatchUp =
          (run o chain s steps).noteProcessorsToCatchUp ∧
        (run o chain s' steps).syncedToBlock = (run o chain s steps).syncedToBlock ∧
        (run o chain s' steps).latest = (run o chain s steps).latest := by
  induction steps with
  | nil => exact fun hmain hcatchUp hsynced hlatest => ⟨hmain, hcatchUp, hsynced, hlatest⟩
  | cons x steps ih =>
    intro s s' hmain hcatchUp hsynced hlatest
    obtain ⟨hmain, hcatchUp, hsynced, hlatest⟩ := step_frame x hmain hcatchUp hsynced hlatest
    exact ih hmain hcatchUp hsynced hlatest

theorem run_known (steps : List Step) :
    ∀ s : State, (run o chain s steps).known = s.known ++ added steps := by
  induction steps with
  | nil => exact fun s => (append_nil _).symm
  | cons x steps ih =>
    intro s
    have hstep : (step o chain s x).known = s.known ++ added [x] := by
      cases x <;> simp [step, added] <;> split <;> rfl
    have hsplit : added (x :: steps) = added [x] ++ added steps :=
      filterMap_append (l := [x])
    rw [run, foldl_cons, ← run, ih, hstep, hsplit, append_assoc]

theorem stepsOk_of_known (hok : ChainOk o all chain) (steps : List Step) :
    ∀ {s : State} {A N : NoteDao → Prop}, Inv o all chain start s A N →
      (∀ address ∈ all, address ∈ s.known) → (∀ address ∈ added steps, address ∈ all) →
      StepsOk o chain all s steps := by
  induction steps with
  | nil => exact fun _ _ _ => trivial
  | cons x steps ih =>
    intro s A N h hall hadded
    have hsplit : added (x :: steps) = added [x] ++ added steps :=
      filterMap_append (l := [x])
    rw [hsplit] at hadded
    have hstep : StepOk o chain all s x := by
      cases x with
      | process publicKey limit =>
        exact fun block _ tx _ => pairwise_of_forall fun payload _ hmem hunknown =>
          absurd (hall _ hmem) hunknown
      | addContract contractAddress =>
        intro e he hcontract
        exact absurd (hall _ (hadded _ (by simp [added, hcontract]))) (h.sound e he).1
      | _ => trivial
    obtain ⟨A', N', h'⟩ := step_inv hok h
      (fun address hmem => hadded address (mem_append_left _ hmem)) hstep
    refine ⟨hstep, ih h' (fun address hmem => ?_)
      fun address hmem => hadded address (mem_append_right _ hmem)⟩
    have hknown := @run_known o chain [x] s
    rw [run, foldl_cons, foldl_nil] at hknown
    rw [hknown]
    exact mem_append_left _ (hall address hmem)

theorem Inv.active_iff (h : Inv o all chain start s A N) (hsynced : AllSynced chain s)
    (d : NoteDao) : A d ↔ Seen o all chain start s d ∧ d.contractAddress ∈ s.known ∧
      ¬ NullifiedBefore chain s.latest d := by
  have hlatest : Seen o all chain start s d → s.syncedToBlock d.publicKey = s.latest := by
    intro hd
    by_contra hne
    have hidle : s.syncedToBlock d.publicKey = start d.publicKey := by
      refine h.idle _ (fun hmem => hne ?_) fun hmem => hne ?_
      · rw [hsynced.2 _ (mem_append_left _ hmem), hsynced.1]
      · rw [hsynced.2 _ (mem_append_right _ hmem), hsynced.1]
    obtain ⟨i, hlow, hhigh, -⟩ := hd
    omega
  constructor
  · intro hd
    obtain ⟨hseen, hknown⟩ := (h.notes d).1 (.inl hd)
    exact ⟨hseen, hknown, hlatest hseen ▸ h.active d hd⟩
  · rintro ⟨hseen, hknown, hfresh⟩
    exact ((h.notes d).2 ⟨hseen, hknown⟩).resolve_right fun hd => hfresh (h.nullified d hd)

theorem Inv.nullified_iff (h : Inv o all chain start s A N) (hsynced : AllSynced chain s)
    (d : NoteDao) : N d ↔ Seen o all chain start s d ∧ d.contractAddress ∈ s.known ∧
      NullifiedBefore chain s.latest d := by
  constructor
  · intro hd
    obtain ⟨hseen, hknown⟩ := (h.notes d).1 (.inr hd)
    exact ⟨hseen, hknown, h.nullified d hd⟩
  · rintro ⟨hseen, hknown, hgone⟩
    refine ((h.notes d).2 ⟨hseen, hknown⟩).resolve_left fun hd => ?_
    exact ((h.active_iff hsynced d).1 hd).2.2 hgone

theorem Stored.ext {db db' : Database} {A N : NoteDao → Prop} (h : Stored db A N)
    (h' : Stored db' A N) : db.notes = db'.notes ∧ db.nullifiedNotes = db'.nullifiedNotes := by
  constructor
  · funext i
    exact Option.ext fun d => (h.notes i d).trans (h'.notes i d).symm
  · funext i
    exact Option.ext fun d => (h.nullifiedNotes i d).trans (h'.nullifiedNotes i d).symm

end Invariant

/-- **The notes are those of the run in which the contracts were known from the start**, in a run
whose steps meet the condition. -/
theorem run_agrees (chain : List Block) (start : PublicKey → ℕ) (known : List Field)
    (steps : List Step) (hok : ChainOk o (known ++ added steps) chain)
    (hsteps : StepsOk o chain (known ++ added steps) (initial start known) steps)
    (hsynced : AllSynced chain (run o chain (initial start known) steps)) :
    (run o chain (initial start known) steps).db.notes =
        (run o chain (initial start (known ++ added steps)) steps).db.notes ∧
      (run o chain (initial start known) steps).db.nullifiedNotes =
        (run o chain (initial start (known ++ added steps)) steps).db.nullifiedNotes := by
  have hadded : ∀ address ∈ added steps, address ∈ known ++ added steps :=
    fun _ h => mem_append_right _ h
  have hfirst : Inv o (known ++ added steps) chain start
      (initial start (known ++ added steps)) _ _ := initial_inv _ fun _ h => h
  have hlater : Inv o (known ++ added steps) chain start (initial start known) _ _ :=
    initial_inv known fun _ h => mem_append_left _ h
  obtain ⟨A, N, h⟩ := run_inv hok steps hlater hadded hsteps
  obtain ⟨A', N', h'⟩ := run_inv hok steps hfirst hadded
    (stepsOk_of_known hok steps hfirst (fun _ h => h) hadded)
  obtain ⟨hmain, hcatchUp, hto, hlatest⟩ := @run_frame o chain steps (initial start known)
    (initial start (known ++ added steps)) rfl rfl rfl rfl
  have hsynced' : AllSynced chain
      (run o chain (initial start (known ++ added steps)) steps) := by
    rw [AllSynced, hmain, hcatchUp, hto, hlatest]
    exact hsynced
  have hseen : ∀ d, Seen o (known ++ added steps) chain start
        (run o chain (initial start known) steps) d ↔
      Seen o (known ++ added steps) chain start
        (run o chain (initial start (known ++ added steps)) steps) d := by
    intro d
    rw [Seen, Seen, hto]
  have hknown : ∀ address, address ∈ (run o chain (initial start known) steps).known ↔
      address ∈ (run o chain (initial start (known ++ added steps)) steps).known := by
    intro address
    rw [run_known, run_known]
    simp only [initial, mem_append]
    tauto
  refine h.stored.ext (h'.stored.congr (fun d => ?_) fun d => ?_)
  · rw [h.active_iff hsynced, h'.active_iff hsynced', hseen, hknown, hlatest]
  · rw [h.nullified_iff hsynced, h'.nullified_iff hsynced', hseen, hknown, hlatest]

/-! ### Two equal notes -/

deriving instance DecidableEq for NoteDao

namespace TwinNotes

def publicKey : PublicKey := (1, 2)

def payload : L1NotePayload := ⟨[5], 9, 0, 0⟩

def outside : Outside :=
  { hashes := NoteDiscovery.RevertibleNote.privateHashes
    contract := fun _ => some ⟨5, fun nonce => nonce⟩ }

def noteHashAt (place : ℕ) : Field :=
  outside.hashes.computeUniqueSiloedNoteHash (outside.hashes.computeNoteHashNonce 7 place)
    (outside.hashes.siloNoteHash 9 5)

/-- A transaction with two equal notes, of which the account can decrypt some. -/
def tx (n : ℕ) : TxEffect :=
  { txHash := 7
    newNoteHashes := [noteHashAt 0, noteHashAt 1]
    newNullifiers := [7]
    dataStartIndexForTx := 0
    payloads := fun key => if key = publicKey then List.replicate n payload else [] }

def chain (n : ℕ) : List Block := [[tx n]]

/-- The contract is added when the account has caught up. -/
def steps : List Step :=
  [.newBlocks 1, .addAccount publicKey, .process publicKey 1, .caughtUp publicKey, .addContract 9]

theorem payload_of_mem {n : ℕ} {key : PublicKey} {payload' : L1NotePayload}
    (h : payload' ∈ (tx n).payloads key) : payload' = payload := by
  simp only [tx] at h
  split at h
  · exact eq_of_mem_replicate h
  · cases h

theorem noteAt {n i : ℕ} {d : NoteDao} (h : NoteAt outside [9] (chain n) i d) :
    i = 0 ∧ d ∈ notesOf outside [9] publicKey [tx n] := by
  obtain ⟨block, hget, hd⟩ := h
  cases i with
  | succ i => cases hget
  | zero =>
    obtain rfl : [tx n] = block := Option.some.inj hget
    by_cases hkey : d.publicKey = publicKey
    · exact ⟨rfl, hkey ▸ hd⟩
    · simp [notesOf, decodeTx, tx, hkey, decodePayloads] at hd

theorem chain_ok {n : ℕ} (hindex : ∀ d ∈ notesOf outside [9] publicKey [tx n],
      ∀ d' ∈ notesOf outside [9] publicKey [tx n], d.index = d'.index → d = d')
    (hnullifier : ∀ d ∈ notesOf outside [9] publicKey [tx n],
      ∀ d' ∈ notesOf outside [9] publicKey [tx n],
        d.siloedNullifier = d'.siloedNullifier → d = d') : ChainOk outside [9] (chain n) where
  hashes block hblock tx' htx key := by
    obtain rfl := mem_singleton.1 hblock
    obtain rfl := mem_singleton.1 htx
    refine ⟨fun _ _ _ _ _ => Nat.succ_ne_zero _, fun p hp p' hp' value value' hv hv' _ _ => ?_,
      fun p hp p' hp' _ _ _ => ?_⟩
    · rw [payload_of_mem hp] at hv
      rw [payload_of_mem hp'] at hv'
      exact Option.some.inj (hv.symm.trans hv')
    · rw [payload_of_mem hp, payload_of_mem hp']
  index h h' he := by
    obtain ⟨rfl, hd⟩ := noteAt h
    obtain ⟨rfl, hd'⟩ := noteAt h'
    exact ⟨rfl, hindex _ hd _ hd' he⟩
  siloedNullifier h h' he := hnullifier _ (noteAt h).2 _ (noteAt h').2 he
  later h hn := by
    obtain ⟨rfl, -⟩ := noteAt h
    cases hn

end TwinNotes

open TwinNotes in
/-- A note that is decoded when its contract is added. -/
theorem run_agrees_single : (run outside (chain 1) (initial (fun _ => 0) []) steps).db.notes =
        (run outside (chain 1) (initial (fun _ => 0) [9]) steps).db.notes ∧
      (run outside (chain 1) (initial (fun _ => 0) []) steps).db.nullifiedNotes =
        (run outside (chain 1) (initial (fun _ => 0) [9]) steps).db.nullifiedNotes := by
  refine run_agrees outside (chain 1) (fun _ => 0) [] steps
    (chain_ok (by decide) (by decide)) ⟨trivial, trivial, ?_, trivial, ?_, trivial⟩ ⟨rfl, by decide⟩
  · intro block hblock tx' htx
    obtain rfl : block = [tx 1] := mem_singleton.1 hblock
    obtain rfl := mem_singleton.1 htx
    exact pairwise_singleton _ _
  · intro note hnote _
    have hkeys : ∀ e ∈ (run outside (chain 1) (initial (fun _ => 0) [])
        (steps.take 4)).db.deferredNotes, e.publicKey = publicKey := by decide
    rw [hkeys note hnote]
    decide

open TwinNotes in
/-- **One of two equal notes is lost**: both are decoded to the first place. -/
theorem twin_lost : ¬ ∀ (o : Outside) (chain : List Block) (start : PublicKey → ℕ)
    (known : List Field) (steps : List Step), ChainOk o (known ++ added steps) chain →
    AllSynced chain (run o chain (initial start known) steps) →
    (run o chain (initial start known) steps).db.notes =
        (run o chain (initial start (known ++ added steps)) steps).db.notes ∧
      (run o chain (initial start known) steps).db.nullifiedNotes =
        (run o chain (initial start (known ++ added steps)) steps).db.nullifiedNotes := by
  intro h
  have hnotes := (h outside (chain 2) (fun _ => 0) [] steps (chain_ok (by decide) (by decide))
    ⟨rfl, by decide⟩).1
  have hsecond : ((run outside (chain 2) (initial (fun _ => 0) []) steps).db.notes 1).isSome =
      ((run outside (chain 2) (initial (fun _ => 0) [9]) steps).db.notes 1).isSome :=
    congrArg (fun notes => (notes 1).isSome) hnotes
  revert hsecond
  decide

end DeferredNotes
