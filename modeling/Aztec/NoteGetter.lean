/-
**Notes that a private function reads.**

The getter takes notes from an oracle.  It checks that their headers have the address and the slot,
that their fields are as selected and sorted, and pushes one read request for every note: the hash
of the note itself when the header says that it is transient, else with the address, and also with
the nonce when there is one.
-/

import Aztec.NoteNonces

namespace NoteGetter

open Noir Failing Kernel PrivateKernel

/-! ### Notes and their hashes -/

structure NoteHeader where
  contractAddress : Field
  nonce : Field
  storageSlot : Field
  isTransient : Bool
deriving DecidableEq

/-- What the hashes take of a note: its header (`get_header`) and `compute_note_content_hash`. -/
structure NoteView where
  header : NoteHeader
  contentHash : Field
deriving DecidableEq

/-- The functions of a type of notes with `n` fields. -/
structure NoteInterface (Note : Type) (n : ℕ) where
  view : Note → NoteView
  serializeContent : Note → Vector Field n

def uniqueNoteHashIndex : ℕ := 3

def siloedNoteHashIndex : ℕ := 4

section Hashes

variable (pedersenHash : List Field → ℕ → Field) (note : NoteView)

def computeInnerNoteHash : Field := pedersenHash [note.header.storageSlot, note.contentHash] 0

def computeSiloedHash (contractAddress innerNoteHash : Field) : Field :=
  pedersenHash [contractAddress, innerNoteHash] siloedNoteHashIndex

def computeUniqueHash (nonce siloedNoteHash : Field) : Field :=
  pedersenHash [nonce, siloedNoteHash] uniqueNoteHashIndex

def computeSiloedNoteHash : Field :=
  computeSiloedHash pedersenHash note.header.contractAddress
    (computeInnerNoteHash pedersenHash note)

def computeUniqueSiloedNoteHash : Field :=
  computeUniqueHash pedersenHash note.header.nonce (computeSiloedNoteHash pedersenHash note)

def computeNoteHashForConsumption : Field :=
  if note.header.isTransient then
    computeInnerNoteHash pedersenHash note
  else if note.header.nonce = 0 then
    -- a note that was inserted in public
    computeSiloedNoteHash pedersenHash note
  else
    computeUniqueSiloedNoteHash pedersenHash note

end Hashes

/-! ### The context of a private function -/

/-- The part of `PrivateContext` that notes and their reads change. -/
structure PrivateContext where
  callContext : CallContext
  sideEffectCounter : ℕ
  readRequests : BoundedVec SideEffect 32
  newNoteHashes : BoundedVec SideEffect 16

namespace PrivateContext

def new (callContext : CallContext) : PrivateContext :=
  ⟨callContext, callContext.startSideEffectCounter, .new Empty.empty, .new Empty.empty⟩

def thisAddress (context : PrivateContext) : Field := context.callContext.storageContractAddress

def pushReadRequest (context : PrivateContext) (readRequest : Field) : Circuit PrivateContext := do
  let readRequests ← context.readRequests.push
    { value := readRequest, counter := context.sideEffectCounter }
  let sideEffectCounter ← addU32 context.sideEffectCounter 1
  return { context with readRequests := readRequests, sideEffectCounter := sideEffectCounter }

def pushNewNoteHash (context : PrivateContext) (noteHash : Field) : Circuit PrivateContext := do
  let newNoteHashes ← context.newNoteHashes.push
    { value := noteHash, counter := context.sideEffectCounter }
  let sideEffectCounter ← addU32 context.sideEffectCounter 1
  return { context with newNoteHashes := newNoteHashes, sideEffectCounter := sideEffectCounter }

def pushOther (context : PrivateContext) : Circuit PrivateContext := do
  let sideEffectCounter ← addU32 context.sideEffectCounter 1
  return { context with sideEffectCounter := sideEffectCounter }

end PrivateContext

/-! ### The getter -/

/-- The comparators are numbered from `EQ` to `GTE`. -/
structure Select where
  fieldIndex : ℕ
  value : Field
  comparator : ℕ

/-- The orders are `DESC`, which is one, and `ASC`, which is two. -/
structure NoteSort where
  fieldIndex : ℕ
  order : ℕ

structure NoteGetterOptions where
  selects : List Select
  sorts : List NoteSort
  limit : ℕ

def checkNoteHeader (context : PrivateContext) (storageSlot : Field) (note : NoteView) :
    Circuit Unit := do
  assert (note.header.contractAddress = context.thisAddress) ""
  assert (note.header.storageSlot = storageSlot) ""

def checkNoteFields {n : ℕ} (fields : Vector Field n) (selects : List Select) : Circuit Unit :=
  selects.forM fun select => do
    let field ← get fields select.fieldIndex
    let isEqual := field = select.value
    let isLt := field < select.value
    let message := "Mismatch return note field."
    match select.comparator with
    | 1 => assert isEqual message
    | 2 => assert (¬isEqual) message
    | 3 => assert isLt message
    | 4 => assert (isLt ∨ isEqual) message
    | 5 => assert (¬isLt ∧ ¬isEqual) message
    | 6 => assert (¬isLt) message
    | _ => return ()

def checkNotesOrder {n : ℕ} (fields₀ fields₁ : Vector Field n) (sorts : List NoteSort) :
    Circuit Unit :=
  sorts.forM fun sort => do
    let x ← get fields₀ sort.fieldIndex
    let y ← get fields₁ sort.fieldIndex
    let lt := x % 2 ^ 120 < y % 2 ^ 120
    if sort.order = 2 then
      assert (x = y ∨ lt) "Return notes not sorted in ascending order."
    else if x ≠ y then
      assert (¬lt) "Return notes not sorted in descending order."
    else
      return ()

section Getter

variable (pedersenHash : List Field → ℕ → Field) {Note : Type} {n : ℕ} (I : NoteInterface Note n)

def getNote (context : PrivateContext) (storageSlot : Field) (note : Note) :
    Circuit PrivateContext := do
  checkNoteHeader context storageSlot (I.view note)
  context.pushReadRequest (computeNoteHashForConsumption pedersenHash (I.view note))

/-- The state of the loop of `get_notes`. -/
structure GetNotes (n : ℕ) where
  context : PrivateContext
  numNotes : ℕ
  prevFields : Vector Field n

/-- A turn of the loop of `get_notes`. -/
def getNotesStep (storageSlot : Field) (options : NoteGetterOptions) (s : GetNotes n)
    (item : Option Note × ℕ) : Circuit (GetNotes n) :=
  match item.1 with
  | none => return s
  | some note => do
    let fields := I.serializeContent note
    checkNoteHeader s.context storageSlot (I.view note)
    checkNoteFields fields options.selects
    (if item.2 ≠ 0 then checkNotesOrder s.prevFields fields options.sorts else pure ())
    let context ← s.context.pushReadRequest
      (computeNoteHashForConsumption pedersenHash (I.view note))
    return { context := context, numNotes := s.numNotes + 1, prevFields := fields }

/-- `get_notes`, for the notes of the oracle after the filter. -/
def getNotes (context : PrivateContext) (storageSlot : Field) (options : NoteGetterOptions)
    (optNotes : Vector (Option Note) 32) : Circuit PrivateContext := do
  let s ← optNotes.toList.zipIdx.foldlM (getNotesStep pedersenHash I storageSlot options)
    { context := context, numNotes := 0, prevFields := Vector.replicate n 0 }
  (if options.limit ≠ 0 then
    assert (s.numNotes ≤ options.limit) "Invalid number of return notes."
  else
    pure ())
  return s.context

end Getter

/-! ### Private functions -/

/-- What a private function does with notes; the notes of a getter are the answer of the oracle. -/
inductive Action : Type 1 where
  | pushNewNoteHash (noteHash : Field)
  | pushOther
  | getNote {Note : Type} {n : ℕ} (I : NoteInterface Note n) (storageSlot : Field) (note : Note)
  | getNotes {Note : Type} {n : ℕ} (I : NoteInterface Note n) (storageSlot : Field)
      (options : NoteGetterOptions) (optNotes : Vector (Option Note) 32)

def Action.returned : Action → List (Field × NoteView)
  | .pushNewNoteHash _ => []
  | .pushOther => []
  | .getNote I storageSlot note => [(storageSlot, I.view note)]
  | .getNotes I storageSlot _ optNotes =>
    optNotes.toList.filterMap fun optNote => optNote.map fun note => (storageSlot, I.view note)

section Run

variable (pedersenHash : List Field → ℕ → Field)

def act (context : PrivateContext) : Action → Circuit PrivateContext
  | .pushNewNoteHash noteHash => context.pushNewNoteHash noteHash
  | .pushOther => context.pushOther
  | .getNote I storageSlot note => getNote pedersenHash I context storageSlot note
  | .getNotes I storageSlot options optNotes =>
    getNotes pedersenHash I context storageSlot options optNotes

def run (context : PrivateContext) : List Action → Circuit PrivateContext
  | [] => return context
  | action :: actions => do
    let context ← act pedersenHash context action
    run context actions

end Run

/-! ### Read requests of the notes -/

section Recorded

variable {pedersenHash : List Field → ℕ → Field} {context context' : PrivateContext}
  {l : List SideEffect}

/-- The note has the address and the slot, and a read request. -/
structure Recorded (pedersenHash : List Field → ℕ → Field) (address : Field)
    (l : List SideEffect) (note : Field × NoteView) : Prop where
  address : note.2.header.contractAddress = address
  slot : note.2.header.storageSlot = note.1
  request : ∃ r ∈ l, r.value = computeNoteHashForConsumption pedersenHash note.2

/-- Read requests are appended, and the notes are recorded. -/
def Extends (pedersenHash : List Field → ℕ → Field) (context context' : PrivateContext)
    (notes : List (Field × NoteView)) : Prop :=
  context'.callContext = context.callContext ∧
    ∀ l, Stack context.readRequests l → ∃ new, Stack context'.readRequests (l ++ new) ∧
      ∀ note ∈ notes, Recorded pedersenHash context.thisAddress new note

theorem Recorded.append {address : Field} {new new' : List SideEffect} {note : Field × NoteView}
    (h : Recorded pedersenHash address new note ∨ Recorded pedersenHash address new' note) :
    Recorded pedersenHash address (new ++ new') note := by
  rcases h with ⟨haddress, hslot, r, hr, heq⟩ | ⟨haddress, hslot, r, hr, heq⟩
  · exact ⟨haddress, hslot, r, List.mem_append_left _ hr, heq⟩
  · exact ⟨haddress, hslot, r, List.mem_append_right _ hr, heq⟩

theorem Extends.refl (context : PrivateContext) : Extends pedersenHash context context [] :=
  ⟨rfl, fun l h => ⟨[], by rwa [List.append_nil], fun _ hn => absurd hn List.not_mem_nil⟩⟩

theorem Extends.trans {context'' : PrivateContext} {notes notes' : List (Field × NoteView)}
    (h : Extends pedersenHash context context' notes)
    (h' : Extends pedersenHash context' context'' notes') :
    Extends pedersenHash context context'' (notes ++ notes') := by
  obtain ⟨hcontext, hstack⟩ := h
  obtain ⟨hcontext', hstack'⟩ := h'
  refine ⟨hcontext'.trans hcontext, fun l hl => ?_⟩
  obtain ⟨new, hnew, hnotes⟩ := hstack l hl
  obtain ⟨new', hnew', hnotes'⟩ := hstack' _ hnew
  have haddress : context'.thisAddress = context.thisAddress :=
    congrArg CallContext.storageContractAddress hcontext
  refine ⟨new ++ new', by rwa [← List.append_assoc], fun note hnote => Recorded.append ?_⟩
  exact (List.mem_append.1 hnote).imp (hnotes note) fun hnote => haddress ▸ hnotes' note hnote

variable {storageSlot : Field} {options : NoteGetterOptions} {actions : List Action}

theorem extends_pushReadRequest {note : NoteView} {u : Unit}
    (hcheck : checkNoteHeader context storageSlot note = .ok u)
    (h : context.pushReadRequest (computeNoteHashForConsumption pedersenHash note) = .ok context') :
    Extends pedersenHash context context' [(storageSlot, note)] := by
  simp only [checkNoteHeader, bind_eq_ok, assert_eq_ok, decide_eq_true_eq] at hcheck
  obtain ⟨_, haddress, hslot⟩ := hcheck
  simp only [PrivateContext.pushReadRequest, bind_eq_ok, pure_eq_ok] at h
  obtain ⟨readRequests, hpush, counter, -, rfl⟩ := h
  refine ⟨rfl, fun l hl => ⟨_, (hl.push hpush).1, fun item hitem => ?_⟩⟩
  rw [List.mem_singleton.1 hitem]
  exact ⟨haddress, hslot, _, List.mem_singleton_self _, rfl⟩

theorem extends_of_eq (hcontext : context'.callContext = context.callContext)
    (hrequests : context'.readRequests = context.readRequests) :
    Extends pedersenHash context context' [] :=
  ⟨hcontext, fun l hl => ⟨[], by rwa [hrequests, List.append_nil], fun _ hn =>
    absurd hn List.not_mem_nil⟩⟩

section

variable {Note : Type} {n : ℕ} {I : NoteInterface Note n}

theorem extends_getNotesStep {s s' : GetNotes n}
    {item : Option Note × ℕ} (h : getNotesStep pedersenHash I storageSlot options s item = .ok s') :
    Extends pedersenHash s.context s'.context
      (item.1.map fun note => (storageSlot, I.view note)).toList := by
  obtain ⟨optNote, i⟩ := item
  cases optNote with
  | none =>
    simp only [getNotesStep, pure_eq_ok] at h
    rw [← h]
    exact .refl _
  | some note =>
    simp only [getNotesStep, bind_eq_ok, pure_eq_ok] at h
    obtain ⟨_, hcheck, _, -, _, -, context, hpush, rfl⟩ := h
    exact extends_pushReadRequest hcheck hpush

theorem extends_getNotes {items : List (Option Note × ℕ)} {s s' : GetNotes n}
    (h : items.foldlM (getNotesStep pedersenHash I storageSlot options) s = .ok s') :
    Extends pedersenHash s.context s'.context
      (items.filterMap fun item => item.1.map fun note => (storageSlot, I.view note)) := by
  induction items generalizing s with
  | nil =>
    simp only [List.foldlM_nil, pure_eq_ok] at h
    rw [← h]
    exact .refl _
  | cons item items ih =>
    rw [List.foldlM_cons, bind_eq_ok] at h
    obtain ⟨mid, hstep, hrest⟩ := h
    have htrans := (extends_getNotesStep hstep).trans (ih hrest)
    have hcons : ((item :: items).filterMap fun item : Option Note × ℕ =>
        item.1.map fun note => (storageSlot, I.view note)) =
          (item.1.map fun note => (storageSlot, I.view note)).toList ++
            items.filterMap fun item => item.1.map fun note => (storageSlot, I.view note) := by
      rw [List.filterMap_cons]
      cases item.1 with
      | none => rfl
      | some note => rfl
    rw [hcons]
    exact htrans

end

theorem extends_act {action : Action} (h : act pedersenHash context action = .ok context') :
    Extends pedersenHash context context' action.returned := by
  cases action with
  | pushNewNoteHash noteHash =>
    simp only [act, PrivateContext.pushNewNoteHash, bind_eq_ok, pure_eq_ok] at h
    obtain ⟨_, -, _, -, rfl⟩ := h
    exact extends_of_eq rfl rfl
  | pushOther =>
    simp only [act, PrivateContext.pushOther, bind_eq_ok, pure_eq_ok] at h
    obtain ⟨_, -, rfl⟩ := h
    exact extends_of_eq rfl rfl
  | getNote I storageSlot note =>
    simp only [act, getNote, bind_eq_ok] at h
    obtain ⟨_, hcheck, hpush⟩ := h
    exact extends_pushReadRequest hcheck hpush
  | getNotes I storageSlot options optNotes =>
    simp only [act, getNotes, bind_eq_ok, pure_eq_ok] at h
    obtain ⟨s, hloop, _, -, rfl⟩ := h
    have hnotes := extends_getNotes hloop
    have hreturned : (optNotes.toList.zipIdx.filterMap fun item =>
        item.1.map fun note => (storageSlot, I.view note)) =
          optNotes.toList.filterMap fun optNote =>
            optNote.map fun note => (storageSlot, I.view note) := by
      conv_rhs => rw [← List.zipIdx_map_fst 0 optNotes.toList, List.filterMap_map]
      rfl
    rw [Action.returned, ← hreturned]
    exact hnotes

theorem extends_run (h : run pedersenHash context actions = .ok context') :
    Extends pedersenHash context context' (actions.flatMap Action.returned) := by
  induction actions generalizing context with
  | nil =>
    simp only [run, pure_eq_ok] at h
    rw [← h]
    exact .refl _
  | cons action actions ih =>
    rw [run, bind_eq_ok] at h
    obtain ⟨mid, hact, hrest⟩ := h
    rw [List.flatMap_cons]
    exact (extends_act hact).trans (ih hrest)

theorem recorded_of_run {callContext : CallContext}
    (h : run pedersenHash (.new callContext) actions = .ok context) {note : Field × NoteView}
    (hnote : note ∈ actions.flatMap Action.returned) :
    Recorded pedersenHash callContext.storageContractAddress
      context.readRequests.storage.toList note := by
  obtain ⟨-, hstack⟩ := extends_run h
  obtain ⟨new, hnew, hnotes⟩ := hstack [] (Stack.new _)
  obtain ⟨haddress, hslot, r, hr, heq⟩ := hnotes note hnote
  refine ⟨haddress, hslot, r, ?_, heq⟩
  rw [hnew.storage_eq]
  exact List.mem_append_left _ hr

end Recorded

end NoteGetter
