/-
**A getter of private notes and the answer of the oracle.**

The getter hands its selects and sorts to the oracle as arrays and checks the notes that come back.
The oracle sorts lexicographically, by whole values; the getter compares every sort field on its
own, by 120 bits.  They agree for the options for which this is the same.
-/

import Aztec.ExecutionNotes
import Aztec.NoteGetter
import Mathlib.Data.List.ReduceOption

open List hiding Vector

namespace NoteOracle

open Noir Failing NoteGetter

open ExecutionNotes (NoteData item sortKey pickNotes)

/-! ### The query and the answer -/

/-- The options of a getter, as the enumerations of comparators and orders allow them. -/
structure Options (n : ℕ) extends NoteGetterOptions where
  offset : ℕ
  status : ℕ
  selects_le : selects.length ≤ n
  sorts_le : sorts.length ≤ n
  selects_mem : ∀ s ∈ selects, s.fieldIndex < n ∧ 1 ≤ s.comparator ∧ s.comparator ≤ 6
  sorts_mem : ∀ s ∈ sorts, s.fieldIndex < n ∧ (s.order = 1 ∨ s.order = 2)

def comparatorOfNumber : ℕ → ExecutionNotes.Comparator
  | 1 => .eq
  | 2 => .neq
  | 3 => .lt
  | 4 => .lte
  | 5 => .gt
  | _ => .gte

def padded (n : ℕ) (l : List ℕ) : List ℕ := l ++ List.replicate (n - l.length) 0

variable {n : ℕ}

/-- `flatten_options`, with the rest of what the oracle is asked. -/
def flattenOptions (storageSlot : Field) (options : Options n) : ExecutionNotes.Query where
  storageSlot := storageSlot
  numSelects := options.selects.length
  selectBy := padded n (options.selects.map (·.fieldIndex))
  selectValues := padded n (options.selects.map (·.value))
  selectComparators := (padded n (options.selects.map (·.comparator))).map comparatorOfNumber
  sortBy := padded n (options.sorts.map (·.fieldIndex))
  sortOrder := padded n (options.sorts.map (·.order))
  limit := options.limit
  offset := options.offset
  status := options.status

def picked (storageSlot : Field) (options : Options n) (noteDatas : List NoteData) :
    List NoteData :=
  let q := flattenOptions storageSlot options
  pickNotes noteDatas q.selects q.sorts q.limit q.offset

def fieldsOf (n : ℕ) (noteData : NoteData) : Vector Field n :=
  Vector.ofFn fun i : Fin n => item noteData.items i

/-- A type of notes, which are made of their fields and a header. -/
structure NoteType (Note : Type) (n : ℕ) extends NoteInterface Note n where
  deserializeContent : Vector Field n → NoteHeader → Note
  serializeContent_deserialize : ∀ fields header,
    serializeContent (deserializeContent fields header) = fields
  header_deserialize : ∀ fields header, (view (deserializeContent fields header)).header = header

variable {Note : Type} (T : NoteType Note n)

/-- The notes that `get_notes` of the oracle makes of the returned data: they have the address of
the first one, and are transient when they are not in the database. -/
def deserialize (isTransient : NoteData → Bool) (storageSlot : Field) (noteDatas : List NoteData) :
    List Note :=
  noteDatas.map fun noteData =>
    T.deserializeContent (fieldsOf n noteData)
      ⟨(noteDatas.head?.map (·.contractAddress)).getD 0, noteData.nonce, storageSlot,
        isTransient noteData⟩

structure Available (n : ℕ) (address storageSlot : Field) (noteData : NoteData) : Prop where
  contractAddress : noteData.contractAddress = address
  storageSlot : noteData.storageSlot = storageSlot
  items_length : noteData.items.length = n
  items_lt : ∀ x ∈ noteData.items, x < Kernel.fieldModulus

structure Answer where
  optNotes : Vector (Option Note) 32
  fields_lt : ∀ note ∈ optNotes.toList.reduceOption, ∀ x ∈ (T.serializeContent note).toList,
    x < Kernel.fieldModulus

def Answer.notes {T : NoteType Note n} (answer : Answer T) : List Note :=
  answer.optNotes.toList.reduceOption

/-- The answer of the honest oracle for notes that are available. -/
def Honest (address storageSlot : Field) (options : Options n) (answer : Answer T) : Prop :=
  ∃ noteDatas : List NoteData, ∃ isTransient : NoteData → Bool,
    (∀ noteData ∈ noteDatas, Available n address storageSlot noteData) ∧
    let notes := deserialize T isTransient storageSlot (picked storageSlot options noteDatas)
    answer.optNotes.toList = notes.map some ++ List.replicate (32 - notes.length) none

/-! ### What an answer should be -/

def toSelect (s : Select) : ExecutionNotes.Select :=
  ⟨s.fieldIndex, s.value, comparatorOfNumber s.comparator⟩

def toSort (s : NoteSort) : ExecutionNotes.NoteSort := ⟨s.fieldIndex, some s.order⟩

def Selected (options : Options n) (fields : Vector Field n) : Prop :=
  ∀ s ∈ options.selects, (toSelect s).Holds fields.toList

def InOrder (options : Options n) (x y : Vector Field n) : Prop :=
  sortKey (options.sorts.map toSort) x.toList ≤ sortKey (options.sorts.map toSort) y.toList

structure Proper (address storageSlot : Field) (options : Options n) (notes : List Note) :
    Prop where
  header : ∀ note ∈ notes, (T.view note).header.contractAddress = address ∧
    (T.view note).header.storageSlot = storageSlot
  selected : ∀ note ∈ notes, Selected options (T.serializeContent note)
  sorted : (notes.map T.serializeContent).IsChain (InOrder options)
  limit : options.limit ≠ 0 → notes.length ≤ options.limit

/-- There are read requests and counters left for some notes. -/
structure Room (context : PrivateContext) (count : ℕ) : Prop where
  readRequests : count ≤ 32 - context.readRequests.len
  counters : count ≤ 2 ^ 32 - 1 - context.sideEffectCounter

/-- **The getter agrees with the oracle**: it accepts every honest answer, and no answer that is
not as it should be. -/
def Agrees (pedersenHash : List Field → ℕ → Field) (storageSlot : Field) (options : Options n) :
    Prop :=
  ∀ (context : PrivateContext) (answer : Answer T),
    (Honest T context.thisAddress storageSlot options answer → Room context answer.notes.length →
      ∃ context', getNotes pedersenHash T.toNoteInterface context storageSlot
        options.toNoteGetterOptions answer.optNotes = .ok context') ∧
    (¬Proper T context.thisAddress storageSlot options answer.notes →
      ∃ e, getNotes pedersenHash T.toNoteInterface context storageSlot
        options.toNoteGetterOptions answer.optNotes = .error e)

/-- A sort field on its own is in order by its low 120 bits. -/
def KeyInOrder (x y : Vector Field n) (s : NoteSort) : Prop :=
  let a := item x.toList s.fieldIndex
  let b := item y.toList s.fieldIndex
  if s.order = 2 then a = b ∨ a % 2 ^ 120 < b % 2 ^ 120
  else a = b ∨ b % 2 ^ 120 ≤ a % 2 ^ 120

def InKeys (options : Options n) (x y : Vector Field n) : Prop :=
  ∀ s ∈ options.sorts, KeyInOrder x y s

/-- **The lexicographic order is the order of every sort field on its own** by its low 120 bits,
for fields that are selected. -/
def KeywiseOrder (options : Options n) : Prop :=
  ∀ x y : Vector Field n, (∀ a ∈ x.toList, a < Kernel.fieldModulus) →
    (∀ b ∈ y.toList, b < Kernel.fieldModulus) → Selected options x → Selected options y →
      (InOrder options x y ↔ InKeys options x y)

/-! ### The checks -/

theorem get_eq_ok_item {x : Vector Field n} {i : ℕ} {a : Field} (hi : i < n) :
    Noir.get x i = .ok a ↔ item x.toList i = a := by
  rw [get_eq_ok, ← Vector.getElem?_toList, item, getD_eq_getElem?_getD,
    List.getElem?_eq_getElem (by simpa using hi), Option.some_inj, Option.getD_some]

theorem checkNoteHeader_eq_ok {context : PrivateContext} {storageSlot : Field} {note : NoteView}
    {u : Unit} : checkNoteHeader context storageSlot note = .ok u ↔
      note.header.contractAddress = context.thisAddress ∧
        note.header.storageSlot = storageSlot := by
  simp [checkNoteHeader, bind_eq_ok]

theorem checkNoteFields_eq_ok {options : Options n} {fields : Vector Field n} {u : Unit} :
    checkNoteFields fields options.selects = .ok u ↔ Selected options fields := by
  rw [checkNoteFields, forM_eq_ok]
  refine forall₂_congr fun s hs => ?_
  obtain ⟨hi, hone, hsix⟩ := options.selects_mem s hs
  obtain ⟨index, value, comparator⟩ := s
  dsimp only at hi hone hsix
  simp only [bind_eq_ok, get_eq_ok_item hi, exists_eq_left', toSelect, ExecutionNotes.Select.Holds]
  generalize item fields.toList index = a
  interval_cases comparator <;> simp [comparatorOfNumber] <;> grind

theorem checkNotesOrder_eq_ok {options : Options n} {x y : Vector Field n} {u : Unit} :
    checkNotesOrder x y options.sorts = .ok u ↔ ∀ s ∈ options.sorts, KeyInOrder x y s := by
  rw [checkNotesOrder, forM_eq_ok]
  refine forall₂_congr fun s hs => ?_
  simp only [bind_eq_ok, get_eq_ok_item (options.sorts_mem s hs).1, exists_eq_left', KeyInOrder]
  split_ifs with horder hne
  · simp
  · simp [hne]
  · simp [not_not.1 hne, pure, Except.pure]

/-! ### The loop -/

section Loop

variable {T : NoteType Note n} {pedersenHash : List Field → ℕ → Field} {storageSlot : Field}
  {options : Options n}

def Accepted (T : NoteType Note n) (address storageSlot : Field) (options : Options n)
    (note : Note) : Prop :=
  ((T.view note).header.contractAddress = address ∧
    (T.view note).header.storageSlot = storageSlot) ∧ Selected options (T.serializeContent note)

def pushed (context : PrivateContext) (readRequest : Field) : PrivateContext :=
  let requests := context.readRequests
  { context with
    readRequests := { requests with
      storage := requests.storage.setIfInBounds requests.len
        ⟨readRequest, context.sideEffectCounter⟩
      len := requests.len + 1 }
    sideEffectCounter := context.sideEffectCounter + 1 }

variable {context context' : PrivateContext}

theorem pushReadRequest_eq_ok {readRequest : Field} :
    context.pushReadRequest readRequest = .ok context' ↔
      Room context 1 ∧ pushed context readRequest = context' := by
  have hroom : Room context 1 ↔
      context.readRequests.len < 32 ∧ context.sideEffectCounter + 1 < 2 ^ 32 :=
    ⟨fun ⟨h, h'⟩ => ⟨by omega, by omega⟩, fun ⟨h, h'⟩ => ⟨by omega, by omega⟩⟩
  simp [PrivateContext.pushReadRequest, BoundedVec.push, bind_eq_ok, addU32_eq_ok, pure,
    Except.pure, hroom, pushed, and_assoc]

def afterNote (pedersenHash : List Field → ℕ → Field) (T : NoteType Note n) (s : GetNotes n)
    (note : Note) : GetNotes n where
  context := pushed s.context (computeNoteHashForConsumption pedersenHash (T.view note))
  numNotes := s.numNotes + 1
  prevFields := T.serializeContent note

theorem getNotesStep_some {s s' : GetNotes n} {note : Note} {i : ℕ} :
    getNotesStep pedersenHash T.toNoteInterface storageSlot options.toNoteGetterOptions s
        (some note, i) = .ok s' ↔ Accepted T s.context.thisAddress storageSlot options note ∧
        (i ≠ 0 → InKeys options s.prevFields (T.serializeContent note)) ∧ Room s.context 1 ∧
        afterNote pedersenHash T s note = s' := by
  have horder : ∀ u, (if i ≠ 0 then checkNotesOrder s.prevFields (T.serializeContent note)
      options.sorts else pure ()) = Except.ok u ↔
        (i ≠ 0 → InKeys options s.prevFields (T.serializeContent note)) := by
    intro u
    split_ifs with hi
    · exact checkNotesOrder_eq_ok.trans ⟨fun h _ => h, fun h => h hi⟩
    · exact ⟨fun _ h => absurd h hi, fun _ => rfl⟩
  simp only [getNotesStep, bind_eq_ok, checkNoteHeader_eq_ok, checkNoteFields_eq_ok, horder,
    pushReadRequest_eq_ok, Accepted, pure_eq_ok]
  constructor
  · rintro ⟨_, hheader, _, hselected, _, hkeys, _, ⟨hroom, rfl⟩, rfl⟩
    exact ⟨⟨hheader, hselected⟩, hkeys, hroom, rfl⟩
  · rintro ⟨⟨hheader, hselected⟩, hkeys, hroom, rfl⟩
    exact ⟨(), hheader, (), hselected, (), hkeys, _, ⟨hroom, rfl⟩, rfl⟩

/-- **The loop** accepts what passes the checks on its own, is in order on every sort field, and has
room; if it starts with a note, or not at the first place, or there are no notes. -/
theorem exists_foldlM_iff {l : List (Option Note)} {s : GetNotes n} {k m : ℕ}
    (hk : k = 0 → l.head? = some none → l.reduceOption = []) :
    (∃ s', (l.zipIdx k).foldlM (getNotesStep pedersenHash T.toNoteInterface storageSlot
        options.toNoteGetterOptions) s = .ok s' ∧ s'.numNotes = m) ↔
      (∀ note ∈ l.reduceOption, Accepted T s.context.thisAddress storageSlot options note) ∧
        (k ≠ 0 → (s.prevFields :: l.reduceOption.map T.serializeContent).IsChain (InKeys options)) ∧
        (l.reduceOption.map T.serializeContent).IsChain (InKeys options) ∧
        Room s.context l.reduceOption.length ∧ m = s.numNotes + l.reduceOption.length := by
  induction l generalizing s k with
  | nil =>
    simp only [zipIdx_nil, foldlM_nil, pure_eq_ok, exists_eq_left', reduceOption_nil,
      map_nil, length_nil]
    constructor
    · rintro rfl
      exact ⟨fun _ h => absurd h not_mem_nil, fun _ => .singleton _, .nil,
        ⟨by omega, by omega⟩, rfl⟩
    · rintro ⟨-, -, -, -, h⟩
      exact h.symm
  | cons optNote l ih =>
    rw [zipIdx_cons, foldlM_cons]
    have ih' := fun s : GetNotes n => ih (s := s) (k := k + 1) fun h => absurd h k.succ_ne_zero
    cases optNote with
    | none =>
      rw [reduceOption_cons_of_none] at hk ⊢
      refine (ih' s).trans (and_congr_right fun _ => ?_)
      refine and_congr_left fun _ => ⟨fun h _ => h k.succ_ne_zero, fun h _ => ?_⟩
      by_cases hzero : k = 0
      · rw [hk hzero rfl]
        exact .singleton _
      · exact h hzero
    | some note =>
      rw [reduceOption_cons_of_some, map_cons, length_cons]
      have hlength : (afterNote pedersenHash T s note).context.readRequests.len =
          s.context.readRequests.len + 1 := rfl
      have hcounter : (afterNote pedersenHash T s note).context.sideEffectCounter =
          s.context.sideEffectCounter + 1 := rfl
      have hnum : (afterNote pedersenHash T s note).numNotes = s.numNotes + 1 := rfl
      simp only [bind_eq_ok, getNotesStep_some]
      constructor
      · rintro ⟨s'', ⟨_, ⟨haccepted, hkeys, ⟨hroom₁, hroom₂⟩, rfl⟩, hfold⟩, hm⟩
        obtain ⟨hall, hchain, -, ⟨hroom₃, hroom₄⟩, hm'⟩ := (ih' _).1 ⟨s'', hfold, hm⟩
        have hnotes := hchain k.succ_ne_zero
        have hroom : Room s.context (l.reduceOption.length + 1) := ⟨by omega, by omega⟩
        exact ⟨forall_mem_cons.2 ⟨haccepted, hall⟩,
          fun hk => isChain_cons_cons.2 ⟨hkeys hk, hnotes⟩, hnotes, hroom, by omega⟩
      · rintro ⟨hall, hprevious, hnotes, ⟨hroom₁, hroom₂⟩, rfl⟩
        obtain ⟨haccepted, hall⟩ := forall_mem_cons.1 hall
        have hroom : Room (afterNote pedersenHash T s note).context l.reduceOption.length :=
          ⟨by omega, by omega⟩
        obtain ⟨s'', hfold, hm⟩ := (ih' (afterNote pedersenHash T s note)).2
          ⟨hall, fun _ => hnotes, hnotes.tail, hroom, by omega⟩
        exact ⟨s'', ⟨_, ⟨haccepted, fun hk => (isChain_cons_cons.1 (hprevious hk)).1,
          ⟨by omega, by omega⟩, rfl⟩, hfold⟩, hm⟩

variable {optNotes : Vector (Option Note) 32}

theorem keys_of_getNotes (h : getNotes pedersenHash T.toNoteInterface context storageSlot options.toNoteGetterOptions
      optNotes = .ok context') : (∀ note ∈ optNotes.toList.reduceOption,
        Accepted T context.thisAddress storageSlot options note) ∧
      (optNotes.toList.reduceOption.map T.serializeContent).IsChain (InKeys options) ∧
      (options.limit ≠ 0 → optNotes.toList.reduceOption.length ≤ options.limit) := by
  simp only [getNotes, bind_eq_ok] at h
  obtain ⟨s, hloop, _, hlimit, -⟩ := h
  obtain ⟨hall, hnotes, hnum⟩ : (∀ note ∈ optNotes.toList.reduceOption,
        Accepted T context.thisAddress storageSlot options note) ∧
      (optNotes.toList.reduceOption.map T.serializeContent).IsChain (InKeys options) ∧
      s.numNotes = optNotes.toList.reduceOption.length := by
    generalize optNotes.toList = l at hloop
    cases l with
    | nil =>
      cases hloop
      exact ⟨fun _ h => absurd h not_mem_nil, .nil, rfl⟩
    | cons optNote l =>
      cases optNote with
      | none =>
        -- the first turn does nothing
        rw [zipIdx_cons, foldlM_cons] at hloop
        obtain ⟨hall, -, hnotes, -, hnum⟩ := (exists_foldlM_iff fun h =>
          absurd h (Nat.succ_ne_zero 0)).1 ⟨s, hloop, rfl⟩
        exact ⟨hall, hnotes, hnum.trans (Nat.zero_add _)⟩
      | some note =>
        obtain ⟨hall, -, hnotes, -, hnum⟩ := (exists_foldlM_iff (by simp)).1 ⟨s, hloop, rfl⟩
        exact ⟨hall, hnotes, hnum.trans (Nat.zero_add _)⟩
  refine ⟨hall, hnotes, fun hne => ?_⟩
  rw [if_pos hne, assert_eq_ok, decide_eq_true_eq, hnum] at hlimit
  exact hlimit

variable (pedersenHash) in
theorem exists_getNotes {context : PrivateContext} {notes : List Note} {m : ℕ}
    (hanswer : optNotes.toList = notes.map some ++ List.replicate m none)
    (hall : ∀ note ∈ notes, Accepted T context.thisAddress storageSlot options note)
    (hnotes : (notes.map T.serializeContent).IsChain (InKeys options))
    (hroom : Room context notes.length)
    (hlimit : options.limit ≠ 0 → notes.length ≤ options.limit) :
    ∃ context', getNotes pedersenHash T.toNoteInterface context storageSlot
      options.toNoteGetterOptions optNotes = .ok context' := by
  have hreduce : optNotes.toList.reduceOption = notes := by
    rw [hanswer, reduceOption_append, reduceOption_replicate_none, append_nil]
    rw [List.reduceOption, filterMap_map]
    exact filterMap_some
  obtain ⟨s, hloop, hnum⟩ : ∃ s, optNotes.toList.zipIdx.foldlM (getNotesStep pedersenHash
      T.toNoteInterface storageSlot options.toNoteGetterOptions)
      { context := context, numNotes := 0, prevFields := Vector.replicate n 0 } = .ok s ∧
        s.numNotes = notes.length := by
    refine (exists_foldlM_iff fun _ hhead => ?_).2 ?_
    · cases notes with
      | nil => exact hreduce
      | cons note notes =>
        rw [hanswer] at hhead
        cases hhead
    · rw [hreduce]
      exact ⟨hall, fun h => absurd rfl h, hnotes, hroom, (Nat.zero_add _).symm⟩
  simp only [getNotes, bind_eq_ok]
  refine ⟨s.context, s, hloop, (), ?_, rfl⟩
  split_ifs with hne
  · rw [assert_eq_ok, decide_eq_true_eq, hnum]
    exact hlimit hne
  · rfl

end Loop

/-! ### The answer of the honest oracle -/

theorem map_zip_padded (l : List Select) (r : List ℕ) (r' : List ExecutionNotes.Comparator) :
    ((l.map (·.fieldIndex)).zip ((l.map (·.value) ++ r).zip
      (l.map (fun s => comparatorOfNumber s.comparator) ++ r'))).map
        (fun s => (⟨s.1, s.2.1, s.2.2⟩ : ExecutionNotes.Select)) = l.map toSelect := by
  induction l with
  | nil => simp
  | cons s l ih => simpa [toSelect] using ih

section

variable (storageSlot : Field) (options : Options n)
include storageSlot options

theorem selects_flattenOptions :
    (flattenOptions storageSlot options).selects = options.selects.map toSelect := by
  have htake : (padded n (options.selects.map (·.fieldIndex))).take options.selects.length =
      options.selects.map (·.fieldIndex) :=
    take_left' (length_map _)
  simp only [ExecutionNotes.Query.selects, flattenOptions, htake]
  rw [padded, padded, map_append, List.map_map]
  exact map_zip_padded _ _ _

theorem sorts_flattenOptions :
    (flattenOptions storageSlot options).sorts = options.sorts.map toSort ++
      List.replicate (n - options.sorts.length) ⟨0, some 0⟩ := by
  refine ext_getElem (by simp [ExecutionNotes.Query.sorts, flattenOptions, padded]) fun i hi _ => ?_
  simp only [ExecutionNotes.Query.sorts, flattenOptions, padded, getElem_mapIdx,
    getElem_append, length_map]
  split_ifs with h
  · rw [List.getElem?_append_left (by simpa using h)]
    simp [toSort, h]
  · have hlt : i - options.sorts.length < n - options.sorts.length := by
      simp [ExecutionNotes.Query.sorts, flattenOptions, padded] at hi
      omega
    rw [List.getElem?_append_right (by simpa using h)]
    simp [hlt]

theorem sortKey_flattenOptions (items : List ℕ) :
    sortKey (flattenOptions storageSlot options).sorts items =
      sortKey (options.sorts.map toSort) items := by
  have hall : ∀ s ∈ options.sorts.map toSort, decide (s.order ≠ some 0) = true := by
    intro s hs
    obtain ⟨s, hs', rfl⟩ := mem_map.1 hs
    have := (options.sorts_mem s hs').2
    simp [toSort]
    omega
  rw [sortKey, sorts_flattenOptions, takeWhile_append_of_pos hall, takeWhile_replicate,
    if_neg (by simp), append_nil, sortKey, takeWhile_eq_self_iff.2 hall]

end

section Honest

variable {storageSlot : Field} {options : Options n} {noteDatas : List NoteData}

variable {noteData : NoteData}

theorem toList_fieldsOf {address : Field} (h : Available n address storageSlot noteData) :
    (fieldsOf n noteData).toList = noteData.items := by
  refine ext_getElem (by simp [h.items_length]) fun i hi hi' => ?_
  simp [fieldsOf, item, getD_eq_getElem?_getD, hi']

theorem picked_eq : picked storageSlot options noteDatas =
    ExecutionNotes.slice options.limit options.offset
      ((noteDatas.filter fun d => ∀ s ∈ options.selects, (toSelect s).Holds d.items).mergeSort
        fun a b => sortKey (options.sorts.map toSort) a.items ≤
          sortKey (options.sorts.map toSort) b.items) := by
  rw [picked, pickNotes, selects_flattenOptions, ExecutionNotes.selectNotes_eq]
  simp only [ExecutionNotes.sortNotes_le_iff, sortKey_flattenOptions, forall_mem_map]
  rfl

theorem slice_sublist (limit offset : ℕ) (l : List NoteData) :
    (ExecutionNotes.slice limit offset l).Sublist l := by
  rw [ExecutionNotes.slice]
  split
  · exact (take_sublist _ _).trans (drop_sublist _ _)
  · exact drop_sublist _ _

theorem length_picked (hlimit : options.limit ≠ 0) :
    (picked storageSlot options noteDatas).length ≤ options.limit := by
  rw [picked_eq, ExecutionNotes.slice, if_pos hlimit]
  exact length_take_le _ _

theorem mem_picked (h : noteData ∈ picked storageSlot options noteDatas) :
    noteData ∈ noteDatas ∧ ∀ s ∈ options.selects, (toSelect s).Holds noteData.items := by
  rw [picked_eq] at h
  have hmem := mem_filter.1 (mem_mergeSort.1 ((slice_sublist _ _ _).subset h))
  exact ⟨hmem.1, of_decide_eq_true hmem.2⟩

theorem pairwise_picked : (picked storageSlot options noteDatas).Pairwise fun a b =>
    sortKey (options.sorts.map toSort) a.items ≤ sortKey (options.sorts.map toSort) b.items := by
  rw [picked_eq]
  exact (ExecutionNotes.stablySorted_mergeSort _ _).pairwise.sublist (slice_sublist _ _ _)

variable {address : Field} (havailable : ∀ d ∈ noteDatas, Available n address storageSlot d)
include havailable

theorem selected_fieldsOf (h : noteData ∈ picked storageSlot options noteDatas) :
    Selected options (fieldsOf n noteData) := by
  rw [Selected, toList_fieldsOf (havailable _ (mem_picked h).1)]
  exact (mem_picked h).2

theorem accepted_deserialize {T : NoteType Note n} {isTransient : NoteData → Bool} {note : Note}
    (h : note ∈ deserialize T isTransient storageSlot (picked storageSlot options noteDatas)) :
    Accepted T address storageSlot options note := by
  obtain ⟨d, hd, rfl⟩ := mem_map.1 h
  have haddress : ((picked storageSlot options noteDatas).head?.map (·.contractAddress)).getD 0 =
      address := by
    obtain ⟨first, hfirst⟩ : ∃ first, (picked storageSlot options noteDatas).head? = some first :=
      ⟨_, List.head?_eq_some_head (ne_nil_of_mem hd)⟩
    rw [hfirst]
    exact (havailable _ (mem_picked (List.mem_of_head? hfirst)).1).contractAddress
  refine ⟨⟨?_, ?_⟩, ?_⟩
  · rw [T.header_deserialize]
    exact haddress
  · rw [T.header_deserialize]
  · rw [T.serializeContent_deserialize]
    exact selected_fieldsOf havailable hd

theorem keys_picked (h : KeywiseOrder options) :
    ((picked storageSlot options noteDatas).map (fieldsOf n)).IsChain (InKeys options) := by
  refine (pairwise_map.2 (pairwise_picked.imp_of_mem fun {a b} ha hb hab => ?_)).isChain
  have ha' := havailable _ (mem_picked ha).1
  have hb' := havailable _ (mem_picked hb).1
  refine (h _ _ ?_ ?_ (selected_fieldsOf havailable ha) (selected_fieldsOf havailable hb)).1 ?_
  · rw [toList_fieldsOf ha']
    exact ha'.items_lt
  · rw [toList_fieldsOf hb']
    exact hb'.items_lt
  · rw [InOrder, toList_fieldsOf ha', toList_fieldsOf hb']
    exact hab

end Honest

/-! ### Agreement -/

section Agreement

variable {T : NoteType Note n} {pedersenHash : List Field → ℕ → Field} {storageSlot : Field}
  {options : Options n}

theorem serializeContent_deserialize (isTransient : NoteData → Bool) (noteDatas : List NoteData) :
    (deserialize T isTransient storageSlot noteDatas).map T.serializeContent =
      noteDatas.map (fieldsOf n) := by
  simp [deserialize, T.serializeContent_deserialize, Function.comp_def]

theorem isChain_of_length_le_one {α : Type} {R : α → α → Prop} {l : List α} (h : l.length ≤ 1) :
    l.IsChain R := by
  match l with
  | [] => exact .nil
  | [a] => exact .singleton a

theorem agrees_of_keywise (h : options.limit = 1 ∨ KeywiseOrder options) :
    Agrees T pedersenHash storageSlot options := by
  intro context answer
  constructor
  · rintro ⟨noteDatas, isTransient, havailable, hanswer⟩ hroom
    dsimp only at hanswer
    have hnotes : answer.notes =
        deserialize T isTransient storageSlot (picked storageSlot options noteDatas) := by
      rw [Answer.notes, hanswer, reduceOption_append, reduceOption_replicate_none,
        append_nil, List.reduceOption, filterMap_map]
      exact filterMap_some
    have hlimit : options.limit ≠ 0 → answer.notes.length ≤ options.limit := fun hne => by
      rw [hnotes, deserialize, length_map]
      exact length_picked hne
    rw [← hnotes] at hanswer
    refine exists_getNotes pedersenHash hanswer (fun note hnote => ?_) ?_ hroom hlimit
    · rw [hnotes] at hnote
      exact accepted_deserialize havailable hnote
    · rcases h with h | h
      · rw [h] at hlimit
        exact isChain_of_length_le_one (by simpa using hlimit one_ne_zero)
      · rw [hnotes, serializeContent_deserialize]
        exact keys_picked havailable h
  · intro hproper
    cases hget : getNotes pedersenHash T.toNoteInterface context storageSlot
        options.toNoteGetterOptions answer.optNotes with
    | error e => exact ⟨e, rfl⟩
    | ok context' =>
      obtain ⟨hall, hkeys, hlimit⟩ := keys_of_getNotes hget
      refine absurd ⟨fun note hnote => (hall note hnote).1, fun note hnote => (hall note hnote).2,
        ?_, hlimit⟩ hproper
      rcases h with h | h
      · rw [h] at hlimit
        exact isChain_of_length_le_one (by
          rw [length_map]
          exact hlimit one_ne_zero)
      · refine hkeys.imp_of_mem_imp fun x y hx hy hxy => ?_
        obtain ⟨a, ha, rfl⟩ := mem_map.1 hx
        obtain ⟨b, hb, rfl⟩ := mem_map.1 hy
        exact (h _ _ (answer.fields_lt a ha) (answer.fields_lt b hb) (hall a ha).2
          (hall b hb).2).2 hxy

variable (T) in
def twoNotes (address storageSlot : Field) (x y : Vector Field n)
    (hx : ∀ a ∈ x.toList, a < Kernel.fieldModulus) (hy : ∀ b ∈ y.toList, b < Kernel.fieldModulus) :
    Answer T where
  optNotes := ⟨(([x, y].map fun fields => some (T.deserializeContent fields
    ⟨address, 0, storageSlot, false⟩)) ++ List.replicate 30 none).toArray, by simp⟩
  fields_lt := by
    simp [List.reduceOption, T.serializeContent_deserialize]
    exact ⟨fun a ha => hx a (by simpa using ha), fun b hb => hy b (by simpa using hb)⟩

theorem keywise_of_agrees (h : Agrees T pedersenHash storageSlot options)
    (hlimit : options.limit ≠ 1) : KeywiseOrder options := by
  intro x y hx hy hselx hsely
  -- a function that has done nothing
  let context : PrivateContext := .new ⟨0, 0, 0, 0, false, false, false, 0⟩
  let answer := twoNotes T 0 storageSlot x y hx hy
  have hnotes : answer.notes = [x, y].map fun fields => T.deserializeContent fields
      ⟨0, 0, storageSlot, false⟩ := by
    simp [answer, twoNotes, Answer.notes, List.reduceOption]
  have hserialize : answer.notes.map T.serializeContent = [x, y] := by
    simp [hnotes, T.serializeContent_deserialize]
  have hlength : answer.notes.length = 2 := by
    rw [hnotes]
    rfl
  have hroom : Room context answer.notes.length := by
    rw [hlength]
    exact ⟨by decide, by decide⟩
  obtain ⟨haccept, hreject⟩ := h context answer
  constructor
  · intro hxy
    -- the notes are available, after as many copies of the first as the offset skips
    let d : Vector Field n → NoteData := fun fields => ⟨0, storageSlot, 0, fields.toList, 0, none⟩
    have havailable : ∀ fields : Vector Field n, (∀ a ∈ fields.toList, a < Kernel.fieldModulus) →
        Available n 0 storageSlot (d fields) :=
      fun fields hlt => ⟨rfl, rfl, by simp [d], hlt⟩
    have hd : ∀ fields : Vector Field n, fieldsOf n (d fields) = fields := by
      intro fields
      ext i hi
      simp [fieldsOf, d, item, getD_eq_getElem?_getD]
    let noteDatas := List.replicate options.offset (d x) ++ [d x, d y]
    have hmem : ∀ a ∈ noteDatas, a = d x ∨ a = d y := by
      intro a ha
      simp [noteDatas] at ha
      tauto
    have hpicked : picked storageSlot options noteDatas = [d x, d y] := by
      have hfilter : noteDatas.filter
          (fun a => ∀ s ∈ options.selects, (toSelect s).Holds a.items) = noteDatas := by
        refine filter_eq_self.2 fun a ha => decide_eq_true ?_
        obtain rfl | rfl := hmem a ha
        · exact hselx
        · exact hsely
      have hsorted : noteDatas.Pairwise fun a b =>
          decide (sortKey (options.sorts.map toSort) a.items ≤
            sortKey (options.sorts.map toSort) b.items) = true := by
        refine pairwise_append.2 ⟨pairwise_replicate.2 (.inr ?_), ?_, ?_⟩
        · exact decide_eq_true le_rfl
        · exact pairwise_pair.2 (decide_eq_true hxy)
        · intro a ha b hb
          rw [eq_of_mem_replicate ha]
          obtain rfl | rfl := hmem b (mem_append_right _ hb)
          · exact decide_eq_true le_rfl
          · exact decide_eq_true hxy
      have hdrop : noteDatas.drop options.offset = [d x, d y] :=
        drop_left' length_replicate
      rw [picked_eq, hfilter, mergeSort_of_pairwise hsorted, ExecutionNotes.slice, hdrop]
      split_ifs with hzero
      · exact take_of_length_le (by simp; omega)
      · rfl
    have hanswer : answer.optNotes.toList =
        (deserialize T (fun _ => false) storageSlot [d x, d y]).map some ++
          List.replicate (32 - 2) none := by
      simp [answer, twoNotes, deserialize, hd, d]
    obtain ⟨context', hget⟩ := haccept ⟨noteDatas, fun _ => false, fun a ha => by
      obtain rfl | rfl := hmem a ha
      · exact havailable x hx
      · exact havailable y hy, by rw [hpicked]; exact hanswer⟩ hroom
    have hkeys := (keys_of_getNotes hget).2.1
    have hchain : [x, y].IsChain (InKeys options) := hserialize ▸ hkeys
    exact (isChain_cons_cons.1 hchain).1
  · intro hxy
    by_contra hnot
    obtain ⟨e, herror⟩ := hreject fun hproper =>
      hnot (isChain_cons_cons.1 (hserialize ▸ hproper.sorted)).1
    have hanswer : answer.optNotes.toList = answer.notes.map some ++ List.replicate 30 none := by
      rw [hnotes]
      simp [answer, twoNotes]
    have hall : ∀ note ∈ answer.notes, Accepted T context.thisAddress storageSlot options note := by
      intro note hnote
      rw [hnotes] at hnote
      obtain ⟨fields, hfields, rfl⟩ := mem_map.1 hnote
      refine ⟨?_, ?_⟩
      · rw [T.header_deserialize]
        exact ⟨rfl, rfl⟩
      · rw [T.serializeContent_deserialize]
        simp only [mem_cons, not_mem_nil, or_false] at hfields
        obtain rfl | rfl := hfields
        · exact hselx
        · exact hsely
    obtain ⟨context', hok⟩ := exists_getNotes pedersenHash hanswer hall
      (hserialize ▸ isChain_cons_cons.2 ⟨hxy, .singleton y⟩) hroom fun hne => by rw [hlength]; omega
    rw [herror] at hok
    cases hok

variable (T pedersenHash storageSlot options) in
/-- **The getter agrees with the oracle exactly when** it may return one note only, or the order of
the sorts is the order of every sort field by its low 120 bits. -/
theorem getterAgrees_iff : Agrees T pedersenHash storageSlot options ↔
    options.limit = 1 ∨ KeywiseOrder options :=
  ⟨fun h => or_iff_not_imp_left.2 (keywise_of_agrees h), agrees_of_keywise⟩

end Agreement

def pairType : NoteType (Vector Field 2 × NoteHeader) 2 where
  view note := ⟨note.2, 0⟩
  serializeContent note := note.1
  deserializeContent fields header := (fields, header)
  serializeContent_deserialize _ _ := rfl
  header_deserialize _ _ := rfl

/-- Ascending by the first field, and then by the second one. -/
def twoSorts : Options 2 where
  selects := []
  sorts := [⟨0, 2⟩, ⟨1, 2⟩]
  limit := 0
  offset := 0
  status := 1
  selects_le := by decide
  sorts_le := by decide
  selects_mem := by simp
  sorts_mem := by decide

/-- The fields 1, 2 come before 2, 1. -/
theorem not_getterAgrees : ¬Agrees pairType (fun _ _ => 0) 3 twoSorts := by
  intro h
  have hkeys := (keywise_of_agrees h (by decide) #v[1, 2] #v[2, 1] (by decide)
    (by decide) (by simp [Selected, twoSorts]) (by simp [Selected, twoSorts])).1 (by
      unfold InOrder
      decide)
  have hsecond := hkeys ⟨1, 2⟩ (by simp [twoSorts])
  revert hsecond
  unfold KeyInOrder
  decide

end NoteOracle
