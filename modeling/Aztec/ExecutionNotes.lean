/-
**Notes offered to private functions.**

All calls of a transaction share a cache of the notes that they created and of the nullifiers that
they emitted, each under its storage address.  A function that asks for notes gets those of the
database whose nullifiers were not emitted, and then the new ones that are left, selected, sorted
and cut to a page.
-/

import Mathlib.Data.List.Perm.Basic
import Mathlib.Data.List.Lex
import Mathlib.Tactic

open List Function

namespace ExecutionNotes

/-! ### Notes and the cache -/

/-- `NoteData`; field elements are their values. -/
structure NoteData where
  contractAddress : ℕ
  storageSlot : ℕ
  nonce : ℕ
  items : List ℕ
  innerNoteHash : ℕ
  siloedNullifier : Option ℕ
  deriving DecidableEq

/-- `ExecutionNoteCache`. -/
structure Cache where
  newNotes : ℕ → List NoteData
  nullifiers : ℕ → List ℕ

namespace Cache

def empty : Cache := ⟨fun _ => [], fun _ => []⟩

def addNewNote (c : Cache) (note : NoteData) : Cache :=
  { c with
    newNotes := Function.update c.newNotes note.contractAddress
      (c.newNotes note.contractAddress ++ [note]) }

/-- `none` is the error that the pending note does not exist. -/
def nullifyNote (siloNullifier : ℕ → ℕ → ℕ) (c : Cache)
    (contractAddress innerNullifier innerNoteHash : ℕ) : Option Cache :=
  let siloedNullifier := siloNullifier contractAddress innerNullifier
  let c := { c with
    nullifiers := Function.update c.nullifiers contractAddress
      ((c.nullifiers contractAddress).insert siloedNullifier) }
  if innerNoteHash ≠ 0 then
    let notes := c.newNotes contractAddress
    match notes.findIdx? (·.innerNoteHash = innerNoteHash) with
    | none => none
    | some noteIndexToRemove =>
      some { c with
        newNotes := Function.update c.newNotes contractAddress
          (notes.eraseIdx noteIndexToRemove) }
  else some c

def getNotes (c : Cache) (contractAddress storageSlot : ℕ) : List NoteData :=
  (c.newNotes contractAddress).filter (·.storageSlot = storageSlot)

end Cache

/-! ### Selection, sorting and paging -/

inductive Comparator
  | eq | neq | lt | lte | gt | gte
  deriving DecidableEq

structure Select where
  index : ℕ
  value : ℕ
  comparator : Comparator

/-- `Sort`; the order is missing where the array of orders is too short. -/
structure NoteSort where
  index : ℕ
  order : Option ℕ

/-- The item of a note that an index means; reading past the items is an error of the language. -/
def item (items : List ℕ) (index : ℕ) : ℕ := items.getD index 0

def comparatorSelector (x value : ℕ) : Comparator → Bool
  | .eq => x = value
  | .neq => !decide (x = value)
  | .lt => x < value
  | .lte => decide (x < value) || decide (x = value)
  | .gt => !decide (x < value) && !decide (x = value)
  | .gte => !decide (x < value)

def selectNotes (noteDatas : List NoteData) (selects : List Select) : List NoteData :=
  noteDatas.filter fun noteData =>
    selects.all fun s => comparatorSelector (item noteData.items s.index) s.value s.comparator

def sortNotes (a b : List ℕ) : List NoteSort → ℤ
  | [] => 0
  | s :: sorts =>
    if s.order = some 0 then 0
    else
      let dir : ℤ × ℤ := if s.order = some 1 then (-1, 1) else (1, -1)
      if item a s.index = item b s.index then sortNotes a b sorts
      else if item a s.index > item b s.index then dir.1 else dir.2

/-- `slice`, without an end where the limit is zero. -/
def slice (limit offset : ℕ) (l : List NoteData) : List NoteData :=
  if limit ≠ 0 then (l.drop offset).take limit else l.drop offset

def pickNotes (noteDatas : List NoteData) (selects : List Select) (sorts : List NoteSort)
    (limit offset : ℕ) : List NoteData :=
  slice limit offset ((selectNotes noteDatas selects).mergeSort
    fun a b => sortNotes a.items b.items sorts ≤ 0)

structure Query where
  storageSlot : ℕ
  numSelects : ℕ
  selectBy : List ℕ
  selectValues : List ℕ
  selectComparators : List Comparator
  sortBy : List ℕ
  sortOrder : List ℕ
  limit : ℕ
  offset : ℕ
  status : ℕ

namespace Query

def selects (q : Query) : List Select :=
  ((q.selectBy.take q.numSelects).zip (q.selectValues.zip q.selectComparators)).map
    fun s => ⟨s.1, s.2.1, s.2.2⟩

def sorts (q : Query) : List NoteSort := q.sortBy.mapIdx fun i index => ⟨index, q.sortOrder[i]?⟩

end Query

/-- The database: the notes of an address and a slot, with a status. -/
abbrev Database := ℕ → ℕ → ℕ → List NoteData

def getNotes (db : Database) (c : Cache) (storageContractAddress : ℕ) (q : Query) :
    List NoteData :=
  let pendingNotes := c.getNotes storageContractAddress q.storageSlot
  let pendingNullifiers := c.nullifiers storageContractAddress
  let dbNotes := db storageContractAddress q.storageSlot q.status
  let dbNotesFiltered := dbNotes.filter fun n =>
    !(n.siloedNullifier.any fun nullifier => nullifier ∈ pendingNullifiers)
  pickNotes (dbNotesFiltered ++ pendingNotes) q.selects q.sorts q.limit q.offset

/-! ### Nested calls -/

/-- What a private function does to notes, with the calls that it makes; `abort` is an error
elsewhere. -/
inductive Body
  | done
  | abort
  | notifyCreatedNote (storageSlot : ℕ) (noteItems : List ℕ) (innerNoteHash : ℕ) (rest : Body)
  | notifyNullifiedNote (innerNullifier innerNoteHash : ℕ) (rest : Body)
  | getNotes (q : Query) (rest : Body)
  | callPrivateFunction (targetContractAddress : ℕ) (isDelegateCall : Bool) (body rest : Body)

structure Context where
  contractAddress : ℕ
  storageContractAddress : ℕ

def Context.derive (ctx : Context) (targetContractAddress : ℕ) (isDelegateCall : Bool) :
    Context where
  contractAddress := targetContractAddress
  storageContractAddress := if isDelegateCall then ctx.contractAddress else targetContractAddress

inductive Event
  | created (note : NoteData)
  | nullified (address innerNullifier innerNoteHash : ℕ)
  | got (address : ℕ) (q : Query) (notes : List NoteData)

def createdNote (ctx : Context) (storageSlot : ℕ) (noteItems : List ℕ) (innerNoteHash : ℕ) :
    NoteData where
  contractAddress := ctx.storageContractAddress
  storageSlot := storageSlot
  nonce := 0
  items := noteItems
  innerNoteHash := innerNoteHash
  siloedNullifier := none

section Run

variable (db : Database) (siloNullifier : ℕ → ℕ → ℕ)

/-- The events of a call, and the cache after it; there is none after an error. -/
def run : Body → Context → Cache → List Event × Option Cache
  | .done, _, c => ([], some c)
  | .abort, _, _ => ([], none)
  | .notifyCreatedNote storageSlot noteItems innerNoteHash rest, ctx, c =>
    let note := createdNote ctx storageSlot noteItems innerNoteHash
    let r := run rest ctx (c.addNewNote note)
    (.created note :: r.1, r.2)
  | .notifyNullifiedNote innerNullifier innerNoteHash rest, ctx, c =>
    match c.nullifyNote siloNullifier ctx.storageContractAddress innerNullifier innerNoteHash with
    | none => ([], none)
    | some c =>
      let r := run rest ctx c
      (.nullified ctx.storageContractAddress innerNullifier innerNoteHash :: r.1, r.2)
  | .getNotes q rest, ctx, c =>
    let notes := getNotes db c ctx.storageContractAddress q
    let r := run rest ctx c
    (.got ctx.storageContractAddress q notes :: r.1, r.2)
  | .callPrivateFunction targetContractAddress isDelegateCall body rest, ctx, c =>
    let r := run body (ctx.derive targetContractAddress isDelegateCall) c
    match r.2 with
    | none => (r.1, none)
    | some c =>
      let r' := run rest ctx c
      (r.1 ++ r'.1, r'.2)

end Run

/-! ### What should be offered -/

def createdNotes (events : List Event) (address : ℕ) : List NoteData :=
  events.filterMap fun
    | .created note => if note.contractAddress = address then some note else none
    | _ => none

/-- How many times an address nullified a new note with a hash; a zero hash names no new note. -/
def nullifiedCount (events : List Event) (address hash : ℕ) : ℕ :=
  events.countP fun
    | .nullified a _ h => a = address ∧ h = hash ∧ h ≠ 0
    | _ => false

def emittedNullifiers (siloNullifier : ℕ → ℕ → ℕ) (events : List Event) (address : ℕ) :
    List ℕ :=
  events.filterMap fun
    | .nullified a innerNullifier _ =>
      if a = address then some (siloNullifier address innerNullifier) else none
    | _ => none

/-- The notes but the first ones of each hash, as many as are given. -/
def dropFirst (count : ℕ → ℕ) : List NoteData → List NoteData
  | [] => []
  | note :: notes =>
    if 0 < count note.innerNoteHash then
      dropFirst (Function.update count note.innerNoteHash (count note.innerNoteHash - 1)) notes
    else note :: dropFirst count notes

def pendingNotes (events : List Event) (address : ℕ) : List NoteData :=
  dropFirst (nullifiedCount events address) (createdNotes events address)

/-- The notes of an address and a slot that were not nullified, of the database and new ones. -/
def spendable (db : Database) (siloNullifier : ℕ → ℕ → ℕ) (events : List Event) (address : ℕ)
    (q : Query) : List NoteData :=
  (db address q.storageSlot q.status).filter (fun note =>
      ∀ nullifier ∈ note.siloedNullifier,
        nullifier ∉ emittedNullifiers siloNullifier events address) ++
    (pendingNotes events address).filter (·.storageSlot = q.storageSlot)

def Select.Holds (s : Select) (items : List ℕ) : Prop :=
  match s.comparator with
  | .eq => item items s.index = s.value
  | .neq => item items s.index ≠ s.value
  | .lt => item items s.index < s.value
  | .lte => item items s.index ≤ s.value
  | .gt => s.value < item items s.index
  | .gte => s.value ≤ item items s.index

instance (s : Select) (items : List ℕ) : Decidable (s.Holds items) := by
  unfold Select.Holds
  cases s.comparator <;> infer_instance

/-- What notes are sorted by: the fields before the first order to do nothing, descending fields
with the opposite sign. -/
def sortKey (sorts : List NoteSort) (items : List ℕ) : List ℤ :=
  (sorts.takeWhile (·.order ≠ some 0)).map fun s =>
    if s.order = some 1 then -(item items s.index : ℤ) else item items s.index

def sortedNotes (db : Database) (siloNullifier : ℕ → ℕ → ℕ) (events : List Event)
    (address : ℕ) (q : Query) : List NoteData :=
  ((spendable db siloNullifier events address q).filter fun note =>
      ∀ s ∈ q.selects, s.Holds note.items).mergeSort
    fun a b => sortKey q.sorts a.items ≤ sortKey q.sorts b.items

/-! ### Selection and sorting -/

theorem comparatorSelector_eq (s : Select) (items : List ℕ) :
    comparatorSelector (item items s.index) s.value s.comparator = decide (s.Holds items) := by
  obtain ⟨index, value, comparator⟩ := s
  generalize hx : item items index = x
  rw [Bool.eq_iff_iff, decide_eq_true_iff]
  cases comparator <;> simp [comparatorSelector, Select.Holds, hx] <;> omega

theorem selectNotes_eq (noteDatas : List NoteData) (selects : List Select) :
    selectNotes noteDatas selects =
      noteDatas.filter fun note => ∀ s ∈ selects, s.Holds note.items := by
  refine filter_congr fun note _ => ?_
  rw [Bool.eq_iff_iff, all_eq_true, decide_eq_true_iff]
  simp only [comparatorSelector_eq, decide_eq_true_iff]

theorem cons_le_cons_iff (x y : ℤ) (l m : List ℤ) : x :: l ≤ y :: m ↔ x < y ∨ x = y ∧ l ≤ m := by
  have hlt : y :: m < x :: l ↔ y < x ∨ y = x ∧ m < l := cons_lt_cons_iff
  rw [← not_lt, hlt, ← not_lt (a := m)]
  constructor
  · intro h
    rw [not_or, not_and] at h
    obtain hxy | hxy := lt_or_eq_of_le (not_lt.1 h.1)
    · exact .inl hxy
    · exact .inr ⟨hxy, h.2 hxy.symm⟩
  · rintro (h | ⟨rfl, h⟩)
    · exact not_or.2 ⟨h.asymm, fun h' => h.ne h'.1.symm⟩
    · exact not_or.2 ⟨lt_irrefl x, fun h' => h h'.2⟩

theorem sortNotes_le_iff (a b : List ℕ) (sorts : List NoteSort) :
    sortNotes a b sorts ≤ 0 ↔ sortKey sorts a ≤ sortKey sorts b := by
  induction sorts with
  | nil => simp [sortNotes, sortKey]
  | cons s sorts ih =>
    rw [sortNotes, sortKey, sortKey]
    by_cases hnada : s.order = some 0
    · rw [if_pos hnada, takeWhile_cons_of_neg (by simp [hnada])]
      simp
    · rw [if_neg hnada, takeWhile_cons_of_pos (by simp [hnada]), map_cons, map_cons,
        cons_le_cons_iff, ← sortKey, ← sortKey, ← ih]
      dsimp only
      by_cases heq : item a s.index = item b s.index
      · rw [if_pos heq, heq]
        simp
      · rw [if_neg heq]
        split_ifs <;> simp <;> omega

/-- **A list sorted by keys, stably**: notes with the same key keep their order. -/
structure StablySorted (key : NoteData → List ℤ) (l sorted : List NoteData) : Prop where
  perm : sorted.Perm l
  pairwise : sorted.Pairwise fun a b => key a ≤ key b
  stable : ∀ k, (sorted.filter fun note => key note = k) = l.filter fun note => key note = k

theorem stablySorted_mergeSort (key : NoteData → List ℤ) (l : List NoteData) :
    StablySorted key l (l.mergeSort fun a b => key a ≤ key b) := by
  have htrans : ∀ a b c : NoteData, decide (key a ≤ key b) = true →
      decide (key b ≤ key c) = true → decide (key a ≤ key c) = true := by
    intro a b c hab hbc
    rw [decide_eq_true_iff] at hab hbc ⊢
    exact hab.trans hbc
  have htotal : ∀ a b : NoteData, (decide (key a ≤ key b) || decide (key b ≤ key a)) = true := by
    intro a b
    rw [Bool.or_eq_true, decide_eq_true_iff, decide_eq_true_iff]
    exact le_total _ _
  have hperm := mergeSort_perm l fun a b => key a ≤ key b
  refine ⟨hperm, ?_, fun k => ?_⟩
  · exact (List.pairwise_mergeSort htrans htotal l).imp fun h => of_decide_eq_true h
  · -- notes with one key are sorted as they are, and so a sublist of the sorted list
    have hequal : (l.filter fun note => key note = k).Pairwise
        fun a b => decide (key a ≤ key b) = true := by
      refine pairwise_of_forall_mem_list fun a ha b hb => ?_
      have ha' := of_decide_eq_true (mem_filter.1 ha).2
      have hb' := of_decide_eq_true (mem_filter.1 hb).2
      rw [ha', hb']
      simp
    have hsub := (sublist_mergeSort htrans htotal hequal filter_sublist).filter
      fun note => key note = k
    rw [filter_filter, filter_congr (q := fun note => decide (key note = k))
      (fun note _ => Bool.and_self _)] at hsub
    exact (hsub.eq_of_length (hperm.filter _).length_eq.symm).symm

theorem flatMap_pages {limit : ℕ} (hlimit : 0 < limit) (l : List NoteData) (pages : ℕ) :
    ((List.range pages).flatMap fun i => slice limit (i * limit) l) = l.take (pages * limit) := by
  induction pages with
  | zero => simp
  | succ pages ih =>
    rw [range_succ, flatMap_append, ih, flatMap_singleton, slice,
      if_pos hlimit.ne', Nat.succ_mul, take_add]

/-! ### Notes that are left -/

section

variable (count : ℕ → ℕ) (l : List NoteData)
include count l

theorem dropFirst_sublist : (dropFirst count l).Sublist l := by
  induction l generalizing count with
  | nil => exact .slnil
  | cons note l ih =>
    rw [dropFirst]
    split
    · exact (ih _).cons note
    · exact (ih _).cons_cons note

theorem eraseP_dropFirst (hash : ℕ) :
    (dropFirst count l).eraseP (·.innerNoteHash = hash) =
      dropFirst (update count hash (count hash + 1)) l := by
  induction l generalizing count with
  | nil => rfl
  | cons note l ih =>
    rw [dropFirst, dropFirst]
    by_cases hnote : note.innerNoteHash = hash
    · subst hnote
      rw [update_self, if_pos (Nat.succ_pos _), Nat.add_sub_cancel, update_idem, update_eq_self]
      by_cases hpos : 0 < count note.innerNoteHash
      · rw [if_pos hpos, ih, update_self, update_idem, Nat.sub_add_cancel hpos, update_eq_self]
      · rw [if_neg hpos, eraseP_cons_of_pos (by simp)]
    · rw [update_of_ne hnote]
      by_cases hpos : 0 < count note.innerNoteHash
      · rw [if_pos hpos, if_pos hpos, ih, update_of_ne (Ne.symm hnote), update_comm hnote]
      · rw [if_neg hpos, if_neg hpos, eraseP_cons_of_neg (by simp [hnote]), ih]

theorem countP_dropFirst (hash : ℕ) :
    (dropFirst count l).countP (·.innerNoteHash = hash) =
      l.countP (·.innerNoteHash = hash) - count hash := by
  induction l generalizing count with
  | nil => simp [dropFirst]
  | cons note l ih =>
    rw [dropFirst, countP_cons]
    by_cases hnote : note.innerNoteHash = hash
    · subst hnote
      by_cases hpos : 0 < count note.innerNoteHash
      · rw [if_pos hpos, ih, update_self]
        simp
        omega
      · rw [if_neg hpos, countP_cons, ih]
        simp
        omega
    · by_cases hpos : 0 < count note.innerNoteHash
      · rw [if_pos hpos, ih, update_of_ne (Ne.symm hnote)]
        simp [hnote]
      · rw [if_neg hpos, countP_cons, ih]
        simp [hnote]

end

theorem dropFirst_concat {count : ℕ → ℕ} {l : List NoteData} {note : NoteData}
    (h : count note.innerNoteHash ≤ l.countP (·.innerNoteHash = note.innerNoteHash)) :
    dropFirst count (l ++ [note]) = dropFirst count l ++ [note] := by
  induction l generalizing count with
  | nil =>
    rw [countP_nil] at h
    simp only [nil_append, dropFirst]
    rw [if_neg (by omega)]
  | cons a l ih =>
    rw [countP_cons] at h
    rw [cons_append, dropFirst, dropFirst]
    by_cases hpos : 0 < count a.innerNoteHash
    · rw [if_pos hpos, if_pos hpos, ih]
      by_cases hsame : a.innerNoteHash = note.innerNoteHash
      · rw [← hsame, update_self, hsame]
        simp [hsame] at h
        omega
      · rw [update_of_ne (Ne.symm hsame)]
        simpa [hsame] using h
    · rw [if_neg hpos, if_neg hpos, cons_append, ih]
      by_cases hsame : a.innerNoteHash = note.innerNoteHash
      · rw [← hsame]
        omega
      · simpa [hsame] using h

/-! ### The cache holds what the events say -/

section Sound

variable {db : Database} {siloNullifier : ℕ → ℕ → ℕ}

structure Holds (siloNullifier : ℕ → ℕ → ℕ) (c : Cache) (events : List Event) : Prop where
  pending : ∀ address, c.newNotes address = pendingNotes events address
  nullifiers : ∀ address nullifier, nullifier ∈ c.nullifiers address ↔
    nullifier ∈ emittedNullifiers siloNullifier events address
  enough : ∀ address hash, nullifiedCount events address hash ≤
    (createdNotes events address).countP (·.innerNoteHash = hash)

theorem holds_empty : Holds siloNullifier Cache.empty [] where
  pending _ := rfl
  nullifiers _ _ := Iff.rfl
  enough _ _ := Nat.zero_le _

variable {c c' : Cache} {events trace : List Event} {address innerNullifier innerNoteHash : ℕ}

theorem holds_created (h : Holds siloNullifier c events) (note : NoteData) :
    Holds siloNullifier (c.addNewNote note) (events ++ [.created note]) := by
  have hcount : ∀ address, nullifiedCount (events ++ [.created note]) address =
      nullifiedCount events address := by
    intro address
    funext hash
    simp [nullifiedCount]
  have hcreated : ∀ address, createdNotes (events ++ [.created note]) address =
      createdNotes events address ++ if note.contractAddress = address then [note] else [] := by
    intro address
    rw [createdNotes, filterMap_append, ← createdNotes]
    by_cases heq : note.contractAddress = address <;> simp [heq]
  refine ⟨fun address => ?_, fun address nullifier => ?_, fun address hash => ?_⟩
  · rw [pendingNotes, hcount, hcreated, Cache.addNewNote]
    dsimp only
    by_cases heq : note.contractAddress = address
    · subst heq
      rw [if_pos rfl, update_self, dropFirst_concat (h.enough _ _), h.pending, pendingNotes]
    · rw [if_neg heq, update_of_ne (Ne.symm heq), append_nil, h.pending, pendingNotes]
  · rw [emittedNullifiers, filterMap_append, ← emittedNullifiers, Cache.addNewNote]
    simpa using h.nullifiers address nullifier
  · rw [hcount, hcreated, countP_append]
    exact (h.enough address hash).trans (Nat.le_add_right _ _)

theorem holds_got (h : Holds siloNullifier c events) (address : ℕ) (q : Query)
    (notes : List NoteData) : Holds siloNullifier c (events ++ [.got address q notes]) := by
  have hcount : ∀ a, nullifiedCount (events ++ [.got address q notes]) a =
      nullifiedCount events a := by
    intro a
    funext hash
    simp [nullifiedCount]
  have hcreated : ∀ a, createdNotes (events ++ [.got address q notes]) a =
      createdNotes events a := by
    intro a
    simp [createdNotes]
  refine ⟨fun a => ?_, fun a nullifier => ?_, fun a hash => ?_⟩
  · rw [pendingNotes, hcount, hcreated, h.pending, pendingNotes]
  · rw [emittedNullifiers, filterMap_append, ← emittedNullifiers]
    simpa using h.nullifiers a nullifier
  · rw [hcount, hcreated]
    exact h.enough a hash

theorem nullifyNote_eq_some
    (h : c.nullifyNote siloNullifier address innerNullifier innerNoteHash = some c') :
    c'.nullifiers = update c.nullifiers address
      ((c.nullifiers address).insert (siloNullifier address innerNullifier)) ∧
    ((innerNoteHash = 0 ∧ c'.newNotes = c.newNotes) ∨
      (innerNoteHash ≠ 0 ∧ (∃ note ∈ c.newNotes address, note.innerNoteHash = innerNoteHash) ∧
        c'.newNotes = update c.newNotes address
          ((c.newNotes address).eraseP (·.innerNoteHash = innerNoteHash)))) := by
  rw [Cache.nullifyNote] at h
  dsimp only at h
  by_cases hzero : innerNoteHash = 0
  · rw [if_neg (not_not.2 hzero)] at h
    cases h
    exact ⟨rfl, .inl ⟨hzero, rfl⟩⟩
  · rw [if_pos hzero] at h
    cases hfind : (c.newNotes address).findIdx? (·.innerNoteHash = innerNoteHash) with
    | none =>
      rw [hfind] at h
      cases h
    | some i =>
      rw [hfind] at h
      cases h
      have hany : (c.newNotes address).any (·.innerNoteHash = innerNoteHash) = true := by
        rw [← List.findIdx?_isSome, hfind]
        rfl
      obtain ⟨note, hnote, hhash⟩ := any_eq_true.1 hany
      refine ⟨rfl, .inr ⟨hzero, ⟨note, hnote, of_decide_eq_true hhash⟩, ?_⟩⟩
      rw [eraseP_eq_eraseIdx, hfind]

theorem holds_nullified (h : Holds siloNullifier c events)
    (hstep : c.nullifyNote siloNullifier address innerNullifier innerNoteHash = some c') :
    Holds siloNullifier c' (events ++ [.nullified address innerNullifier innerNoteHash]) := by
  obtain ⟨hnullifiers, hnotes⟩ := nullifyNote_eq_some hstep
  have hcount : ∀ a hash, nullifiedCount
      (events ++ [.nullified address innerNullifier innerNoteHash]) a hash =
      nullifiedCount events a hash +
        if address = a ∧ innerNoteHash = hash ∧ innerNoteHash ≠ 0 then 1 else 0 := by
    intro a hash
    rw [nullifiedCount, countP_append, ← nullifiedCount, countP_singleton]
    simp
  have hcreated : ∀ a, createdNotes
      (events ++ [.nullified address innerNullifier innerNoteHash]) a = createdNotes events a := by
    intro a
    simp [createdNotes]
  have hother : ∀ a, (address ≠ a ∨ innerNoteHash = 0) → nullifiedCount
      (events ++ [.nullified address innerNullifier innerNoteHash]) a =
      nullifiedCount events a := by
    intro a ha
    funext hash
    rw [hcount, if_neg fun h => ha.elim (fun hne => hne h.1) h.2.2, Nat.add_zero]
  have hsame : innerNoteHash ≠ 0 → nullifiedCount
      (events ++ [.nullified address innerNullifier innerNoteHash]) address =
      update (nullifiedCount events address) innerNoteHash
        (nullifiedCount events address innerNoteHash + 1) := by
    intro hzero
    funext hash
    rw [hcount, update_apply]
    by_cases heq : hash = innerNoteHash
    · rw [if_pos heq, if_pos ⟨rfl, heq.symm, hzero⟩, heq]
    · rw [if_neg heq, if_neg fun h => heq h.2.1.symm, Nat.add_zero]
  refine ⟨fun a => ?_, fun a nullifier => ?_, fun a hash => ?_⟩
  · rw [pendingNotes, hcreated]
    obtain ⟨hzero, hnew⟩ | ⟨hzero, -, hnew⟩ := hnotes
    · rw [hnew, hother a (.inr hzero), h.pending, pendingNotes]
    · by_cases ha : address = a
      · subst ha
        rw [hnew, update_self, hsame hzero, h.pending, pendingNotes, eraseP_dropFirst]
      · rw [hnew, update_of_ne (Ne.symm ha), hother a (.inl ha), h.pending, pendingNotes]
  · rw [emittedNullifiers, filterMap_append, ← emittedNullifiers, mem_append, hnullifiers]
    by_cases ha : address = a
    · subst ha
      rw [update_self, mem_insert_iff, h.nullifiers]
      simp [or_comm]
    · rw [update_of_ne (Ne.symm ha), h.nullifiers]
      simp [ha]
  · rw [hcount, hcreated]
    have henough := h.enough a hash
    split
    · rename_i hnamed
      obtain ⟨rfl, rfl, hzero⟩ := hnamed
      obtain ⟨hzero', -⟩ | ⟨-, ⟨note, hnote, hhash⟩, -⟩ := hnotes
      · exact absurd hzero' hzero
      · -- the note that is removed was not counted
        have hleft : 0 < (pendingNotes events address).countP (·.innerNoteHash = innerNoteHash) :=
          countP_pos_iff.2 ⟨note, h.pending address ▸ hnote, decide_eq_true hhash⟩
        rw [pendingNotes, countP_dropFirst] at hleft
        omega
    · rw [Nat.add_zero]
      exact henough

/-- What is asked for is offered, and no more notes were nullified than created. -/
def Event.Sound (db : Database) (siloNullifier : ℕ → ℕ → ℕ) (before : List Event) :
    Event → Prop
  | .got address q notes =>
    notes = slice q.limit q.offset (sortedNotes db siloNullifier before address q) ∧
      ∀ hash, nullifiedCount before address hash ≤
        (createdNotes before address).countP (·.innerNoteHash = hash)
  | _ => True

theorem getNotes_eq (h : Holds siloNullifier c events) (address : ℕ) (q : Query) :
    getNotes db c address q =
      slice q.limit q.offset (sortedNotes db siloNullifier events address q) := by
  have hdb : ∀ note : NoteData,
      (!(note.siloedNullifier.any fun nullifier => nullifier ∈ c.nullifiers address)) =
        decide (∀ nullifier ∈ note.siloedNullifier,
          nullifier ∉ emittedNullifiers siloNullifier events address) := by
    intro note
    cases note.siloedNullifier with
    | none => simp
    | some nullifier => simp [h.nullifiers]
  rw [getNotes, pickNotes, sortedNotes, spendable, selectNotes_eq, Cache.getNotes, h.pending]
  simp only [sortNotes_le_iff, hdb]

/-- Every event of a trace is sound after the ones before it. -/
def SoundTrace (db : Database) (siloNullifier : ℕ → ℕ → ℕ) (events trace : List Event) : Prop :=
  ∀ pre e post, trace = pre ++ e :: post → e.Sound db siloNullifier (events ++ pre)

theorem soundTrace_nil (events : List Event) : SoundTrace db siloNullifier events [] := by
  intro pre e post h
  exact absurd h.symm (append_ne_nil_of_right_ne_nil pre (cons_ne_nil e post))

theorem soundTrace_cons {e : Event} (he : e.Sound db siloNullifier events)
    (htrace : SoundTrace db siloNullifier (events ++ [e]) trace) :
    SoundTrace db siloNullifier events (e :: trace) := by
  intro pre e' post h
  cases pre with
  | nil =>
    obtain ⟨rfl, -⟩ := List.cons.inj h
    rwa [append_nil]
  | cons a pre =>
    obtain ⟨rfl, htail⟩ := List.cons.inj h
    have := htrace pre e' post htail
    rwa [append_assoc] at this

theorem soundTrace_append {trace' : List Event} (h : SoundTrace db siloNullifier events trace)
    (h' : SoundTrace db siloNullifier (events ++ trace) trace') :
    SoundTrace db siloNullifier events (trace ++ trace') := by
  induction trace generalizing events with
  | nil => rwa [append_nil] at h'
  | cons e trace ih =>
    refine soundTrace_cons ?_ (ih ?_ (by rwa [append_assoc]))
    · have := h [] e trace rfl
      rwa [append_nil] at this
    · intro pre e' post heq
      have := h (e :: pre) e' post (by rw [heq, cons_append])
      rwa [append_assoc]

theorem run_sound (body : Body) (ctx : Context) (h : Holds siloNullifier c events) :
    SoundTrace db siloNullifier events (run db siloNullifier body ctx c).1 ∧
    ∀ c', (run db siloNullifier body ctx c).2 = some c' →
      Holds siloNullifier c' (events ++ (run db siloNullifier body ctx c).1) := by
  induction body generalizing ctx c events with
  | done =>
    refine ⟨soundTrace_nil events, fun c' hc => ?_⟩
    cases hc
    rwa [run, append_nil]
  | abort => exact ⟨soundTrace_nil events, fun c' hc => by cases hc⟩
  | notifyCreatedNote storageSlot noteItems innerNoteHash rest ih =>
    obtain ⟨hsound, hholds⟩ :=
      ih ctx (holds_created h (createdNote ctx storageSlot noteItems innerNoteHash))
    refine ⟨soundTrace_cons trivial hsound, fun c' hc => ?_⟩
    have := hholds c' hc
    rwa [append_assoc] at this
  | notifyNullifiedNote innerNullifier innerNoteHash rest ih =>
    rw [run]
    cases hstep : c.nullifyNote siloNullifier ctx.storageContractAddress innerNullifier
      innerNoteHash with
    | none => exact ⟨soundTrace_nil events, fun c' hc => by cases hc⟩
    | some c₁ =>
      obtain ⟨hsound, hholds⟩ := ih ctx (holds_nullified h hstep)
      refine ⟨soundTrace_cons trivial hsound, fun c' hc => ?_⟩
      have := hholds c' hc
      rwa [append_assoc] at this
  | getNotes q rest ih =>
    obtain ⟨hsound, hholds⟩ := ih ctx (holds_got h ctx.storageContractAddress q
      (getNotes db c ctx.storageContractAddress q))
    refine ⟨soundTrace_cons ⟨getNotes_eq h ctx.storageContractAddress q,
      h.enough ctx.storageContractAddress⟩ hsound, fun c' hc => ?_⟩
    have := hholds c' hc
    rwa [append_assoc] at this
  | callPrivateFunction target isDelegateCall body rest ihbody ihrest =>
    obtain ⟨hsound, hholds⟩ := ihbody (ctx.derive target isDelegateCall) h
    rw [run]
    cases hbody : (run db siloNullifier body (ctx.derive target isDelegateCall) c).2 with
    | none => exact ⟨hsound, fun c' hc => by cases hc⟩
    | some c₁ =>
      obtain ⟨hsound', hholds'⟩ := ihrest ctx (hholds c₁ hbody)
      refine ⟨soundTrace_append hsound hsound', fun c' hc => ?_⟩
      have := hholds' c' hc
      rwa [append_assoc] at this

end Sound

/-- **Exactly the spendable notes are offered.**  In every tree of calls, each answer is the page of
one list, which holds the spendable notes that satisfy the selects, sorted stably by the given
fields and directions.  The new notes that are left are the created ones but as many of each hash
as were nullified, and pages that follow each other make up the list. -/
theorem notes_offered (db : Database) (siloNullifier : ℕ → ℕ → ℕ) (body : Body) (ctx : Context) :
    (∀ pre address q notes post,
      (run db siloNullifier body ctx Cache.empty).1 = pre ++ .got address q notes :: post →
      notes = slice q.limit q.offset (sortedNotes db siloNullifier pre address q) ∧
      ∀ hash, (pendingNotes pre address).countP (·.innerNoteHash = hash) +
        nullifiedCount pre address hash =
          (createdNotes pre address).countP (·.innerNoteHash = hash)) ∧ (∀ pre address q,
      StablySorted (fun note => sortKey q.sorts note.items)
        ((spendable db siloNullifier pre address q).filter fun note =>
          ∀ s ∈ q.selects, s.Holds note.items) (sortedNotes db siloNullifier pre address q) ∧
      (pendingNotes pre address).Sublist (createdNotes pre address)) ∧
    (∀ pre address q limit pages, 0 < limit →
      (sortedNotes db siloNullifier pre address q).length ≤ pages * limit →
      ((List.range pages).flatMap fun i => slice limit (i * limit)
        (sortedNotes db siloNullifier pre address { q with limit := limit, offset := i * limit })) =
        sortedNotes db siloNullifier pre address q) := by
  refine ⟨fun pre address q notes post h => ?_, fun pre address q => ⟨?_, ?_⟩,
    fun pre address q limit pages hlimit hlength => ?_⟩
  · obtain ⟨hnotes, henough⟩ := (run_sound body ctx holds_empty).1 pre _ post h
    refine ⟨hnotes, fun hash => ?_⟩
    rw [pendingNotes, countP_dropFirst]
    exact Nat.sub_add_cancel (henough hash)
  · exact stablySorted_mergeSort (fun note => sortKey q.sorts note.items) _
  · exact dropFirst_sublist _ _
  · exact (flatMap_pages hlimit _ pages).trans (take_of_length_le hlength)

def queryAll : Query := ⟨3, 0, [], [], [], [], [], 0, 0, 1⟩

theorem notes_offered_created :
    getNotes (fun _ _ _ => []) (Cache.empty.addNewNote (createdNote ⟨7, 7⟩ 3 [5] 9)) 7 queryAll =
      slice 0 0 (sortedNotes (fun _ _ _ => []) (· + ·) [.created (createdNote ⟨7, 7⟩ 3 [5] 9)] 7
        queryAll) :=
  ((notes_offered (fun _ _ _ => []) (· + ·)
    (.notifyCreatedNote 3 [5] 9 (.getNotes queryAll .done)) ⟨7, 7⟩).1
      [.created (createdNote ⟨7, 7⟩ 3 [5] 9)] 7 queryAll _ [] rfl).1

end ExecutionNotes
