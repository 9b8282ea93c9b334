/-
**The hints of the kernel prover.**

The private kernel tail is handed sorted copies of the note hashes and the nullifiers, and for each
read and each nullifier of a note of the same transaction the place of the note hash.  The prover
sorts with a comparison that is no order on empty items, and chooses the first place with the right
value that is free; the circuit also compares counters.
-/

import Aztec.KernelLogs
import Aztec.PublicKernelSideEffects
import Aztec.StableSort
import Mathlib.Data.List.GetD
import Mathlib.Data.List.TakeWhile

open List hiding Vector isEmpty

namespace ProverHints

open Noir Failing Kernel PrivateKernel StackTraversal

/-! ### Sorting -/

section SideEffects

variable {T : Type} [DecidableEq T] [Empty T] [Ordered T] {n : ℕ}

/-- `Array.prototype.sort`, a stable merge sort of runs, in which the first argument of `comparefn`
is the element that stood behind the other. -/
def sort {S : Type} (comparefn : S → S → ℤ) (items : List S) : List S :=
  items.mergeSort fun a b => !decide (comparefn b a < 0)

/-- The comparison of `sortSideEffects`; empty ones go to the right. -/
def compareSideEffects (a b : T) : ℤ :=
  if isEmpty a then 1 else (Ordered.counter a : ℤ) - Ordered.counter b

def sortedWithIndexes (sideEffects : Vector T n) : List (T × ℕ) :=
  sort (fun a b => compareSideEffects a.1 b.1) sideEffects.toList.zipIdx

theorem length_sortedWithIndexes (sideEffects : Vector T n) :
    (sortedWithIndexes sideEffects).length = n := by
  simp [sortedWithIndexes, sort]

def sortSideEffects (sideEffects : Vector T n) : Vector T n × Vector ℕ n :=
  let sorted := sortedWithIndexes sideEffects
  let originalToSorted := (sorted.zipIdx.map fun item => (item.1.2, item.2)).foldl
    (fun v entry => v.setIfInBounds entry.1 entry.2) (Vector.replicate n 0)
  (⟨(sorted.map Prod.fst).toArray, by simp [sorted, length_sortedWithIndexes]⟩, originalToSorted)

def comesBefore (a b : T) : Bool :=
  isEmpty b || (!isEmpty a && decide (Ordered.counter a ≤ Ordered.counter b))

theorem comesBefore_trans (a b c : T) (hab : comesBefore a b = true)
    (hbc : comesBefore b c = true) : comesBefore a c = true := by
  simp only [comesBefore, Bool.or_eq_true, Bool.and_eq_true, Bool.not_eq_true',
    decide_eq_true_eq] at *
  rcases hbc with hc | ⟨hb, hle⟩
  · exact .inl hc
  · rcases hab with hb' | ⟨ha, hle'⟩
    · exact absurd (hb.symm.trans hb') Bool.false_ne_true
    · exact .inr ⟨ha, hle'.trans hle⟩

theorem comesBefore_total (a b : T) : (comesBefore a b || comesBefore b a) = true := by
  simp only [comesBefore, Bool.or_eq_true, Bool.and_eq_true, Bool.not_eq_true', decide_eq_true_eq]
  cases ha : isEmpty a with
  | true => exact .inr (.inl rfl)
  | false =>
    cases hb : isEmpty b with
    | true => exact .inl (.inl rfl)
    | false => rcases Nat.le_total (Ordered.counter a) (Ordered.counter b) with h | h <;> simp [h]

variable {sideEffects : Vector T n}

theorem sortedWithIndexes_eq (hlast : EmptyLast sideEffects) : sortedWithIndexes sideEffects =
      sideEffects.toList.zipIdx.mergeSort fun a b => comesBefore a.1 b.1 := by
  refine StableSort.mergeSort_congr (pairwise_iff_getElem.2 fun i j hi hj hij => ?_)
  have hin : i < n := by simpa using hi
  have hjn : j < n := by simpa using hj
  have hempty : isEmpty sideEffects[i] = true → isEmpty sideEffects[j] = true := by
    intro h
    rw [Noir.isEmpty_iff] at h ⊢
    exact hlast ⟨i, hin⟩ ⟨j, hjn⟩ hij h
  simp only [getElem_zipIdx, Vector.getElem_toList, compareSideEffects, comesBefore]
  cases hj' : isEmpty sideEffects[j] with
  | true => simp
  | false =>
    cases hi' : isEmpty sideEffects[i] with
    | true => exact absurd (hj'.symm.trans (hempty hi')) Bool.false_ne_true
    | false =>
      rw [Bool.eq_iff_iff]
      simp

theorem perm_sorted : (sortedWithIndexes sideEffects).Perm sideEffects.toList.zipIdx :=
  mergeSort_perm _ _

theorem toList_sortSideEffects :
    (sortSideEffects sideEffects).1.toList = (sortedWithIndexes sideEffects).map Prod.fst := by
  simp [sortSideEffects]

theorem perm_sortSideEffects : (sortSideEffects sideEffects).1.toList.Perm sideEffects.toList := by
  have hperm : (sortedWithIndexes sideEffects).Perm sideEffects.toList.zipIdx := perm_sorted
  have h := hperm.map Prod.fst
  rwa [← toList_sortSideEffects, zipIdx_map_fst] at h

theorem getElem_sortSideEffects {i : ℕ} (hi : i < n) :
    (sortSideEffects sideEffects).1[(sortSideEffects sideEffects).2[i]]? = some sideEffects[i] := by
  have hmem : (sideEffects[i], i) ∈ sortedWithIndexes sideEffects := by
    rw [perm_sorted.mem_iff, List.mk_mem_zipIdx_iff_getElem?]
    simp [hi]
  obtain ⟨place, hplace, hget⟩ := getElem_of_mem hmem
  have hnodup : (((sortedWithIndexes sideEffects).zipIdx.map
      fun item => (item.1.2, item.2)).map Prod.fst).Nodup := by
    have hmap : ((sortedWithIndexes sideEffects).zipIdx.map
        fun item => (item.1.2, item.2)).map Prod.fst =
          (sortedWithIndexes sideEffects).map Prod.snd := by
      rw [List.map_map]
      conv_rhs => rw [← zipIdx_map_fst 0 (sortedWithIndexes sideEffects)]
      rw [List.map_map]
      rfl
    rw [hmap, (perm_sorted.map Prod.snd).nodup_iff, zipIdx_map_snd]
    exact nodup_range'
  have hentry : (i, place) ∈ (sortedWithIndexes sideEffects).zipIdx.map
      fun item => (item.1.2, item.2) := by
    refine mem_map.2 ⟨((sideEffects[i], i), place), ?_, rfl⟩
    rw [List.mk_mem_zipIdx_iff_getElem?, List.getElem?_eq_getElem hplace, hget]
  have hindex : (sortSideEffects sideEffects).2[i] = place :=
    StableSort.getElem_foldl_setIfInBounds _ hnodup _ hi hentry
  rw [hindex, ← Vector.getElem?_toList, toList_sortSideEffects, List.getElem?_map,
    List.getElem?_eq_getElem hplace, hget]
  rfl

/-- The items of the array that are not empty have different counters. -/
def DistinctCounters (sideEffects : Vector T n) : Prop :=
  ((nonEmpty sideEffects).map Ordered.counter).Nodup

section

variable (hlast : EmptyLast sideEffects)
include hlast

theorem pairwise_sortSideEffects :
    (sortSideEffects sideEffects).1.toList.Pairwise fun a b => comesBefore a b = true := by
  rw [toList_sortSideEffects, sortedWithIndexes_eq hlast, pairwise_map]
  exact List.pairwise_mergeSort (fun a b c => comesBefore_trans a.1 b.1 c.1)
    (fun a b => comesBefore_total a.1 b.1) _

theorem emptyLast_sortSideEffects : EmptyLast (sortSideEffects sideEffects).1 := by
  intro i j hij hi
  have hpair := pairwise_iff_getElem.1 (pairwise_sortSideEffects hlast) i j (by simp) (by simp) hij
  simp only [Vector.getElem_toList, comesBefore, Bool.or_eq_true, Bool.and_eq_true,
    Bool.not_eq_true', Noir.isEmpty_iff] at hpair
  rcases hpair with hj | ⟨hne, -⟩
  · exact hj
  · have hempty : isEmpty (sortSideEffects sideEffects).1[(i : ℕ)] = true := Noir.isEmpty_iff.2 hi
    exact absurd (hne.symm.trans hempty) Bool.false_ne_true

theorem arrayLength_sortSideEffects :
    arrayLength (sortSideEffects sideEffects).1 = arrayLength sideEffects := by
  have hcount {items : Vector T n} (h : EmptyLast items) :
      items.toList.countP (fun item => !isEmpty item) = arrayLength items :=
    countP_of_boundary (arrayLength_le items) (fun i hi hlt => ne_empty_of_lt_arrayLength hi hlt)
      fun i hi hge => eq_empty_of_arrayLength_le h hi hge
  rw [← hcount hlast, ← hcount (emptyLast_sortSideEffects hlast)]
  exact perm_sortSideEffects.countP_eq _

theorem increasing_sortSideEffects (hdistinct : DistinctCounters sideEffects) :
    IncreasingThenEmpty (sortSideEffects sideEffects).1 (arrayLength sideEffects) := by
  have hlength := arrayLength_sortSideEffects hlast
  have hne : ∀ i (hi : i < n), i < arrayLength sideEffects →
      (sortSideEffects sideEffects).1[i] ≠ Empty.empty := by
    intro i hi hlt
    exact ne_empty_of_lt_arrayLength hi (by rwa [hlength])
  refine ⟨hne, fun i hi hge => eq_empty_of_arrayLength_le (emptyLast_sortSideEffects hlast) hi
    (by rwa [hlength]), fun i j hij hj hjk => ?_⟩
  have hi : i < n := hij.trans hj
  have hpair := pairwise_iff_getElem.1 (pairwise_sortSideEffects hlast) i j (by simpa using hi)
    (by simpa using hj) hij
  have hdifferent : (sortSideEffects sideEffects).1.toList.Pairwise fun a b =>
      isEmpty a = false → isEmpty b = false → Ordered.counter a ≠ Ordered.counter b := by
    have hperm : (nonEmpty (sortSideEffects sideEffects).1).Perm (nonEmpty sideEffects) :=
      perm_sortSideEffects.filter _
    have hnodup := (hperm.map Ordered.counter).nodup_iff.2 hdistinct
    rw [nonEmpty, List.Nodup, pairwise_map, pairwise_filter] at hnodup
    exact hnodup.imp fun h ha hb => h (by simp [ha]) (by simp [hb])
  have hdiff := pairwise_iff_getElem.1 hdifferent i j (by simpa using hi) (by simpa using hj) hij
  have hi' : isEmpty (sortSideEffects sideEffects).1[i] = false := by
    simpa [isEmpty] using hne i hi (hij.trans hjk)
  have hj' : isEmpty (sortSideEffects sideEffects).1[j] = false := by
    simpa [isEmpty] using hne j hj hjk
  simp only [Vector.getElem_toList, comesBefore, hi', hj', Bool.false_or, Bool.not_false,
    Bool.true_and, decide_eq_true_eq] at hpair hdiff
  exact lt_of_le_of_ne hpair (hdiff trivial trivial)

theorem assertSortedCounters_sortSideEffects (hdistinct : DistinctCounters sideEffects) :
    assertSortedCounters sideEffects (sortSideEffects sideEffects).1
      (sortSideEffects sideEffects).2 = .ok () := by
  have hsorted := increasing_sortSideEffects hlast hdistinct
  refine assertSortedCounters_eq_ok_iff.2 fun i hi => ⟨fun _ => getElem_sortSideEffects hi, ?_, ?_⟩
  · intro hprev
    have hge : arrayLength sideEffects < i := by
      by_contra hle
      rw [prevWasEmpty_eq_false hi (by omega)] at hprev
      exact Bool.false_ne_true hprev
    have hempty := eq_empty_of_arrayLength_le hlast hi hge.le
    exact ⟨(hsorted.eq_empty i hi hge.le).trans hempty.symm, hempty⟩
  · intro _ hzero hne
    have hlt : i < arrayLength sideEffects := by
      by_contra hge
      exact hne (eq_empty_of_arrayLength_le hlast hi (by omega))
    exact hsorted.increasing (i - 1) i (by omega) hi hlt

end

end SideEffects

/-! ### Hints -/

section Hints

/-- A turn of the loop of `getReadRequestHints`, with the hints so far. -/
def readRequestHint (noteHashes : Vector SideEffect 64) (hints : List Field)
    (readRequest : SideEffect) : Except String (List Field) :=
  let i := hints.length
  match noteHashes.toList.findIdx? fun cmt => cmt.value = readRequest.value with
  | none => throw (s!"The read request at index {i} with value [object Object] " ++
      "does not match to any commitment.")
  | some result => return hints ++ [result]

/-- `KernelProver.getReadRequestHints`, for the reads before the first empty one. -/
def getReadRequestHints (readRequests : Vector SideEffect 128) (noteHashes : Vector SideEffect 64) :
    Except String (Vector Field 128) := do
  let hints ← (readRequests.toList.takeWhile fun readRequest => !isEmpty readRequest).foldlM
    (readRequestHint noteHashes) []
  return Vector.ofFn fun i => hints.getD i 0

/-- A turn of the loop of `getNullifierHints`, with the places that are already used and the hints
so far. -/
def nullifierHint (noteHashes : Vector SideEffect 64) (state : List ℕ × List Field)
    (nullifiedNoteHash : Field) : Except String (List ℕ × List Field) :=
  let (alreadyUsed, hints) := state
  let i := hints.length
  if nullifiedNoteHash = 0 then return (alreadyUsed, hints ++ [0])
  else
    match noteHashes.toList.zipIdx.findIdx? fun cmt =>
        cmt.1.value = nullifiedNoteHash && !alreadyUsed.contains cmt.2 with
    | none => throw (s!"The nullified commitment at index {i} with value {nullifiedNoteHash} " ++
        "does not match to any commitment.")
    | some result => return (result :: alreadyUsed, hints ++ [result])

def getNullifierHints (nullifiedNoteHashes : Vector Field 64) (noteHashes : Vector SideEffect 64) :
    Except String (Vector Field 64) := do
  let state ← nullifiedNoteHashes.toList.foldlM (nullifierHint noteHashes) ([], [])
  return Vector.ofFn fun i => state.2.getD i 0

/-- The hints of `KernelProver.prove`, with the keys from the key store. -/
def computeHints (masterNullifierSecretKeys : Vector (Field × Field) 4)
    (output : Kernel.CombinedData) : Except String TailHints := do
  let (sortedCommitments, sortedCommitmentsIndexes) := sortSideEffects output.newNoteHashes
  let (sortedNullifiers, sortedNullifiersIndexes) := sortSideEffects output.newNullifiers
  let readCommitmentHints ← getReadRequestHints output.readRequests sortedCommitments
  let nullifierCommitmentHints ← getNullifierHints
    (sortedNullifiers.map SideEffectLinkedToNoteHash.noteHash) sortedCommitments
  return {
    sortedNewNoteHashes := sortedCommitments
    sortedNewNoteHashesIndexes := sortedCommitmentsIndexes
    readCommitmentHints
    sortedNewNullifiers := sortedNullifiers
    sortedNewNullifiersIndexes := sortedNullifiersIndexes
    nullifierCommitmentHints
    masterNullifierSecretKeys }

def Matches (noteHashes : Vector SideEffect 64) (place value : Field) (counter : ℕ) : Prop :=
  ∃ h : place < 64, noteHashes[place].value = value ∧ noteHashes[place].counter < counter

theorem exists_findIdx? {S : Type} {p : S → Bool} {l : List S} {j : ℕ} (hj : j < l.length)
    (hp : p l[j] = true) :
    ∃ place, l.findIdx? p = some place ∧ place ≤ j ∧ ∃ h : place < l.length, p l[place] = true := by
  cases hfind : l.findIdx? p with
  | none =>
    have hfalse := List.findIdx?_eq_none_iff.1 hfind l[j] (getElem_mem hj)
    exact absurd (hfalse.symm.trans hp) Bool.false_ne_true
  | some place =>
    obtain ⟨hlt, hplace, hfirst⟩ := List.findIdx?_eq_some_iff_getElem.1 hfind
    refine ⟨place, rfl, ?_, hlt, hplace⟩
    by_contra hgt
    exact hfirst j (by omega) hp

variable {noteHashes : Vector SideEffect 64} {k : ℕ}

theorem Matches.ofLe (hsorted : IncreasingThenEmpty noteHashes k) {place j : ℕ} {value : Field}
    {counter : ℕ} (hj : j < 64) (hjk : j < k) (hle : place ≤ j)
    (hvalue : noteHashes[place].value = value) (hcounter : noteHashes[j].counter < counter) :
    Matches noteHashes place value counter := by
  refine ⟨hle.trans_lt hj, hvalue, ?_⟩
  rcases Nat.eq_or_lt_of_le hle with rfl | hlt
  · exact hcounter
  · exact (hsorted.increasing place j hlt hj hjk).trans hcounter

def ReadsInvariant (noteHashes : Vector SideEffect 64) (before : List SideEffect)
    (hints : List Field) : Prop :=
  hints.length = before.length ∧ ∀ i (hi : i < before.length),
    Matches noteHashes (hints.getD i 0) before[i].value before[i].counter

def HasMatch (noteHashes : Vector SideEffect 64) (k : ℕ) (readRequest : SideEffect) : Prop :=
  ∃ (j : ℕ) (hj : j < 64), j < k ∧ noteHashes[j].value = readRequest.value ∧
    noteHashes[j].counter < readRequest.counter

theorem readRequestHint_step (hsorted : IncreasingThenEmpty noteHashes k)
    {before : List SideEffect} {readRequest : SideEffect} {hints : List Field}
    (hread : HasMatch noteHashes k readRequest) (hinv : ReadsInvariant noteHashes before hints) :
    ∃ hints', readRequestHint noteHashes hints readRequest = .ok hints' ∧
      ReadsInvariant noteHashes (before ++ [readRequest]) hints' := by
  obtain ⟨hlength, hmatches⟩ := hinv
  obtain ⟨j, hj, hjk, hvalue, hcounter⟩ := hread
  obtain ⟨place, hfind, hle, hplace, hp⟩ := exists_findIdx?
    (p := fun cmt : SideEffect => decide (cmt.value = readRequest.value)) (j := j)
    (l := noteHashes.toList) (by simpa using hj) (by simpa using hvalue)
  refine ⟨hints ++ [place], by simp [readRequestHint, hfind, pure, Except.pure], by simp [hlength],
    fun i hi => ?_⟩
  have hi' : i < before.length + 1 := by simpa using hi
  rcases Nat.lt_succ_iff_lt_or_eq.1 hi' with hlt | rfl
  · rw [getElem_append_left hlt, getD_append _ _ _ _ (by rwa [hlength])]
    exact hmatches i hlt
  · rw [getElem_append_right le_rfl, getD_append_right _ _ _ _ hlength.le]
    simp only [hlength, Nat.sub_self, getElem_cons_zero, getD_cons_zero]
    exact Matches.ofLe hsorted hj hjk hle (by simpa using hp) hcounter

theorem getReadRequestHints_spec (hsorted : IncreasingThenEmpty noteHashes k)
    {readRequests : Vector SideEffect 128}
    (hreads : ∀ readRequest ∈ nonEmpty readRequests, HasMatch noteHashes k readRequest) :
    ∃ hints, getReadRequestHints readRequests noteHashes = .ok hints ∧
      ∀ i (hi : i < 128), i < arrayLength readRequests →
        Matches noteHashes hints[i] readRequests[i].value readRequests[i].counter := by
  have hloop : ∃ hints, (readRequests.toList.takeWhile fun readRequest =>
      !isEmpty readRequest).foldlM (readRequestHint noteHashes) [] = .ok hints ∧
      ReadsInvariant noteHashes (readRequests.toList.takeWhile fun readRequest =>
        !isEmpty readRequest) hints := by
    refine foldlM_total (ReadsInvariant noteHashes) ⟨rfl, fun i hi => absurd hi (Nat.not_lt_zero i)⟩
      fun before readRequest after hints hl hinv => readRequestHint_step hsorted ?_ hinv
    have htake : readRequest ∈ readRequests.toList.takeWhile
        fun readRequest => !isEmpty readRequest := by rw [hl]; simp
    have hne := mem_takeWhile_imp htake
    exact hreads _ (mem_filter.2 ⟨(takeWhile_sublist _).subset htake, hne⟩)
  obtain ⟨hints, hhints, hlength, hmatches⟩ := hloop
  refine ⟨_, bind_eq_ok.2 ⟨hints, hhints, rfl⟩, fun i hi hlt => ?_⟩
  have htake : i < (readRequests.toList.takeWhile
      fun readRequest => !isEmpty readRequest).length := by
    rw [takeWhile_eq_take_findIdx_not]
    simpa [arrayLength_eq, hi] using hlt
  have hread := hmatches i htake
  rw [(List.takeWhile_prefix _).getElem htake] at hread
  simpa using hread

/-! ### The greedy choice -/

theorem exists_free {S : Type} {kind property : S → Bool} {l : List S} {used : List ℕ}
    (hkind : ∀ x, property x = true → kind x = true)
    (hcount : used.countP (fun place => (l[place]?).any kind) < l.countP property) :
    ∃ (place : ℕ) (h : place < l.length), property l[place] = true ∧ place ∉ used := by
  by_contra hnone
  push Not at hnone
  -- then the places with the property are among the used places of the kind
  have hsubset : (l.zipIdx.filter fun item => property item.1).map Prod.snd ⊆
      used.filter fun place => (l[place]?).any kind := by
    intro place hmem
    obtain ⟨⟨x, i⟩, hitem, rfl⟩ := mem_map.1 hmem
    obtain ⟨hzip, hproperty⟩ := mem_filter.1 hitem
    obtain ⟨hi, hx⟩ := List.getElem?_eq_some_iff.1 (List.mk_mem_zipIdx_iff_getElem?.1 hzip)
    have hproperty' : property l[i] = true := by rw [hx]; exact hproperty
    refine mem_filter.2 ⟨hnone i hi hproperty', ?_⟩
    simp [List.getElem?_eq_getElem hi, hkind _ hproperty']
  have hnodup : ((l.zipIdx.filter fun item => property item.1).map Prod.snd).Nodup := by
    refine List.Nodup.sublist (filter_sublist.map Prod.snd) ?_
    rw [zipIdx_map_snd]
    exact nodup_range'
  have hle := (hnodup.subperm hsubset).length_le
  have hlength : ((l.zipIdx.filter fun item => property item.1).map Prod.snd).length =
      l.countP property := by
    rw [length_map, ← countP_eq_length_filter]
    conv_rhs => rw [← zipIdx_map_fst 0 l]
    rw [countP_map]
    rfl
  rw [hlength, ← countP_eq_length_filter] at hle
  omega

def nullifying (value : Field) (before : List SideEffectLinkedToNoteHash) : ℕ :=
  before.countP fun nullifier => nullifier.noteHash = value

/-- The hints of the nullifiers so far, and the places they use. -/
structure NullifiersInvariant (noteHashes : Vector SideEffect 64)
    (before : List SideEffectLinkedToNoteHash) (state : List ℕ × List Field) : Prop where
  length_eq : state.2.length = before.length
  count : ∀ value ≠ 0, state.1.countP
    (fun place => (noteHashes.toList[place]?).any fun cmt => cmt.value = value) =
      nullifying value before
  matched : ∀ item ∈ before.zip state.2, item.1.noteHash ≠ 0 →
    item.2 ∈ state.1 ∧ Matches noteHashes item.2 item.1.noteHash item.1.counter
  distinct : (before.zip state.2).Pairwise fun item later =>
    item.1.noteHash ≠ 0 → later.1.noteHash ≠ 0 → item.2 ≠ later.2

/-- There is a note hash for a further nullifier: fewer nullifiers so far have its note hash value
than note hashes with the value were created before it. -/
def HasFree (noteHashes : Vector SideEffect 64) (before : List SideEffectLinkedToNoteHash)
    (nullifier : SideEffectLinkedToNoteHash) : Prop :=
  nullifying nullifier.noteHash before < noteHashes.toList.countP fun cmt =>
    cmt.value = nullifier.noteHash && decide (cmt.counter < nullifier.counter)

/-- **A turn of the greedy choice**: the first free place with the value of the note hash does not
come after the place that is known to be free. -/
theorem nullifierHint_step (hsorted : IncreasingThenEmpty noteHashes k)
    {before : List SideEffectLinkedToNoteHash} {nullifier : SideEffectLinkedToNoteHash}
    {state : List ℕ × List Field}
    (hfree : nullifier.noteHash ≠ 0 → HasFree noteHashes before nullifier)
    (hinv : NullifiersInvariant noteHashes before state) :
    ∃ state', nullifierHint noteHashes state nullifier.noteHash = .ok state' ∧
      NullifiersInvariant noteHashes (before ++ [nullifier]) state' := by
  obtain ⟨used, hints⟩ := state
  obtain ⟨hlength, hcount, hmatched, hdistinct⟩ := hinv
  simp only at hlength hcount hmatched hdistinct
  have hzip (hint : Field) : (before ++ [nullifier]).zip (hints ++ [hint]) =
      before.zip hints ++ [(nullifier, hint)] := zip_append hlength.symm
  have hnullifying (value : Field) : nullifying value (before ++ [nullifier]) =
      nullifying value before + if nullifier.noteHash = value then 1 else 0 := by
    simp [nullifying, countP_append, countP_singleton]
  by_cases hzero : nullifier.noteHash = 0
  · refine ⟨(used, hints ++ [0]), by simp [nullifierHint, hzero, pure, Except.pure],
      by simp [hlength], fun value hvalue => ?_, ?_, ?_⟩
    · rw [hnullifying, hcount value hvalue, if_neg (by rw [hzero]; exact hvalue.symm), Nat.add_zero]
    · rw [hzip]
      refine forall_mem_append.2 ⟨hmatched, fun item hitem hne => ?_⟩
      rw [mem_singleton.1 hitem] at hne
      exact absurd hzero hne
    · rw [hzip, pairwise_append]
      refine ⟨hdistinct, pairwise_singleton _ _, fun item _ later hlater _ hne => ?_⟩
      rw [mem_singleton.1 hlater] at hne
      exact absurd hzero hne
  · have hless := hfree hzero
    rw [HasFree, ← hcount nullifier.noteHash hzero] at hless
    obtain ⟨j, hj, hproperty, hunused⟩ := exists_free
      (fun cmt h => (Bool.and_eq_true_iff.1 h).1) hless
    simp only [Vector.getElem_toList, Bool.and_eq_true, decide_eq_true_eq] at hproperty
    have hj' : j < 64 := by simpa using hj
    have hjk : j < k := by
      by_contra hge
      rw [hsorted.eq_empty j hj' (by omega)] at hproperty
      exact hzero hproperty.1.symm
    obtain ⟨place, hfind, hle, hplace, hp⟩ := exists_findIdx? (p := fun cmt : SideEffect × ℕ =>
        cmt.1.value = nullifier.noteHash && !used.contains cmt.2) (j := j)
      (l := noteHashes.toList.zipIdx) (by simpa using hj') (by simp [hproperty.1, hunused])
    have hplace' : place < 64 := hle.trans_lt hj'
    simp only [getElem_zipIdx, Vector.getElem_toList, Nat.zero_add, Bool.and_eq_true,
      decide_eq_true_eq, Bool.not_eq_true', contains_eq_mem, decide_eq_false_iff_not] at hp
    have hmatch : Matches noteHashes place nullifier.noteHash nullifier.counter :=
      Matches.ofLe hsorted hj' hjk hle hp.1 hproperty.2
    refine ⟨(place :: used, hints ++ [place]), ?_, by simp [hlength], fun value hvalue => ?_,
      ?_, ?_⟩
    · simp only [nullifierHint, if_neg hzero, hfind]
      rfl
    · rw [hnullifying, countP_cons, hcount value hvalue]
      simp [Vector.getElem?_eq_getElem hplace', hp.1]
    · rw [hzip]
      refine forall_mem_append.2 ⟨fun item hitem hne => ?_, fun item hitem hne => ?_⟩
      · exact ⟨mem_cons_of_mem _ (hmatched item hitem hne).1, (hmatched item hitem hne).2⟩
      · rw [mem_singleton.1 hitem]
        exact ⟨mem_cons_self, hmatch⟩
    · rw [hzip, pairwise_append]
      refine ⟨hdistinct, pairwise_singleton _ _, fun item hitem later hlater hne _ => ?_⟩
      rw [mem_singleton.1 hlater]
      intro heq
      have hplace_eq : item.2 = place := heq
      exact hp.2 (hplace_eq ▸ (hmatched item hitem hne).1)

/-- **The nullifiers**: the hints of those with a note hash lead to different note hashes, each with
the value of the nullifier's, created before it. -/
theorem getNullifierHints_spec (hsorted : IncreasingThenEmpty noteHashes k)
    {nullifiers : Vector SideEffectLinkedToNoteHash 64}
    (hfree : ∀ before nullifier after, nullifiers.toList = before ++ nullifier :: after →
      nullifier.noteHash ≠ 0 → HasFree noteHashes before nullifier) :
    ∃ hints, getNullifierHints (nullifiers.map SideEffectLinkedToNoteHash.noteHash) noteHashes =
        .ok hints ∧ (∀ i (hi : i < 64), nullifiers[i].noteHash ≠ 0 →
        Matches noteHashes hints[i] nullifiers[i].noteHash nullifiers[i].counter) ∧
      ∀ i j (hij : i < j) (hj : j < 64), nullifiers[i].noteHash ≠ 0 → nullifiers[j].noteHash ≠ 0 →
        hints[i] ≠ hints[j] := by
  have hstart : NullifiersInvariant noteHashes [] ([], []) :=
    ⟨rfl, fun _ _ => rfl, fun _ h => absurd h not_mem_nil, .nil⟩
  obtain ⟨state, hstate, hinv⟩ := foldlM_total (NullifiersInvariant noteHashes)
    (f := fun state nullifier => nullifierHint noteHashes state nullifier.noteHash) hstart
    fun before nullifier after state hl hinv =>
      nullifierHint_step hsorted (hfree before nullifier after hl) hinv
  have hlength : state.2.length = 64 := by rw [hinv.length_eq, Vector.length_toList]
  have hzip : (nullifiers.toList.zip state.2).length = 64 := by simp [hlength]
  have hget (i : ℕ) (hi : i < 64) : (nullifiers.toList.zip state.2)[i]? =
      some (nullifiers[i], state.2.getD i 0) := by
    rw [List.getElem?_eq_getElem (by rwa [hzip]), getElem_zip,
      getD_eq_getElem _ _ (by rwa [hlength])]
    simp
  refine ⟨Vector.ofFn fun i => state.2.getD i 0, ?_, fun i hi hne => ?_,
    fun i j hij hj hi' hj' => ?_⟩
  · rw [getNullifierHints, Vector.toList_map, foldlM_map, hstate]
    rfl
  · rw [Vector.getElem_ofFn]
    exact (hinv.matched _ (mem_of_getElem? (hget i hi)) hne).2
  · rw [Vector.getElem_ofFn, Vector.getElem_ofFn]
    have hi : i < 64 := hij.trans hj
    have hpair := pairwise_iff_getElem.1 hinv.distinct i j (by rwa [hzip]) (by rwa [hzip]) hij
    have hi'' := List.getElem?_eq_some_iff.1 (hget i hi)
    have hj'' := List.getElem?_eq_some_iff.1 (hget j hj)
    rw [hi''.2, hj''.2] at hpair
    exact hpair hi' hj'

end Hints

/-! ### What the tail does with the hints -/

section Accepted

variable {hints : TailHints} {noteHashes : Vector SideEffect 64}

theorem matchReadsToCommitments_ok {readRequests : Vector SideEffect 128}
    (hmatches : ∀ i (hi : i < 128), readRequests[i].value ≠ 0 →
      Matches noteHashes hints.readCommitmentHints[i] readRequests[i].value
        readRequests[i].counter) :
    matchReadsToCommitments hints noteHashes readRequests = .ok () := by
  refine forM_eq_ok.2 fun item hitem => ?_
  obtain ⟨i, hi, rfl⟩ := getElem_of_mem hitem
  have hi' : i < 128 := by simpa using hi
  simp only [getElem_zip, Vector.getElem_toList]
  split
  · next hne =>
    obtain ⟨hplace, hvalue, hcounter⟩ := hmatches i hi' hne
    have hmod : hints.readCommitmentHints[i] % 2 ^ 64 = hints.readCommitmentHints[i] :=
      Nat.mod_eq_of_lt (hplace.trans (by norm_num))
    rw [hmod]
    simp [bind_eq_ok, Vector.getElem?_eq_getElem hplace, hvalue, hcounter]
  · rfl

/-- Before turn `i` the nullifiers from `i` on, and the note hashes to which no earlier hint leads,
are in place. -/
def SquashInvariant (hints : TailHints) (noteHashes : Vector SideEffect 64)
    (nullifiers : Vector SideEffectLinkedToNoteHash 64) (i : ℕ)
    (state : Vector SideEffect 64 × Vector SideEffectLinkedToNoteHash 64) : Prop :=
  (∀ j (hj : j < 64), i ≤ j → state.2[j] = nullifiers[j]) ∧
    ∀ place (hplace : place < 64), (∀ j (hj : j < 64), j < i → nullifiers[j].noteHash ≠ 0 →
      hints.nullifierCommitmentHints[j] ≠ place) → state.1[place] = noteHashes[place]

variable {nullifiers : Vector SideEffectLinkedToNoteHash 64}

theorem squashStep_ok {state : Vector SideEffect 64 × Vector SideEffectLinkedToNoteHash 64} {i : ℕ} (hi : i < 64)
    (hmatches : nullifiers[i].noteHash ≠ 0 → Matches noteHashes hints.nullifierCommitmentHints[i]
      nullifiers[i].noteHash nullifiers[i].counter)
    (hdistinct : ∀ j (hj : j < 64), j < i → nullifiers[j].noteHash ≠ 0 →
      nullifiers[i].noteHash ≠ 0 →
        hints.nullifierCommitmentHints[j] ≠ hints.nullifierCommitmentHints[i])
    (hinv : SquashInvariant hints noteHashes nullifiers i state) :
    ∃ state', squashStep hints state i = .ok state' ∧
      SquashInvariant hints noteHashes nullifiers (i + 1) state' := by
  obtain ⟨hnullifiers, hnoteHashes⟩ := hinv
  have hnullifier : get state.2 i = .ok nullifiers[i] := by
    simp [Vector.getElem?_eq_getElem hi, hnullifiers i hi le_rfl]
  have hhint : get hints.nullifierCommitmentHints i = .ok hints.nullifierCommitmentHints[i] := by
    simp [Vector.getElem?_eq_getElem hi]
  by_cases hzero : nullifiers[i].noteHash = 0
  · refine ⟨state, ?_, fun j hj hij => hnullifiers j hj (by omega), fun place hplace hunused =>
      hnoteHashes place hplace fun j hj hji => hunused j hj (by omega)⟩
    simp [squashStep, hnullifier, hhint, hzero, bind, Except.bind, pure, Except.pure]
  · obtain ⟨hplace, hvalue, hcounter⟩ := hmatches hzero
    have hmod : hints.nullifierCommitmentHints[i] % 2 ^ 64 = hints.nullifierCommitmentHints[i] :=
      Nat.mod_eq_of_lt (hplace.trans (by norm_num))
    have hhash : get state.1 hints.nullifierCommitmentHints[i] =
        .ok noteHashes[hints.nullifierCommitmentHints[i]] := by
      rw [get_eq_ok, Vector.getElem?_eq_getElem hplace,
        hnoteHashes _ hplace fun j hj hji hne => hdistinct j hj hji hne hzero]
    refine ⟨(state.1.setIfInBounds hints.nullifierCommitmentHints[i] Empty.empty,
      state.2.setIfInBounds i Empty.empty), ?_, fun j hj hij => ?_, fun place hplace' hunused => ?_⟩
    · rw [squashStep, hnullifier, hhint]
      simp only [bind, Except.bind, ne_eq, hzero, not_false_eq_true, if_true, hmod, hhash,
        Noir.assert, hplace, hvalue, hcounter, decide_true, pure, Except.pure]
    · rw [Vector.getElem_setIfInBounds_ne hj (by omega)]
      exact hnullifiers j hj (by omega)
    · rw [Vector.getElem_setIfInBounds_ne hplace' (hunused i hi (by omega) hzero)]
      exact hnoteHashes place hplace' fun j hj hji => hunused j hj (by omega)

theorem compact_total {T : Type} [Empty T] {n : ℕ} (keep : T → Bool) (items : Vector T n) :
    ∃ v, compact keep items = .ok v := by
  obtain ⟨v, hv, -⟩ := foldlM_total
    (fun (before : List T) (v : BoundedVec T n) => v.len ≤ before.length)
    (f := fun v item => if keep item then v.push item else return v) (l := items.toList)
    (s := BoundedVec.new Empty.empty) le_rfl
    fun before item after v hl hlen => by
      have hlt : before.length < n := by
        have h := congrArg List.length hl
        simp only [Vector.length_toList, length_append, length_cons] at h
        omega
      cases keep item with
      | true =>
        refine ⟨{ v with storage := v.storage.setIfInBounds v.len item, len := v.len + 1 }, ?_, ?_⟩
        · simp [BoundedVec.push, Noir.assert, hlen.trans_lt hlt, bind, Except.bind, pure,
            Except.pure]
        · simpa using hlen
      | false => exact ⟨v, rfl, by simpa using Nat.le_succ_of_le hlen⟩
  exact ⟨v, hv⟩

theorem matchNullifiers_ok (hmatches : ∀ i (hi : i < 64), nullifiers[i].noteHash ≠ 0 →
      Matches noteHashes hints.nullifierCommitmentHints[i] nullifiers[i].noteHash
        nullifiers[i].counter)
    (hdistinct : ∀ i j (hij : i < j) (hj : j < 64), nullifiers[i].noteHash ≠ 0 →
      nullifiers[j].noteHash ≠ 0 →
        hints.nullifierCommitmentHints[i] ≠ hints.nullifierCommitmentHints[j]) :
    ∃ squashed, matchNullifiersToNoteHashesAndSquash hints noteHashes nullifiers =
      .ok squashed := by
  obtain ⟨state, hstate, -⟩ := foldlM_range_total (SquashInvariant hints noteHashes nullifiers)
    (s := (noteHashes, nullifiers)) ⟨fun _ _ _ => rfl, fun _ _ _ => rfl⟩
    fun i hi state hinv => squashStep_ok hi (hmatches i hi)
      (fun j hj hji hne hne' => hdistinct j i hji hi hne hne') hinv
  obtain ⟨left, hleft⟩ := compact_total (fun item : SideEffect => item.value ≠ 0) state.1
  obtain ⟨left', hleft'⟩ :=
    compact_total (fun item : SideEffectLinkedToNoteHash => item.value ≠ 0) state.2
  exact ⟨(left, left'), bind_eq_ok.2 ⟨state, hstate, bind_eq_ok.2 ⟨left, hleft,
    bind_eq_ok.2 ⟨left', hleft', rfl⟩⟩⟩⟩

end Accepted

/-! ### Honest outputs -/

/-- **Honest outputs of the circuits**: the counters of the transaction are pairwise different, each
transient read comes after a note hash with its value, and at every point at most as many nullifiers
as note hashes have a note hash value. -/
structure Honest (output : Kernel.CombinedData) : Prop where
  counters : ((nonEmpty output.newNoteHashes).map SideEffect.counter ++
    (nonEmpty output.newNullifiers).map SideEffectLinkedToNoteHash.counter ++
    (nonEmpty output.readRequests).map SideEffect.counter).Nodup
  reads : ∀ readRequest ∈ nonEmpty output.readRequests, ∃ noteHash ∈ nonEmpty output.newNoteHashes,
    noteHash.value = readRequest.value ∧ noteHash.counter < readRequest.counter
  nullifiers : ∀ value ≠ 0, ∀ counter,
    ((nonEmpty output.newNullifiers).countP fun nullifier =>
      nullifier.noteHash = value && decide (nullifier.counter ≤ counter)) ≤
    (nonEmpty output.newNoteHashes).countP fun noteHash =>
      noteHash.value = value && decide (noteHash.counter ≤ counter)

section Honesty

variable {output : Kernel.CombinedData}

theorem Honest.noteHashes_distinct (h : Honest output) : DistinctCounters output.newNoteHashes :=
  (nodup_append.1 (nodup_append.1 h.counters).1).1

theorem Honest.nullifiers_distinct (h : Honest output) : DistinctCounters output.newNullifiers :=
  (nodup_append.1 (nodup_append.1 h.counters).1).2.1

variable {nullifier : SideEffectLinkedToNoteHash}

theorem Honest.counter_ne (h : Honest output) {noteHash : SideEffect}
    (hnoteHash : noteHash ∈ nonEmpty output.newNoteHashes)
    (hnullifier : nullifier ∈ nonEmpty output.newNullifiers) :
    noteHash.counter ≠ nullifier.counter :=
  (nodup_append.1 (nodup_append.1 h.counters).1).2.2 _
    (mem_map_of_mem hnoteHash) _ (mem_map_of_mem hnullifier)

theorem countP_nonEmpty {T : Type} [DecidableEq T] [Empty T] {n : ℕ} {items : Vector T n}
    {p : T → Bool} (hp : ∀ item, p item = true → item ≠ Empty.empty) :
    (nonEmpty items).countP p = items.toList.countP p := by
  rw [nonEmpty, countP_filter]
  refine countP_congr fun item _ => ?_
  simp only [Bool.and_eq_true, Bool.not_eq_true', and_iff_left_iff_imp]
  exact fun h => decide_eq_false (hp item h)

theorem Honest.hasMatch (h : Honest output) (hlast : EmptyLast output.newNoteHashes)
    {readRequest : SideEffect} (hread : readRequest ∈ nonEmpty output.readRequests) :
    HasMatch (sortSideEffects output.newNoteHashes).1 (arrayLength output.newNoteHashes)
      readRequest := by
  obtain ⟨noteHash, hmem, hvalue, hcounter⟩ := h.reads readRequest hread
  obtain ⟨hmem, hne⟩ := mem_filter.1 hmem
  obtain ⟨j, hj, hget⟩ := getElem_of_mem (perm_sortSideEffects.mem_iff.2 hmem)
  have hj' : j < 64 := by simpa using hj
  rw [Vector.getElem_toList] at hget
  refine ⟨j, hj', ?_, by rw [hget, hvalue], by rwa [hget]⟩
  by_contra hge
  have hempty := (increasing_sortSideEffects hlast h.noteHashes_distinct).eq_empty j hj' (by omega)
  rw [hget] at hempty
  simp [hempty, isEmpty] at hne

theorem Honest.hasFree (h : Honest output) (hlast : EmptyLast output.newNullifiers)
    {before after : List SideEffectLinkedToNoteHash}
    (hsplit : (sortSideEffects output.newNullifiers).1.toList = before ++ nullifier :: after)
    (hne : nullifier.noteHash ≠ 0) :
    HasFree (sortSideEffects output.newNoteHashes).1 before nullifier := by
  have hnonEmpty : ∀ item : SideEffectLinkedToNoteHash, item.noteHash ≠ 0 →
      item ≠ Empty.empty := fun item hitem he => hitem (by rw [he]; rfl)
  have hmem : nullifier ∈ nonEmpty output.newNullifiers := by
    refine mem_filter.2 ⟨perm_sortSideEffects.mem_iff.1 (by rw [hsplit]; simp), ?_⟩
    simpa [isEmpty] using hnonEmpty nullifier hne
  -- the nullifiers that come before have smaller counters
  have hsmaller : ∀ item ∈ before, item.counter ≤ nullifier.counter := by
    intro item hitem
    have hsorted := increasing_sortSideEffects hlast h.nullifiers_distinct
    obtain ⟨i, hi, rfl⟩ := getElem_of_mem hitem
    have hlength := congrArg List.length hsplit
    simp only [Vector.length_toList, length_append, length_cons] at hlength
    have hj : before.length < 64 := by omega
    have hitem' : (sortSideEffects output.newNullifiers).1[i]? = some before[i] := by
      rw [← Vector.getElem?_toList, hsplit, List.getElem?_append_left hi,
        List.getElem?_eq_getElem hi]
    have hnullifier : (sortSideEffects output.newNullifiers).1[before.length]? =
        some nullifier := by
      rw [← Vector.getElem?_toList, hsplit]
      simp
    rw [Vector.getElem?_eq_getElem (hi.trans hj), Option.some.injEq] at hitem'
    rw [Vector.getElem?_eq_getElem hj, Option.some.injEq] at hnullifier
    have hjk : before.length < arrayLength output.newNullifiers := by
      by_contra hge
      have hempty := hsorted.eq_empty before.length hj (by omega)
      exact hnonEmpty nullifier hne (hnullifier.symm.trans hempty)
    have hlt := hsorted.increasing i before.length hi hj hjk
    rw [hitem', hnullifier] at hlt
    exact hlt.le
  have hbefore : nullifying nullifier.noteHash before = before.countP fun item =>
      item.noteHash = nullifier.noteHash && decide (item.counter ≤ nullifier.counter) := by
    refine countP_congr fun item hitem => ?_
    simp only [decide_eq_true_eq, Bool.and_eq_true, iff_self_and]
    exact fun _ => hsmaller item hitem
  calc nullifying nullifier.noteHash before
      < (sortSideEffects output.newNullifiers).1.toList.countP fun item =>
          item.noteHash = nullifier.noteHash && decide (item.counter ≤ nullifier.counter) := by
        rw [hsplit, countP_append, countP_cons, ← hbefore]
        simp only [decide_true, le_refl, Bool.and_self, if_true]
        omega
    _ = (nonEmpty output.newNullifiers).countP fun item =>
          item.noteHash = nullifier.noteHash && decide (item.counter ≤ nullifier.counter) := by
        rw [perm_sortSideEffects.countP_eq, countP_nonEmpty fun item hitem => ?_]
        simp only [Bool.and_eq_true, decide_eq_true_eq] at hitem
        exact hnonEmpty item (by rw [hitem.1]; exact hne)
    _ ≤ (nonEmpty output.newNoteHashes).countP fun noteHash =>
          noteHash.value = nullifier.noteHash && decide (noteHash.counter ≤ nullifier.counter) :=
        h.nullifiers _ hne _
    _ = (nonEmpty output.newNoteHashes).countP fun noteHash =>
          noteHash.value = nullifier.noteHash && decide (noteHash.counter < nullifier.counter) := by
        refine countP_congr fun noteHash hnoteHash => ?_
        have hdiff := h.counter_ne hnoteHash hmem
        simp only [Bool.and_eq_true, decide_eq_true_eq]
        exact and_congr_right fun _ => ⟨fun hle => lt_of_le_of_ne hle hdiff, le_of_lt⟩
    _ = (sortSideEffects output.newNoteHashes).1.toList.countP fun noteHash =>
          noteHash.value = nullifier.noteHash && decide (noteHash.counter < nullifier.counter) := by
        rw [perm_sortSideEffects.countP_eq, countP_nonEmpty fun item hitem he => ?_]
        simp only [Bool.and_eq_true, decide_eq_true_eq] at hitem
        rw [he] at hitem
        exact hne hitem.1.symm

end Honesty

/-! ### The outputs of the circuits -/

section Packed

def Filled {T : Type} [Empty T] {n : ℕ} (v : BoundedVec T n) : Prop :=
  ∃ l, Stack v l ∧ v.emptyValue = Empty.empty ∧ ∀ item ∈ l, item ≠ Empty.empty

section Filled

variable {T : Type} [Empty T] {n : ℕ} {v v' : BoundedVec T n}

theorem Filled.zeroed : Filled (zeroedVec : BoundedVec T n) :=
  ⟨[], Stack.new _, rfl, fun _ h => absurd h not_mem_nil⟩

theorem Filled.ofEmptyLast [DecidableEq T] {array : Vector T n} (h : EmptyLast array) :
    Filled (arrayToBoundedVec array) := by
  obtain ⟨hlist, hlength, hne⟩ := toList_eq_of_emptyLast h
  exact ⟨_, stack_arrayToBoundedVec (by rw [hlength]; exact hlist) hne, rfl, hne⟩

theorem Filled.emptyLast (h : Filled v) : EmptyLast v.storage := by
  obtain ⟨l, hstack, hempty, hne⟩ := h
  have hholds : Holds v.storage l := by rw [Holds, hstack.storage_eq, hempty]
  exact hholds.emptyLast hne

theorem Filled.push (h : Filled v) {item : T} (hitem : item ≠ Empty.empty)
    (hpush : v.push item = .ok v') : Filled v' := by
  obtain ⟨l, hstack, hempty, hne⟩ := h
  obtain ⟨hstack', hempty'⟩ := hstack.push hpush
  refine ⟨_, hstack', hempty'.trans hempty, fun item' hmem => ?_⟩
  rcases mem_append.1 hmem with hmem | hmem
  · exact hne item' hmem
  · rw [mem_singleton.1 hmem]
    exact hitem

theorem Filled.propagate {S : Type} {m k : ℕ} {items : Vector S m} {skip : S → Bool}
    {convert : S → T} (h : Filled v)
    (hconvert : ∀ item ∈ items.toList, skip item = false → convert item ≠ Empty.empty)
    (hpropagate : Kernel.propagate k items skip convert v = .ok v') : Filled v' := by
  obtain ⟨l, hstack, hempty, hne⟩ := h
  obtain ⟨hstack', hempty'⟩ := propagate_stack hstack hpropagate
  refine ⟨_, hstack', hempty'.trans hempty, fun item' hmem => ?_⟩
  rcases mem_append.1 hmem with hmem | hmem
  · exact hne item' hmem
  · obtain ⟨item, hitem, rfl⟩ := mem_map.1 hmem
    obtain ⟨hitem, hskip⟩ := mem_filter.1 hitem
    exact hconvert item hitem (by simpa using hskip)

end Filled

/-- The counters of the side effects of a call are above those that the kernel uses itself, 0 for
the transaction hash and 1 for the address of a deployed contract. -/
structure AboveReserved (c : PrivateCallData) : Prop where
  noteHashes : ∀ item ∈ c.callStackItem.publicInputs.newNoteHashes.toList,
    item.value ≠ 0 → 1 < item.counter
  nullifiers : ∀ item ∈ c.callStackItem.publicInputs.newNullifiers.toList,
    item.value ≠ 0 → 1 < item.counter
  reads : ∀ item ∈ c.callStackItem.publicInputs.readRequests.toList,
    item.value ≠ 0 → 1 < item.counter

/-- The side effects of a builder are listed without gaps. -/
structure BuilderFilled (b : CombinedBuilder) : Prop where
  noteHashes : Filled b.newNoteHashes
  nullifiers : Filled b.newNullifiers
  reads : Filled b.readRequests

/-- In the arrays of side effects empty items come last. -/
structure Packed (output : Kernel.CombinedData) : Prop where
  noteHashes : EmptyLast output.newNoteHashes
  nullifiers : EmptyLast output.newNullifiers
  reads : EmptyLast output.readRequests

variable {hashes : PrivateKernelHashes} {c : PrivateCallData} {out out' : Builder}

theorem BuilderFilled.finish {b : CombinedBuilder} (h : BuilderFilled b) :
    Packed (PrivateKernel.finish b) :=
  ⟨h.noteHashes.emptyLast, h.nullifiers.emptyLast, h.reads.emptyLast⟩

theorem sideEffect_ne_empty {item : SideEffect} (h : item.counter ≠ 0) : item ≠ Empty.empty :=
  fun he => h (by rw [he]; rfl)

theorem nullifier_ne_empty {item : SideEffectLinkedToNoteHash} (h : item.counter ≠ 0) :
    item ≠ Empty.empty := fun he => h (by rw [he]; rfl)

theorem updateEndValues_filled (hc : AboveReserved c) (hout : BuilderFilled out.end)
    (h : PrivateKernel.updateEndValues hashes c out = .ok out') : BuilderFilled out'.end := by
  simp only [PrivateKernel.updateEndValues, bind_eq_ok, pure_eq_ok] at h
  obtain ⟨_, -, reads, hreads, keys, -, nullifiers, hnullifiers, noteHashes, hnoteHashes, _, -,
    privateStack, -, _, -, publicStack, -, messages, -, encrypted, -, unencrypted, -, rfl⟩ := h
  refine ⟨hout.noteHashes.propagate (fun item hitem hskip => ?_) hnoteHashes,
    hout.nullifiers.propagate (fun item hitem hskip => ?_) hnullifiers,
    hout.reads.propagate (fun item hitem hskip => ?_) hreads⟩
  · have hcounter := hc.noteHashes item hitem (of_decide_eq_false hskip)
    exact sideEffect_ne_empty (Nat.ne_of_gt (Nat.zero_lt_one.trans hcounter))
  · have hcounter := hc.nullifiers item hitem (of_decide_eq_false hskip)
    exact nullifier_ne_empty (Nat.ne_of_gt (Nat.zero_lt_one.trans hcounter))
  · have hmem : item.1 ∈ c.callStackItem.publicInputs.readRequests.toList := by
      rw [Vector.toList_zip] at hitem
      exact (of_mem_zip hitem).1
    simp only [Bool.not_eq_false', Bool.and_eq_true, decide_eq_true_eq] at hskip
    have hcounter := hc.reads item.1 hmem hskip.2
    exact sideEffect_ne_empty (Nat.ne_of_gt (Nat.zero_lt_one.trans hcounter))

theorem contractLogic_filled {data : ContractDeploymentData} {functionData : FunctionData}
    (hout : BuilderFilled out.end) (h : contractLogic hashes c data functionData out = .ok out') :
    BuilderFilled out'.end := by
  unfold contractLogic at h
  split at h
  · simp only [bind_eq_ok, pure_eq_ok] at h
    obtain ⟨_, -, contracts, -, _, -, nullifiers, hpush, rfl⟩ := h
    exact ⟨hout.noteHashes, hout.nullifiers.push (nullifier_ne_empty Nat.one_ne_zero) hpush,
      hout.reads⟩
  · simp only [bind_eq_ok, pure_eq_ok] at h
    obtain ⟨_, -, _, -, rfl⟩ := h
    exact hout

theorem init_packed {txRequest : TxRequest} {p : InnerPublicInputs}
    (htx : hashes.txRequest txRequest ≠ 0) (hc : AboveReserved c)
    (h : init hashes txRequest c = .ok p) : Packed p.end := by
  simp only [init, bind_eq_ok, pure_eq_ok] at h
  obtain ⟨_, -, _, -, _, -, _, -, nullifiers, hpush, out₁, hupdate, out₂, hlogic, rfl⟩ := h
  have hfirst : ({ value := hashes.txRequest txRequest, noteHash := 0, counter := 0 } :
      SideEffectLinkedToNoteHash) ≠ Empty.empty :=
    fun he => htx (congrArg SideEffectLinkedToNoteHash.value he)
  have hstart : BuilderFilled { zeroedBuilder with newNullifiers := nullifiers } :=
    ⟨.zeroed, Filled.zeroed.push hfirst hpush, .zeroed⟩
  exact (contractLogic_filled (updateEndValues_filled hc hstart hupdate) hlogic).finish

theorem inner_packed {p q : InnerPublicInputs} (hc : AboveReserved c) (hp : Packed p.end)
    (h : PrivateKernel.inner hashes p c = .ok q) : Packed q.end := by
  simp only [PrivateKernel.inner, bind_eq_ok, pure_eq_ok] at h
  obtain ⟨_, -, _, -, _, -, _, -, ⟨request, stack⟩, -, _, -, _, -, out₁, hupdate, _, -, out₂,
    hlogic, rfl⟩ := h
  have hstart : BuilderFilled
      { (PrivateKernel.initializeEndValues p).end with privateCallStack := stack } :=
    ⟨.ofEmptyLast hp.noteHashes, .ofEmptyLast hp.nullifiers, .ofEmptyLast hp.reads⟩
  exact (contractLogic_filled (updateEndValues_filled hc hstart hupdate) hlogic).finish

end Packed

/-! ### The hints are accepted -/

/-- The tail accepts the sorted arrays, the hints of the reads and those of the nullifiers. -/
structure HintsAccepted (hints : TailHints) (output : Kernel.CombinedData) : Prop where
  noteHashes : assertSortedCounters output.newNoteHashes hints.sortedNewNoteHashes
    hints.sortedNewNoteHashesIndexes = .ok ()
  nullifiers : assertSortedCounters output.newNullifiers hints.sortedNewNullifiers
    hints.sortedNewNullifiersIndexes = .ok ()
  reads : matchReadsToCommitments hints hints.sortedNewNoteHashes output.readRequests = .ok ()
  squash : ∃ squashed, matchNullifiersToNoteHashesAndSquash hints hints.sortedNewNoteHashes
    hints.sortedNewNullifiers = .ok squashed

theorem computeHints_accepted (masterNullifierSecretKeys : Vector (Field × Field) 4)
    {output : Kernel.CombinedData} (hpacked : Packed output) (hhonest : Honest output) :
    ∃ hints, computeHints masterNullifierSecretKeys output = .ok hints ∧
      HintsAccepted hints output := by
  have hsorted := increasing_sortSideEffects hpacked.noteHashes hhonest.noteHashes_distinct
  obtain ⟨readHints, hreadHints, hreads⟩ := getReadRequestHints_spec hsorted
    fun readRequest hread => hhonest.hasMatch hpacked.noteHashes hread
  obtain ⟨nullifierHints, hnullifierHints, hmatches, hdistinct⟩ := getNullifierHints_spec hsorted
    fun before nullifier after hsplit hne => hhonest.hasFree hpacked.nullifiers hsplit hne
  have hread : ∀ i (hi : i < 128), output.readRequests[i].value ≠ 0 →
      Matches (sortSideEffects output.newNoteHashes).1 readHints[i] output.readRequests[i].value
        output.readRequests[i].counter := by
    intro i hi hne
    refine hreads i hi ?_
    by_contra hge
    have hempty := eq_empty_of_arrayLength_le hpacked.reads hi (by omega)
    exact hne (congrArg SideEffect.value hempty)
  exact ⟨_,
    bind_eq_ok.2 ⟨readHints, hreadHints, bind_eq_ok.2 ⟨nullifierHints, hnullifierHints, rfl⟩⟩,
    assertSortedCounters_sortSideEffects hpacked.noteHashes hhonest.noteHashes_distinct,
    assertSortedCounters_sortSideEffects hpacked.nullifiers hhonest.nullifiers_distinct,
    matchReadsToCommitments_ok hread, matchNullifiers_ok hmatches hdistinct⟩

open BlockBody KernelLogs

/-- Where the loop of `prove` has an output, its side effects are listed without gaps. -/
def OutputPacked : Option InnerPublicInputs → Prop
  | none => True
  | some output => Packed output.end

section Prove

variable {sha256 : Bytes → Bytes32} {hashes : PrivateKernelHashes} {txRequest : TxRequest}

theorem proveCall_packed (htx : hashes.txRequest txRequest ≠ 0) {e : PrivateExecution sha256}
    (he : AboveReserved e.callData) {output output' : Option InnerPublicInputs}
    (hinv : OutputPacked output) (h : proveCall hashes txRequest output e = .ok output') :
    OutputPacked output' := by
  cases output with
  | none =>
    simp only [proveCall, bind_eq_ok, pure_eq_ok] at h
    obtain ⟨p, hinit, rfl⟩ := h
    have htx' : (withSha256 hashes sha256).txRequest txRequest ≠ 0 := htx
    exact init_packed htx' he hinit
  | some output =>
    simp only [proveCall, bind_eq_ok, pure_eq_ok] at h
    obtain ⟨p, hinner, rfl⟩ := h
    exact inner_packed he hinv hinner

theorem prove_packed (htx : hashes.txRequest txRequest ≠ 0)
    {executions : List (PrivateExecution sha256)}
    (hreserved : ∀ e ∈ executions, AboveReserved e.callData) {output : Option InnerPublicInputs}
    (h : executions.foldlM (proveCall hashes txRequest) none = .ok output) :
    OutputPacked output := by
  have hstart : OutputPacked none := trivial
  refine foldlM_invariant (fun (before : List (PrivateExecution sha256)) output =>
      (∀ e ∈ before, AboveReserved e.callData) → OutputPacked output)
    (fun before e output output' hbefore hturn hall => ?_) (fun _ => hstart) h hreserved
  exact proveCall_packed htx (hall e (by simp))
    (hbefore fun e' he' => hall e' (mem_append_left _ he')) hturn

end Prove

/-- **The hints of the kernel prover are complete**: for every tree of executions whose calls the
init and inner circuits accept and whose output is honest, the prover computes hints, and the tail
accepts the sorted arrays, the reads and the nullifiers with them. -/
theorem hints_accepted {sha256 : Bytes → Bytes32} (hashes : PrivateKernelHashes)
    (txRequest : TxRequest) (masterNullifierSecretKeys : Vector (Field × Field) 4)
    (executionResult : RoseTree (PrivateExecution sha256)) (output : InnerPublicInputs)
    (htx : hashes.txRequest txRequest ≠ 0)
    (hreserved : ∀ c ∈ executionResult.collect PrivateExecution.callData, AboveReserved c)
    (hprove : loop (proveCall hashes txRequest) [executionResult] none = .ok (some output))
    (hhonest : Honest output.end) :
    ∃ hints, computeHints masterNullifierSecretKeys output.end = .ok hints ∧
      HintsAccepted hints output.end := by
  rw [loop_eq, flatMap_singleton] at hprove
  rw [RoseTree.collect_eq_map] at hreserved
  have hpacked := prove_packed htx (fun e he => hreserved _ (mem_map_of_mem he)) hprove
  exact computeHints_accepted masterNullifierSecretKeys hpacked hhonest

/-! ### Two equal notes, both nullified -/

namespace TwoEqualNotes

open TwoPhases

/-- A call that creates two equal notes, nullifies each, and reads the first. -/
def noted : PrivateCallData :=
  let c := OneNested.nested
  { c with
    callStackItem :=
      { c.callStackItem with
        publicInputs :=
          { c.callStackItem.publicInputs with
            newNoteHashes := (Vector.replicate 16 ⟨0, 0⟩).set! 0 ⟨5, 3⟩ |>.set! 1 ⟨5, 6⟩
            newNullifiers := (Vector.replicate 16 ⟨0, 0, 0⟩).set! 0 ⟨20, 5, 4⟩ |>.set! 1 ⟨21, 5, 7⟩
            readRequests := (Vector.replicate 32 ⟨0, 0⟩).set! 0 ⟨5, 5⟩ } }
    readRequestMembershipWitnesses :=
      (Vector.replicate 32 ⟨0, Vector.replicate 32 0, false⟩).set! 0
        ⟨0, Vector.replicate 32 0, true⟩ }

def notedExecution : PrivateExecution checksum :=
  privateExecution noted ⟨[]⟩ ⟨[]⟩ (by decide)

def notes : RoseTree (PrivateExecution checksum) :=
  .node firstExecution [.node notedExecution []]

def sideEffects (output : InnerPublicInputs) :
    List SideEffect × List SideEffectLinkedToNoteHash × List SideEffect :=
  (nonEmpty output.end.newNoteHashes, nonEmpty output.end.newNullifiers,
    nonEmpty output.end.readRequests)

theorem accepted_notes : ∃ output,
    loop (proveCall OneNested.hashes OneNested.txRequest) [notes] none = .ok (some output) ∧
      sideEffects output =
        ([⟨13, 3⟩, ⟨13, 6⟩], [⟨507, 0, 0⟩, ⟨28, 13, 4⟩, ⟨29, 13, 7⟩], [⟨13, 5⟩]) := by
  have hrun : (loop (proveCall OneNested.hashes OneNested.txRequest) [notes] none).toOption.map
      (fun output => output.map sideEffects) =
        some (some ([⟨13, 3⟩, ⟨13, 6⟩], [⟨507, 0, 0⟩, ⟨28, 13, 4⟩, ⟨29, 13, 7⟩], [⟨13, 5⟩])) := by
    rw [notes, loop_pair]
    decide +kernel
  cases hloop : loop (proveCall OneNested.hashes OneNested.txRequest) [notes] none with
  | error msg => rw [hloop] at hrun; cases hrun
  | ok output =>
    rw [hloop] at hrun
    obtain ⟨output', rfl, heffects⟩ := Option.map_eq_some_iff.1 (Option.some.inj hrun)
    exact ⟨output', rfl, heffects⟩

theorem honest_notes {output : InnerPublicInputs} (h : sideEffects output =
    ([⟨13, 3⟩, ⟨13, 6⟩], [⟨507, 0, 0⟩, ⟨28, 13, 4⟩, ⟨29, 13, 7⟩], [⟨13, 5⟩])) :
    Honest output.end := by
  simp only [sideEffects, Prod.mk.injEq] at h
  obtain ⟨hnoteHashes, hnullifiers, hreads⟩ := h
  refine ⟨by rw [hnoteHashes, hnullifiers, hreads]; decide, ?_, fun value hvalue counter => ?_⟩
  · rw [hreads, hnoteHashes]
    decide
  · rw [hnullifiers, hnoteHashes]
    by_cases h13 : 13 = value
    · subst h13
      by_cases h4 : 4 ≤ counter
      · have h3 : 3 ≤ counter := by omega
        by_cases h7 : 7 ≤ counter
        · have h6 : 6 ≤ counter := by omega
          simp [h3, h4, h6, h7]
        · simp [countP_cons, h3, h4, h7]
      · have h7 : ¬ 7 ≤ counter := by omega
        simp [countP_cons, h4, h7]
    · simp [h13, hvalue.symm]

end TwoEqualNotes

open TwoEqualNotes TwoPhases in
/-- The hints for the two notes. -/
theorem hints_accepted_twoEqualNotes : ∃ output hints,
    loop (proveCall OneNested.hashes OneNested.txRequest) [notes] none = .ok (some output) ∧
      computeHints (Vector.replicate 4 (0, 0)) output.end = .ok hints ∧
        HintsAccepted hints output.end := by
  obtain ⟨output, hloop, heffects⟩ := accepted_notes
  have hreserved : ∀ c ∈ notes.collect PrivateExecution.callData, AboveReserved c := by
    rw [notes, RoseTree.collect_node]
    simp only [reverse_singleton, flatMap_singleton, RoseTree.collect_node,
      reverse_nil, flatMap_nil, forall_mem_cons]
    refine ⟨⟨?_, ?_, ?_⟩, ⟨?_, ?_, ?_⟩, fun c hc => absurd hc not_mem_nil⟩ <;> decide
  obtain ⟨hints, haccepted⟩ := hints_accepted OneNested.hashes OneNested.txRequest
    (Vector.replicate 4 (0, 0)) notes output (by decide) hreserved hloop (honest_notes heffects)
  exact ⟨output, hints, hloop, haccepted⟩

end ProverHints
