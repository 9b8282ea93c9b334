/-
**Splitting the accumulated data of a transaction, and recombining it.**

The private kernel tail splits the note hashes, nullifiers and public call requests of a
transaction at `min_revertible_side_effect_counter`; the public kernel tail and the base rollup put
the two parts together again with `recombine`, which concatenates arrays by scanning them for
entries that are not empty.  The parts are smaller than the whole, so the split may be rejected;
when it is not, nothing is lost.
-/

import Aztec.AccumulatedData

namespace Kernel

open Noir Failing

/-! ### Recombining -/

section Concat

variable {T : Type} [DecidableEq T] [Empty T]

/-- The body of the two loops of `array_concat`: an entry that is not empty is written to the next
place. -/
def concatElem {m : ℕ} (state : Vector T m × ℕ) (elem : T) : Circuit (Vector T m × ℕ) :=
  if !isEmpty elem then do
    let result ← set state.1 state.2 elem
    return (result, state.2 + 1)
  else return state

def arrayConcat {n s : ℕ} (m : ℕ) (array1 : Vector T n) (array2 : Vector T s) :
    Circuit (Vector T m) := do
  let state ← array1.toList.foldlM concatElem (Vector.replicate m Empty.empty, 0)
  let state ← array2.toList.foldlM concatElem state
  return state.1

end Concat

def recombine (nonRevertible : NonRevertibleData) (revertible : RevertibleData) :
    Circuit CombinedData := do
  let newNoteHashes ← arrayConcat 64 nonRevertible.newNoteHashes revertible.newNoteHashes
  let newNullifiers ← arrayConcat 64 nonRevertible.newNullifiers revertible.newNullifiers
  let publicCallStack ← arrayConcat 8 nonRevertible.publicCallStack revertible.publicCallStack
  let publicDataUpdateRequests ← arrayConcat 32 nonRevertible.publicDataUpdateRequests
    revertible.publicDataUpdateRequests
  let publicDataReads ← arrayConcat 32 nonRevertible.publicDataReads revertible.publicDataReads
  return {
    readRequests := revertible.readRequests
    nullifierKeyValidationRequests := revertible.nullifierKeyValidationRequests
    newNoteHashes := newNoteHashes
    newNullifiers := newNullifiers
    privateCallStack := revertible.privateCallStack
    publicCallStack := publicCallStack
    newL2ToL1Msgs := revertible.newL2ToL1Msgs
    encryptedLogsHash := revertible.encryptedLogsHash
    unencryptedLogsHash := revertible.unencryptedLogsHash
    encryptedLogPreimagesLength := revertible.encryptedLogPreimagesLength
    unencryptedLogPreimagesLength := revertible.unencryptedLogPreimagesLength
    newContracts := revertible.newContracts
    publicDataUpdateRequests := publicDataUpdateRequests
    publicDataReads := publicDataReads }

section Items

variable {T : Type} [DecidableEq T] [Empty T]

def nonEmpty {n : ℕ} (array : Vector T n) : List T := array.toList.filter fun item => !isEmpty item

theorem length_nonEmpty_le {n : ℕ} (array : Vector T n) : (nonEmpty array).length ≤ n := by
  simpa [nonEmpty] using List.length_filter_le (fun item => !isEmpty item) array.toList

theorem nonEmpty_of_stack {n : ℕ} {v : BoundedVec T n} {l : List T} (h : Stack v l)
    (hempty : v.emptyValue = Empty.empty) (hne : ∀ item ∈ l, item ≠ Empty.empty) :
    nonEmpty v.storage = l := by
  have hitems : l.filter (fun item => !isEmpty item) = l :=
    List.filter_eq_self.2 fun item hitem => by simpa [isEmpty] using hne item hitem
  rw [nonEmpty, h.storage_eq, hempty, List.filter_append, hitems, List.filter_replicate]
  simp [isEmpty]

theorem toList_of_emptyLast {n : ℕ} {array : Vector T n} (h : EmptyLast array) :
    array.toList = nonEmpty array ++ List.replicate (n - (nonEmpty array).length) Empty.empty := by
  obtain ⟨hsplit, hlength, hne⟩ := toList_eq_of_emptyLast h
  have hitems : nonEmpty array = array.toList.take (arrayLength array) := by
    have hfirst : (array.toList.take (arrayLength array)).filter (fun item => !isEmpty item) =
        array.toList.take (arrayLength array) :=
      List.filter_eq_self.2 fun item hitem => by simpa [isEmpty] using hne item hitem
    conv_lhs => rw [nonEmpty, hsplit, List.filter_append, hfirst, List.filter_replicate]
    simp [isEmpty]
  rw [hitems, hlength]
  exact hsplit

theorem concatElem_loop {n m : ℕ} {array : Vector T n} {before : List T} {result : Vector T m}
    (hresult : result.toList = before ++ List.replicate (m - before.length) Empty.empty)
    (hroom : before.length + (nonEmpty array).length ≤ m) : ∃ state : Vector T m × ℕ,
      array.toList.foldlM concatElem (result, before.length) = .ok state ∧
      state.2 = (before ++ nonEmpty array).length ∧ state.1.toList = (before ++ nonEmpty array) ++
        List.replicate (m - (before ++ nonEmpty array).length) Empty.empty := by
  refine @foldlM_total _ T (Vector T m × ℕ) concatElem (fun done state =>
    state.2 = (before ++ done.filter fun item => !isEmpty item).length ∧
      state.1.toList = (before ++ done.filter fun item => !isEmpty item) ++
        List.replicate (m - (before ++ done.filter fun item => !isEmpty item).length)
          Empty.empty) _ _ ⟨by simp, by simpa using hresult⟩ ?_
  rintro done elem after ⟨result, i⟩ hsplit ⟨hi, hlist⟩
  simp only at hi hlist
  rw [List.filter_append]
  cases helem : isEmpty elem with
  | true => exact ⟨(result, i), by simp [concatElem, helem, pure, Except.pure],
      by simpa [helem] using hi, by simpa [helem] using hlist⟩
  | false =>
    have hlt : i < m := by
      have hsum : (nonEmpty array).length = (done.filter fun item => !isEmpty item).length + 1 +
          (after.filter fun item => !isEmpty item).length := by
        rw [nonEmpty, hsplit, List.filter_append, List.filter_cons_of_pos (by simp [helem]),
          List.length_append, List.length_cons]
        omega
      rw [List.length_append] at hi
      omega
    refine ⟨(result.set i elem hlt, i + 1), ?_, ?_, ?_⟩
    · rw [concatElem, helem]
      exact bind_eq_ok.2 ⟨_, set_eq_ok.2 ⟨hlt, rfl⟩, rfl⟩
    · simp [helem, hi]; omega
    · have hset : (result.set i elem hlt).toList = result.toList.set i elem :=
        Vector.toList_set hlt
      have hone : [elem].filter (fun item => !isEmpty item) = [elem] :=
        List.filter_cons_of_pos (by rw [helem]; rfl)
      rw [hset, hlist, hone, hi, Stack.replicate_sub _ (hi ▸ hlt), Stack.set_length_append]
      simp [Nat.add_assoc]

theorem arrayConcat_total {n s : ℕ} (m : ℕ) (array1 : Vector T n) (array2 : Vector T s)
    (hroom : (nonEmpty array1).length + (nonEmpty array2).length ≤ m) :
    ∃ result, arrayConcat m array1 array2 = .ok result ∧
      result.toList = (nonEmpty array1 ++ nonEmpty array2) ++
        List.replicate (m - (nonEmpty array1 ++ nonEmpty array2).length) Empty.empty := by
  obtain ⟨⟨first, i⟩, hfirst, hi, hlist⟩ := @concatElem_loop T _ _ n m array1 []
    (Vector.replicate m Empty.empty) (by simp) (by simp; omega)
  simp only [List.nil_append] at hi hlist
  subst hi
  obtain ⟨second, hsecond, -, hlist⟩ := @concatElem_loop T _ _ s m array2 _ _ hlist hroom
  exact ⟨second.1, bind_eq_ok.2 ⟨_, hfirst, bind_eq_ok.2 ⟨_, hsecond, rfl⟩⟩, hlist⟩

theorem splitBy_isOk_iff {n a b : ℕ} {below : T → Bool} {items : Vector T n} :
    (∃ parts : BoundedVec T a × BoundedVec T b, splitBy below items = .ok parts) ↔
      ((nonEmpty items).filter below).length ≤ a ∧
        ((nonEmpty items).filter fun item => !below item).length ≤ b := by
  have hfilter : ∀ q : T → Bool, (nonEmpty items).filter q =
      items.toList.filter fun item => !isEmpty item && q item := by
    intro q
    rw [nonEmpty, List.filter_filter]
    simp [Bool.and_comm]
  rw [hfilter, hfilter]
  constructor
  · rintro ⟨parts, h⟩
    obtain ⟨hl, hr, -, -⟩ := splitBy_stack h
    exact ⟨hl.length_le, hr.length_le⟩
  · rintro ⟨ha, hb⟩
    suffices h : ∃ parts : BoundedVec T a × BoundedVec T b, splitBy below items = .ok parts ∧
        parts.1.len = (items.toList.filter fun item => !isEmpty item && below item).length ∧
        parts.2.len = (items.toList.filter fun item => !isEmpty item && !below item).length by
      obtain ⟨parts, h, -⟩ := h
      exact ⟨parts, h⟩
    refine foldlM_total (fun done (parts : BoundedVec T a × BoundedVec T b) =>
      parts.1.len = (done.filter fun item => !isEmpty item && below item).length ∧
        parts.2.len = (done.filter fun item => !isEmpty item && !below item).length)
      ⟨rfl, rfl⟩ ?_
    rintro done item after ⟨low, high⟩ hsplit ⟨hlow, hhigh⟩
    simp only at hlow hhigh
    rw [List.filter_append, List.filter_append]
    rw [hsplit, List.filter_append, List.length_append, List.filter_cons] at ha hb
    cases he : isEmpty item with
    | true => exact ⟨(low, high), by simp [pure, Except.pure], by simpa [he] using hlow,
        by simpa [he] using hhigh⟩
    | false =>
      cases hbelow : below item with
      | true =>
        rw [if_pos (by simp [he, hbelow]), List.length_cons] at ha
        let low' := { low with
          storage := low.storage.setIfInBounds low.len item, len := low.len + 1 }
        refine ⟨(low', high), ?_, by simp [low', he, hbelow, hlow],
          by simpa [he, hbelow] using hhigh⟩
        simp [low', BoundedVec.push, assert, (by omega : low.len < a), bind, Except.bind,
          pure, Except.pure]
      | false =>
        rw [if_pos (by simp [he, hbelow]), List.length_cons] at hb
        let high' := { high with
          storage := high.storage.setIfInBounds high.len item, len := high.len + 1 }
        refine ⟨(low, high'), ?_, by simpa [he, hbelow] using hlow,
          by simp [high', he, hbelow, hhigh]⟩
        simp [high', BoundedVec.push, assert, (by omega : high.len < b), bind,
          Except.bind, pure, Except.pure]

end Items

/-! ### There and back -/

section ThereAndBack

variable {T : Type} [DecidableEq T] [Empty T]

/-- The two parts hold the items of an array by their counters, and the recombined array holds each
item once, those of the first part first; an array that is sorted by the counters is returned. -/
structure LosesNothing {n a b : ℕ} (counter : T → ℕ) (threshold : ℕ) (input : Vector T n)
    (nonRevertible : Vector T a) (revertible : Vector T b) (recombined : Vector T n) : Prop where
  perm : (nonEmpty nonRevertible ++ nonEmpty revertible).Perm (nonEmpty input)
  below : ∀ item ∈ nonEmpty nonRevertible, counter item < threshold
  atLeast : ∀ item ∈ nonEmpty revertible, threshold ≤ counter item
  recombined_eq : recombined.toList = (nonEmpty nonRevertible ++ nonEmpty revertible) ++
    List.replicate (n - (nonEmpty input).length) Empty.empty
  sorted : EmptyLast input → (nonEmpty input).Pairwise (fun x y => counter x ≤ counter y) →
    recombined = input

omit [DecidableEq T] [Empty T] in
theorem filter_append_of_sorted {counter : T → ℕ} {threshold : ℕ} {l : List T}
    (h : l.Pairwise fun x y => counter x ≤ counter y) :
    l.filter (fun item => counter item < threshold) ++
      l.filter (fun item => !decide (counter item < threshold)) = l := by
  induction l with
  | nil => rfl
  | cons item l ih =>
    obtain ⟨hitem, hl⟩ := List.pairwise_cons.1 h
    rcases lt_or_ge (counter item) threshold with hlt | hge
    · rw [List.filter_cons_of_pos (by simpa using hlt), List.filter_cons_of_neg (by simpa using hlt),
        List.cons_append, ih hl]
    · have hnone : (item :: l).filter (fun item => counter item < threshold) = [] := by
        refine List.filter_eq_nil_iff.2 fun other hother => ?_
        rcases List.mem_cons.1 hother with rfl | hother
        · simpa using hge
        · simpa using hge.trans (hitem other hother)
      have hall : (item :: l).filter (fun item => !decide (counter item < threshold)) =
          item :: l := by
        refine List.filter_eq_self.2 fun other hother => ?_
        rcases List.mem_cons.1 hother with rfl | hother
        · simpa using hge
        · simpa using hge.trans (hitem other hother)
      rw [hnone, hall, List.nil_append]

theorem losesNothing_of_splitBy {n a b : ℕ} {counter : T → ℕ} {threshold : ℕ} {input : Vector T n}
    {parts : BoundedVec T a × BoundedVec T b}
    (h : splitBy (fun item => counter item < threshold) input = .ok parts) :
    ∃ recombined, arrayConcat n parts.1.storage parts.2.storage = .ok recombined ∧
      LosesNothing counter threshold input parts.1.storage parts.2.storage recombined := by
  obtain ⟨hl, hr, hel, her⟩ := splitBy_stack h
  set low := input.toList.filter fun item => !isEmpty item && decide (counter item < threshold)
  set high := input.toList.filter fun item => !isEmpty item && !decide (counter item < threshold)
  have hmem : ∀ (q : T → Bool) (item : T), item ∈ input.toList.filter (fun item =>
      !isEmpty item && q item) → item ≠ Empty.empty ∧ q item = true := by
    intro q item hitem
    simpa [isEmpty] using (List.mem_filter.1 hitem).2
  have hlow : nonEmpty parts.1.storage = low :=
    nonEmpty_of_stack hl hel fun item hitem => (hmem _ item hitem).1
  have hhigh : nonEmpty parts.2.storage = high :=
    nonEmpty_of_stack hr her fun item hitem => (hmem _ item hitem).1
  have hfilter : ∀ q : T → Bool, (nonEmpty input).filter q =
      input.toList.filter fun item => !isEmpty item && q item := by
    intro q
    rw [nonEmpty, List.filter_filter]
    simp [Bool.and_comm]
  have hperm : (low ++ high).Perm (nonEmpty input) := by
    have := List.filter_append_perm (fun item => decide (counter item < threshold)) (nonEmpty input)
    rwa [hfilter, hfilter] at this
  have hlength := hperm.length_eq
  rw [List.length_append] at hlength
  have hroom := length_nonEmpty_le input
  obtain ⟨recombined, hconcat, hlist⟩ := arrayConcat_total n parts.1.storage
    parts.2.storage (by rw [hlow, hhigh]; omega)
  refine ⟨recombined, hconcat, ?_, ?_, ?_, ?_, ?_⟩
  · rwa [hlow, hhigh]
  · intro item hitem
    rw [hlow] at hitem
    simpa using (hmem _ item hitem).2
  · intro item hitem
    rw [hhigh] at hitem
    simpa using (hmem _ item hitem).2
  · rw [hlist, hlow, hhigh, List.length_append, hlength]
  · intro hlast hsorted
    have hsame := @filter_append_of_sorted T counter threshold _ hsorted
    rw [hfilter, hfilter] at hsame
    have hsame : low ++ high = nonEmpty input := hsame
    rw [hlow, hhigh, hsame, ← toList_of_emptyLast hlast] at hlist
    exact Vector.toList_inj.1 hlist

end ThereAndBack

def Fits {T : Type} [DecidableEq T] [Empty T] {n : ℕ} (counter : T → ℕ) (threshold : ℕ)
    (input : Vector T n) (a b : ℕ) : Prop :=
  ((nonEmpty input).filter fun item => counter item < threshold).length ≤ a ∧
    ((nonEmpty input).filter fun item => !decide (counter item < threshold)).length ≤ b

/-- **Nothing is lost on the way there and back.**  A split is accepted exactly when each part has
room for its items; recombining its parts is accepted, and every item comes back once, with those
below the threshold first and otherwise in their order. -/
theorem recombine_split (b : CombinedBuilder) (minRevertibleSideEffectCounter : ℕ) :
    ((∃ parts, b.split minRevertibleSideEffectCounter = .ok parts) ↔
      Fits SideEffect.counter minRevertibleSideEffectCounter b.newNoteHashes.storage 8 56 ∧
      Fits SideEffectLinkedToNoteHash.counter minRevertibleSideEffectCounter
        b.newNullifiers.storage 8 56 ∧
      Fits CallRequest.startSideEffectCounter minRevertibleSideEffectCounter
        b.publicCallStack.storage 3 5) ∧ ∀ nonRevertible revertible,
      b.split minRevertibleSideEffectCounter = .ok (nonRevertible, revertible) →
      ∃ combined, recombine nonRevertible.toPublic revertible.toPublic = .ok combined ∧
        LosesNothing SideEffect.counter minRevertibleSideEffectCounter b.newNoteHashes.storage
          nonRevertible.toPublic.newNoteHashes revertible.toPublic.newNoteHashes
          combined.newNoteHashes ∧
        LosesNothing SideEffectLinkedToNoteHash.counter minRevertibleSideEffectCounter
          b.newNullifiers.storage nonRevertible.toPublic.newNullifiers
          revertible.toPublic.newNullifiers combined.newNullifiers ∧
        LosesNothing CallRequest.startSideEffectCounter minRevertibleSideEffectCounter
          b.publicCallStack.storage nonRevertible.toPublic.publicCallStack
          revertible.toPublic.publicCallStack combined.publicCallStack := by
  constructor
  · unfold Fits
    rw [← splitBy_isOk_iff, ← splitBy_isOk_iff, ← splitBy_isOk_iff]
    constructor
    · rintro ⟨parts, h⟩
      obtain ⟨noteHashes, hnoteHashes, h⟩ := bind_eq_ok.1 h
      obtain ⟨nullifiers, hnullifiers, h⟩ := bind_eq_ok.1 h
      obtain ⟨calls, hcalls, -⟩ := bind_eq_ok.1 h
      exact ⟨⟨_, hnoteHashes⟩, ⟨_, hnullifiers⟩, ⟨_, hcalls⟩⟩
    · rintro ⟨⟨noteHashes, hnoteHashes⟩, ⟨nullifiers, hnullifiers⟩, ⟨calls, hcalls⟩⟩
      exact ⟨_, bind_eq_ok.2 ⟨_, hnoteHashes, bind_eq_ok.2 ⟨_, hnullifiers,
        bind_eq_ok.2 ⟨_, hcalls, rfl⟩⟩⟩⟩
  · intro nonRevertible revertible h
    obtain ⟨noteHashes, hnoteHashes, h⟩ := bind_eq_ok.1 h
    obtain ⟨nullifiers, hnullifiers, h⟩ := bind_eq_ok.1 h
    obtain ⟨calls, hcalls, h⟩ := bind_eq_ok.1 h
    simp only [pure_eq_ok, Prod.mk.injEq] at h
    obtain ⟨rfl, rfl⟩ := h
    obtain ⟨newNoteHashes, hconcatNoteHashes, hnoteHashes⟩ := losesNothing_of_splitBy hnoteHashes
    obtain ⟨newNullifiers, hconcatNullifiers, hnullifiers⟩ := losesNothing_of_splitBy hnullifiers
    obtain ⟨publicCallStack, hconcatCalls, hcalls⟩ := losesNothing_of_splitBy hcalls
    -- the split leaves the public data empty
    obtain ⟨updates, hupdates, -⟩ := arrayConcat_total 32
      (zeroedVec : BoundedVec PublicDataUpdateRequest 16).storage
      (zeroedVec : BoundedVec PublicDataUpdateRequest 16).storage
      (Nat.add_le_add (length_nonEmpty_le _) (length_nonEmpty_le _))
    obtain ⟨reads, hreads, -⟩ := arrayConcat_total 32
      (zeroedVec : BoundedVec PublicDataRead 16).storage
      (zeroedVec : BoundedVec PublicDataRead 16).storage
      (Nat.add_le_add (length_nonEmpty_le _) (length_nonEmpty_le _))
    exact ⟨_, bind_eq_ok.2 ⟨_, hconcatNoteHashes, bind_eq_ok.2 ⟨_, hconcatNullifiers,
      bind_eq_ok.2 ⟨_, hconcatCalls, bind_eq_ok.2 ⟨_, hupdates, bind_eq_ok.2 ⟨_, hreads,
      rfl⟩⟩⟩⟩⟩, hnoteHashes, hnullifiers, hcalls⟩

end Kernel
