/-
**The indexed tree of the TypeScript node.**

`StandardIndexedTree` extends `TreeBase`: next to the nodes it keeps the preimages of the leaves,
the uncommitted ones in an object and the committed ones in a store, and a second store that maps
the key of a leaf to its index.  `batchInsert` links a batch of leaves into the sorted list the
preimages form, going through the batch from the greatest key down, and returns what the circuit
needs to repeat the insertion.

A call that throws leaves the changes it has made behind; the model returns them together with the
error.
-/

import Aztec.PropertyMap
import Aztec.TreeBase

open Function List

/-! ### Leaves -/

/-- The interface of a leaf, with its factory.  The laws say that there is one leaf without content
and that it has key zero, and that leaves of one kind either all take the place of the leaf with
their key or are all create-only. -/
class IndexedTreeLeaf (Leaf : Type) where
  getKey : Leaf → ℕ
  isEmpty : Leaf → Bool
  updateTo : Leaf → Leaf → Except String Leaf
  buildDummy : ℕ → Leaf
  empty : Leaf
  updatable : Bool
  getKey_buildDummy : ∀ key, getKey (buildDummy key) = key
  isEmpty_iff : ∀ {leaf}, isEmpty leaf = true ↔ leaf = empty
  getKey_empty : getKey empty = 0
  updateTo_eq_ok : ∀ {leaf another updated}, getKey leaf = getKey another →
    (updateTo leaf another = .ok updated ↔ updatable = true ∧ updated = another)

open IndexedTreeLeaf

structure NullifierLeaf where
  nullifier : ℕ
deriving DecidableEq

instance : IndexedTreeLeaf NullifierLeaf where
  getKey leaf := leaf.nullifier
  isEmpty leaf := leaf.nullifier = 0
  updateTo _ _ := .error "Nullifiers are create only"
  buildDummy key := ⟨key⟩
  empty := ⟨0⟩
  updatable := false
  getKey_buildDummy _ := rfl
  isEmpty_iff {leaf} := by cases leaf; simp
  getKey_empty := rfl
  updateTo_eq_ok _ := by simp

structure PublicDataTreeLeaf where
  slot : ℕ
  value : ℕ
deriving DecidableEq

instance : IndexedTreeLeaf PublicDataTreeLeaf where
  getKey leaf := leaf.slot
  isEmpty leaf := leaf.slot = 0 && leaf.value = 0
  updateTo leaf another :=
    if leaf.slot ≠ another.slot then .error "Invalid update: slots do not match"
    else .ok ⟨leaf.slot, another.value⟩
  buildDummy key := ⟨key, 0⟩
  empty := ⟨0, 0⟩
  updatable := true
  getKey_buildDummy _ := rfl
  isEmpty_iff {leaf} := by cases leaf; simp
  getKey_empty := rfl
  updateTo_eq_ok {leaf another updated} h := by
    rw [if_neg (not_not.2 h), h]
    simp only [Except.ok.injEq, true_and]
    exact eq_comm

structure Preimage (Leaf : Type) where
  leaf : Leaf
  nextKey : ℕ
  nextIndex : ℕ
deriving DecidableEq

namespace Preimage

variable {Leaf : Type} [IndexedTreeLeaf Leaf]

def getKey (p : Preimage Leaf) : ℕ := IndexedTreeLeaf.getKey p.leaf

def empty : Preimage Leaf := ⟨IndexedTreeLeaf.empty, 0, 0⟩

@[simp] theorem getKey_mk (leaf : Leaf) (nextKey nextIndex : ℕ) :
    (⟨leaf, nextKey, nextIndex⟩ : Preimage Leaf).getKey = IndexedTreeLeaf.getKey leaf := rfl

@[simp] theorem getKey_empty : (empty : Preimage Leaf).getKey = 0 :=
  IndexedTreeLeaf.getKey_empty

end Preimage

/-! ### The tree -/

/-- The hasher, and `toBufferBE(0n, 32)`, which is the initial leaf of the tree as well. -/
structure Hasher (Buffer Leaf : Type) where
  hash : Buffer → Buffer → Buffer
  hashInputs : Preimage Leaf → Buffer
  zero : Buffer

/-- The state of `StandardIndexedTree`.  The stores take the index and the key of a leaf. -/
structure StandardIndexedTree (Buffer Leaf : Type) (depth : ℕ) extends TreeBase Buffer depth where
  cachedLeafPreimages : PropertyMap (Preimage Leaf)
  leaves : ℕ → Option (Preimage Leaf)
  leafIndex : ℕ → Option ℕ

structure LowLeafWitnessData (Buffer Leaf : Type) where
  leafPreimage : Preimage Leaf
  index : ℕ
  siblingPath : List Buffer
deriving DecidableEq

structure BatchInsertionResult (Buffer Leaf : Type) where
  lowLeavesWitnessData : Option (List (LowLeafWitnessData Buffer Leaf))
  sortedNewLeaves : List Leaf
  sortedNewLeavesIndexes : List ℕ
  newSubtreeSiblingPath : List Buffer
deriving DecidableEq

namespace StandardIndexedTree

section Model

variable {Buffer Leaf : Type} [IndexedTreeLeaf Leaf] {depth : ℕ} (H : Hasher Buffer Leaf)

def new (depth : ℕ) : StandardIndexedTree Buffer Leaf depth :=
  { TreeBase.new H.hash H.zero depth with
    cachedLeafPreimages := .empty, leaves := fun _ => none, leafIndex := fun _ => none }

variable (t : StandardIndexedTree Buffer Leaf depth)

def getCachedLowLeafIndex (key : ℕ) : Option ℕ :=
  let lowLeafIndexes := t.cachedLeafPreimages.entries.filter fun e => e.2.getKey ≤ key
  (PropertyMap.greatest (fun e => e.2.getKey) lowLeafIndexes).map Prod.fst

def getDbLowLeafIndex (key : ℕ) : Option ℕ := PropertyMap.lastUpTo t.leafIndex key

def getDbPreimage (index : ℕ) : Option (Preimage Leaf) := t.leaves index

def getCachedPreimage (index : ℕ) : Option (Preimage Leaf) := t.cachedLeafPreimages.get index

def getLatestLeafPreimageCopy (index : ℕ) (includeUncommitted : Bool) : Option (Preimage Leaf) :=
  if !includeUncommitted then t.getDbPreimage index
  else (t.getCachedPreimage index).or (t.getDbPreimage index)

def lowLeaf (index : Option ℕ) (preimage : ℕ → Option (Preimage Leaf)) :
    Option (ℕ × Preimage Leaf) :=
  index.bind fun i => (preimage i).map fun p => (i, p)

/-- `findIndexOfPreviousKey`: the index, and whether the key is already present.  A cached leaf is
preferred to a stored one when its key is greater. -/
def findIndexOfPreviousKey (newKey : ℕ) (includeUncommitted : Bool) : Option (ℕ × Bool) :=
  let stored := lowLeaf (t.getDbLowLeafIndex newKey) t.getDbPreimage
  let cached := lowLeaf (t.getCachedLowLeafIndex newKey) t.getCachedPreimage
  let found :=
    if includeUncommitted then
      match cached, stored with
      | some c, some s => if c.2.getKey > s.2.getKey then some c else some s
      | some c, none => some c
      | none, stored => stored
    else stored
  found.map fun low => (low.1, low.2.getKey = newKey)

def encodeLeaf (leaf : Preimage Leaf) (hash0Leaf : Bool) : Buffer :=
  if !hash0Leaf && leaf.getKey = 0 then H.zero else H.hashInputs leaf

def updateLeaf (preimage : Preimage Leaf) (index : ℕ) :
    Except String (StandardIndexedTree Buffer Leaf depth) :=
  let maxIndex := TreeBase.maxIndex depth
  if index > maxIndex then
    .error s!"Index out of bounds. Index {index}, max index: {maxIndex}."
  else
    let base := t.toTreeBase.addLeafToCacheAndHashToRoot H.hash H.zero
      (encodeLeaf H preimage true) index
    let numLeaves := base.getNumLeaves true
    let base := if index ≥ numLeaves then { base with cachedSize := some (index + 1) } else base
    .ok { t with
      toTreeBase := base
      cachedLeafPreimages := t.cachedLeafPreimages.set index preimage }

def encodeAndAppendLeaves (preimages : List (Preimage Leaf)) (hash0Leaf : Bool) :
    StandardIndexedTree Buffer Leaf depth × Except String Unit :=
  let startInsertionIndex := t.getNumLeaves true
  let cachedLeafPreimages := preimages.zipIdx.foldl
    (fun cached e => cached.set (startInsertionIndex + e.2) e.1) t.cachedLeafPreimages
  let t := { t with cachedLeafPreimages := cachedLeafPreimages }
  let hashedLeaves := preimages.map fun preimage => encodeLeaf H preimage hash0Leaf
  match t.toTreeBase.appendLeaves H.hash H.zero hashedLeaves with
  | .ok base => ({ t with toTreeBase := base }, .ok ())
  | .error msg => (t, .error msg)

def commitLeaves : StandardIndexedTree Buffer Leaf depth :=
  let t := t.cachedLeafPreimages.entries.foldl
    (fun t e => { t with leaves := Function.update t.leaves e.1 (some e.2)
                         leafIndex := Function.update t.leafIndex e.2.getKey (some e.1) }) t
  { t with cachedLeafPreimages := .empty }

def commit : StandardIndexedTree Buffer Leaf depth :=
  commitLeaves { t with toTreeBase := t.toTreeBase.commit }

def rollback : StandardIndexedTree Buffer Leaf depth :=
  { t with toTreeBase := t.toTreeBase.rollback, cachedLeafPreimages := .empty }

/-- The preimages `init` fills the tree with; the last one points to the first one. -/
def prefilled (prefilledSize : ℕ) : List (Preimage Leaf) :=
  (List.range prefilledSize).map fun i =>
    if i = prefilledSize - 1 then ⟨buildDummy i, 0, 0⟩ else ⟨buildDummy i, i + 1, i + 1⟩

def init (prefilledSize : ℕ) : Except String (StandardIndexedTree Buffer Leaf depth) :=
  if prefilledSize < 1 then .error "Prefilled size must be at least 1!"
  else
    match t.encodeAndAppendLeaves H (prefilled prefilledSize) true with
    | (t, .ok ()) => .ok t.commit
    | (_, .error msg) => .error msg

def getSubtreeSiblingPath (subtreeHeight : ℕ) (includeUncommitted : Bool) : List Buffer :=
  let nextAvailableLeafIndex := t.getNumLeaves includeUncommitted
  let fullSiblingPath :=
    t.toTreeBase.getSiblingPath H.hash H.zero nextAvailableLeafIndex includeUncommitted
  fullSiblingPath.drop subtreeHeight

def getEmptyLowLeafWitness (treeHeight : ℕ) : LowLeafWitnessData Buffer Leaf :=
  { leafPreimage := .empty, index := 0, siblingPath := List.replicate treeHeight H.zero }

/-- The state of the loop of `batchInsert`. -/
structure Insertion (Buffer Leaf : Type) (depth : ℕ) where
  tree : StandardIndexedTree Buffer Leaf depth
  insertedKeys : List ℕ
  lowLeavesWitnesses : List (LowLeafWitnessData Buffer Leaf)
  pendingInsertionSubtree : List (Preimage Leaf)

/-- What is left when the loop is left early: the tree, and the error if one was thrown. -/
abbrev Stopped (Buffer Leaf : Type) (depth : ℕ) :=
  StandardIndexedTree Buffer Leaf depth × Option String

/-- One turn of the loop of `batchInsert`, for the leaf at place `e.2` of the sorted batch, which
was at place `e.1.2` of the batch. -/
def insertTurn (startInsertionIndex : ℕ) (s : Insertion Buffer Leaf depth) (e : (Leaf × ℕ) × ℕ) :
    Except (Stopped Buffer Leaf depth) (Insertion Buffer Leaf depth) :=
  let newLeaf := e.1.1
  let originalIndex := e.1.2
  if isEmpty newLeaf then .ok s
  else if IndexedTreeLeaf.getKey newLeaf ∈ s.insertedKeys then
    .error (s.tree, some "Cannot insert duplicated keys in the same batch")
  else
    let insertedKeys := IndexedTreeLeaf.getKey newLeaf :: s.insertedKeys
    let indexOfPrevious := s.tree.findIndexOfPreviousKey (IndexedTreeLeaf.getKey newLeaf) true
    match lowLeaf (indexOfPrevious.map Prod.fst)
        (fun index => s.tree.getLatestLeafPreimageCopy index true) with
    | none => .error (s.tree, none)
    | some (index, lowLeafPreimage) =>
      let isUpdate := indexOfPrevious.any Prod.snd
      let witness : LowLeafWitnessData Buffer Leaf :=
        { leafPreimage := lowLeafPreimage, index := index
          siblingPath := s.tree.toTreeBase.getSiblingPath H.hash H.zero index true }
      let lowLeavesWitnesses := s.lowLeavesWitnesses.set e.2 witness
      if isUpdate then
        match updateTo lowLeafPreimage.leaf newLeaf with
        | .error msg => .error (s.tree, some msg)
        | .ok newLowLeaf =>
          let newLowLeafPreimage : Preimage Leaf :=
            ⟨newLowLeaf, lowLeafPreimage.nextKey, lowLeafPreimage.nextIndex⟩
          match s.tree.updateLeaf H newLowLeafPreimage index with
          | .error msg => .error (s.tree, some msg)
          | .ok tree =>
            .ok { tree := tree, insertedKeys := insertedKeys
                  lowLeavesWitnesses := lowLeavesWitnesses
                  pendingInsertionSubtree :=
                    s.pendingInsertionSubtree.set originalIndex .empty }
      else
        let newLowLeafPreimage : Preimage Leaf :=
          ⟨lowLeafPreimage.leaf, IndexedTreeLeaf.getKey newLeaf,
            startInsertionIndex + originalIndex⟩
        match s.tree.updateLeaf H newLowLeafPreimage index with
        | .error msg => .error (s.tree, some msg)
        | .ok tree =>
          let currentPendingPreimageLeaf : Preimage Leaf :=
            ⟨newLeaf, lowLeafPreimage.nextKey, lowLeafPreimage.nextIndex⟩
          .ok { tree := tree, insertedKeys := insertedKeys
                lowLeavesWitnesses := lowLeavesWitnesses
                pendingInsertionSubtree :=
                  s.pendingInsertionSubtree.set originalIndex currentPendingPreimageLeaf }

/-- The leaves of a batch with their places, by decreasing key; leaves of one key keep their
order. -/
def sortedDescendingLeafTuples (leaves : List Leaf) : List (Leaf × ℕ) :=
  leaves.zipIdx.insertionSort fun a b =>
    IndexedTreeLeaf.getKey b.1 ≤ IndexedTreeLeaf.getKey a.1

def batchInsert (leaves : List Leaf) (subtreeHeight : ℕ) :
    StandardIndexedTree Buffer Leaf depth × Except String (BatchInsertionResult Buffer Leaf) :=
  let startInsertionIndex := t.getNumLeaves true
  let tuples := sortedDescendingLeafTuples leaves
  let loop := tuples.zipIdx.foldlM (insertTurn H startInsertionIndex)
    { tree := t, insertedKeys := []
      lowLeavesWitnesses := List.replicate leaves.length (getEmptyLowLeafWitness H depth)
      pendingInsertionSubtree := List.replicate leaves.length .empty }
  match loop with
  | .error (t, some msg) => (t, .error msg)
  | .error (t, none) =>
    (t, .ok { lowLeavesWitnessData := none
              sortedNewLeaves := tuples.map Prod.fst
              sortedNewLeavesIndexes := tuples.map Prod.snd
              newSubtreeSiblingPath := t.getSubtreeSiblingPath H subtreeHeight true })
  | .ok s =>
    let newSubtreeSiblingPath := s.tree.getSubtreeSiblingPath H subtreeHeight true
    let (t, appended) := s.tree.encodeAndAppendLeaves H s.pendingInsertionSubtree false
    (t, appended.map fun _ =>
      { lowLeavesWitnessData := some s.lowLeavesWitnesses
        sortedNewLeaves := tuples.map Prod.fst
        sortedNewLeavesIndexes := tuples.map Prod.snd
        newSubtreeSiblingPath := newSubtreeSiblingPath })

end Model

/-! ### The preimages -/

section Preimages

variable {Buffer Leaf : Type} {depth : ℕ} {t t' : StandardIndexedTree Buffer Leaf depth}

def visible (t : StandardIndexedTree Buffer Leaf depth) (i : ℕ) : Option (Preimage Leaf) :=
  t.getLatestLeafPreimageCopy i true

theorem visible_eq (i : ℕ) : t.visible i = (t.cachedLeafPreimages.get i).or (t.leaves i) := rfl

structure SameStores (t t' : StandardIndexedTree Buffer Leaf depth) : Prop where
  base : TreeBase.SameCommitted t.toTreeBase t'.toTreeBase
  leaves_eq : t'.leaves = t.leaves
  leafIndex_eq : t'.leafIndex = t.leafIndex

theorem SameStores.refl (t : StandardIndexedTree Buffer Leaf depth) : SameStores t t :=
  ⟨⟨rfl, rfl, rfl⟩, rfl, rfl⟩

theorem SameStores.trans {t'' : StandardIndexedTree Buffer Leaf depth} (h : SameStores t t')
    (h' : SameStores t' t'') : SameStores t t'' :=
  ⟨h.base.trans h'.base, h'.leaves_eq.trans h.leaves_eq, h'.leafIndex_eq.trans h.leafIndex_eq⟩

theorem SameStores.getNumLeaves_false (h : SameStores t t') :
    t'.getNumLeaves false = t.getNumLeaves false := h.base.2.2

/-- The preimages with more of them written from position `n` on. -/
def writePreimages (view : ℕ → Option (Preimage Leaf)) (n : ℕ) (preimages : List (Preimage Leaf)) :
    ℕ → Option (Preimage Leaf) :=
  fun i => if n ≤ i then (preimages[i - n]?).or (view i) else view i

theorem get_foldl_set (preimages : List (Preimage Leaf)) (n : ℕ) :
    ∀ cached : PropertyMap (Preimage Leaf),
      (preimages.zipIdx.foldl (fun cached e => cached.set (n + e.2) e.1) cached).get =
        writePreimages cached.get n preimages := by
  induction preimages using reverseRecOn with
  | nil =>
    intro cached
    funext i
    simp [writePreimages]
  | append_singleton preimages p ih =>
    intro cached
    funext i
    rw [zipIdx_append, foldl_append]
    simp only [zipIdx_singleton, foldl_cons, foldl_nil, PropertyMap.get_set, ih,
      writePreimages]
    by_cases hi : i = n + (0 + preimages.length)
    · subst hi
      simp
    · rw [if_neg hi]
      split
      · next hn =>
        rcases Nat.lt_or_ge (i - n) preimages.length with hlt | hge
        · rw [getElem?_append_left hlt]
        · rw [getElem?_eq_none hge, getElem?_eq_none (by simp; omega)]
      · rfl

variable {n i : ℕ} {preimages : List (Preimage Leaf)}

theorem writePreimages_or {cached stored : ℕ → Option (Preimage Leaf)} (i : ℕ) :
    (writePreimages cached n preimages i).or (stored i) =
      writePreimages (fun i => (cached i).or (stored i)) n preimages i := by
  unfold writePreimages
  split
  · rw [Option.or_assoc]
  · rfl

theorem writePreimages_update {view : ℕ → Option (Preimage Leaf)} {m : ℕ} (hi : i < n)
    (hm : m < preimages.length) (p q : Preimage Leaf) :
    writePreimages (update view i (some p)) n (preimages.set m q) =
      update (update (writePreimages view n preimages) i (some p)) (n + m)
        (some q) := by
  funext j
  simp only [writePreimages, update_apply, getElem?_set]
  by_cases hj : n ≤ j
  · have hne : j ≠ i := by omega
    by_cases hm' : j = n + m
    · subst hm'
      simp [hm]
    · have hsub : m ≠ j - n := by omega
      simp [hj, hne, hm', hsub]
  · have hne : j ≠ n + m := by omega
    simp [hj, hne]

theorem visible_updateLeaf {p : Preimage Leaf} (hsame : SameStores t t')
    (hcached : t'.cachedLeafPreimages = t.cachedLeafPreimages.set i p) :
    t'.visible = update t.visible i (some p) := by
  funext j
  rw [visible_eq, hcached, PropertyMap.get_set, hsame.leaves_eq, update_apply]
  split
  · rfl
  · rfl

theorem visible_encodeAndAppendLeaves (hsame : SameStores t t')
    (hcached : t'.cachedLeafPreimages.get = writePreimages t.cachedLeafPreimages.get n preimages) :
    t'.visible = writePreimages t.visible n preimages := by
  funext i
  rw [visible_eq, hcached, hsame.leaves_eq, writePreimages_or]
  rfl

theorem visible_rollback (t : StandardIndexedTree Buffer Leaf depth) :
    t.rollback.visible = t.leaves := rfl

variable [IndexedTreeLeaf Leaf] {H : Hasher Buffer Leaf}

theorem updateLeaf_eq (p : Preimage Leaf) (hi : i < t.getNumLeaves true)
    (hfits : t.getNumLeaves true ≤ 2 ^ depth) :
    ∃ t', t.updateLeaf H p i = .ok t' ∧ SameStores t t' ∧
      t'.cachedLeafPreimages = t.cachedLeafPreimages.set i p ∧
      t'.getNumLeaves true = t.getNumLeaves true ∧ t'.toTreeBase =
        t.toTreeBase.addLeafToCacheAndHashToRoot H.hash H.zero (encodeLeaf H p true) i := by
  have hadd : ∀ base, base = t.toTreeBase.addLeafToCacheAndHashToRoot H.hash H.zero
      (encodeLeaf H p true) i → TreeBase.SameCommitted t.toTreeBase base ∧
        base.getNumLeaves true = t.getNumLeaves true := by
    rintro base rfl
    exact TreeBase.addLeafToCacheAndHashToRoot_same t.toTreeBase (encodeLeaf H p true) i
  obtain ⟨hsame, hnum⟩ := hadd _ rfl
  have hmax : ¬i > TreeBase.maxIndex depth := by rw [TreeBase.maxIndex]; omega
  refine ⟨{ t with
    toTreeBase := t.toTreeBase.addLeafToCacheAndHashToRoot H.hash H.zero (encodeLeaf H p true) i
    cachedLeafPreimages := t.cachedLeafPreimages.set i p }, ?_, ⟨hsame, rfl, rfl⟩, rfl, hnum, rfl⟩
  simp only [updateLeaf, if_neg hmax, hnum, if_neg (not_le.2 hi)]

theorem encodeAndAppendLeaves_eq (preimages : List (Preimage Leaf)) (hash0Leaf : Bool)
    (hfits : t.getNumLeaves true + preimages.length ≤ 2 ^ depth) :
    ∃ t', t.encodeAndAppendLeaves H preimages hash0Leaf = (t', .ok ()) ∧ SameStores t t' ∧
      t'.cachedLeafPreimages.get =
        writePreimages t.cachedLeafPreimages.get (t.getNumLeaves true) preimages ∧
      t'.getNumLeaves true = t.getNumLeaves true + preimages.length ∧
      t.toTreeBase.appendLeaves H.hash H.zero (preimages.map fun p => encodeLeaf H p hash0Leaf) =
        .ok t'.toTreeBase := by
  have hlength : t.getNumLeaves true +
      (preimages.map fun p => encodeLeaf H p hash0Leaf).length ≤ 2 ^ depth := by
    rwa [length_map]
  obtain ⟨base, hbase⟩ : ∃ base, t.toTreeBase.appendLeaves H.hash H.zero
      (preimages.map fun p => encodeLeaf H p hash0Leaf) = .ok base :=
    TreeBase.appendLeaves_isOk hlength
  obtain ⟨hsame, hnum, -⟩ := TreeBase.appendLeaves_same hbase
  rw [length_map] at hnum
  refine ⟨{ t with
    toTreeBase := base
    cachedLeafPreimages := preimages.zipIdx.foldl
      (fun cached e => cached.set (t.getNumLeaves true + e.2) e.1) t.cachedLeafPreimages },
    ?_, ⟨hsame, rfl, rfl⟩, get_foldl_set _ _ _, hnum, hbase⟩
  simp only [encodeAndAppendLeaves, hbase]

/-! ### Committing and rolling back -/

theorem commitLeaves_foldl (entries : List (ℕ × Preimage Leaf)) :
    ∀ t : StandardIndexedTree Buffer Leaf depth,
      let t' := entries.foldl
        (fun t e => { t with leaves := update t.leaves e.1 (some e.2)
                             leafIndex := update t.leafIndex e.2.getKey (some e.1) }) t
      t'.toTreeBase = t.toTreeBase ∧
        ((entries.map Prod.fst).Nodup → ∀ i, t'.leaves i =
          ((entries.find? fun e => e.1 = i).map Prod.snd).or (t.leaves i)) ∧
        ∀ k, (t'.leafIndex k = t.leafIndex k ∧ ∀ e ∈ entries, e.2.getKey ≠ k) ∨
          ∃ e ∈ entries, e.2.getKey = k ∧ t'.leafIndex k = some e.1 := by
  induction entries with
  | nil => intro t; exact ⟨rfl, fun _ _ => rfl, fun k => .inl ⟨rfl, by simp⟩⟩
  | cons e entries ih =>
    intro t
    obtain ⟨hbase, hleaves, hindex⟩ := ih
      { t with leaves := update t.leaves e.1 (some e.2)
               leafIndex := update t.leafIndex e.2.getKey (some e.1) }
    refine ⟨hbase, fun hnodup i => ?_, fun k => ?_⟩
    · rw [map_cons, nodup_cons] at hnodup
      refine (hleaves hnodup.2 i).trans ?_
      rw [find?_cons]
      by_cases hi : e.1 = i
      · have hnone : entries.find? (fun e => e.1 = i) = none := by
          rw [find?_eq_none]
          intro e' he' heq
          exact hnodup.1 (mem_map.2 ⟨e', he', (of_decide_eq_true heq).trans hi.symm⟩)
        simp [hi, hnone]
      · simp [hi, update_of_ne (Ne.symm hi)]
    · rcases hindex k with ⟨hsame, hnone⟩ | ⟨e', he', hkey, hsome⟩
      · by_cases hk : e.2.getKey = k
        · exact .inr ⟨e, mem_cons_self, hk, hsame.trans (by simp [hk])⟩
        · refine .inl ⟨hsame.trans (by simp [update_of_ne (Ne.symm hk)]), ?_⟩
          exact forall_mem_cons.2 ⟨hk, hnone⟩
      · exact .inr ⟨e', mem_cons_of_mem _ he', hkey, hsome⟩

theorem leaves_commit (t : StandardIndexedTree Buffer Leaf depth) : t.commit.leaves = t.visible := by
  funext i
  obtain ⟨-, hleaves, -⟩ := commitLeaves_foldl t.cachedLeafPreimages.entries
    { t with toTreeBase := t.toTreeBase.commit }
  exact hleaves t.cachedLeafPreimages.nodup i

theorem leafIndex_commit (t : StandardIndexedTree Buffer Leaf depth) (k : ℕ) :
    (t.commit.leafIndex k = t.leafIndex k ∧
        ∀ i p, t.cachedLeafPreimages.get i = some p → p.getKey ≠ k) ∨
      ∃ i p, t.cachedLeafPreimages.get i = some p ∧ p.getKey = k ∧
        t.commit.leafIndex k = some i := by
  obtain ⟨-, -, hindex⟩ := commitLeaves_foldl t.cachedLeafPreimages.entries
    { t with toTreeBase := t.toTreeBase.commit }
  rcases hindex k with ⟨hsame, hnone⟩ | ⟨e, he, hkey, hsome⟩
  · exact .inl ⟨hsame, fun i p hp => hnone (i, p) (PropertyMap.mem_entries_iff.2 hp)⟩
  · exact .inr ⟨e.1, e.2, PropertyMap.mem_entries_iff.1 he, hkey, hsome⟩

theorem toTreeBase_commit (t : StandardIndexedTree Buffer Leaf depth) :
    t.commit.toTreeBase = t.toTreeBase.commit :=
  (commitLeaves_foldl t.cachedLeafPreimages.entries
    { t with toTreeBase := t.toTreeBase.commit }).1

theorem visible_commit (t : StandardIndexedTree Buffer Leaf depth) :
    t.commit.visible = t.visible := by
  funext i
  rw [visible_eq, leaves_commit]
  rfl

end Preimages

end StandardIndexedTree
