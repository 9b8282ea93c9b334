/-
**Batch insertion into an indexed tree, in the circuit.**

The circuit inserts a batch of values into an indexed tree of which it knows the root only.  The
prover sorts the values, and says for each of them which leaf is to point to it; the circuit checks
that leaf against the running root, lets it point to the place of the value in the subtree that is
inserted at the end, and goes on with the new root.

The kind of leaf is a parameter, as in the source: the functions of `LeafFunctions` are the lambdas
the source passes to `batch_insert`, and `ListView` is what they have to do with the linked list.
-/

import Aztec.LinkedLeaves
import Aztec.MerkleCircuit

open Function

namespace IndexedTree

open Failing Merkle Noir LinkedLeaves

/-! ### The circuit -/

@[ext] structure AppendOnlyTreeSnapshot where
  root : Field
  nextAvailableLeafIndex : ℕ
deriving DecidableEq

structure MembershipWitness (n : ℕ) where
  leafIndex : Field
  siblingPath : Vector Field n

/-- The functions `batch_insert` takes as arguments, and the zeroed leaf. -/
structure LeafFunctions (Value Leaf : Type) where
  isEqual : Value → Value → Bool
  isEmptyValue : Value → Bool
  hashLeaf : Leaf → Field
  isValidLowLeaf : Leaf → Value → Bool
  updateLowLeaf : Leaf → Value → ℕ → Leaf
  buildInsertionLeaf : Value → Leaf → Leaf
  zeroed : Leaf

/-- One turn of the loop of `check_permutation`. -/
def permutationTurn {T : Type} {n : ℕ} (originalArray sortedArray : Vector T n)
    (indexes : Vector ℕ n) (isEqual : T → T → Bool) (seenValue : Vector Bool n) (i : Fin n) :
    Circuit (Vector Bool n) := do
  let index := indexes[i]
  let sortedValue := sortedArray[i]
  let originalValue ← Noir.get originalArray index
  assert (isEqual sortedValue originalValue) "Invalid index"
  let seen ← Noir.get seenValue index
  assert (!seen) "Duplicated index"
  Noir.set seenValue index true

def checkPermutation {T : Type} {n : ℕ} (originalArray sortedArray : Vector T n)
    (indexes : Vector ℕ n) (isEqual : T → T → Bool) : Circuit Unit := do
  let _ ← (List.finRange n).foldlM (permutationTurn originalArray sortedArray indexes isEqual)
    (Vector.replicate n false)

section Circuit

variable {Value Leaf : Type} {width treeHeight : ℕ}

structure Hints (Value Leaf : Type) (width treeHeight siblingPathLength : ℕ) where
  sortedValues : Vector Value width
  sortedValuesIndexes : Vector ℕ width
  newSubtreeSiblingPath : Vector Field siblingPathLength
  lowLeafPreimages : Vector Leaf width
  lowLeafMembershipWitnesses : Vector (MembershipWitness treeHeight) width

/-- One turn of the loop of `batch_insert` over the sorted values.  The state is the running root
and the subtree to be inserted. -/
def insertTurn {siblingPathLength : ℕ} (F : LeafFunctions Value Leaf) (H : MerkleHash)
    (startInsertionIndex : ℕ) (hints : Hints Value Leaf width treeHeight siblingPathLength)
    (state : Field × Vector Leaf width) (i : Fin width) : Circuit (Field × Vector Leaf width) := do
  let value := hints.sortedValues[i]
  if F.isEmptyValue value then return state
  else do
    let lowLeafPreimage := hints.lowLeafPreimages[i]
    let witness := hints.lowLeafMembershipWitnesses[i]
    assert (F.isValidLowLeaf lowLeafPreimage value) "Invalid low leaf"
    assertCheckMembership H (F.hashLeaf lowLeafPreimage) witness.leafIndex witness.siblingPath
      state.1
    let valueIndex := hints.sortedValuesIndexes[i]
    let insertionIndex ← addU32 startInsertionIndex valueIndex
    let updatedLowLeaf := F.updateLowLeaf lowLeafPreimage value insertionIndex
    let currentTreeRoot ← rootFromSiblingPath H (F.hashLeaf updatedLowLeaf) witness.leafIndex
      witness.siblingPath
    let insertionSubtree ← Noir.set state.2 valueIndex (F.buildInsertionLeaf value lowLeafPreimage)
    return (currentTreeRoot, insertionSubtree)

def batchInsert {siblingPathLength : ℕ} (F : LeafFunctions Value Leaf) (H : MerkleHash)
    (subtreeHeight : ℕ) (startSnapshot : AppendOnlyTreeSnapshot)
    (valuesToInsert : Vector Value width)
    (hints : Hints Value Leaf width treeHeight siblingPathLength) :
    Circuit AppendOnlyTreeSnapshot := do
  checkPermutation valuesToInsert hints.sortedValues hints.sortedValuesIndexes F.isEqual
  let startInsertionIndex := startSnapshot.nextAvailableLeafIndex
  let (currentTreeRoot, insertionSubtree) ← (List.finRange width).foldlM
    (insertTurn F H startInsertionIndex hints)
    (startSnapshot.root, Vector.replicate width F.zeroed)
  let emptySubtreeRoot ← calculateEmptyTreeRoot H subtreeHeight
  let subtreeIndex := startInsertionIndex >>> subtreeHeight
  assertCheckMembership H emptySubtreeRoot subtreeIndex hints.newSubtreeSiblingPath currentTreeRoot
  let subtreeRoot ← calculateSubtree H (insertionSubtree.map F.hashLeaf)
  let newRoot ← rootFromSiblingPath H subtreeRoot subtreeIndex hints.newSubtreeSiblingPath
  let nextAvailableLeafIndex ← addU32 startInsertionIndex width
  return { root := newRoot, nextAvailableLeafIndex := nextAvailableLeafIndex }

end Circuit

/-! ### The permutation -/

section Permutation

variable {T : Type} {n : ℕ} {originalArray sortedArray : Vector T n} {indexes : Vector ℕ n}
  {isEqual : T → T → Bool}

/-- The order `indexes` of the values is a permutation that leads from one array to the other. -/
structure Permutes (originalArray sortedArray : Vector T n) (indexes : Vector ℕ n)
    (isEqual : T → T → Bool) : Prop where
  lt : ∀ i : Fin n, indexes[i] < n
  equal : ∀ i : Fin n, isEqual sortedArray[i] (originalArray.get ⟨indexes[i], lt i⟩) = true
  inj : ∀ i j : Fin n, indexes[i] = indexes[j] → i = j

def Seen (indexes : Vector ℕ n) (k : ℕ) (seenValue : Vector Bool n) : Prop :=
  ∀ m (hm : m < n), seenValue[m] = true ↔ ∃ j : Fin n, j.1 < k ∧ indexes[j] = m

theorem seen_zero (indexes : Vector ℕ n) : Seen indexes 0 (Vector.replicate n false) := by
  intro m hm
  simp

theorem Seen.set {i : Fin n} {seenValue : Vector Bool n} (h : Seen indexes i seenValue)
    (hlt : indexes[i] < n) : Seen indexes (i + 1) (seenValue.set indexes[i] true hlt) := by
  intro m hm
  rw [Vector.getElem_set]
  split
  · next heq => exact ⟨fun _ => ⟨i, i.1.lt_succ_self, heq⟩, fun _ => rfl⟩
  · next hne =>
    rw [h m hm]
    constructor
    · rintro ⟨j, hj, heq⟩; exact ⟨j, hj.trans i.1.lt_succ_self, heq⟩
    · rintro ⟨j, hj, heq⟩
      have : j ≠ i := by rintro rfl; exact hne heq
      exact ⟨j, by omega, heq⟩

theorem permutationTurn_eq_ok {seenValue seenValue' : Vector Bool n} {i : Fin n} :
    permutationTurn originalArray sortedArray indexes isEqual seenValue i = .ok seenValue' ↔
      ∃ h : indexes[i] < n, isEqual sortedArray[i] originalArray[indexes[i]] = true ∧
        seenValue[indexes[i]] = false ∧ seenValue' = seenValue.set indexes[i] true h := by
  simp only [permutationTurn, bind_eq_ok, get_eq_ok, assert_eq_ok, Bool.not_eq_true', set_eq_ok]
  constructor
  · rintro ⟨value, hvalue, -, hequal, seen, hseen, -, hnot, hlt, rfl⟩
    rw [Vector.getElem?_eq_getElem hlt, Option.some.injEq] at hvalue hseen
    exact ⟨hlt, hvalue ▸ hequal, hseen ▸ hnot, rfl⟩
  · rintro ⟨hlt, hequal, hnot, rfl⟩
    exact ⟨_, Vector.getElem?_eq_getElem hlt, (), hequal, _, Vector.getElem?_eq_getElem hlt, (),
      hnot, hlt, rfl⟩

theorem checkPermutation_eq_ok :
    checkPermutation originalArray sortedArray indexes isEqual = .ok () ↔
      Permutes originalArray sortedArray indexes isEqual := by
  simp only [checkPermutation, bind_eq_ok, pure, Except.pure, and_true]
  constructor
  · rintro ⟨seenValue, hloop⟩
    -- the first `k` indexes are in range, lead to equal values and differ from one another
    obtain ⟨-, hall⟩ := foldlM_finRange_invariant (fun k seenValue => Seen indexes k seenValue ∧
        ∀ i : Fin n, i.1 < k → (∃ h : indexes[i] < n,
          isEqual sortedArray[i] originalArray[indexes[i]] = true) ∧
          ∀ j : Fin n, j.1 < i.1 → indexes[j] ≠ indexes[i])
      ⟨seen_zero indexes, fun i hi => absurd hi (Nat.not_lt_zero _)⟩ (by
        rintro i seen seen' ⟨hseen, hbefore⟩ hturn
        obtain ⟨hlt, hequal, hnot, rfl⟩ := permutationTurn_eq_ok.1 hturn
        refine ⟨hseen.set hlt, fun i' hi' => ?_⟩
        rcases Nat.lt_succ_iff_lt_or_eq.1 hi' with hi' | hi'
        · exact hbefore i' hi'
        · obtain rfl : i' = i := Fin.ext hi'
          refine ⟨⟨hlt, hequal⟩, fun j hj heq => ?_⟩
          rw [(hseen _ hlt).2 ⟨j, hj, heq⟩] at hnot
          cases hnot) hloop
    refine ⟨fun i => (hall i i.2).1.1, fun i => (hall i i.2).1.2, fun i j heq => ?_⟩
    rcases lt_trichotomy i j with hlt | rfl | hgt
    · exact absurd heq ((hall j j.2).2 i hlt)
    · rfl
    · exact absurd heq.symm ((hall i i.2).2 j hgt)
  · intro h
    obtain ⟨seenValue, hloop, -⟩ := foldlM_finRange_total (Seen indexes) (seen_zero indexes)
      fun i seen hseen => by
        refine ⟨_, permutationTurn_eq_ok.2 ⟨h.lt i, h.equal i, ?_, rfl⟩, hseen.set (h.lt i)⟩
        rw [Bool.eq_false_iff, ne_eq, hseen _ (h.lt i)]
        rintro ⟨j, hj, heq⟩
        rw [h.inj j i heq] at hj
        exact lt_irrefl _ hj
    exact ⟨seenValue, hloop⟩

theorem Permutes.perm (h : Permutes originalArray sortedArray indexes isEqual)
    (heq : ∀ {v w}, isEqual v w = true ↔ v = w) : sortedArray.toList.Perm originalArray.toList := by
  have hbij : Function.Bijective fun i : Fin n => (⟨indexes[i], h.lt i⟩ : Fin n) :=
    Finite.injective_iff_bijective.1 fun i j hij => h.inj i j (Fin.mk.inj hij)
  have hlist : ∀ a : Vector T n, a.toList = List.ofFn fun i : Fin n => a[i] := fun a => by
    apply List.ext_getElem <;> simp
  rw [hlist, hlist, ← funext_iff.2 fun i => (heq.1 (h.equal i)).symm]
  exact Equiv.Perm.ofFn_comp_perm (Equiv.ofBijective _ hbij) fun i => originalArray[i]

end Permutation

/-! ### Leaves and the list they form -/

/-- The leaves a root commits to: there is none outside the tree. -/
structure Commits {Value Leaf : Type} (F : LeafFunctions Value Leaf) (H : MerkleHash)
    (treeHeight : ℕ) (root : Field) (leaves : ℕ → Leaf) : Prop where
  root_eq : root = node H.merkleHash (F.hashLeaf ∘ leaves) treeHeight 0
  inside : ∀ i, 2 ^ treeHeight ≤ i → leaves i = F.zeroed

theorem Commits.unique {Value Leaf : Type} {F : LeafFunctions Value Leaf} {H : MerkleHash}
    (hH : Function.Injective2 H.merkleHash) (hF : Function.Injective F.hashLeaf) {treeHeight : ℕ}
    {root : Field} {leaves leaves' : ℕ → Leaf} (h : Commits F H treeHeight root leaves)
    (h' : Commits F H treeHeight root leaves') : leaves = leaves' := by
  funext j
  rcases Nat.lt_or_ge j (2 ^ treeHeight) with hj | hj
  · exact hF (leaf_eq_of_node_eq hH (h.root_eq.symm.trans h'.root_eq) (Nat.div_eq_of_lt hj))
  · rw [h.inside j hj, h'.inside j hj]

/-- The part the leaves play in a linked list: their cells and data, the keys and data of the
values, and what the functions of the circuit do to them.  A value is linked in behind a leaf in
whose gap its key lies or, where the tree allows for it, written to the leaf that has its key. -/
structure ListView {Value Leaf : Type} (F : LeafFunctions Value Leaf) (δ : Type) extends
    Layout Leaf ℕ δ where
  key : Value → ℕ
  datum : Value → δ
  updatable : Prop
  absent_iff : ∀ {leaf}, absent leaf = true ↔ leaf = empty
  zeroed_eq : F.zeroed = empty
  hashLeaf_zeroed : F.hashLeaf F.zeroed = 0
  isEqual_iff : ∀ {v w}, F.isEqual v w = true ↔ v = w
  isValidLowLeaf_iff : ∀ {low v}, F.isValidLowLeaf low v = true ↔
    low ≠ empty ∧ (InGap (cell low) (key v) ∨ updatable ∧ (cell low).key = key v)
  linkLow : ∀ {low v} j, InGap (cell low) (key v) →
    cell (F.updateLowLeaf low v j) = (cell low).pointingTo (key v) j ∧
      payload (F.updateLowLeaf low v j) = payload low
  linkNew : ∀ {low v}, InGap (cell low) (key v) →
    cell (F.buildInsertionLeaf v low) = (cell low).withKey (key v) ∧
      payload (F.buildInsertionLeaf v low) = datum v
  writeLow : ∀ {low v} j, updatable → (cell low).key = key v →
    cell (F.updateLowLeaf low v j) = cell low ∧ payload (F.updateLowLeaf low v j) = datum v
  writeLow_ne : ∀ {low v} j, updatable → low ≠ empty → F.isEmptyValue v = false →
    (cell low).key = key v → F.updateLowLeaf low v j ≠ empty
  writeNew : ∀ {low v}, updatable → (cell low).key = key v → F.buildInsertionLeaf v low = empty

section Writes

variable {δ : Type}

def lastWrite (ws : List (ℕ × δ)) (k : ℕ) : Option δ :=
  (ws.filter (fun w => w.1 = k)).getLast?.map Prod.snd

/-- What is stored under a key after the writes `ws`: the last value written, or else what was
stored before. -/
def WritesTo (old : ℕ → δ → Prop) (ws : List (ℕ × δ)) (k : ℕ) (p : δ) : Prop :=
  match lastWrite ws k with
  | some q => p = q
  | none => old k p

theorem lastWrite_concat (ws : List (ℕ × δ)) (w : ℕ × δ) (k : ℕ) :
    lastWrite (ws ++ [w]) k = if k = w.1 then some w.2 else lastWrite ws k := by
  by_cases h : w.1 = k
  · simp [lastWrite, h]
  · simp [lastWrite, h, Ne.symm h]

theorem lastWrite_eq_none {ws : List (ℕ × δ)} {k : ℕ} :
    lastWrite ws k = none ↔ k ∉ ws.map Prod.fst := by
  simp only [lastWrite, Option.map_eq_none_iff, List.getLast?_eq_none_iff, List.filter_eq_nil_iff,
    decide_eq_true_eq, List.mem_map, not_exists, not_and]

@[simp] theorem writesTo_nil (old : ℕ → δ → Prop) (k : ℕ) (p : δ) :
    WritesTo old [] k p ↔ old k p := Iff.rfl

theorem writesTo_concat (old : ℕ → δ → Prop) (ws : List (ℕ × δ)) (w : ℕ × δ) (k : ℕ) (p : δ) :
    WritesTo old (ws ++ [w]) k p ↔ (k = w.1 ∧ p = w.2) ∨ (k ≠ w.1 ∧ WritesTo old ws k p) := by
  by_cases h : k = w.1 <;> simp [WritesTo, lastWrite_concat, h]

theorem exists_writesTo {old : ℕ → δ → Prop} {ws : List (ℕ × δ)} {k : ℕ} :
    (∃ p, WritesTo old ws k p) ↔ (∃ p, old k p) ∨ k ∈ ws.map Prod.fst := by
  unfold WritesTo
  cases h : lastWrite ws k with
  | none => simp [lastWrite_eq_none.1 h]
  | some q =>
    have : k ∈ ws.map Prod.fst := by
      by_contra hnot
      rw [lastWrite_eq_none.2 hnot] at h
      cases h
    simp [this]

end Writes

/-! ### One turn of the loop -/

section Turn

variable {Value Leaf δ : Type} {F : LeafFunctions Value Leaf} {H : MerkleHash}
  {width treeHeight siblingPathLength start : ℕ}
  {hints : Hints Value Leaf width treeHeight siblingPathLength}
  {state state' : Field × Vector Leaf width} {leaves : ℕ → Leaf} {i : Fin width}

theorem rootFromSiblingPath_update {index : Field} {leaf : Leaf}
    {siblingPath : Vector Field treeHeight} (hlt : index < 2 ^ treeHeight)
    (hpath : siblingPath.toList = siblings H.merkleHash (F.hashLeaf ∘ leaves) 0 index treeHeight) :
    rootFromSiblingPath H (F.hashLeaf leaf) index siblingPath =
      .ok (node H.merkleHash (F.hashLeaf ∘ update leaves index leaf) treeHeight 0) := by
  rw [rootFromSiblingPath_eq_ok, hpath, climb_update, Nat.div_eq_of_lt hlt, comp_update]
  exact ⟨hlt, rfl⟩

/-- **What an accepted turn does.**  Either the value is empty and the turn is skipped, or the
prover has named a leaf of the tree, which is updated, and the new leaf is put into the subtree. -/
theorem insertTurn_inv (hH : Function.Injective2 H.merkleHash) (hF : Function.Injective F.hashLeaf)
    (hroot : state.1 = node H.merkleHash (F.hashLeaf ∘ leaves) treeHeight 0)
    (hturn : insertTurn F H start hints state i = .ok state') :
    (F.isEmptyValue hints.sortedValues[i] = true ∧ state' = state) ∨
      (F.isEmptyValue hints.sortedValues[i] = false ∧ ∃ index < 2 ^ treeHeight,
        F.isValidLowLeaf (leaves index) hints.sortedValues[i] = true ∧
        ∃ h : hints.sortedValuesIndexes[i] < width,
          state'.1 = node H.merkleHash (F.hashLeaf ∘ update leaves index
            (F.updateLowLeaf (leaves index) hints.sortedValues[i]
              (start + hints.sortedValuesIndexes[i]))) treeHeight 0 ∧
          state'.2 = state.2.set hints.sortedValuesIndexes[i]
            (F.buildInsertionLeaf hints.sortedValues[i] (leaves index)) h) := by
  unfold insertTurn at hturn
  simp only at hturn
  split at hturn
  · next hempty =>
    simp only [pure_eq_ok] at hturn
    exact .inl ⟨hempty, hturn.symm⟩
  · next hne =>
    simp only [bind_eq_ok, assert_eq_ok, addU32_eq_ok, set_eq_ok, pure_eq_ok] at hturn
    obtain ⟨-, hvalid, u, hmember, _, ⟨-, rfl⟩, root, hnew, subtree, ⟨hlt, rfl⟩, rfl⟩ := hturn
    rw [hroot] at hmember
    obtain ⟨hindex, hleaf, hpath⟩ := assertCheckMembership_inv (h := 0) hH
      (by rw [Nat.zero_add]; exact hmember)
    have hlow := hF hleaf
    rw [rootFromSiblingPath_update hindex hpath, Except.ok.injEq] at hnew
    rw [hlow] at hvalid hnew
    refine .inr ⟨by simpa using hne, _, hindex, hvalid, hlt, ?_, ?_⟩
    · rw [← hnew]
    · rw [hlow]

end Turn

/-! ### The loop -/

section Loop

variable {Value Leaf δ : Type} {F : LeafFunctions Value Leaf} {H : MerkleHash}
  {h b k treeHeight siblingPathLength : ℕ} {empty : Leaf} {subtree : Vector Leaf (2 ^ h)}
  {leaves : ℕ → Leaf}

/-- The writes a list of values stands for; an empty value is none. -/
def ListView.writes (V : ListView F δ) (values : List Value) : List (ℕ × δ) :=
  (values.filter fun v => !F.isEmptyValue v).map fun v => (V.key v, V.datum v)

theorem ListView.writes_concat (V : ListView F δ) (values : List Value) (v : Value) :
    V.writes (values ++ [v]) =
      V.writes values ++ if F.isEmptyValue v then [] else [(V.key v, V.datum v)] := by
  cases hv : F.isEmptyValue v <;> simp [writes, hv]

/-- The leaves of the tree once the subtree is in place, as block `b`. -/
def withSubtree (empty : Leaf) (leaves : ℕ → Leaf) (b : ℕ) (subtree : Vector Leaf (2 ^ h)) :
    ℕ → Leaf :=
  graft leaves (fun j => (subtree[j - b * 2 ^ h]?).getD empty) h b

theorem withSubtree_of_ne {j : ℕ} (hj : j / 2 ^ h ≠ b) :
    withSubtree empty leaves b subtree j = leaves j := graft_of_ne hj

variable {m idx : ℕ} {low : Leaf} {v : Value} {root : Field}

theorem withSubtree_place (hm : m < 2 ^ h) :
    withSubtree empty leaves b subtree (b * 2 ^ h + m) = subtree[m] := by
  have hdiv : (b * 2 ^ h + m) / 2 ^ h = b :=
    div_of_block (by omega) (by rw [Nat.add_mul]; omega)
  rw [withSubtree, graft_of_eq hdiv, Nat.add_sub_cancel_left, Vector.getElem?_eq_getElem hm]
  rfl

theorem withSubtree_replicate (hblock : ∀ j, j / 2 ^ h = b → leaves j = empty) :
    withSubtree empty leaves b (Vector.replicate (2 ^ h) empty) = leaves := by
  funext j
  by_cases hj : j / 2 ^ h = b
  · obtain ⟨hge, hlt⟩ := div_eq_iff_block.1 hj
    obtain ⟨m, rfl⟩ := Nat.exists_eq_add_of_le hge
    rw [Nat.add_mul] at hlt
    rw [withSubtree_place (by omega), Vector.getElem_replicate, hblock _ hj]
  · rw [withSubtree_of_ne hj]

theorem withSubtree_update (hidx : idx / 2 ^ h ≠ b) :
    withSubtree empty (update leaves idx low) b subtree =
      update (withSubtree empty leaves b subtree) idx low := by
  funext j
  by_cases hj : j / 2 ^ h = b
  · have hne : j ≠ idx := by rintro rfl; exact hidx hj
    rw [update_of_ne hne, withSubtree, withSubtree, graft_of_eq hj, graft_of_eq hj]
  · rw [withSubtree_of_ne hj, update_apply, update_apply, withSubtree_of_ne hj]

theorem withSubtree_set {new : Leaf} (hm : m < 2 ^ h) :
    withSubtree empty leaves b (subtree.set m new hm) =
      update (withSubtree empty leaves b subtree) (b * 2 ^ h + m) new := by
  have hdiv : (b * 2 ^ h + m) / 2 ^ h = b :=
    div_of_block (by omega) (by rw [Nat.add_mul]; omega)
  funext j
  by_cases hj : j / 2 ^ h = b
  · obtain ⟨hge, hlt⟩ := div_eq_iff_block.1 hj
    obtain ⟨n, rfl⟩ := Nat.exists_eq_add_of_le hge
    rw [Nat.add_mul] at hlt
    have hn : n < 2 ^ h := by omega
    rw [withSubtree_place hn, Vector.getElem_set, update_apply, withSubtree_place hn]
    by_cases hmn : m = n
    · simp [hmn]
    · simp [hmn, Ne.symm hmn]
  · have hne : j ≠ b * 2 ^ h + m := by rintro rfl; exact hj hdiv
    rw [withSubtree_of_ne hj, update_of_ne hne, withSubtree_of_ne hj]

theorem ListView.absent_of_ne (V : ListView F δ) {leaf : Leaf} (h : leaf ≠ V.empty) :
    V.absent leaf = false := by
  rwa [← Bool.not_eq_true, V.absent_iff]

theorem ListView.isCell_iff (V : ListView F δ) {leaves : ℕ → Leaf} {i : ℕ} :
    V.IsCell leaves i ↔ i = 0 ∨ leaves i ≠ V.empty := by
  rw [Layout.IsCell, ← Bool.not_eq_true, V.absent_iff]

theorem ListView.updateLowLeaf_ne (V : ListView F δ) (j : ℕ) (hvalue : F.isEmptyValue v = false)
    (hvalid : F.isValidLowLeaf low v = true) : F.updateLowLeaf low v j ≠ V.empty := by
  obtain ⟨hne, hgap | ⟨hupd, hkey⟩⟩ := V.isValidLowLeaf_iff.1 hvalid
  · refine Layout.ne_empty (.inr ?_)
    rw [(V.linkLow j hgap).1, Cell.nextKey_pointingTo]
    exact (lt_of_le_of_lt bot_le hgap.1).ne'
  · exact V.writeLow_ne j hupd hne hvalue hkey

theorem root_withSubtree {n : ℕ} {siblingPath : Vector Field n} (hb : b < 2 ^ n)
    (hpath : siblingPath.toList = siblings H.merkleHash (F.hashLeaf ∘ leaves) h b n)
    (hsubtree : calculateSubtree H (subtree.map F.hashLeaf) = .ok root) :
    rootFromSiblingPath H root b siblingPath =
      .ok (node H.merkleHash (F.hashLeaf ∘ withSubtree empty leaves b subtree) (h + n) 0) := by
  cases h with
  | zero => exact absurd hsubtree calculateSubtree_one
  | succ h =>
    set g : ℕ → Field := fun j => F.hashLeaf ((subtree[j - b * 2 ^ (h + 1)]?).getD empty) with hg
    have hleaves : ∀ i < 2 ^ (h + 1), (subtree.map F.hashLeaf)[i]? =
        some (g (b * 2 ^ (h + 1) + i)) := fun i hi => by
      simp [hg, Vector.getElem?_eq_getElem hi]
    rw [calculateSubtree_eq (f := fun i => g (b * 2 ^ (h + 1) + i)) hleaves,
      Except.ok.injEq] at hsubtree
    have hblock : root = node H.merkleHash g (h + 1) b := by
      rw [← hsubtree]
      exact node_congr_block fun k _ => by simp
    rw [hblock, rootFromSiblingPath_graft hb hpath]
    congr 2
    funext j
    by_cases hj : j / 2 ^ (h + 1) = b
    · rw [graft_of_eq hj, comp_apply, withSubtree, graft_of_eq hj]
    · rw [graft_of_ne hj, comp_apply, comp_apply, withSubtree_of_ne hj]

/-- **The invariant of the loop** after `k` turns: the running leaves together with the subtree
form a linked list, which stores what the values gone through write. -/
structure LoopInv (V : ListView F δ) (leaves₀ : ℕ → Leaf)
    (hints : Hints Value Leaf (2 ^ h) treeHeight siblingPathLength) (b k : ℕ) (leaves : ℕ → Leaf)
    (subtree : Vector Leaf (2 ^ h)) : Prop where
  linked : Linked (V.table (withSubtree V.empty leaves b subtree))
  stores : ∀ key p, V.Stores (withSubtree V.empty leaves b subtree) key p ↔
    WritesTo (V.Stores leaves₀) (V.writes (hints.sortedValues.toList.take k)) key p
  unused : ∀ m (hm : m < 2 ^ h), (∀ j : Fin (2 ^ h), j.1 < k → hints.sortedValuesIndexes[j] ≠ m) →
    subtree[m] = V.empty
  new : ¬V.updatable →
    ((V.writes (hints.sortedValues.toList.take k)).map Prod.fst).Nodup ∧
      ∀ key ∈ (V.writes (hints.sortedValues.toList.take k)).map Prod.fst,
        key ∉ keys (V.table leaves₀)

variable {V : ListView F δ} {leaves₀ : ℕ → Leaf}
  {hints : Hints Value Leaf (2 ^ h) treeHeight siblingPathLength} {i : Fin (2 ^ h)}

theorem loopInv_zero (hlinked : Linked (V.table leaves))
    (hblock : ∀ j, j / 2 ^ h = b → leaves j = V.empty) :
    LoopInv V leaves hints b 0 leaves (Vector.replicate (2 ^ h) V.empty) := by
  have hsame := withSubtree_replicate hblock
  refine ⟨by rwa [hsame], fun key p => ?_, fun m hm _ => by simp, fun _ => ?_⟩
  · rw [hsame, List.take_zero]
    exact (writesTo_nil _ _ _).symm
  · simp [ListView.writes]

theorem take_succ_sortedValues (values : Vector Value (2 ^ h)) (i : Fin (2 ^ h)) :
    values.toList.take (i + 1) = values.toList.take i ++ [values[i]] := by
  rw [List.take_add_one, Vector.getElem?_toList, Vector.getElem?_eq_getElem i.2]
  rfl

theorem LoopInv.skip (hinv : LoopInv V leaves₀ hints b i leaves subtree)
    (hempty : F.isEmptyValue hints.sortedValues[i] = true) :
    LoopInv V leaves₀ hints b (i + 1) leaves subtree := by
  have hwrites : V.writes (hints.sortedValues.toList.take (i + 1)) =
      V.writes (hints.sortedValues.toList.take i) := by
    rw [take_succ_sortedValues, V.writes_concat, hempty]
    simp
  refine ⟨hinv.linked, hwrites ▸ hinv.stores, fun m hm hj => ?_, hwrites ▸ hinv.new⟩
  exact hinv.unused m hm fun j hlt => hj j (hlt.trans i.1.lt_succ_self)

theorem LoopInv.place_ne_zero (hinv : LoopInv V leaves₀ hints b k leaves subtree)
    (hidx : idx / 2 ^ h ≠ b) (hne : leaves idx ≠ V.empty) (hm : m < 2 ^ h)
    (hfree : subtree[m] = V.empty) : b * 2 ^ h + m ≠ 0 := by
  intro hzero
  have hplace : withSubtree V.empty leaves b subtree (b * 2 ^ h + m) = _ := withSubtree_place hm
  rw [hzero, hfree] at hplace
  have hhead : V.table (withSubtree V.empty leaves b subtree) 0 = some ⟨⊥, ⊥, 0⟩ := by
    rw [Layout.table_of_isCell Layout.isCell_zero, hplace, V.cell_empty]
  have hlow : withSubtree V.empty leaves b subtree idx ≠ V.empty := by
    rwa [withSubtree_of_ne hidx]
  have hcell : V.IsCell (withSubtree V.empty leaves b subtree) idx := .inr (V.absent_of_ne hlow)
  obtain rfl := hinv.linked.eq_zero_of_head hhead ⟨rfl, rfl⟩ (Layout.table_of_isCell hcell)
  exact hlow hplace

theorem LoopInv.step (hinv : LoopInv V leaves₀ hints b i leaves subtree)
    (hv : hints.sortedValues[i] = v) (hm : hints.sortedValuesIndexes[i] = m)
    (hinj : ∀ j, hints.sortedValuesIndexes[j] = m → j = i) (hlt : m < 2 ^ h)
    (hvalue : F.isEmptyValue v = false) (hidx : idx / 2 ^ h ≠ b)
    (hvalid : F.isValidLowLeaf (leaves idx) v = true) : LoopInv V leaves₀ hints b (i + 1)
      (update leaves idx (F.updateLowLeaf (leaves idx) v (b * 2 ^ h + m)))
      (subtree.set m (F.buildInsertionLeaf v (leaves idx)) hlt) := by
  have hfree : subtree[m] = V.empty := hinv.unused m hlt fun j hj heq =>
    absurd (hinj j heq) (by rintro rfl; exact lt_irrefl _ hj)
  have hwrites : V.writes (hints.sortedValues.toList.take (i + 1)) =
      V.writes (hints.sortedValues.toList.take i) ++ [(V.key v, V.datum v)] := by
    rw [take_succ_sortedValues, V.writes_concat, hv, hvalue]
    simp
  have hunused : ∀ new n (hn : n < 2 ^ h),
      (∀ j : Fin (2 ^ h), j.1 < i + 1 → hints.sortedValuesIndexes[j] ≠ n) →
      (subtree.set m new hlt)[n] = V.empty := fun new n hn hj => by
    rw [Vector.getElem_set_ne _ _ (hm ▸ hj i i.1.lt_succ_self)]
    exact hinv.unused n hn fun j hji => hj j (hji.trans i.1.lt_succ_self)
  set W := withSubtree V.empty leaves b subtree with hW
  have hbefore : Linked (V.table W) := hinv.linked
  have hstored : ∀ key p, V.Stores W key p ↔ _ := hinv.stores
  have hlow : W idx = leaves idx := withSubtree_of_ne hidx
  have hplace : W (b * 2 ^ h + m) = V.empty := by rw [hW, withSubtree_place hlt, hfree]
  obtain ⟨hne, hcase⟩ := V.isValidLowLeaf_iff.1 hvalid
  have hcellLow : V.IsCell W idx := .inr (V.absent_of_ne (hlow.trans_ne hne))
  have hupdate : ∀ low new, withSubtree V.empty (update leaves idx low) b
      (subtree.set m new hlt) = update (update W idx low) (b * 2 ^ h + m) new :=
    fun low new => by rw [withSubtree_set, withSubtree_update hidx]
  rcases hcase with hgap | ⟨hupd, hkey⟩
  · -- the key is new, and the leaf is linked in behind the low leaf
    obtain ⟨hcell, hkeep⟩ := V.linkLow (b * 2 ^ h + m) hgap
    obtain ⟨hcellNew, hdatum⟩ := V.linkNew hgap
    rw [← hlow] at hgap hcellNew
    have hnewKey : (V.cell (F.buildInsertionLeaf v (W idx))).key ≠ ⊥ := by
      rw [hcellNew, Cell.key_withKey]
      exact (lt_of_le_of_lt bot_le hgap.1).ne'
    obtain ⟨hlinked, hstores⟩ := Layout.link hbefore hcellLow
      (hinv.place_ne_zero hidx hne hlt hfree) (V.absent_iff.2 hplace) hgap (by rw [hcell, hlow])
      (.inr (V.absent_of_ne (V.updateLowLeaf_ne _ hvalue hvalid))) (by rw [hkeep, hlow]) hcellNew
      (V.absent_of_ne (Layout.ne_empty (.inl hnewKey)))
    have hfresh := hbefore.notMem_of_inGap (Layout.table_of_isCell hcellLow) hgap
    rw [Layout.mem_keys_iff_stores] at hfresh
    simp only [hstored] at hfresh
    rw [exists_writesTo, not_or] at hfresh
    rw [hlow] at hlinked hstores
    refine ⟨by rwa [hupdate], fun key p => ?_, hunused _, fun hnot => ?_⟩
    · rw [hupdate, hstores, hwrites, writesTo_concat, hstored, hdatum]
    · obtain ⟨hnodup, hdisj⟩ := hinv.new hnot
      rw [hwrites, List.map_append, List.map_singleton]
      refine ⟨List.nodup_append'.2 ⟨hnodup, List.nodup_singleton _, ?_⟩, fun key hmem => ?_⟩
      · simpa using hfresh.2
      · rcases List.mem_append.1 hmem with hmem | hmem
        · exact hdisj key hmem
        · rw [List.mem_singleton.1 hmem, Layout.mem_keys_iff_stores]
          exact hfresh.1
  · -- the leaf with this key is written to, and the subtree stays as it is
    obtain ⟨hcell, hdatum⟩ := V.writeLow (b * 2 ^ h + m) hupd hkey
    obtain ⟨htable, hstores⟩ := Layout.overwrite hbefore hcellLow (by rw [hcell, hlow])
      (.inr (V.absent_of_ne (V.updateLowLeaf_ne _ hvalue hvalid)))
    have hsame : withSubtree V.empty
        (update leaves idx (F.updateLowLeaf (leaves idx) v (b * 2 ^ h + m))) b
        (subtree.set m (F.buildInsertionLeaf v (leaves idx)) hlt) =
        update W idx (F.updateLowLeaf (leaves idx) v (b * 2 ^ h + m)) := by
      have hother : b * 2 ^ h + m ≠ idx := by
        rintro rfl
        exact hidx (div_of_block (by omega) (by rw [Nat.add_mul]; omega))
      rw [hupdate, V.writeNew hupd hkey]
      refine update_eq_self_iff.2 ?_
      rw [update_of_ne hother, hplace]
    refine ⟨by rwa [hsame, htable], fun key p => ?_, hunused _, fun hnot => absurd hupd hnot⟩
    rw [hsame, hwrites, writesTo_concat, ← hstored, hstores, hlow, hkey, hdatum]

/-- What the loop leaves behind: leaves for the running root, of which those that were empty still
are, and, as long as the place of the subtree is empty, the invariant. -/
structure LoopResult (V : ListView F δ) (H : MerkleHash) (leaves₀ : ℕ → Leaf)
    (hints : Hints Value Leaf (2 ^ h) treeHeight siblingPathLength) (b k : ℕ)
    (state : Field × Vector Leaf (2 ^ h)) (leaves : ℕ → Leaf) : Prop where
  root_eq : state.1 = node H.merkleHash (F.hashLeaf ∘ leaves) treeHeight 0
  empties : ∀ j, leaves₀ j = V.empty → leaves j = V.empty
  inv : (∀ j, j / 2 ^ h = b → leaves j = V.empty) →
    LoopInv V leaves₀ hints b k leaves state.2

section

variable (hH : Function.Injective2 H.merkleHash) (hF : Function.Injective F.hashLeaf)
include hH hF

theorem LoopResult.turn {state state' : Field × Vector Leaf (2 ^ h)}
    (hinj : ∀ j, hints.sortedValuesIndexes[j] = hints.sortedValuesIndexes[i] → j = i)
    (hresult : LoopResult V H leaves₀ hints b i state leaves)
    (hturn : insertTurn F H (b * 2 ^ h) hints state i = .ok state') :
    ∃ leaves', LoopResult V H leaves₀ hints b (i + 1) state' leaves' := by
  rcases insertTurn_inv hH hF hresult.root_eq hturn with
    ⟨hempty, rfl⟩ | ⟨hvalue, idx, hidx, hvalid, hlt, hroot, hsubtree⟩
  · exact ⟨leaves, hresult.root_eq, hresult.empties, fun hblock => (hresult.inv hblock).skip hempty⟩
  · have hne := V.updateLowLeaf_ne (b * 2 ^ h + hints.sortedValuesIndexes[i]) hvalue hvalid
    have hlow := (V.isValidLowLeaf_iff.1 hvalid).1
    refine ⟨_, hroot, fun j hj => ?_, fun hblock => ?_⟩
    · have hji : j ≠ idx := by rintro rfl; exact hlow (hresult.empties j hj)
      rw [update_of_ne hji, hresult.empties j hj]
    · -- the updated leaf is not empty, so it is not in the place of the subtree
      have hout : idx / 2 ^ h ≠ b := fun hin => hne (by simpa using hblock idx hin)
      have hblock' : ∀ j, j / 2 ^ h = b → leaves j = V.empty := fun j hj => by
        have hji : j ≠ idx := by rintro rfl; exact hout hj
        simpa [hji] using hblock j hj
      rw [hsubtree]
      exact (hresult.inv hblock').step rfl rfl hinj hlt hvalue hout hvalid

theorem loopResult (hinj : ∀ i j : Fin (2 ^ h),
      hints.sortedValuesIndexes[i] = hints.sortedValuesIndexes[j] → i = j)
    {root : Field} (hroot : root = node H.merkleHash (F.hashLeaf ∘ leaves) treeHeight 0)
    (hlinked : Linked (V.table leaves)) {state : Field × Vector Leaf (2 ^ h)}
    (hloop : (List.finRange (2 ^ h)).foldlM (insertTurn F H (b * 2 ^ h) hints)
      (root, Vector.replicate (2 ^ h) F.zeroed) = .ok state) :
    ∃ leaves', LoopResult V H leaves hints b (2 ^ h) state leaves' := by
  refine foldlM_finRange_invariant
    (fun k state => ∃ leaves', LoopResult V H leaves hints b k state leaves')
    ⟨leaves, hroot, fun _ => id, fun hblock => ?_⟩ ?_ hloop
  · rw [V.zeroed_eq]
    exact loopInv_zero hlinked hblock
  · rintro i s s' ⟨leaves', hresult⟩ hturn
    exact hresult.turn hH hF (fun j => hinj j i) hturn

end

end Loop

/-! ### The whole batch -/

section Batch

variable {Value Leaf δ : Type} {F : LeafFunctions Value Leaf} {H : MerkleHash}
  {h n : ℕ} {values : Vector Value (2 ^ h)} {hints : Hints Value Leaf (2 ^ h) (h + n) n}
  {leaves : ℕ → Leaf} {start finish : AppendOnlyTreeSnapshot}

/-- **Soundness of `batch_insert`.**  Let the hashes be injective, let the root commit to leaves
that form a linked list, and let the place of the subtree be aligned.  Whatever the hints, if the
batch is accepted, then the sorted values are a permutation of the values; the new root commits to
leaves that form a linked list and store what the sorted values write, one after the other; in a
tree that is not updatable all of them have new keys; and the place of the batch was empty. -/
theorem batchInsert_sound (V : ListView F δ) (hH : Function.Injective2 H.merkleHash)
    (hF : Function.Injective F.hashLeaf) (hcommits : Commits F H (h + n) start.root leaves)
    (hlinked : Linked (V.table leaves)) (haligned : 2 ^ h ∣ start.nextAvailableLeafIndex)
    (haccepted : batchInsert F H h start values hints = .ok finish) :
    finish.nextAvailableLeafIndex = start.nextAvailableLeafIndex + 2 ^ h ∧
      Permutes values hints.sortedValues hints.sortedValuesIndexes F.isEqual ∧
      (¬V.updatable → ((V.writes hints.sortedValues.toList).map Prod.fst).Nodup ∧
        ∀ key ∈ (V.writes hints.sortedValues.toList).map Prod.fst, key ∉ keys (V.table leaves)) ∧
      ∃ leaves', Commits F H (h + n) finish.root leaves' ∧ Linked (V.table leaves') ∧
        (∀ key p, V.Stores leaves' key p ↔
          WritesTo (V.Stores leaves) (V.writes hints.sortedValues.toList) key p) ∧
        ∀ j, leaves j = V.empty → j < start.nextAvailableLeafIndex ∨
          start.nextAvailableLeafIndex + 2 ^ h ≤ j → leaves' j = V.empty := by
  obtain ⟨b, hb⟩ := haligned
  rw [Nat.mul_comm] at hb
  simp only [batchInsert, bind_eq_ok, hb, Nat.shiftRight_eq_div_pow,
    Nat.mul_div_cancel _ (show 0 < 2 ^ h by positivity), calculateEmptyTreeRoot_eq_ok, addU32_eq_ok,
    pure_eq_ok] at haccepted
  obtain ⟨_, hperm, ⟨root, subtree⟩, hloop, _, ⟨-, rfl⟩, _, hmember, subtreeRoot, hsubtree, newRoot,
    hnewRoot, _, ⟨-, rfl⟩, rfl⟩ := haccepted
  have hperm := checkPermutation_eq_ok.1 hperm
  obtain ⟨leaves', hresult⟩ := loopResult (V := V) hH hF hperm.inj hcommits.root_eq hlinked hloop
  simp only at hmember hsubtree
  rw [show root = _ from hresult.root_eq] at hmember
  obtain ⟨hlt, hzero, hpath⟩ := assertCheckMembership_inv hH hmember
  -- the prover has shown that the place of the subtree is empty
  have hblock : ∀ j, j / 2 ^ h = b → leaves' j = V.empty := fun j hj => by
    have : F.hashLeaf (leaves' j) = 0 := eq_of_node_eq_zeroNode hH hzero.symm hj
    rw [← V.zeroed_eq]
    exact hF (this.trans V.hashLeaf_zeroed.symm)
  have hinv := hresult.inv hblock
  have hall : hints.sortedValues.toList.take (2 ^ h) = hints.sortedValues.toList :=
    List.take_of_length_le (by simp)
  have hnew := hinv.new
  have hstores := hinv.stores
  rw [hall] at hnew hstores
  have hroot : rootFromSiblingPath H _ b _ =
      .ok (node H.merkleHash (F.hashLeaf ∘ withSubtree V.empty leaves' b subtree) (h + n) 0) :=
    root_withSubtree hlt hpath hsubtree
  rw [hroot, Except.ok.injEq] at hnewRoot
  have houter : ∀ j, leaves j = V.empty → j / 2 ^ h ≠ b →
      withSubtree V.empty leaves' b subtree j = V.empty := fun j hj hne => by
    rw [withSubtree_of_ne hne, hresult.empties j hj]
  refine ⟨by rw [hb], hperm, hnew, _, ⟨hnewRoot.symm, fun j hj => ?_⟩, hinv.linked, hstores, ?_⟩
  · rw [V.zeroed_eq]
    refine houter j (by rw [← V.zeroed_eq]; exact hcommits.inside j hj) ?_
    have hge : 2 ^ n ≤ j / 2 ^ h := by
      rw [Nat.le_div_iff_mul_le (by positivity), ← pow_add, Nat.add_comm]; exact hj
    exact (hlt.trans_le hge).ne'
  · intro j hj hout
    refine houter j hj fun hin => ?_
    obtain ⟨hge, hlt⟩ := div_eq_iff_block.1 hin
    rw [Nat.add_mul, Nat.one_mul] at hlt
    rw [hb] at hout
    omega

end Batch

end IndexedTree
