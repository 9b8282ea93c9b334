/-
**Applying a block to the world state.**

The node keeps six Merkle trees, each with committed nodes and a cache of changes that are not yet
committed.  When a block comes whose roots are those of the cached changes, the changes are
committed; otherwise they are dropped, the effects of the block are inserted, and the result is
committed.  Only then are the committed roots compared with those of the block.  The state in the
header has been compared before, with what has been inserted, but the root of the archive has not.
-/

import Aztec.Failing
import Aztec.FullSnapshot
import Aztec.StandardIndexedTree

open List
open AppendOnlySnapshotBuilder (enqueue getNode_eq mem_enqueue snapshot walk)
open StandardIndexedTree (batchInsert encodeLeaf insertTurn updateLeaf)

namespace WorldState

open StandardIndexedTree (SameStores Stopped Insertion)

/-! ### The trees -/

/-- A `StandardTree` with the store of its snapshots. -/
structure AppendOnly (Buffer : Type) (depth : ℕ) where
  tree : TreeBase Buffer depth
  snapshots : AppendOnlySnapshotBuilder Buffer

/-- A `StandardIndexedTree` with the store of its snapshots. -/
structure Indexed (Buffer Leaf : Type) (depth : ℕ) where
  tree : StandardIndexedTree Buffer Leaf depth
  snapshots : BaseFullTreeSnapshotBuilder Buffer (Preimage Leaf)

/-- The trees of `MerkleTrees`. -/
structure World (Buffer : Type) where
  contractTree : AppendOnly Buffer 16
  nullifierTree : Indexed Buffer NullifierLeaf 20
  noteHashTree : AppendOnly Buffer 32
  publicDataTree : Indexed Buffer PublicDataTreeLeaf 40
  l1ToL2MessageTree : AppendOnly Buffer 16
  archive : AppendOnly Buffer 16

/-! ### Blocks -/

/-- `AppendOnlyTreeSnapshot`. -/
structure TreeSnapshot (Buffer : Type) where
  root : Buffer
  nextAvailableLeafIndex : ℕ
  deriving DecidableEq

structure StateReference (Buffer : Type) where
  l1ToL2MessageTree : TreeSnapshot Buffer
  noteHashTree : TreeSnapshot Buffer
  nullifierTree : TreeSnapshot Buffer
  contractTree : TreeSnapshot Buffer
  publicDataTree : TreeSnapshot Buffer
  deriving DecidableEq

/-- A header: the state, and the rest of it, which only its hash covers. -/
structure Header (Buffer : Type) where
  state : StateReference Buffer
  rest : ℕ

/-- The effects of a transaction that change the trees. -/
structure TxEffect (Buffer : Type) where
  contractLeaves : List Buffer
  newNoteHashes : List Buffer
  newNullifiers : List NullifierLeaf
  newPublicDataWrites : List PublicDataTreeLeaf

structure L2Block (Buffer : Type) where
  number : ℕ
  header : Header Buffer
  archiveRoot : Buffer
  txEffects : List (TxEffect Buffer)
  l1ToL2Messages : List Buffer

structure Hashes (Buffer : Type) where
  hash : Buffer → Buffer → Buffer
  zero : Buffer
  nullifierLeaf : Preimage NullifierLeaf → Buffer
  publicDataLeaf : Preimage PublicDataTreeLeaf → Buffer
  header : Header Buffer → Buffer

section Model

variable {Buffer : Type} [DecidableEq Buffer] (H : Hashes Buffer)

def nullifierHasher : Hasher Buffer NullifierLeaf := ⟨H.hash, H.nullifierLeaf, H.zero⟩

def publicDataHasher : Hasher Buffer PublicDataTreeLeaf := ⟨H.hash, H.publicDataLeaf, H.zero⟩

/-! ### Steps -/

/-- What may throw, and leaves the trees as they are then. -/
abbrev Step (Buffer : Type) := World Buffer → World Buffer × Except String Unit

def runSteps : List (Step Buffer) → Step Buffer
  | [], w => (w, .ok ())
  | step :: steps, w =>
    match step w with
    | (w, .ok _) => runSteps steps w
    | (w, .error msg) => (w, .error msg)

def AppendOnly.appendLeaves {depth : ℕ} (t : AppendOnly Buffer depth) (leaves : List Buffer) :
    AppendOnly Buffer depth × Except String Unit :=
  match t.tree.appendLeaves H.hash H.zero leaves with
  | .ok tree => ({ t with tree := tree }, .ok ())
  | .error msg => (t, .error msg)

def Indexed.batchInsert {Leaf : Type} [IndexedTreeLeaf Leaf] {depth : ℕ}
    (hasher : Hasher Buffer Leaf) (t : Indexed Buffer Leaf depth) (leaves : List Leaf)
    (subtreeHeight : ℕ) : Indexed Buffer Leaf depth × Except String Unit :=
  match t.tree.batchInsert hasher leaves subtreeHeight with
  | (tree, .ok _) => ({ t with tree := tree }, .ok ())
  | (tree, .error msg) => ({ t with tree := tree }, .error msg)

def commit (w : World Buffer) : World Buffer :=
  { contractTree := { w.contractTree with tree := w.contractTree.tree.commit }
    nullifierTree := { w.nullifierTree with tree := w.nullifierTree.tree.commit }
    noteHashTree := { w.noteHashTree with tree := w.noteHashTree.tree.commit }
    publicDataTree := { w.publicDataTree with tree := w.publicDataTree.tree.commit }
    l1ToL2MessageTree := { w.l1ToL2MessageTree with tree := w.l1ToL2MessageTree.tree.commit }
    archive := { w.archive with tree := w.archive.tree.commit } }

def rollback (w : World Buffer) : World Buffer :=
  { contractTree := { w.contractTree with tree := w.contractTree.tree.rollback }
    nullifierTree := { w.nullifierTree with tree := w.nullifierTree.tree.rollback }
    noteHashTree := { w.noteHashTree with tree := w.noteHashTree.tree.rollback }
    publicDataTree := { w.publicDataTree with tree := w.publicDataTree.tree.rollback }
    l1ToL2MessageTree := { w.l1ToL2MessageTree with tree := w.l1ToL2MessageTree.tree.rollback }
    archive := { w.archive with tree := w.archive.tree.rollback } }

def treeSnapshot {depth : ℕ} (t : TreeBase Buffer depth) (includeUncommitted : Bool) :
    TreeSnapshot Buffer := ⟨t.getRoot includeUncommitted, t.getNumLeaves includeUncommitted⟩

def getStateReference (w : World Buffer) (includeUncommitted : Bool) : StateReference Buffer :=
  { l1ToL2MessageTree := treeSnapshot w.l1ToL2MessageTree.tree includeUncommitted
    noteHashTree := treeSnapshot w.noteHashTree.tree includeUncommitted
    nullifierTree := treeSnapshot w.nullifierTree.tree.toTreeBase includeUncommitted
    contractTree := treeSnapshot w.contractTree.tree includeUncommitted
    publicDataTree := treeSnapshot w.publicDataTree.tree.toTreeBase includeUncommitted }

/-! ### Inserting the effects of a block -/

def appendContracts (leaves : List Buffer) : Step Buffer := fun w =>
  let (tree, result) := w.contractTree.appendLeaves H leaves
  ({ w with contractTree := tree }, result)

def appendNoteHashes (leaves : List Buffer) : Step Buffer := fun w =>
  let (tree, result) := w.noteHashTree.appendLeaves H leaves
  ({ w with noteHashTree := tree }, result)

def appendMessages (leaves : List Buffer) : Step Buffer := fun w =>
  let (tree, result) := w.l1ToL2MessageTree.appendLeaves H leaves
  ({ w with l1ToL2MessageTree := tree }, result)

/-- The subtree height is `NULLIFIER_SUBTREE_HEIGHT`. -/
def insertNullifiers (leaves : List NullifierLeaf) : Step Buffer := fun w =>
  let (tree, result) := w.nullifierTree.batchInsert (nullifierHasher H) leaves 6
  ({ w with nullifierTree := tree }, result)

/-- The subtree height is `PUBLIC_DATA_SUBTREE_HEIGHT`. -/
def insertPublicData (leaves : List PublicDataTreeLeaf) : Step Buffer := fun w =>
  let (tree, result) := w.publicDataTree.batchInsert (publicDataHasher H) leaves 5
  ({ w with publicDataTree := tree }, result)

/-- The batches of public data writes, of `MAX_PUBLIC_DATA_UPDATE_REQUESTS_PER_TX` each. -/
def publicDataBatches (writes : List PublicDataTreeLeaf) : List (List PublicDataTreeLeaf) :=
  (List.range ((writes.length + 31) / 32)).map fun i => (writes.drop (32 * i)).take 32

def insertEffects (b : L2Block Buffer) : List (Step Buffer) :=
  [appendContracts H (b.txEffects.flatMap TxEffect.contractLeaves),
    appendNoteHashes H (b.txEffects.flatMap TxEffect.newNoteHashes),
    appendMessages H b.l1ToL2Messages,
    insertNullifiers H (b.txEffects.flatMap TxEffect.newNullifiers)] ++
  (publicDataBatches (b.txEffects.flatMap TxEffect.newPublicDataWrites)).map (insertPublicData H)

/-- `#updateArchive`, with the uncommitted changes. -/
def updateArchive (header : Header Buffer) : Step Buffer := fun w =>
  if getStateReference w true ≠ header.state then
    (w, .error "State in header does not match current state")
  else
    let (tree, result) := w.archive.appendLeaves H [H.header header]
    ({ w with archive := tree }, result)

/-- What is done before the commit with a block that is not the node's own. -/
def syncFromChain (b : L2Block Buffer) : Step Buffer := fun w =>
  runSteps (insertEffects H b ++ [updateArchive H b.header]) (rollback w)

/-! ### The function -/

/-- The roots of the trees, in the order of `treeRootWithIdPairs`. -/
def getRoots (w : World Buffer) (includeUncommitted : Bool) : List Buffer :=
  [w.contractTree.tree.getRoot includeUncommitted,
    w.nullifierTree.tree.toTreeBase.getRoot includeUncommitted,
    w.noteHashTree.tree.getRoot includeUncommitted,
    w.publicDataTree.tree.toTreeBase.getRoot includeUncommitted,
    w.l1ToL2MessageTree.tree.getRoot includeUncommitted,
    w.archive.tree.getRoot includeUncommitted]

def publishedRoots (b : L2Block Buffer) : List Buffer :=
  [b.header.state.contractTree.root, b.header.state.nullifierTree.root,
    b.header.state.noteHashTree.root, b.header.state.publicDataTree.root,
    b.header.state.l1ToL2MessageTree.root, b.archiveRoot]

/-- The node's own block: every root is that of the uncommitted changes. -/
def isOurs (w : World Buffer) (b : L2Block Buffer) : Bool := publishedRoots b = getRoots w true

def checkRoots (w : World Buffer) (b : L2Block Buffer) : Except String Unit :=
  ((publishedRoots b).zip (getRoots w false)).forM fun pair =>
    if pair.2 = pair.1 then .ok () else .error "Synced tree root does not match published L2 block root"

/-- `snapshot` of a tree. -/
def AppendOnly.snapshot {depth : ℕ} (t : AppendOnly Buffer depth) (block : ℕ) :
    AppendOnly Buffer depth × Except String Unit :=
  match t.snapshots.snapshot t.tree block with
  | .ok snapshots => ({ t with snapshots := snapshots }, .ok ())
  | .error msg => (t, .error msg)

/-- `snapshot` of an indexed tree, which stores the committed preimages. -/
def Indexed.snapshot {Leaf : Type} {depth : ℕ} (t : Indexed Buffer Leaf depth)
    (block : ℕ) : Indexed Buffer Leaf depth × Except String Unit :=
  match t.snapshots.snapshot H.hash H.zero t.tree.toTreeBase
      (fun i => t.tree.getLatestLeafPreimageCopy i false) block with
  | .ok snapshots => ({ t with snapshots := snapshots }, .ok ())
  | .error msg => (t, .error msg)

def snapshotSteps (block : ℕ) : List (Step Buffer) :=
  [fun w => let (t, r) := w.contractTree.snapshot block; ({ w with contractTree := t }, r),
    fun w => let (t, r) := w.nullifierTree.snapshot H block; ({ w with nullifierTree := t }, r),
    fun w => let (t, r) := w.noteHashTree.snapshot block; ({ w with noteHashTree := t }, r),
    fun w => let (t, r) := w.publicDataTree.snapshot H block; ({ w with publicDataTree := t }, r),
    fun w =>
      let (t, r) := w.l1ToL2MessageTree.snapshot block; ({ w with l1ToL2MessageTree := t }, r),
    fun w => let (t, r) := w.archive.snapshot block; ({ w with archive := t }, r)]

def commitStep : Step Buffer := fun w => (commit w, .ok ())

def handleL2Block (w : World Buffer) (b : L2Block Buffer) : World Buffer × Except String Bool :=
  let ourBlock := isOurs w b
  let (w, synced) :=
    if ourBlock then commitStep w else runSteps [syncFromChain H b, commitStep] w
  match synced with
  | .error msg => (w, .error msg)
  | .ok _ =>
    match checkRoots w b with
    | .error msg => (w, .error msg)
    | .ok _ =>
      match runSteps (snapshotSteps H b.number) w with
      | (w, .error msg) => (w, .error msg)
      | (w, .ok _) => (w, .ok ourBlock)

end Model

/-! ### The committed part -/

section Committed

variable {Buffer : Type}

section Indexed

variable {Leaf : Type} [IndexedTreeLeaf Leaf] {depth : ℕ} {hasher : Hasher Buffer Leaf}

theorem sameStores_updateLeaf {t t' : StandardIndexedTree Buffer Leaf depth} {p : Preimage Leaf}
    {i : ℕ} (h : t.updateLeaf hasher p i = .ok t') : SameStores t t' := by
  have hadd := (@TreeBase.addLeafToCacheAndHashToRoot_same Buffer depth hasher.hash hasher.zero
    t.toTreeBase (encodeLeaf hasher p true) i).1
  unfold updateLeaf at h
  dsimp only at h
  split at h
  · cases h
  · rw [Except.ok.injEq] at h
    subst h
    refine ⟨?_, rfl, rfl⟩
    dsimp only
    split
    · exact hadd
    · exact hadd

theorem sameStores_encodeAndAppendLeaves (t : StandardIndexedTree Buffer Leaf depth)
    (preimages : List (Preimage Leaf)) (hash0Leaf : Bool) :
    SameStores t (t.encodeAndAppendLeaves hasher preimages hash0Leaf).1 := by
  unfold StandardIndexedTree.encodeAndAppendLeaves
  dsimp only
  split
  · next base happend => exact ⟨(TreeBase.appendLeaves_same happend).1, rfl, rfl⟩
  · exact ⟨⟨rfl, rfl, rfl⟩, rfl, rfl⟩

/-- What a turn of the loop leaves, whether the loop goes on or not. -/
def turnTree (outcome : Except (Stopped Buffer Leaf depth) (Insertion Buffer Leaf depth)) :
    StandardIndexedTree Buffer Leaf depth :=
  match outcome with
  | .ok s => s.tree
  | .error stopped => stopped.1

theorem sameStores_insertTurn (hasher : Hasher Buffer Leaf) (start : ℕ)
    (s : Insertion Buffer Leaf depth) (e : (Leaf × ℕ) × ℕ) :
    SameStores s.tree (turnTree (insertTurn hasher start s e)) := by
  unfold insertTurn
  dsimp only
  split
  · exact SameStores.refl _
  split
  · exact SameStores.refl _
  split
  · exact SameStores.refl _
  split
  · split
    · exact SameStores.refl _
    · split
      · exact SameStores.refl _
      · next h => exact sameStores_updateLeaf h
  · split
    · exact SameStores.refl _
    · next h => exact sameStores_updateLeaf h

theorem sameStores_batchInsert (hasher : Hasher Buffer Leaf)
    (t : StandardIndexedTree Buffer Leaf depth) (leaves : List Leaf) (subtreeHeight : ℕ) :
    SameStores t (t.batchInsert hasher leaves subtreeHeight).1 := by
  have hloop : ∀ (items : List ((Leaf × ℕ) × ℕ)) (start : ℕ) (s : Insertion Buffer Leaf depth),
      SameStores s.tree (turnTree (items.foldlM (insertTurn hasher start) s)) := by
    intro items start
    induction items with
    | nil => intro s; exact SameStores.refl _
    | cons e items ih =>
      intro s
      have hturn := sameStores_insertTurn hasher start s e
      rw [foldlM_cons]
      cases hs : insertTurn hasher start s e with
      | error stopped =>
        rw [hs] at hturn
        exact hturn
      | ok s' =>
        rw [hs] at hturn
        exact hturn.trans (ih s')
  unfold batchInsert
  dsimp only
  have hall := hloop (StandardIndexedTree.sortedDescendingLeafTuples leaves).zipIdx
    (t.getNumLeaves true)
    { tree := t, insertedKeys := []
      lowLeavesWitnesses :=
        replicate leaves.length (StandardIndexedTree.getEmptyLowLeafWitness hasher depth)
      pendingInsertionSubtree := replicate leaves.length .empty }
  split
  · next h => rw [h] at hall; exact hall
  · next h => rw [h] at hall; exact hall
  · next h =>
      rw [h] at hall
      exact hall.trans (sameStores_encodeAndAppendLeaves _ _ _)

end Indexed

/-- The committed nodes and the snapshots of a tree are the same. -/
structure AppendOnly.Same {depth : ℕ} (t t' : AppendOnly Buffer depth) : Prop where
  tree : TreeBase.SameCommitted t.tree t'.tree
  snapshots_eq : t'.snapshots = t.snapshots

structure Indexed.Same {Leaf : Type} {depth : ℕ} (t t' : Indexed Buffer Leaf depth) : Prop where
  tree : SameStores t.tree t'.tree
  snapshots_eq : t'.snapshots = t.snapshots

variable {depth : ℕ}

theorem AppendOnly.Same.refl (t : AppendOnly Buffer depth) : t.Same t :=
  ⟨⟨rfl, rfl, rfl⟩, rfl⟩

theorem Indexed.Same.refl {Leaf : Type} (t : Indexed Buffer Leaf depth) : t.Same t :=
  ⟨SameStores.refl _, rfl⟩

theorem AppendOnly.Same.trans {t t' t'' : AppendOnly Buffer depth} (h : t.Same t')
    (h' : t'.Same t'') : t.Same t'' :=
  ⟨h.tree.trans h'.tree, h'.snapshots_eq.trans h.snapshots_eq⟩

theorem Indexed.Same.trans {Leaf : Type} {t t' t'' : Indexed Buffer Leaf depth}
    (h : t.Same t') (h' : t'.Same t'') : t.Same t'' :=
  ⟨h.tree.trans h'.tree, h'.snapshots_eq.trans h.snapshots_eq⟩

/-- **The committed view of all trees is the same**: nodes, roots, sizes, leaves and snapshots. -/
structure SameCommittedView (w w' : World Buffer) : Prop where
  contractTree : w.contractTree.Same w'.contractTree
  nullifierTree : w.nullifierTree.Same w'.nullifierTree
  noteHashTree : w.noteHashTree.Same w'.noteHashTree
  publicDataTree : w.publicDataTree.Same w'.publicDataTree
  l1ToL2MessageTree : w.l1ToL2MessageTree.Same w'.l1ToL2MessageTree
  archive : w.archive.Same w'.archive

theorem SameCommittedView.refl (w : World Buffer) : SameCommittedView w w :=
  ⟨.refl _, .refl _, .refl _, .refl _, .refl _, .refl _⟩

theorem SameCommittedView.trans {w w' w'' : World Buffer} (h : SameCommittedView w w')
    (h' : SameCommittedView w' w'') : SameCommittedView w w'' :=
  ⟨h.1.trans h'.1, h.2.trans h'.2, h.3.trans h'.3, h.4.trans h'.4, h.5.trans h'.5, h.6.trans h'.6⟩

theorem sameCommittedView_rollback (w : World Buffer) : SameCommittedView w (rollback w) := by
  have hbase : ∀ {depth : ℕ} (t : TreeBase Buffer depth), TreeBase.SameCommitted t t.rollback :=
    fun t => ⟨rfl, rfl, rfl⟩
  exact ⟨⟨hbase _, rfl⟩, ⟨⟨hbase _, rfl, rfl⟩, rfl⟩, ⟨hbase _, rfl⟩, ⟨⟨hbase _, rfl, rfl⟩, rfl⟩,
    ⟨hbase _, rfl⟩, ⟨hbase _, rfl⟩⟩

end Committed

/-! ### The steps before the commit -/

section Steps

variable {Buffer : Type} {H : Hashes Buffer}

theorem runSteps_keeps {P : World Buffer → World Buffer → Prop} (hrefl : ∀ w, P w w)
    (htrans : ∀ w w' w'', P w w' → P w' w'' → P w w'') {steps : List (Step Buffer)}
    (hsteps : ∀ step ∈ steps, ∀ w, P w (step w).1) : ∀ w, P w (runSteps steps w).1 := by
  induction steps with
  | nil => exact hrefl
  | cons step steps ih =>
    intro w
    have hstep := hsteps step mem_cons_self w
    rw [runSteps]
    split
    · next h =>
        rw [h] at hstep
        exact htrans _ _ _ hstep (ih (fun step hs => hsteps step (mem_cons_of_mem _ hs)) _)
    · next h => rwa [h] at hstep

theorem runSteps_append (steps steps' : List (Step Buffer)) (w : World Buffer) :
    runSteps (steps ++ steps') w =
      match runSteps steps w with
      | (w, .ok _) => runSteps steps' w
      | (w, .error msg) => (w, .error msg) := by
  induction steps generalizing w with
  | nil => rfl
  | cons step steps ih =>
    rw [cons_append, runSteps, runSteps]
    split
    · exact ih _
    · rfl

theorem same_appendLeaves (t : AppendOnly Buffer depth) (leaves : List Buffer) :
    t.Same (t.appendLeaves H leaves).1 := by
  unfold AppendOnly.appendLeaves
  split
  · next h => exact ⟨(TreeBase.appendLeaves_same h).1, rfl⟩
  · exact .refl _

theorem same_batchInsert {Leaf : Type} [IndexedTreeLeaf Leaf]
    {hasher : Hasher Buffer Leaf} (t : Indexed Buffer Leaf depth) (leaves : List Leaf)
    (subtreeHeight : ℕ) : t.Same (t.batchInsert hasher leaves subtreeHeight).1 := by
  have hsame := sameStores_batchInsert hasher t.tree leaves subtreeHeight
  unfold Indexed.batchInsert
  split
  · next h => rw [h] at hsame; exact ⟨hsame, rfl⟩
  · next h => rw [h] at hsame; exact ⟨hsame, rfl⟩

variable [DecidableEq Buffer]

omit [DecidableEq Buffer] in
theorem insertEffects_step_keeps (H : Hashes Buffer) (b : L2Block Buffer) {step : Step Buffer}
    (hstep : step ∈ insertEffects H b) (w : World Buffer) :
    SameCommittedView w (step w).1 ∧ (step w).1.archive = w.archive := by
  rw [insertEffects, mem_append] at hstep
  rcases hstep with hstep | hstep
  · simp only [mem_cons, not_mem_nil, or_false] at hstep
    rcases hstep with rfl | rfl | rfl | rfl
    · exact ⟨⟨same_appendLeaves _ _, .refl _, .refl _, .refl _, .refl _, .refl _⟩, rfl⟩
    · exact ⟨⟨.refl _, .refl _, same_appendLeaves _ _, .refl _, .refl _, .refl _⟩, rfl⟩
    · exact ⟨⟨.refl _, .refl _, .refl _, .refl _, same_appendLeaves _ _, .refl _⟩, rfl⟩
    · exact ⟨⟨.refl _, same_batchInsert _ _ _, .refl _, .refl _, .refl _, .refl _⟩, rfl⟩
  · obtain ⟨leaves, -, rfl⟩ := mem_map.1 hstep
    exact ⟨⟨.refl _, .refl _, .refl _, same_batchInsert _ _ _, .refl _, .refl _⟩, rfl⟩

omit [DecidableEq Buffer] in
theorem insertEffects_take_keeps (H : Hashes Buffer) (b : L2Block Buffer) (k : ℕ)
    (w : World Buffer) : SameCommittedView w (runSteps ((insertEffects H b).take k) w).1 ∧
      (runSteps ((insertEffects H b).take k) w).1.archive = w.archive :=
  runSteps_keeps (P := fun w w' => SameCommittedView w w' ∧ w'.archive = w.archive)
    (fun w => ⟨.refl w, rfl⟩) (fun _ _ _ h h' => ⟨h.1.trans h'.1, h'.2.trans h.2⟩)
    (fun _ hstep => insertEffects_step_keeps H b (mem_of_mem_take hstep)) w

omit [DecidableEq Buffer] in
theorem insertEffects_keeps (H : Hashes Buffer) (b : L2Block Buffer) (w : World Buffer) :
    SameCommittedView w (runSteps (insertEffects H b) w).1 ∧
      (runSteps (insertEffects H b) w).1.archive = w.archive := by
  have hkeeps := insertEffects_take_keeps H b (insertEffects H b).length w
  rwa [take_length] at hkeeps

theorem updateArchive_same (H : Hashes Buffer) (header : Header Buffer) (w : World Buffer) :
    SameCommittedView w (updateArchive H header w).1 := by
  unfold updateArchive
  split
  · exact .refl _
  · exact ⟨.refl _, .refl _, .refl _, .refl _, .refl _, same_appendLeaves _ _⟩

theorem syncFromChain_same (b : L2Block Buffer) (w : World Buffer) :
    SameCommittedView w (syncFromChain H b w).1 := by
  refine (sameCommittedView_rollback w).trans ?_
  change SameCommittedView _ (runSteps (insertEffects H b ++ [updateArchive H b.header]) _).1
  rw [runSteps_append]
  have hinsert := (insertEffects_keeps H b (rollback w)).1
  split
  · next h =>
      rw [h] at hinsert
      refine hinsert.trans ?_
      rw [runSteps]
      have harchive := updateArchive_same H b.header
      split
      · next h' => exact (congrArg Prod.fst h') ▸ harchive _
      · next h' => exact (congrArg Prod.fst h') ▸ harchive _
  · next h => rwa [h] at hinsert

theorem syncFromChain_ok {b : L2Block Buffer} {w w' : World Buffer} {u : Unit}
    (h : syncFromChain H b w = (w', .ok u)) : getStateReference w' true = b.header.state ∧
      w.archive.tree.rollback.appendLeaves H.hash H.zero [H.header b.header] =
        .ok w'.archive.tree := by
  change runSteps (insertEffects H b ++ [updateArchive H b.header]) (rollback w) = _ at h
  rw [runSteps_append] at h
  have hkeeps := (insertEffects_keeps H b (rollback w)).2
  split at h
  · next mid u' hmid =>
      rw [hmid] at hkeeps
      rw [runSteps, updateArchive] at h
      by_cases hstate : getStateReference mid true = b.header.state
      · rw [if_neg (not_not.2 hstate)] at h
        dsimp only at h
        have harchive : mid.archive = (rollback w).archive := hkeeps
        unfold AppendOnly.appendLeaves at h
        cases happend : mid.archive.tree.appendLeaves H.hash H.zero [H.header b.header] with
        | error msg =>
          rw [happend] at h
          cases h
        | ok tree =>
          rw [happend] at h
          obtain ⟨rfl, -⟩ := Prod.mk.inj h
          refine ⟨hstate, ?_⟩
          rw [harchive] at happend
          exact happend
      · rw [if_pos hstate] at h
        cases h
  · cases h

end Steps

/-! ### The roots and the snapshots -/

section Commit

variable {Buffer : Type} [DecidableEq Buffer] {H : Hashes Buffer} {w : World Buffer}
  {b : L2Block Buffer}

omit [DecidableEq Buffer] in
theorem getRoots_commit (w : World Buffer) : getRoots (commit w) false = getRoots w true := by
  simp only [getRoots, commit, StandardIndexedTree.toTreeBase_commit]
  rfl

omit [DecidableEq Buffer] in
theorem zip_all_eq_iff (l : List Buffer) :
    ∀ {m : List Buffer}, l.length = m.length → ((∀ pair ∈ l.zip m, pair.2 = pair.1) ↔ l = m) := by
  induction l with
  | nil =>
    intro m hlen
    rw [length_nil, eq_comm, length_eq_zero_iff] at hlen
    simp [hlen]
  | cons a l ih =>
    intro m hlen
    cases m with
    | nil => cases hlen
    | cons c m =>
      rw [length_cons, length_cons, Nat.add_right_cancel_iff] at hlen
      rw [zip_cons_cons, forall_mem_cons, ih hlen, cons.injEq]
      exact and_congr_left fun _ => eq_comm

theorem checkRoots_eq_ok {u : Unit} :
    checkRoots w b = .ok u ↔ publishedRoots b = getRoots w false := by
  have hzip := zip_all_eq_iff (publishedRoots b) (m := getRoots w false) rfl
  rw [checkRoots, Failing.forM_eq_ok, ← hzip]
  refine forall₂_congr fun pair _ => ?_
  by_cases heq : pair.2 = pair.1
  · simp [heq]
  · simp [heq]

omit [DecidableEq Buffer] in
theorem index_lt_of_mem_children {level index : ℕ} (hindex : index < 2 ^ level)
    {lhs rhs : Option Buffer} {q : Buffer × ℕ × ℕ}
    (hq : q ∈ enqueue lhs (level + 1) (2 * index) ++
      enqueue rhs (level + 1) (2 * index + 1)) : q.2.2 < 2 ^ q.2.1 := by
  rw [mem_append, mem_enqueue, mem_enqueue] at hq
  rcases hq with ⟨-, hq⟩ | ⟨-, hq⟩
  · rw [hq, pow_succ]
    dsimp only
    omega
  · rw [hq, pow_succ]
    dsimp only
    omega

omit [DecidableEq Buffer] in
theorem getNode_ne_error {depth level index i : ℕ} {t : TreeBase Buffer depth} {e : String}
    (hindex : index < 2 ^ level) (hlevel : level < depth) (hi : i ≤ 2 * index + 1) :
    t.getNode (level + 1) i ≠ .error e := by
  rw [getNode_eq hlevel (by rw [pow_succ]; omega)]
  exact nofun

theorem walk_isOk (t : TreeBase Buffer depth) (block : ℕ)
    (queue : List (Buffer × ℕ × ℕ)) (builder : AppendOnlySnapshotBuilder Buffer)
    (hqueue : ∀ q ∈ queue, q.2.2 < 2 ^ q.2.1) :
    ∃ builder', walk t block queue builder = .ok builder' := by
  fun_induction walk t block queue builder with
  | case1 b => exact ⟨b, rfl⟩
  | case2 b node level index queue heq ih =>
    exact ih fun q hq => hqueue q (mem_cons_of_mem _ hq)
  | case3 b node level index queue hne b' hdeep ih =>
    exact ih fun q hq => hqueue q (mem_cons_of_mem _ hq)
  | case4 b node level index queue hne b' hshallow lhs rhs hrhs hlhs ih =>
    exact ih fun q hq => (mem_append.1 hq).elim (fun hq => hqueue q (mem_cons_of_mem _ hq))
      (index_lt_of_mem_children (hqueue _ mem_cons_self))
  | case5 b node level index queue hne hshallow e hlhs =>
    exact absurd hlhs (getNode_ne_error (hqueue _ mem_cons_self) (by omega) (by dsimp only; omega))
  | case6 b node level index queue hne hshallow lhs e hrhs hlhs =>
    exact absurd hrhs (getNode_ne_error (hqueue _ mem_cons_self) (by omega) (by dsimp only; omega))

theorem fullWalk_isOk {Entry : Type} (hash : Buffer → Buffer → Buffer)
    (initialLeaf : Buffer) (t : TreeBase Buffer depth) (leafPreimage : ℕ → Option Entry)
    (queue : List (Buffer × ℕ × ℕ)) (builder : BaseFullTreeSnapshotBuilder Buffer Entry)
    (hqueue : ∀ q ∈ queue, q.2.2 < 2 ^ q.2.1) :
    ∃ builder', BaseFullTreeSnapshotBuilder.walk hash initialLeaf t leafPreimage queue builder =
      .ok builder' := by
  fun_induction BaseFullTreeSnapshotBuilder.walk hash initialLeaf t leafPreimage queue builder with
  | case1 b => exact ⟨b, rfl⟩
  | case2 b node level index queue heq ih =>
    exact ih fun q hq => hqueue q (mem_cons_of_mem _ hq)
  | case3 b node level index queue hne hdeep ih =>
    exact ih fun q hq => hqueue q (mem_cons_of_mem _ hq)
  | case4 b node level index queue hne hshallow lhs rhs zeroHash hzero hrhs hlhs ih =>
    exact ih fun q hq => (mem_append.1 hq).elim (fun hq => hqueue q (mem_cons_of_mem _ hq))
      (index_lt_of_mem_children (hqueue _ mem_cons_self))
  | case5 b node level index queue hne hshallow e hlhs =>
    exact absurd hlhs (getNode_ne_error (hqueue _ mem_cons_self) (by omega) (by dsimp only; omega))
  | case6 b node level index queue hne hshallow lhs e hrhs hlhs =>
    exact absurd hrhs (getNode_ne_error (hqueue _ mem_cons_self) (by omega) (by dsimp only; omega))
  | case7 b node level index queue hne hshallow lhs rhs e hzero hrhs hlhs =>
    rw [TreeBase.getZeroHash, if_neg (by omega)] at hzero
    cases hzero

theorem AppendOnly.snapshot_eq (t : AppendOnly Buffer depth) (block : ℕ) :
    ∃ snapshots, t.snapshot block = ({ t with snapshots := snapshots }, .ok ()) := by
  have hok : ∃ snapshots, t.snapshots.snapshot t.tree block = .ok snapshots := by
    unfold AppendOnlySnapshotBuilder.snapshot
    split
    · exact ⟨_, rfl⟩
    · obtain ⟨b, hb⟩ := walk_isOk t.tree block [(t.tree.getRoot false, 0, 0)] t.snapshots (by simp)
      dsimp only
      rw [hb]
      exact ⟨_, rfl⟩
  obtain ⟨snapshots, hsnapshots⟩ := hok
  exact ⟨snapshots, by rw [AppendOnly.snapshot, hsnapshots]⟩

theorem Indexed.snapshot_eq {Leaf : Type} (H : Hashes Buffer)
    (t : Indexed Buffer Leaf depth) (block : ℕ) :
    ∃ snapshots, t.snapshot H block = ({ t with snapshots := snapshots }, .ok ()) := by
  have hok : ∃ snapshots, t.snapshots.snapshot H.hash H.zero t.tree.toTreeBase
      (fun i => t.tree.getLatestLeafPreimageCopy i false) block = .ok snapshots := by
    unfold BaseFullTreeSnapshotBuilder.snapshot
    split
    · exact ⟨_, rfl⟩
    · obtain ⟨b, hb⟩ := fullWalk_isOk H.hash H.zero t.tree.toTreeBase
        (fun i => t.tree.getLatestLeafPreimageCopy i false)
        [(t.tree.toTreeBase.getRoot false, 0, 0)] t.snapshots (by simp)
      dsimp only
      rw [hb]
      exact ⟨_, rfl⟩
  obtain ⟨snapshots, hsnapshots⟩ := hok
  exact ⟨snapshots, by rw [Indexed.snapshot, hsnapshots]⟩

theorem snapshotSteps_ok (H : Hashes Buffer) (block : ℕ) (w : World Buffer) :
    ∃ w', runSteps (snapshotSteps H block) w = (w', .ok ()) ∧
      getRoots w' false = getRoots w false := by
  obtain ⟨s₁, h₁⟩ := w.contractTree.snapshot_eq block
  obtain ⟨s₂, h₂⟩ := w.nullifierTree.snapshot_eq H block
  obtain ⟨s₃, h₃⟩ := w.noteHashTree.snapshot_eq block
  obtain ⟨s₄, h₄⟩ := w.publicDataTree.snapshot_eq H block
  obtain ⟨s₅, h₅⟩ := w.l1ToL2MessageTree.snapshot_eq block
  obtain ⟨s₆, h₆⟩ := w.archive.snapshot_eq block
  refine ⟨{ contractTree := { w.contractTree with snapshots := s₁ }
            nullifierTree := { w.nullifierTree with snapshots := s₂ }
            noteHashTree := { w.noteHashTree with snapshots := s₃ }
            publicDataTree := { w.publicDataTree with snapshots := s₄ }
            l1ToL2MessageTree := { w.l1ToL2MessageTree with snapshots := s₅ }
            archive := { w.archive with snapshots := s₆ } }, ?_, rfl⟩
  simp only [snapshotSteps, runSteps, h₁, h₂, h₃, h₄, h₅, h₆]

end Commit

/-! ### Atomicity -/

section Atomicity

variable {Buffer : Type} [DecidableEq Buffer] (H : Hashes Buffer) (w : World Buffer)
  (b : L2Block Buffer)

/-- **The call is atomic**: when it throws, the committed view is the one before, and when it
returns, every committed root is the one the block publishes. -/
def Atomic : Prop :=
  (∀ msg, (handleL2Block H w b).2 = .error msg → SameCommittedView w (handleL2Block H w b).1) ∧
    ∀ ours, (handleL2Block H w b).2 = .ok ours →
      publishedRoots b = getRoots (handleL2Block H w b).1 false

/-- The block is rejected before the commit: its effects cannot be inserted, or do not lead to the
state in its header, or the archive is full. -/
def RejectedBeforeCommit : Prop := (syncFromChain H b w).2.isOk = false

/-- The archive root of the block is that of the committed archive with the hash of its header. -/
def ArchiveRootRight : Prop :=
  ∃ archive, w.archive.tree.rollback.appendLeaves H.hash H.zero [H.header b.header] = .ok archive ∧
    archive.getRoot true = b.archiveRoot

variable {H w b}

theorem handleL2Block_of_committed {w' : World Buffer} {ours : Bool} (hours : isOurs w b = ours)
    (hsynced : (if isOurs w b then commitStep w else
      runSteps [syncFromChain H b, commitStep] w) = (w', .ok ())) :
    (publishedRoots b = getRoots w' false →
      ∃ w'', handleL2Block H w b = (w'', .ok ours) ∧ publishedRoots b = getRoots w'' false) ∧
    (publishedRoots b ≠ getRoots w' false → ∃ msg, handleL2Block H w b = (w', .error msg)) := by
  rw [hours] at hsynced
  constructor
  · intro hroots
    obtain ⟨w'', hsnapshots, hsame⟩ := snapshotSteps_ok H b.number w'
    have hcheck : checkRoots w' b = .ok () := checkRoots_eq_ok.2 hroots
    refine ⟨w'', ?_, hroots.trans hsame.symm⟩
    simp only [handleL2Block, hours, hsynced, hcheck, hsnapshots]
  · intro hroots
    cases hcheck : checkRoots w' b with
    | ok u => exact absurd (checkRoots_eq_ok.1 hcheck) hroots
    | error msg => exact ⟨msg, by simp only [handleL2Block, hours, hsynced, hcheck]⟩

theorem atomic_of_isOurs (hours : isOurs w b = true) : Atomic H w b := by
  have hroots : publishedRoots b = getRoots (commit w) false := by
    rw [getRoots_commit]
    exact of_decide_eq_true hours
  obtain ⟨hok, -⟩ := @handleL2Block_of_committed Buffer _ H w b (commit w) _ hours
    (by rw [if_pos hours]; rfl)
  obtain ⟨w'', hhandle, hright⟩ := hok hroots
  constructor
  · intro msg hmsg
    rw [hhandle] at hmsg
    cases hmsg
  · intro ours _
    rw [hhandle]
    exact hright

theorem atomic_of_rejected (hours : isOurs w b = false) (hrejected : RejectedBeforeCommit H w b) :
    Atomic H w b := by
  have hsame := syncFromChain_same (H := H) b w
  unfold RejectedBeforeCommit at hrejected
  cases hsync : syncFromChain H b w with
  | mk w' result =>
    rw [hsync] at hsame hrejected
    cases result with
    | ok u => cases hrejected
    | error msg =>
      have hhandle : handleL2Block H w b = (w', .error msg) := by
        simp only [handleL2Block, hours, Bool.false_eq_true, if_false, runSteps, hsync]
      constructor
      · intro _ _
        rw [hhandle]
        exact hsame
      · intro _ hok
        rw [hhandle] at hok
        cases hok

theorem atomic_iff_of_synced (hours : isOurs w b = false)
    (hsynced : ¬RejectedBeforeCommit H w b) : Atomic H w b ↔ ArchiveRootRight H w b := by
  unfold RejectedBeforeCommit at hsynced
  cases hsync : syncFromChain H b w with
  | mk w' result =>
    rw [hsync] at hsynced
    cases result with
    | error msg => exact absurd rfl hsynced
    | ok u =>
      obtain ⟨hstate, harchive⟩ := syncFromChain_ok hsync
      -- the state has been compared, so that the archive decides
      have hroots : publishedRoots b = getRoots (commit w') false ↔ ArchiveRootRight H w b := by
        rw [getRoots_commit, publishedRoots, getRoots, ← hstate]
        simp only [getStateReference, treeSnapshot, cons.injEq, and_true, true_and,
          ArchiveRootRight, harchive, Except.ok.injEq, exists_eq_left']
        exact eq_comm
      obtain ⟨hok, herror⟩ := @handleL2Block_of_committed Buffer _ H w b (commit w') _ hours
        (by simp only [hours, Bool.false_eq_true, if_false, runSteps, hsync, commitStep])
      constructor
      · intro hatomic
        by_contra hwrong
        obtain ⟨msg, hhandle⟩ := herror (mt hroots.1 hwrong)
        have hsame := (hatomic.1 msg (by rw [hhandle])).archive.tree.2.2
        rw [hhandle] at hsame
        -- the archive has one leaf more
        have hsize := (TreeBase.appendLeaves_same harchive).2.1
        change w'.archive.tree.getNumLeaves true = w.archive.tree.size at hsame
        change w'.archive.tree.getNumLeaves true = w.archive.tree.size + 1 at hsize
        omega
      · intro hright
        obtain ⟨w'', hhandle, hright'⟩ := hok (hroots.2 hright)
        constructor
        · intro msg hmsg
          rw [hhandle] at hmsg
          cases hmsg
        · intro _ _
          rw [hhandle]
          exact hright'

/-- **`handleL2Block` is atomic exactly when** the block is the node's own, or is rejected before
the commit, or has the archive root that its header leads to. -/
theorem handleL2Block_atomic_iff {Buffer : Type} [DecidableEq Buffer] (H : Hashes Buffer)
    (w : World Buffer) (b : L2Block Buffer) : Atomic H w b ↔
      isOurs w b = true ∨ RejectedBeforeCommit H w b ∨ ArchiveRootRight H w b := by
  cases hours : isOurs w b with
  | true => exact ⟨fun _ => Or.inl rfl, fun _ => atomic_of_isOurs hours⟩
  | false =>
    by_cases hrejected : RejectedBeforeCommit H w b
    · exact ⟨fun _ => Or.inr (Or.inl hrejected), fun _ => atomic_of_rejected hours hrejected⟩
    · rw [atomic_iff_of_synced hours hrejected]
      simp [hrejected]

end Atomicity

/-! ### A block with another archive root -/

namespace OtherArchive

def hashes : Hashes ℕ := ⟨fun _ _ => 0, 0, fun _ => 0, fun _ => 0, fun _ => 0⟩

def appendOnly (depth : ℕ) : AppendOnly ℕ depth := ⟨TreeBase.new (fun _ _ => 0) 0 depth, .new⟩

def world : World ℕ :=
  { contractTree := appendOnly 16
    nullifierTree := ⟨StandardIndexedTree.new (nullifierHasher hashes) 20, .new⟩
    noteHashTree := appendOnly 32
    publicDataTree := ⟨StandardIndexedTree.new (publicDataHasher hashes) 40, .new⟩
    l1ToL2MessageTree := appendOnly 16
    archive := appendOnly 16 }

/-- A block without effects, whose archive root is not the one its header leads to. -/
def block : L2Block ℕ :=
  { number := 1
    header := ⟨getStateReference world true, 0⟩
    archiveRoot := 1
    txEffects := []
    l1ToL2Messages := [] }

end OtherArchive

open OtherArchive in
/-- **`handleL2Block` is not atomic in general.** -/
theorem not_handleL2Block_atomic :
    ¬ ∀ (Buffer : Type) [DecidableEq Buffer] (H : Hashes Buffer) (w : World Buffer)
      (b : L2Block Buffer), Atomic H w b := by
  intro h
  have hours : isOurs world block = false := by decide
  have hsynced : ¬RejectedBeforeCommit hashes world block := by
    unfold RejectedBeforeCommit
    decide
  obtain ⟨archive, happend, hroot⟩ :=
    (atomic_iff_of_synced hours hsynced).1 (h ℕ hashes world block)
  have hwrong : (world.archive.tree.rollback.appendLeaves hashes.hash hashes.zero
      [hashes.header block.header]).map (fun t => t.getRoot true) ≠ .ok block.archiveRoot := by
    decide
  rw [happend] at hwrong
  exact hwrong (congrArg Except.ok hroot)

end WorldState
