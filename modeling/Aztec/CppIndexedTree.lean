/-
**The indexed tree of the C++ world state.**

A batch of values is inserted in two phases: the low leaves are found and changed one after the
other, and then one worker for each of them hashes the changed leaf up to the root.  The workers
run in parallel, one behind another: each waits for the levels its leader has signalled.  Whatever
the interleaving, the nodes and the hash paths are those of the serial execution, as long as there
is a level above the leaves.
-/

import Aztec.CppAppendOnlyTree
import Aztec.LevelPipeline
import Mathlib.Data.List.Sort

namespace CppIndexedTree

open Merkle Pipeline

/-! ### Leaves -/

structure IndexedLeaf (Fr : Type) where
  value : Fr
  nextIndex : ℕ
  nextValue : Fr
  deriving DecidableEq

/-- What the tree uses of its `LeavesStore`. -/
structure LeavesStore (Leaves Fr : Type) where
  getSize : Leaves → ℕ
  findLowValue : Leaves → Fr → Bool × ℕ
  getLeaf : Leaves → ℕ → IndexedLeaf Fr
  setAtIndex : Leaves → ℕ → IndexedLeaf Fr → Bool → Leaves
  appendLeaf : Leaves → IndexedLeaf Fr → Leaves

/-- `LeavesCache`, with the entries of its map from the largest value to the smallest. -/
structure LeavesCache (Fr : Type) where
  indices : List (Fr × ℕ)
  leaves : List (IndexedLeaf Fr)

namespace LeavesCache

variable {Fr : Type} [LinearOrder Fr] [Zero Fr]

def setIndex (value : Fr) (index : ℕ) : List (Fr × ℕ) → List (Fr × ℕ)
  | [] => [(value, index)]
  | entry :: indices =>
    if value = entry.1 then (value, index) :: indices
    else if entry.1 < value then (value, index) :: entry :: indices
    else entry :: setIndex value index indices

/-- `find_low_value`.  The smallest leaf has value zero, so there is always an entry. -/
def findLowValue (cache : LeavesCache Fr) (newValue : Fr) : Bool × ℕ :=
  match cache.indices.find? (fun entry => entry.1 ≤ newValue) with
  | some entry => (entry.1 = newValue, entry.2)
  | none => (false, 0)

def setAtIndex (cache : LeavesCache Fr) (index : ℕ) (leaf : IndexedLeaf Fr) (addToIndex : Bool) :
    LeavesCache Fr :=
  let leaves := cache.leaves ++ List.replicate (index + 1 - cache.leaves.length) ⟨0, 0, 0⟩
  { indices := if addToIndex then setIndex leaf.value index cache.indices else cache.indices,
    leaves := leaves.set index leaf }

def store : LeavesStore (LeavesCache Fr) Fr where
  getSize cache := cache.leaves.length
  findLowValue := findLowValue
  getLeaf cache index := cache.leaves.getD index ⟨0, 0, 0⟩
  setAtIndex := setAtIndex
  appendLeaf cache leaf := cache.setAtIndex cache.leaves.length leaf true

end LeavesCache

/-! ### The tree -/

/-- The state of `IndexedTree`. -/
structure Tree (Fr Leaves : Type) (depth : ℕ) extends AppendOnlyTree Fr depth where
  leaves : Leaves

structure LeafInsertion (Fr : Type) where
  lowLeafIndex : ℕ
  lowLeaf : IndexedLeaf Fr

/-- The local variables of a worker: the hash it carries up, the right value it has read last and
the hash path so far. -/
structure Locals (Fr : Type) where
  newHash : Fr
  rightValue : Fr
  previousHashPath : List (Fr × Fr)
  deriving DecidableEq

section Insertion

variable {Fr Leaves : Type} (leavesStore : LeavesStore Leaves Fr)

/-- The body of the loop that finds the leaf to update for a value; the value comes with its place
in the batch. -/
def findInsertion (oldSize : ℕ) (leaves : Leaves) (value : Fr × ℕ) : LeafInsertion Fr × Leaves :=
  let indexOfNewLeaf := value.2 + oldSize
  let (isAlreadyPresent, current) := leavesStore.findLowValue leaves value.1
  let currentLeaf := leavesStore.getLeaf leaves current
  let newLeaf := { currentLeaf with value := value.1 }
  if isAlreadyPresent then (⟨current, currentLeaf⟩, leaves)
  else
    let currentLeaf := { currentLeaf with nextIndex := indexOfNewLeaf, nextValue := value.1 }
    let leaves := leavesStore.setAtIndex leaves current currentLeaf false
    (⟨current, currentLeaf⟩, leavesStore.setAtIndex leaves indexOfNewLeaf newLeaf true)

/-- The first phase: the leaf insertions of the sorted values. -/
def findInsertions (oldSize : ℕ) : List (Fr × ℕ) → Leaves → List (LeafInsertion Fr) × Leaves
  | [], leaves => ([], leaves)
  | value :: values, leaves =>
    let (insertion, leaves) := findInsertion leavesStore oldSize leaves value
    let (insertions, leaves) := findInsertions oldSize values leaves
    (insertion :: insertions, leaves)

end Insertion

/-! ### Workers -/

section Workers

variable {Fr : Type} (hashPair : Fr → Fr → Fr) (zeroHash : Fr) (depth : ℕ)

/-- `get_element_or_zero`, of what the store holds. -/
def elementOrZero (level : ℕ) (node : Option Fr) : Fr :=
  node.getD (AppendOnlyTree.zeroHashes hashPair zeroHash depth level)

/-- Reading a node and its sibling, for the hash path. -/
def readPair (level index : ℕ) : List (Instr (Option Fr) (Locals Fr)) :=
  [.read level (index + if index % 2 = 1 then 0 else 1) fun node l =>
      { l with rightValue := elementOrZero hashPair zeroHash depth level node },
    .read level (if index % 2 = 1 then index - 1 else index) fun node l =>
      { l with previousHashPath := l.previousHashPath ++
          [(elementOrZero hashPair zeroHash depth level node, l.rightValue)] }]

/-- Reading the sibling of the node just written, and hashing the two. -/
def hashWithSibling (level index : ℕ) : Instr (Option Fr) (Locals Fr) :=
  .read level (if index % 2 = 1 then index - 1 else index + 1) fun node l =>
    let sibling := elementOrZero hashPair zeroHash depth level node
    { l with newHash :=
        if index % 2 = 1 then hashPair sibling l.newHash else hashPair l.newHash sibling }

/-- `write_node`, with the hash that is carried up. -/
def writeNode (level index : ℕ) : Instr (Option Fr) (Locals Fr) :=
  .write level index fun l => some l.newHash

/-- The loop of `update_leaf_and_hash_to_root`, from a level that has been written. -/
def hashToRoot : ℕ → ℕ → List (Instr (Option Fr) (Locals Fr))
  | 0, _ => []
  | level + 1, index =>
    -- the pair on the level above, which the leader has written
    (if level + 1 > 1 then
      .waitForLevel level :: readPair hashPair zeroHash depth level (index / 2) else []) ++
    hashWithSibling hashPair zeroHash depth (level + 1) index ::
    -- the leader may still be reading the level that is written now
    (if level > 0 then [.waitForLevel (level - 1)] else []) ++
    writeNode level (index / 2) :: .signalLevel level :: hashToRoot level (index / 2)

/-- `depth_ - 1`, which is of type `size_t`. -/
def leaderLevel : ℕ → ℕ
  | 0 => 2 ^ 64 - 1
  | depth + 1 => depth

def updateLeafAndHashToRoot (index : ℕ) : List (Instr (Option Fr) (Locals Fr)) :=
  .waitForLevel (leaderLevel depth) :: readPair hashPair zeroHash depth depth index ++
    writeNode depth index :: .signalLevel depth :: hashToRoot hashPair zeroHash depth depth index

def worker (hashLeaf : IndexedLeaf Fr → Fr) (insertion : LeafInsertion Fr) :
    Worker (Option Fr) (Locals Fr) where
  locals := ⟨hashLeaf insertion.lowLeaf, zeroHash, []⟩
  rest := updateLeafAndHashToRoot hashPair zeroHash depth insertion.lowLeafIndex

variable {hashPair zeroHash depth}

theorem keepsDistance_hashToRoot (level : ℕ) :
    ∀ {waited index : ℕ}, level ≤ depth → waited ≤ level - 1 →
      KeepsDistance (depth + 1) level waited (hashToRoot hashPair zeroHash depth level index) := by
  induction level with
  | zero => intros; rfl
  | succ level ih =>
    intro waited index hlevel hwaited
    cases level with
    | zero =>
      rw [hashToRoot, if_neg (by omega), if_neg (by omega)]
      exact ⟨⟨by omega, by omega, by omega, by omega⟩, ⟨rfl, by omega⟩, le_rfl,
        ih (by omega) (by omega)⟩
    | succ level =>
      rw [hashToRoot, if_pos (by omega), if_pos (by omega)]
      exact ⟨⟨by omega, by omega, by omega, by omega⟩, ⟨by omega, by omega, by omega, by omega⟩,
        ⟨by omega, by omega, by omega, by omega⟩, ⟨rfl, by omega⟩, le_rfl,
        ih (by omega) (by omega)⟩

theorem keepsDistance_updateLeafAndHashToRoot (hdepth : 0 < depth) (index : ℕ) :
    KeepsDistance (depth + 1) (depth + 1) (depth + 1)
      (updateLeafAndHashToRoot hashPair zeroHash depth index) := by
  obtain ⟨level, rfl⟩ : ∃ level, depth = level + 1 := ⟨depth - 1, by omega⟩
  refine ⟨⟨by omega, by omega, ?_, by omega⟩, ⟨by omega, by omega, ?_, by omega⟩, ⟨rfl, ?_⟩, le_rfl,
    keepsDistance_hashToRoot _ le_rfl ?_⟩ <;> simp only [leaderLevel] <;> omega

theorem lastSignal_hashToRoot (level index : ℕ) :
    lastSignal level (hashToRoot hashPair zeroHash depth level index) = 0 := by
  induction level generalizing index with
  | zero => rfl
  | succ level ih =>
    cases level with
    | zero => rfl
    | succ level => exact ih _

end Workers

/-! ### The insertion -/

section Batches

variable {Fr Leaves : Type} (leavesStore : LeavesStore Leaves Fr) (hashPair : Fr → Fr → Fr)
  (hashLeaf : IndexedLeaf Fr → Fr) (sort : List (Fr × ℕ) → List (Fr × ℕ))

variable {depth : ℕ}

def appendSubtree (zeroHash : Fr) (t : Tree Fr Leaves depth) (startIndex : ℕ) :
    Option (Tree Fr Leaves depth) := do
  let numberToInsert := leavesStore.getSize t.leaves - startIndex
  let hashesToAppend := (List.range numberToInsert).map fun i =>
    hashLeaf (leavesStore.getLeaf t.leaves (startIndex + i))
  let tree ← AppendOnlyTree.addValues hashPair zeroHash t.toAppendOnlyTree hashesToAppend
  return { t with toAppendOnlyTree := tree }

variable [Zero Fr]

def zeroHash : Fr := hashLeaf ⟨0, 0, 0⟩

/-- The initial leaves: a chain in the order of the values, whose last leaf points to the first. -/
def initialLeaves [NatCast Fr] (leaves : Leaves) (initialSize : ℕ) : Leaves :=
  let leaves := (List.range initialSize).foldl (fun leaves i =>
    leavesStore.appendLeaf leaves ⟨(i : ℕ), i + 1, (i + 1 : ℕ)⟩) leaves
  let last := leavesStore.getLeaf leaves (initialSize - 1)
  leavesStore.setAtIndex leaves (initialSize - 1) ⟨last.value, 0, 0⟩ false

def new [NatCast Fr] (leaves : Leaves) (depth initialSize : ℕ) : Option (Tree Fr Leaves depth) :=
  let t := AppendOnlyTree.new hashPair (zeroHash hashLeaf) depth
  appendSubtree leavesStore hashPair hashLeaf (zeroHash hashLeaf)
    { t with leaves := initialLeaves leavesStore leaves initialSize } 0

/-- The first phase of a batch: the leaf insertions and the leaves after them.  How `std::sort`
orders equal values is left open. -/
def insertionsOf (t : Tree Fr Leaves depth) (values : List Fr) :
    List (LeafInsertion Fr) × Leaves :=
  findInsertions leavesStore (leavesStore.getSize t.leaves) (sort values.zipIdx) t.leaves

def workersOf (t : Tree Fr Leaves depth) (values : List Fr) :
    List (Worker (Option Fr) (Locals Fr)) :=
  (insertionsOf leavesStore sort t values).1.map
    (worker hashPair (zeroHash hashLeaf) depth hashLeaf)

/-- The end of a batch, from what the workers leave: the new leaves are appended, and the hash paths
returned. -/
def finish (t : Tree Fr Leaves depth) (values : List Fr)
    (result : List (Locals Fr) × (ℕ × ℕ → Option Fr)) :
    Option (Tree Fr Leaves depth × List (List (Fr × Fr))) := do
  let leaves := (insertionsOf leavesStore sort t values).2
  let t' ← appendSubtree leavesStore hashPair hashLeaf (zeroHash hashLeaf)
    { t with store := result.2, leaves := leaves } (leavesStore.getSize t.leaves)
  return (t', result.1.map Locals.previousHashPath)

/-- What the workers leave when each runs completely before the next one. -/
def updateInSeries (t : Tree Fr Leaves depth) (values : List Fr) :
    List (Locals Fr) × (ℕ × ℕ → Option Fr) :=
  serial (workersOf leavesStore hashPair hashLeaf sort t values) t.store

def addOrUpdateValues (t : Tree Fr Leaves depth) (values : List Fr) :
    Option (Tree Fr Leaves depth × List (List (Fr × Fr))) :=
  finish leavesStore hashPair hashLeaf sort t values
    (updateInSeries leavesStore hashPair hashLeaf sort t values)

/-- The workers of `add_or_update_values` before they move. -/
def startWorkers (t : Tree Fr Leaves depth) (values : List Fr) :
    State (Option Fr) (Locals Fr) :=
  start (1 + depth) (workersOf leavesStore hashPair hashLeaf sort t values) t.store

def resultOf (s : State (Option Fr) (Locals Fr)) : List (Locals Fr) × (ℕ × ℕ → Option Fr) :=
  (s.workers.map Worker.locals, s.store)

/-- **Every interleaving ends like the serial execution**: once all workers have finished, the node
store and the hash paths are those of the workers one after the other, and so are the tree and the
paths that the batch ends with. -/
theorem multithreaded_eq_serial (hdepth : 0 < depth) (t : Tree Fr Leaves depth) (values : List Fr)
    (schedule : List ℕ) (s : State (Option Fr) (Locals Fr))
    (hrun : run (startWorkers leavesStore hashPair hashLeaf sort t values) schedule = some s)
    (hdone : s.Finished) : resultOf s = updateInSeries leavesStore hashPair hashLeaf sort t values ∧
      finish leavesStore hashPair hashLeaf sort t values (resultOf s) =
        addOrUpdateValues leavesStore hashPair hashLeaf sort t values := by
  have hserial : resultOf s = updateInSeries leavesStore hashPair hashLeaf sort t values := by
    refine run_eq_serial (fun worker hworker => ?_) hrun hdone
    obtain ⟨insertion, -, rfl⟩ := List.mem_map.1 hworker
    rw [Nat.add_comm]
    exact keepsDistance_updateLeafAndHashToRoot hdepth _
  exact ⟨hserial, by rw [hserial]; rfl⟩

/-- **The workers of a batch cannot block each other**: however they are scheduled, some worker can
move until all have finished, which they have after as many steps as they have instructions. -/
theorem workers_progress (t : Tree Fr Leaves depth) (values : List Fr) (schedule : List ℕ)
    {s : State (Option Fr) (Locals Fr)}
    (hrun : run (startWorkers leavesStore hashPair hashLeaf sort t values) schedule = some s) :
    schedule.length + s.remaining =
        (startWorkers leavesStore hashPair hashLeaf sort t values).remaining ∧
      (s.Finished ∨ ∃ i s', step s i = some s') := by
  refine run_progress (fun worker hworker => ?_) schedule hrun
  obtain ⟨insertion, -, rfl⟩ := List.mem_map.1 hworker
  exact lastSignal_hashToRoot depth _

end Batches

/-! ### Two batches of two values -/

def pairHashLeaf (leaf : IndexedLeaf ℕ) : ℕ :=
  pairHash leaf.value (pairHash leaf.nextIndex leaf.nextValue)

def sortDescending (values : List (ℕ × ℕ)) : List (ℕ × ℕ) :=
  values.insertionSort fun a b => b.1 ≤ a.1

/-- In a tree of depth two, the second worker starts before the first one has finished. -/
theorem multithreaded_eq_serial_two :
    ∃ (t : Tree ℕ (LeavesCache ℕ) 2) (s : State (Option ℕ) (Locals ℕ)),
      new LeavesCache.store pairHash pairHashLeaf ⟨[], []⟩ 2 1 = some t ∧
      run (startWorkers LeavesCache.store pairHash pairHashLeaf sortDescending t [5, 3])
        (List.replicate 12 0 ++ List.replicate 5 1 ++ List.replicate 3 0 ++
          List.replicate 10 1) = some s ∧ resultOf s =
        updateInSeries LeavesCache.store pairHash pairHashLeaf sortDescending t [5, 3] ∧
      finish LeavesCache.store pairHash pairHashLeaf sortDescending t [5, 3] (resultOf s) =
        addOrUpdateValues LeavesCache.store pairHash pairHashLeaf sortDescending t [5, 3] := by
  have hall : ((new LeavesCache.store pairHash pairHashLeaf ⟨[], []⟩ 2 1).bind fun t =>
      (run (startWorkers LeavesCache.store pairHash pairHashLeaf sortDescending t [5, 3])
        (List.replicate 12 0 ++ List.replicate 5 1 ++ List.replicate 3 0 ++
          List.replicate 10 1)).map fun s => s.workers.all fun worker => worker.rest.isEmpty) =
      some true := by decide
  obtain ⟨t, ht, hall⟩ := Option.bind_eq_some_iff.1 hall
  obtain ⟨s, hrun, hdone⟩ := Option.map_eq_some_iff.1 hall
  refine ⟨t, s, ht, hrun, multithreaded_eq_serial _ _ _ _ (by decide) t [5, 3] _ s hrun ?_⟩
  intro worker hworker
  exact List.isEmpty_iff.1 (List.all_eq_true.1 hdone worker hworker)

/-- In a tree of depth zero no worker waits: both read the leaf before one of them writes it. -/
theorem not_multithreaded_eq_serial :
    ¬∀ (depth : ℕ) (t : Tree ℕ (LeavesCache ℕ) depth) (values : List ℕ) (schedule : List ℕ)
      (s : State (Option ℕ) (Locals ℕ)),
      run (startWorkers LeavesCache.store pairHash pairHashLeaf sortDescending t values)
        schedule = some s → s.Finished → resultOf s =
          updateInSeries LeavesCache.store pairHash pairHashLeaf sortDescending t values := by
  intro h
  have hpaths : ((new LeavesCache.store pairHash pairHashLeaf ⟨[], []⟩ 0 1).bind fun t =>
      (run (startWorkers LeavesCache.store pairHash pairHashLeaf sortDescending t [5, 0])
        [1, 1, 1, 0, 0, 0, 0, 0, 1, 1]).map fun s =>
          (s.workers.all fun worker => worker.rest.isEmpty) &&
            decide ((resultOf s).1 ≠ (updateInSeries LeavesCache.store pairHash pairHashLeaf
              sortDescending t [5, 0]).1)) = some true := by decide
  obtain ⟨t, -, hpaths⟩ := Option.bind_eq_some_iff.1 hpaths
  obtain ⟨s, hrun, hboth⟩ := Option.map_eq_some_iff.1 hpaths
  rw [Bool.and_eq_true, decide_eq_true_eq] at hboth
  refine hboth.2 (congrArg Prod.fst (h 0 t [5, 0] _ s hrun fun worker hworker => ?_))
  exact List.isEmpty_iff.1 (List.all_eq_true.1 hboth.1 worker hworker)

/-- The first worker has run to its end, and the second one may go on. -/
theorem workers_progress_two : ∃ (t : Tree ℕ (LeavesCache ℕ) 2) (s : State (Option ℕ) (Locals ℕ)),
    new LeavesCache.store pairHash pairHashLeaf ⟨[], []⟩ 2 1 = some t ∧
    12 + s.remaining =
      (startWorkers LeavesCache.store pairHash pairHashLeaf sortDescending t [5, 3]).remaining ∧
    (s.Finished ∨ ∃ i s', step s i = some s') := by
  have hsome : ((new LeavesCache.store pairHash pairHashLeaf ⟨[], []⟩ 2 1).bind fun t =>
      (run (startWorkers LeavesCache.store pairHash pairHashLeaf sortDescending t [5, 3])
        (List.replicate 12 0)).map fun s => (t, s)).isSome = true := by decide
  obtain ⟨⟨t, s⟩, h⟩ := Option.isSome_iff_exists.1 hsome
  obtain ⟨t, ht, h⟩ := Option.bind_eq_some_iff.1 h
  obtain ⟨s, hrun, -⟩ := Option.map_eq_some_iff.1 h
  exact ⟨t, s, ht, workers_progress LeavesCache.store pairHash pairHashLeaf sortDescending t [5, 3]
    (List.replicate 12 0) hrun⟩

end CppIndexedTree
