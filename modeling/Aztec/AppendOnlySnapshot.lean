/-
**Historical snapshots of an append-only tree.**

The builder keeps, for every node, one value and the block that last changed it, and for every
snapshotted block the root and the number of leaves.  A snapshot walks over the committed tree from
the root and stops at nodes whose recorded value is the current one.  Reading the tree of an
earlier block takes a recorded value that was there already, and rebuilds what changed later from
the leaves, which never change.

Stopping at unchanged nodes loses the leaves that are appended without changing a node above them:
leaves that hold the initial value, in a subtree that was recorded before.
-/

import Aztec.TreeBase

open Merkle List

/-- The state of `AppendOnlySnapshotBuilder`: the maps `nodeValue`, `nodeLastModifiedByBlock` and
`snapshotMetadata`, the last with the root and the number of leaves. -/
structure AppendOnlySnapshotBuilder (Buffer : Type) where
  nodeValue : ℕ × ℕ → Option Buffer
  nodeLastModifiedByBlock : ℕ × ℕ → Option ℕ
  snapshotMetadata : ℕ → Option (Buffer × ℕ)

/-- `AppendOnlySnapshot`: it reads the maps of the builder as they are when it is asked. -/
structure AppendOnlySnapshot (Buffer : Type) (depth : ℕ) where
  nodes : ℕ × ℕ → Option Buffer
  nodeHistory : ℕ × ℕ → Option ℕ
  block : ℕ
  leafCount : ℕ
  historicalRoot : Buffer

/-! ### Reading a snapshot -/

namespace AppendOnlySnapshot

variable {Buffer : Type} {depth : ℕ} (hash : Buffer → Buffer → Buffer) (initialLeaf : Buffer)
  (s : AppendOnlySnapshot Buffer depth)

/-- `getHistoricalNodeValue`.  The first argument is `depth + 1 - level`; below the level
`depth + 1` the exponent of `2n ** BigInt(depth - level)` is negative. -/
def getHistoricalNodeValue : ℕ → ℕ → ℕ → Except String Buffer
  | h, level, index =>
    match s.nodeHistory (level, index) with
    | none => TreeBase.getZeroHash hash initialLeaf depth level
    | some blockNumber =>
      if blockNumber ≤ s.block then
        match s.nodes (level, index) with
        | some value => .ok value
        | none => .error "undefined"
      else
        match h with
        | 0 => .error "Exponent must be non-negative"
        | h + 1 =>
          if index * 2 ^ (depth - level) ≥ s.leafCount then
            TreeBase.getZeroHash hash initialLeaf depth level
          else do
            let lhs ← getHistoricalNodeValue h (level + 1) (2 * index)
            let rhs ← getHistoricalNodeValue h (level + 1) (2 * index + 1)
            return hash lhs rhs

/-- The loop of `getSiblingPath`, from a level down to the root. -/
def siblingPathFrom : ℕ → ℕ → Except String (List Buffer)
  | 0, _ => .ok []
  | level + 1, index => do
    let sibling ← getHistoricalNodeValue hash initialLeaf s (depth - level) (level + 1)
      (siblingIndex index)
    let path ← siblingPathFrom level (index / 2)
    return sibling :: path

def getSiblingPath (index : ℕ) : Except String (List Buffer) :=
  siblingPathFrom hash initialLeaf s depth index

def getNumLeaves : ℕ := s.leafCount

def getRoot : Buffer := s.historicalRoot

def getLeafValue (index : ℕ) : Option Buffer :=
  match s.nodeHistory (depth, index) with
  | none => none
  | some blockNumber => if blockNumber ≤ s.block then s.nodes (depth, index) else none

end AppendOnlySnapshot

/-! ### Taking a snapshot -/

namespace AppendOnlySnapshotBuilder

section Model

variable {Buffer : Type} {depth : ℕ}

def new : AppendOnlySnapshotBuilder Buffer := ⟨fun _ => none, fun _ => none, fun _ => none⟩

def getSnapshot (b : AppendOnlySnapshotBuilder Buffer) (depth block : ℕ) :
    Except String (AppendOnlySnapshot Buffer depth) :=
  match b.snapshotMetadata block with
  | none => .error ("Snapshot for tree at block " ++ toString block ++ " does not exist")
  | some (root, numLeaves) => .ok ⟨b.nodeValue, b.nodeLastModifiedByBlock, block, numLeaves, root⟩

/-- Tagging a node with its value and the block that modified it. -/
def record (b : AppendOnlySnapshotBuilder Buffer) (block : ℕ) (key : ℕ × ℕ) (node : Buffer) :
    AppendOnlySnapshotBuilder Buffer :=
  { b with
    nodeLastModifiedByBlock := Function.update b.nodeLastModifiedByBlock key (some block)
    nodeValue := Function.update b.nodeValue key (some node) }

/-- An entry of the queue for a child, if the child is stored. -/
def enqueue (child : Option Buffer) (level index : ℕ) : List (Buffer × ℕ × ℕ) :=
  match child with
  | none => []
  | some node => [(node, level, index)]

theorem sum_children_lt (lhs rhs : Option Buffer) (i j : ℕ) {level : ℕ} (hlevel : level < depth) :
    ((enqueue lhs (level + 1) i ++ enqueue rhs (level + 1) j).map fun q =>
      3 ^ (depth + 1 - q.2.1)).sum < 3 ^ (depth + 1 - level) := by
  have hheight : depth + 1 - level = depth + 1 - (level + 1) + 1 := by omega
  have hpos : 0 < 3 ^ (depth + 1 - (level + 1)) := by positivity
  have hchild : ∀ (child : Option Buffer) (i : ℕ),
      ((enqueue child (level + 1) i).map fun q => 3 ^ (depth + 1 - q.2.1)).sum ≤
        3 ^ (depth + 1 - (level + 1)) := by
    intro child i
    cases child with
    | none => simp [enqueue]
    | some node => simp [enqueue]
  have hlhs := hchild lhs i
  have hrhs := hchild rhs j
  rw [map_append, sum_append, hheight, pow_succ]
  omega

variable [DecidableEq Buffer]

/-- The walk over the tree, with the queue of the nodes still to look at. -/
def walk (t : TreeBase Buffer depth) (block : ℕ) (queue : List (Buffer × ℕ × ℕ))
    (b : AppendOnlySnapshotBuilder Buffer) : Except String (AppendOnlySnapshotBuilder Buffer) :=
  match queue with
  | [] => .ok b
  | (node, level, index) :: queue =>
    if b.nodeValue (level, index) = some node then walk t block queue b
    else
      let b := b.record block (level, index) node
      if level + 1 > depth then walk t block queue b
      else
        match t.getNode (level + 1) (2 * index), t.getNode (level + 1) (2 * index + 1) with
        | .ok lhs, .ok rhs =>
          walk t block
            (queue ++ (enqueue lhs (level + 1) (2 * index) ++
              enqueue rhs (level + 1) (2 * index + 1))) b
        | .error e, _ => .error e
        | .ok _, .error e => .error e
termination_by (queue.map fun q => 3 ^ (depth + 1 - q.2.1)).sum
decreasing_by
  · simp only [List.map_cons, List.sum_cons]
    have : 0 < 3 ^ (depth + 1 - level) := by positivity
    omega
  · simp only [List.map_cons, List.sum_cons]
    have : 0 < 3 ^ (depth + 1 - level) := by positivity
    omega
  · have hchildren := sum_children_lt lhs rhs (2 * index) (2 * index + 1)
      (by omega : level < depth)
    simp only [List.map_append, List.sum_append, List.map_cons, List.sum_cons] at hchildren ⊢
    omega

def snapshot (b : AppendOnlySnapshotBuilder Buffer) (t : TreeBase Buffer depth) (block : ℕ) :
    Except String (AppendOnlySnapshotBuilder Buffer) :=
  match b.snapshotMetadata block with
  | some _ => .ok b
  | none => do
    let root := t.getRoot false
    let b ← walk t block [(root, 0, 0)] b
    return { b with
      snapshotMetadata := Function.update b.snapshotMetadata block
        (some (root, t.getNumLeaves false)) }

end Model

/-! ### What a snapshot does to the records -/

section Walk

variable {Buffer : Type} {depth : ℕ} {t : TreeBase Buffer depth} {block : ℕ}
  {N : ℕ × ℕ → Buffer} {b₀ b : AppendOnlySnapshotBuilder Buffer}
  {queue : List (Buffer × ℕ × ℕ)}

/-- The record of a node is not what it was before the walk. -/
def Changed (b₀ b : AppendOnlySnapshotBuilder Buffer) (key : ℕ × ℕ) : Prop :=
  b.nodeValue key ≠ b₀.nodeValue key

/-- The nodes of the tree: what is stored is a node of the perfect tree, and so is the root. -/
structure Nodes (t : TreeBase Buffer depth) (N : ℕ × ℕ → Buffer) : Prop where
  root_eq : t.root = N (0, 0)
  node_eq : ∀ {level index value}, level ≤ depth → t.nodes (level, index) = some value →
    value = N (level, index)

/-- An entry of the queue: the root, or a stored child of a node that has been changed. -/
structure Queued (t : TreeBase Buffer depth) (N : ℕ × ℕ → Buffer)
    (b₀ b : AppendOnlySnapshotBuilder Buffer) (entry : Buffer × ℕ × ℕ) : Prop where
  value_eq : entry.1 = N entry.2
  level_le : entry.2.1 ≤ depth
  index_lt : entry.2.2 < 2 ^ entry.2.1
  stored : entry.2 = (0, 0) ∨ (t.nodes entry.2).isSome
  parent : ∀ level, entry.2.1 = level + 1 → Changed b₀ b (level, entry.2.2 / 2)

/-- **The records while the walk goes on**, compared with those before it: a record is the old one
or the current node with the block of the snapshot; changed records lie below changed ones; and the
stored children of a changed node are in the queue or recorded with their current value. -/
structure Walking (t : TreeBase Buffer depth) (block : ℕ) (N : ℕ × ℕ → Buffer)
    (b₀ b : AppendOnlySnapshotBuilder Buffer) (queue : List (Buffer × ℕ × ℕ)) : Prop where
  metadata_eq : b.snapshotMetadata = b₀.snapshotMetadata
  record_eq : ∀ key,
    (b.nodeValue key = b₀.nodeValue key ∧
      b.nodeLastModifiedByBlock key = b₀.nodeLastModifiedByBlock key) ∨
    (b.nodeValue key = some (N key) ∧ b.nodeLastModifiedByBlock key = some block ∧
      b₀.nodeValue key ≠ some (N key))
  queued : ∀ entry ∈ queue, Queued t N b₀ b entry
  root : (N (0, 0), 0, 0) ∈ queue ∨ b.nodeValue (0, 0) = some (N (0, 0))
  children : ∀ {level index}, level < depth → Changed b₀ b (level, index / 2) →
    (t.nodes (level + 1, index)).isSome →
    (N (level + 1, index), level + 1, index) ∈ queue ∨
      b.nodeValue (level + 1, index) = some (N (level + 1, index))
  parent : ∀ {level index}, Changed b₀ b (level + 1, index) → Changed b₀ b (level, index / 2)
  stored : ∀ {key}, Changed b₀ b key →
    key.1 ≤ depth ∧ key.2 < 2 ^ key.1 ∧ (key = (0, 0) ∨ (t.nodes key).isSome)

theorem Walking.changed_record (h : Walking t block N b₀ b queue) {key : ℕ × ℕ}
    (hne : b.nodeValue key ≠ some (N key)) {key' : ℕ × ℕ} :
    Changed b₀ (b.record block key (N key)) key' ↔ Changed b₀ b key' ∨ key' = key := by
  unfold Changed record
  rcases eq_or_ne key' key with rfl | hkey
  · have hold : b₀.nodeValue key' ≠ some (N key') := by
      rcases h.record_eq key' with ⟨heq, -⟩ | ⟨heq, -⟩
      · rwa [← heq]
      · exact absurd heq hne
    simp [hold.symm]
  · simp [hkey]

variable {entry : Buffer × ℕ × ℕ} {level index : ℕ}

theorem Queued.mono {b' : AppendOnlySnapshotBuilder Buffer} (h : Queued t N b₀ b entry)
    (hmono : ∀ key, Changed b₀ b key → Changed b₀ b' key) : Queued t N b₀ b' entry :=
  { h with parent := fun level hlevel => hmono _ (h.parent level hlevel) }

theorem Walking.skip (h : Walking t block N b₀ b ((N (level, index), level, index) :: queue))
    (heq : b.nodeValue (level, index) = some (N (level, index))) :
    Walking t block N b₀ b queue := by
  have hleave : ∀ {level' index'}, (N (level', index'), level', index') ∈
      (N (level, index), level, index) :: queue ∨
        b.nodeValue (level', index') = some (N (level', index')) →
      (N (level', index'), level', index') ∈ queue ∨
        b.nodeValue (level', index') = some (N (level', index')) := by
    rintro level' index' (hmem | hrec)
    · rcases mem_cons.1 hmem with he | hmem
      · simp only [Prod.mk.injEq] at he
        obtain ⟨-, rfl, rfl⟩ := he
        exact .inr heq
      · exact .inl hmem
    · exact .inr hrec
  exact { h with
    queued := fun entry hentry => h.queued entry (mem_cons_of_mem _ hentry)
    root := hleave h.root
    children := fun hlevel hchanged hstored => hleave (h.children hlevel hchanged hstored) }

theorem Walking.visit {level index : ℕ} {children : List (Buffer × ℕ × ℕ)}
    (h : Walking t block N b₀ b ((N (level, index), level, index) :: queue))
    (hne : b.nodeValue (level, index) ≠ some (N (level, index)))
    (hsound : ∀ entry ∈ children, level < depth ∧ entry.1 = N entry.2 ∧ entry.2.1 = level + 1 ∧
      entry.2.2 / 2 = index ∧ (t.nodes entry.2).isSome)
    (hall : level < depth → ∀ i, i / 2 = index → (t.nodes (level + 1, i)).isSome →
      (N (level + 1, i), level + 1, i) ∈ children) :
    Walking t block N b₀ (b.record block (level, index) (N (level, index)))
      (queue ++ children) := by
  have hentry := h.queued _ mem_cons_self
  have hchanged : ∀ {key'}, Changed b₀ (b.record block (level, index) (N (level, index))) key' ↔
      Changed b₀ b key' ∨ key' = (level, index) := h.changed_record hne
  have hvalue : ∀ key', (b.record block (level, index) (N (level, index))).nodeValue key' =
      if key' = (level, index) then some (N (level, index)) else b.nodeValue key' := by
    intro key'
    simp [record, Function.update_apply]
  have hleave : ∀ {level' index'}, (N (level', index'), level', index') ∈
      (N (level, index), level, index) :: queue ∨
        b.nodeValue (level', index') = some (N (level', index')) →
      (N (level', index'), level', index') ∈ queue ++ children ∨
        (b.record block (level, index) (N (level, index))).nodeValue (level', index') =
          some (N (level', index')) := by
    intro level' index' hor
    rw [hvalue]
    split
    · next he =>
      rw [he]
      exact .inr rfl
    · next hkey =>
      rcases hor with hmem | hrec
      · rcases mem_cons.1 hmem with he | hmem
        · exact absurd (Prod.mk.inj he).2 hkey
        · exact .inl (mem_append_left _ hmem)
      · exact .inr hrec
  refine ⟨h.metadata_eq, ?_, ?_, hleave h.root, ?_, ?_, ?_⟩
  · intro key
    rcases eq_or_ne key (level, index) with rfl | hkey
    · refine .inr ⟨by simp [record], by simp [record], ?_⟩
      rcases h.record_eq (level, index) with ⟨heq, -⟩ | ⟨heq, -⟩
      · rwa [← heq]
      · exact absurd heq hne
    · simpa [record, hkey] using h.record_eq key
  · intro entry hmem
    rcases mem_append.1 hmem with hmem | hmem
    · exact (h.queued entry (mem_cons_of_mem _ hmem)).mono fun key hk => hchanged.2 (.inl hk)
    · obtain ⟨hlt, hval, hlev, hidx, hst⟩ := hsound entry hmem
      have hlt' := hentry.index_lt
      simp only at hlt'
      refine ⟨hval, by omega, ?_, .inr hst, ?_⟩
      · rw [hlev, pow_succ]
        omega
      · intro level' hlevel'
        obtain rfl : level' = level := by omega
        exact hchanged.2 (.inr (by rw [hidx]))
  · intro level' index' hlevel' hch hst
    rcases hchanged.1 hch with hch | hkey
    · exact hleave (h.children hlevel' hch hst)
    · simp only [Prod.mk.injEq] at hkey
      obtain ⟨rfl, hidx⟩ := hkey
      exact .inl (mem_append_right _ (hall hlevel' index' hidx hst))
  · intro level' index' hch
    rcases hchanged.1 hch with hch | hkey
    · exact hchanged.2 (.inl (h.parent hch))
    · simp only [Prod.mk.injEq] at hkey
      obtain ⟨rfl, rfl⟩ := hkey
      exact hchanged.2 (.inl (hentry.parent level' rfl))
  · intro key hch
    rcases hchanged.1 hch with hch | rfl
    · exact h.stored hch
    · exact ⟨hentry.level_le, hentry.index_lt, hentry.stored⟩

theorem mem_enqueue {child : Option Buffer} :
    entry ∈ enqueue child level index ↔ child = some entry.1 ∧ entry.2 = (level, index) := by
  obtain ⟨value, key⟩ := entry
  cases child with
  | none => simp [enqueue]
  | some node => simp [enqueue, eq_comm]

theorem mem_children (hN : Nodes t N) (hlevel : level < depth) :
    entry ∈ enqueue (t.nodes (level + 1, 2 * index)) (level + 1) (2 * index) ++
        enqueue (t.nodes (level + 1, 2 * index + 1)) (level + 1) (2 * index + 1) ↔
      entry.1 = N entry.2 ∧ entry.2.1 = level + 1 ∧ entry.2.2 / 2 = index ∧
        (t.nodes entry.2).isSome := by
  obtain ⟨value, level', index'⟩ := entry
  simp only [mem_append, mem_enqueue, Prod.mk.injEq]
  constructor
  · rintro (⟨hvalue, rfl, rfl⟩ | ⟨hvalue, rfl, rfl⟩)
    · exact ⟨hN.node_eq hlevel hvalue, rfl, by omega, by simp [hvalue]⟩
    · exact ⟨hN.node_eq hlevel hvalue, rfl, by omega, by simp [hvalue]⟩
  · rintro ⟨rfl, rfl, hindex, hstored⟩
    obtain ⟨value, hvalue⟩ := Option.isSome_iff_exists.1 hstored
    have hnode := hN.node_eq hlevel hvalue
    rcases (by omega : index' = 2 * index ∨ index' = 2 * index + 1) with rfl | rfl
    · exact .inl ⟨hvalue.trans (by rw [hnode]), rfl, rfl⟩
    · exact .inr ⟨hvalue.trans (by rw [hnode]), rfl, rfl⟩

theorem getNode_eq (hlevel : level ≤ depth) (hindex : index < 2 ^ level) :
    t.getNode level index = .ok (t.nodes (level, index)) := by
  rw [TreeBase.getNode, if_neg (by omega), if_neg (by omega)]

variable [DecidableEq Buffer] {b₀ : AppendOnlySnapshotBuilder Buffer}

theorem walk_walked (hN : Nodes t N) (queue : List (Buffer × ℕ × ℕ)) (b : AppendOnlySnapshotBuilder Buffer)
    (h : Walking t block N b₀ b queue) :
    ∃ b', walk t block queue b = .ok b' ∧ Walking t block N b₀ b' [] := by
  fun_induction walk t block queue b with
  | case1 b => exact ⟨b, rfl, h⟩
  | case2 b node level index queue heq ih =>
    obtain rfl : node = N (level, index) := (h.queued _ mem_cons_self).value_eq
    exact ih (h.skip heq)
  | case3 b node level index queue hne b' hdeep ih =>
    obtain rfl : node = N (level, index) := (h.queued _ mem_cons_self).value_eq
    have : Walking t block N b₀ _ (queue ++ []) := h.visit hne (by simp) (by omega)
    rw [append_nil] at this
    exact ih this
  | case4 b node level index queue hne b' hshallow lhs rhs hrhs hlhs ih =>
    have hentry := h.queued _ mem_cons_self
    obtain rfl : node = N (level, index) := hentry.value_eq
    have hindex : index < 2 ^ level := hentry.index_lt
    have hlevel : level < depth := by omega
    rw [getNode_eq hlevel (by rw [pow_succ]; omega), Except.ok.injEq] at hlhs hrhs
    subst hlhs hrhs
    refine ih (h.visit hne (fun entry hmem => ⟨hlevel, (mem_children hN hlevel).1 hmem⟩) ?_)
    intro _ i hi hstored
    exact (mem_children hN hlevel).2 ⟨rfl, rfl, hi, hstored⟩
  | case5 b node level index queue hne hshallow e hlhs =>
    have hindex : index < 2 ^ level := (h.queued _ mem_cons_self).index_lt
    rw [getNode_eq (by omega) (by rw [pow_succ]; omega)] at hlhs
    cases hlhs
  | case6 b node level index queue hne hshallow lhs e hrhs hlhs =>
    have hindex : index < 2 ^ level := (h.queued _ mem_cons_self).index_lt
    rw [getNode_eq (by omega) (by rw [pow_succ]; omega)] at hrhs
    cases hrhs

theorem snapshot_walked (hN : Nodes t N) (hnew : b₀.snapshotMetadata block = none) :
    ∃ b, Walking t block N b₀ b [] ∧ b₀.snapshot t block = .ok { b with
        snapshotMetadata :=
          Function.update b₀.snapshotMetadata block (some (t.root, t.size)) } := by
  have hstart : Walking t block N b₀ b₀ [(t.getRoot false, 0, 0)] := by
    refine ⟨rfl, fun _ => .inl ⟨rfl, rfl⟩, ?_, ?_, ?_, ?_, ?_⟩
    · rintro entry hentry
      obtain rfl := mem_singleton.1 hentry
      exact ⟨hN.root_eq, Nat.zero_le _, by simp, .inl rfl, by simp⟩
    · exact .inl (mem_singleton.2 (by rw [← hN.root_eq]; rfl))
    · exact fun _ hchanged => absurd rfl hchanged
    · exact fun hchanged => absurd rfl hchanged
    · exact fun hchanged => absurd rfl hchanged
  obtain ⟨b, hwalk, hwalked⟩ := walk_walked hN _ _ hstart
  refine ⟨b, hwalked, ?_⟩
  simp only [snapshot, hnew, hwalk, ← hwalked.metadata_eq]
  rfl

end Walk

end AppendOnlySnapshotBuilder
