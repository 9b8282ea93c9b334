/-
**Full snapshots, which share the nodes they have in common.**

The builder walks over the committed tree of a block and stores, under the hash of every node, the
hashes of its two children.  A node whose hash has children already is passed over together with
the subtree below it, which is the same wherever the hash occurs.  At the leaves a builder may keep
more; the one for indexed trees keeps the preimage, under the hash and the index of the leaf.
Reading a snapshot goes down from its root, and a hash without children stands for an empty
subtree.

That equal hashes stand for equal subtrees presupposes that they are at one height; hashes do not
say at which.
-/

import Aztec.AppendOnlySnapshot

open Merkle List Function
open AppendOnlySnapshotBuilder (enqueue mem_enqueue getNode_eq)

/-- The state of `BaseFullTreeSnapshotBuilder`: the maps `nodes` and `snapshotMetadata`, the last
with the root and the number of leaves, and the map `leaves` of `IndexedTreeSnapshotBuilder`, which
other builders leave empty. -/
structure BaseFullTreeSnapshotBuilder (Buffer Entry : Type) where
  nodes : Buffer → Option (Buffer × Buffer)
  snapshotMetadata : ℕ → Option (Buffer × ℕ)
  leaves : Buffer × ℕ → Option Entry

/-- `BaseFullTreeSnapshot`: it reads the maps of the builder as they are when it is asked. -/
structure BaseFullTreeSnapshot (Buffer Entry : Type) (depth : ℕ) where
  db : Buffer → Option (Buffer × Buffer)
  historicRoot : Buffer
  numLeaves : ℕ
  leaves : Buffer × ℕ → Option Entry

/-! ### Reading a snapshot -/

namespace BaseFullTreeSnapshot

variable {Buffer Entry : Type} {depth : ℕ} (hash : Buffer → Buffer → Buffer)
  (initialLeaf : Buffer) (s : BaseFullTreeSnapshot Buffer Entry depth)

/-- The loop of `#getPathFromRoot`, before the path is reversed; `true` is the child on the
right. -/
def pathToRoot : ℕ → ℕ → List Bool
  | 0, _ => []
  | level + 1, leafIndex => decide (leafIndex % 2 = 1) :: pathToRoot level (leafIndex / 2)

def getPathFromRoot (depth leafIndex : ℕ) : List Bool := (pathToRoot depth leafIndex).reverse

/-- The loop of `pathFromRootToLeaf`, at a level of the tree: the nodes on the path, each with its
sibling. -/
def pathFrom : List Bool → ℕ → Buffer → List (Buffer × Buffer)
  | [], _, _ => []
  | right :: path, level, node =>
    let zeroHash := TreeBase.zeroHash hash initialLeaf depth (level + 1)
    let children := (s.db node).getD (zeroHash, zeroHash)
    let next := if right then children.2 else children.1
    let sibling := if right then children.1 else children.2
    (next, sibling) :: pathFrom path (level + 1) next

def pathFromRootToLeaf (leafIndex : ℕ) : List (Buffer × Buffer) :=
  pathFrom hash initialLeaf s (getPathFromRoot depth leafIndex) 0 s.historicRoot

def getSiblingPath (index : ℕ) : List Buffer :=
  ((pathFromRootToLeaf hash initialLeaf s index).map Prod.snd).reverse

def getLeafValue (index : ℕ) : Option Buffer :=
  ((pathFromRootToLeaf hash initialLeaf s index).map Prod.fst).getLast?

def getRoot : Buffer := s.historicRoot

def getNumLeaves : ℕ := s.numLeaves

end BaseFullTreeSnapshot

/-! ### Taking a snapshot -/

namespace BaseFullTreeSnapshotBuilder

section Model

variable {Buffer Entry : Type} {depth : ℕ}

def new : BaseFullTreeSnapshotBuilder Buffer Entry := ⟨fun _ => none, fun _ => none, fun _ => none⟩

def getSnapshot (b : BaseFullTreeSnapshotBuilder Buffer Entry) (depth version : ℕ) :
    Except String (BaseFullTreeSnapshot Buffer Entry depth) :=
  match b.snapshotMetadata version with
  | none => .error "Version does not exist"
  | some (root, numLeaves) => .ok ⟨b.nodes, root, numLeaves, b.leaves⟩

/-- `handleLeaf` of `IndexedTreeSnapshotBuilder`.  The preimages are those of
`getLatestLeafPreimageCopy`; without any it is the empty `handleLeaf` of the base class. -/
def handleLeaf (b : BaseFullTreeSnapshotBuilder Buffer Entry) (leafPreimage : ℕ → Option Entry)
    (index : ℕ) (node : Buffer) [DecidableEq Buffer] : BaseFullTreeSnapshotBuilder Buffer Entry :=
  match leafPreimage index with
  | none => b
  | some entry => { b with leaves := Function.update b.leaves (node, index) (some entry) }

variable [DecidableEq Buffer] (hash : Buffer → Buffer → Buffer) (initialLeaf : Buffer)

/-- The walk over the tree, with the queue of the nodes still to look at. -/
def walk (t : TreeBase Buffer depth) (leafPreimage : ℕ → Option Entry)
    (queue : List (Buffer × ℕ × ℕ)) (b : BaseFullTreeSnapshotBuilder Buffer Entry) :
    Except String (BaseFullTreeSnapshotBuilder Buffer Entry) :=
  match queue with
  | [] => .ok b
  | (node, level, i) :: queue =>
    if (b.nodes node).isSome then walk t leafPreimage queue b
    else if level + 1 > depth then walk t leafPreimage queue (b.handleLeaf leafPreimage i node)
    else
      match t.getNode (level + 1) (2 * i), t.getNode (level + 1) (2 * i + 1),
          TreeBase.getZeroHash hash initialLeaf depth (level + 1) with
      | .ok lhs, .ok rhs, .ok zeroHash =>
        walk t leafPreimage
          (queue ++ (enqueue lhs (level + 1) (2 * i) ++ enqueue rhs (level + 1) (2 * i + 1)))
          { b with nodes :=
              Function.update b.nodes node (some (lhs.getD zeroHash, rhs.getD zeroHash)) }
      | .error e, _, _ => .error e
      | .ok _, .error e, _ => .error e
      | .ok _, .ok _, .error e => .error e
termination_by (queue.map fun q => 3 ^ (depth + 1 - q.2.1)).sum
decreasing_by
  · simp only [map_cons, sum_cons]
    have : 0 < 3 ^ (depth + 1 - level) := by positivity
    omega
  · simp only [map_cons, sum_cons]
    have : 0 < 3 ^ (depth + 1 - level) := by positivity
    omega
  · have hchildren := AppendOnlySnapshotBuilder.sum_children_lt lhs rhs (2 * i) (2 * i + 1)
      (by omega : level < depth)
    simp only [map_append, sum_append, map_cons, sum_cons] at hchildren ⊢
    omega

def snapshot (b : BaseFullTreeSnapshotBuilder Buffer Entry) (t : TreeBase Buffer depth)
    (leafPreimage : ℕ → Option Entry) (block : ℕ) :
    Except String (BaseFullTreeSnapshotBuilder Buffer Entry) :=
  match b.snapshotMetadata block with
  | some _ => .ok b
  | none => do
    let root := t.getRoot false
    let numLeaves := t.getNumLeaves false
    let b ← walk hash initialLeaf t leafPreimage [(root, 0, 0)] b
    return { b with
      snapshotMetadata := Function.update b.snapshotMetadata block (some (root, numLeaves)) }

end Model

end BaseFullTreeSnapshotBuilder

/-! ### Versions -/

/-- A version of a tree: its leaves, and what is kept for them. -/
structure Version (Buffer Entry : Type) where
  leaf : ℕ → Buffer
  entry : ℕ → Option Entry

/-- **Versions that can share their nodes.**  Inner nodes at different heights differ, a leaf for
which something is kept differs from the inner nodes and from the initial leaf, and where it occurs
once more, it does so at the same index and the same is kept for it. -/
structure Compatible {Buffer Entry : Type} (hash : Buffer → Buffer → Buffer) (initialLeaf : Buffer)
    (depth : ℕ) (V : Set (Version Buffer Entry)) : Prop where
  heights : ∀ {v w}, v ∈ V → w ∈ V → ∀ {h k i j}, h < k → k < depth →
    i < 2 ^ (depth - (h + 1)) → j < 2 ^ (depth - (k + 1)) →
      node hash v.leaf (h + 1) i ≠ node hash w.leaf (k + 1) j
  leaves : ∀ {v w}, v ∈ V → w ∈ V → ∀ {h i j}, (v.entry i).isSome → h < depth →
    j < 2 ^ (depth - (h + 1)) → v.leaf i ≠ node hash w.leaf (h + 1) j
  places : ∀ {v w}, v ∈ V → w ∈ V → ∀ {i j entry}, v.entry i = some entry → j < 2 ^ depth →
    v.leaf i = w.leaf j → w.entry j = some entry ∧ j = i
  nonzero : ∀ {v}, v ∈ V → ∀ {i}, (v.entry i).isSome → v.leaf i ≠ initialLeaf

theorem Compatible.height_eq {Buffer Entry : Type} {hash : Buffer → Buffer → Buffer}
    {initialLeaf : Buffer} {depth : ℕ} {V : Set (Version Buffer Entry)}
    (hV : Compatible hash initialLeaf depth V) {v w : Version Buffer Entry} (hv : v ∈ V)
    (hw : w ∈ V) {h k i j : ℕ} (hh : h < depth) (hk : k < depth)
    (hi : i < 2 ^ (depth - (h + 1))) (hj : j < 2 ^ (depth - (k + 1)))
    (heq : node hash v.leaf (h + 1) i = node hash w.leaf (k + 1) j) : h = k := by
  rcases lt_trichotomy h k with hlt | rfl | hgt
  · exact absurd heq (hV.heights hv hw hlt hk hi hj)
  · rfl
  · exact absurd heq.symm (hV.heights hw hv hgt hh hj hi)

namespace BaseFullTreeSnapshotBuilder

/-! ### What is stored -/

section Kept

variable {Buffer Entry : Type} (hash : Buffer → Buffer → Buffer) (initialLeaf : Buffer) (depth : ℕ)
  (V : Set (Version Buffer Entry)) (queue : List (Buffer × ℕ × ℕ))
  (b : BaseFullTreeSnapshotBuilder Buffer Entry)

/-- A node of a version is stored, or the root of an empty subtree, or will be looked at.  For a
leaf it is what is kept for it that counts. -/
def Covered (v : Version Buffer Entry) : ℕ → ℕ → Prop
  | 0, i => ∀ entry, v.entry i = some entry →
      b.leaves (v.leaf i, i) = some entry ∨ (v.leaf i, depth, i) ∈ queue
  | h + 1, i => (b.nodes (node hash v.leaf (h + 1) i)).isSome ∨
      node hash v.leaf (h + 1) i = zeroNode hash initialLeaf (h + 1) ∨
      ∃ j, (node hash v.leaf (h + 1) i, depth - (h + 1), j) ∈ queue

/-- **What is stored while the walk goes on**: nodes of the versions with their children, and what
the versions keep for their leaves.  The roots and the children of what is stored are covered. -/
structure Kept : Prop where
  sound : ∀ {key l r}, b.nodes key = some (l, r) → ∃ v ∈ V, ∃ h < depth,
    ∃ i < 2 ^ (depth - (h + 1)), key = node hash v.leaf (h + 1) i ∧
      l = node hash v.leaf h (2 * i) ∧ r = node hash v.leaf h (2 * i + 1)
  entries : ∀ {key i entry}, b.leaves (key, i) = some entry →
    ∃ v ∈ V, key = v.leaf i ∧ v.entry i = some entry
  root : ∀ v ∈ V, Covered hash initialLeaf depth queue b v depth 0
  children : ∀ {v}, v ∈ V → ∀ {h c}, h < depth → c / 2 < 2 ^ (depth - (h + 1)) →
    (b.nodes (node hash v.leaf (h + 1) (c / 2))).isSome →
      Covered hash initialLeaf depth queue b v h c

/-- An entry of the queue is a node of the version that is walked over. -/
structure Queued (v : Version Buffer Entry) (entry : Buffer × ℕ × ℕ) : Prop where
  level_le : entry.2.1 ≤ depth
  index_lt : entry.2.2 < 2 ^ entry.2.1
  node_eq : entry.1 = node hash v.leaf (depth - entry.2.1) entry.2.2

variable {hash initialLeaf depth V queue b} {v w : Version Buffer Entry}

theorem Covered.next {b' : BaseFullTreeSnapshotBuilder Buffer Entry}
    {queue' : List (Buffer × ℕ × ℕ)} {item : Buffer × ℕ × ℕ}
    (hnodes : ∀ key, (b.nodes key).isSome → (b'.nodes key).isSome)
    (hleaves : ∀ {i entry}, v.entry i = some entry → b.leaves (v.leaf i, i) = some entry →
      b'.leaves (v.leaf i, i) = some entry) (hqueue : ∀ entry ∈ queue, entry ∈ queue')
    (hinner : item.2.1 < depth → (b'.nodes item.1).isSome)
    (hleaf : ∀ {i entry}, v.entry i = some entry → item = (v.leaf i, depth, i) →
      b'.leaves (v.leaf i, i) = some entry) {h i : ℕ} (hh : h ≤ depth)
    (hcovered : Covered hash initialLeaf depth (item :: queue) b v h i) :
    Covered hash initialLeaf depth queue' b' v h i := by
  cases h with
  | zero =>
    intro entry hentry
    rcases hcovered entry hentry with hkept | hmem
    · exact .inl (hleaves hentry hkept)
    · rcases mem_cons.1 hmem with heq | hmem
      · exact .inl (hleaf hentry heq.symm)
      · exact .inr (hqueue _ hmem)
  | succ h =>
    rcases hcovered with hsome | hzero | ⟨j, hmem⟩
    · exact .inl (hnodes _ hsome)
    · exact .inr (.inl hzero)
    · rcases mem_cons.1 hmem with heq | hmem
      · subst heq
        exact .inl (hinner (by simp only; omega))
      · exact .inr (.inr ⟨j, hqueue _ hmem⟩)

theorem Kept.skip {item : Buffer × ℕ × ℕ} (hV : Compatible hash initialLeaf depth V)
    (h : Kept hash initialLeaf depth V (item :: queue) b) (hsome : (b.nodes item.1).isSome) :
    Kept hash initialLeaf depth V queue b := by
  obtain ⟨⟨l, r⟩, hnode⟩ := Option.isSome_iff_exists.1 hsome
  obtain ⟨w, hw, k, hk, j, hj, hkey, -, -⟩ := h.sound hnode
  have hnext : ∀ {v}, v ∈ V → ∀ {h i}, h ≤ depth →
      Covered hash initialLeaf depth (item :: queue) b v h i →
        Covered hash initialLeaf depth queue b v h i := by
    intro v hv h i hh
    refine Covered.next (fun _ => id) (fun _ => id) (fun _ => id) (fun _ => hsome) ?_ hh
    -- a leaf with something kept is no inner node
    rintro i entry hentry rfl
    exact absurd hkey (hV.leaves hv hw (by rw [hentry]; rfl) hk hj)
  refine ⟨h.sound, h.entries, fun v hv => hnext hv le_rfl (h.root v hv), ?_⟩
  intro v hv h' c hh hc hstored
  exact hnext hv hh.le (h.children hv hh hc hstored)

theorem covered_child {w : Version Buffer Entry} (hV : Compatible hash initialLeaf depth V)
    (hv : v ∈ V) (hw : w ∈ V) {h c c' : ℕ} {child : Option Buffer} (hh : h < depth)
    (hc' : c' < 2 ^ (depth - h))
    (hchild : child.getD (zeroNode hash initialLeaf h) = node hash v.leaf h c')
    (hmem : ∀ entry, child = some entry → (entry, depth - h, c') ∈ queue)
    (hsame : node hash w.leaf h c = node hash v.leaf h c') :
    Covered hash initialLeaf depth queue b w h c := by
  cases h with
  | zero =>
    intro entry hentry
    obtain ⟨-, rfl⟩ := hV.places hw hv hentry hc' hsame
    cases child with
    | none => exact absurd (hsame.trans hchild.symm) (hV.nonzero hw (by rw [hentry]; rfl))
    | some leaf =>
      obtain rfl : leaf = w.leaf c' := hchild.trans hsame.symm
      exact .inr (hmem _ rfl)
  | succ h =>
    rw [Covered, hsame]
    cases child with
    | none => exact .inr (.inl hchild.symm)
    | some entry =>
      obtain rfl : entry = node hash v.leaf (h + 1) c' := hchild
      exact .inr (.inr ⟨c', hmem _ rfl⟩)

variable {level i : ℕ}

theorem queued_enqueue {child : Option Buffer} (hlevel : level ≤ depth)
    (hi : i < 2 ^ level) (hchild : child.getD (zeroNode hash initialLeaf (depth - level)) =
      node hash v.leaf (depth - level) i) :
    ∀ entry ∈ enqueue child level i, Queued hash depth v entry := by
  rintro ⟨value, key⟩ hmem
  obtain ⟨rfl, rfl⟩ : child = some value ∧ key = (level, i) := mem_enqueue.1 hmem
  exact ⟨hlevel, hi, hchild⟩

theorem Covered.of_node_eq (hV : Compatible hash initialLeaf depth V) (hv : v ∈ V) (hw : w ∈ V)
    {h c c' : ℕ} (hc' : c' < 2 ^ (depth - h)) (heq : node hash v.leaf h c = node hash w.leaf h c')
    (hcovered : Covered hash initialLeaf depth [] b w h c') :
    Covered hash initialLeaf depth queue b v h c := by
  cases h with
  | zero =>
    intro entry hentry
    obtain ⟨hentry', rfl⟩ := hV.places hv hw hentry hc' heq
    have heq : v.leaf c' = w.leaf c' := heq
    rcases hcovered entry hentry' with hkept | hmem
    · exact .inl (heq ▸ hkept)
    · cases hmem
  | succ h =>
    rw [Covered, heq]
    rcases hcovered with hsome | hzero | ⟨j, hmem⟩
    · exact .inl hsome
    · exact .inr (.inl hzero)
    · cases hmem

theorem Kept.insert (hH : Function.Injective2 hash)
    (hV : Compatible hash initialLeaf depth (insert v V)) (h : Kept hash initialLeaf depth V [] b) :
    Kept hash initialLeaf depth (insert v V) [(node hash v.leaf depth 0, 0, 0)] b := by
  have hv : v ∈ Insert.insert v V := Set.mem_insert v V
  refine ⟨?_, ?_, ?_, ?_⟩
  · intro key l r hkey
    obtain ⟨w, hw, hrest⟩ := h.sound hkey
    exact ⟨w, .inr hw, hrest⟩
  · intro key i entry hkept
    obtain ⟨w, hw, hrest⟩ := h.entries hkept
    exact ⟨w, .inr hw, hrest⟩
  · rintro w (rfl | hw)
    · cases depth with
      | zero => exact fun entry _ => .inr mem_cons_self
      | succ h => exact .inr (.inr ⟨0, by rw [Nat.sub_self]; exact mem_cons_self⟩)
    · exact (h.root w hw).of_node_eq hV (.inr hw) (.inr hw) (by simp) rfl
  · intro w hw h' c hh hc hstored
    -- the node was stored for an earlier version
    obtain ⟨⟨l, r⟩, hnode⟩ := Option.isSome_iff_exists.1 hstored
    obtain ⟨u, hu, k, hk, j, hj, heq, hl, hr⟩ := h.sound hnode
    obtain rfl := hV.height_eq hw (.inr hu) hh hk hc hj heq
    rw [heq] at hstored
    rw [node_succ, node_succ] at heq
    obtain ⟨hleft, hright⟩ := hH heq
    have hpow : 2 ^ (depth - h') = 2 * 2 ^ (depth - (h' + 1)) := by
      rw [show depth - h' = depth - (h' + 1) + 1 by omega, pow_succ, Nat.mul_comm]
    have hcovered : ∀ {c'}, c' / 2 = j → Covered hash initialLeaf depth [] b u h' c' := by
      rintro c' rfl
      exact h.children hu hh hj hstored
    rcases (by omega : c = 2 * (c / 2) ∨ c = 2 * (c / 2) + 1) with heven | hodd
    · rw [← heven] at hleft
      exact (hcovered (by omega)).of_node_eq hV hw (.inr hu) (by omega) hleft
    · rw [← hodd] at hright
      exact (hcovered (by omega)).of_node_eq hV hw (.inr hu) (by omega) hright

variable [DecidableEq Buffer]

theorem Kept.leaf {node : Buffer} (hV : Compatible hash initialLeaf depth V)
    (hv : v ∈ V) (h : Kept hash initialLeaf depth V ((node, level, i) :: queue) b)
    (hqueued : Queued hash depth v (node, level, i)) (hlevel : level = depth) :
    Kept hash initialLeaf depth V queue (b.handleLeaf v.entry i node) := by
  subst hlevel
  have hnode : node = v.leaf i := by simpa using hqueued.node_eq
  have hi : i < 2 ^ level := hqueued.index_lt
  have hstore : (b.handleLeaf v.entry i node).nodes = b.nodes ∧ ∀ key,
      (b.handleLeaf v.entry i node).leaves key =
        if key = (v.leaf i, i) then (v.entry i).or (b.leaves key) else b.leaves key := by
    unfold handleLeaf
    cases v.entry i with
    | none => exact ⟨rfl, fun key => by simp⟩
    | some entry => exact ⟨rfl, fun key => by simp [hnode, update_apply]⟩
  obtain ⟨hnodes, hleaves⟩ := hstore
  have hnext : ∀ {w}, w ∈ V → ∀ {h j}, h ≤ level →
      Covered hash initialLeaf level ((node, level, i) :: queue) b w h j →
        Covered hash initialLeaf level queue (b.handleLeaf v.entry i node) w h j := by
    intro w hw h j hh
    refine Covered.next (fun key => by rw [hnodes]; exact id) ?_ (fun _ => id)
      (fun hlt => absurd hlt (lt_irrefl _)) ?_ hh
    · intro j entry hentry hkept
      rw [hleaves]
      split
      · next hkey =>
        obtain ⟨hleaf, rfl⟩ := Prod.mk.inj hkey
        rw [(hV.places hw hv hentry hi hleaf).1, Option.some_or]
      · exact hkept
    · intro j entry hentry heq
      obtain ⟨hleaf, -, rfl⟩ : node = w.leaf j ∧ level = level ∧ i = j := by simpa using heq
      have hsame : w.leaf i = v.leaf i := hleaf.symm.trans hnode
      rw [hleaves, if_pos (by rw [hsame]), (hV.places hw hv hentry hi hsame).1, Option.some_or]
  refine ⟨hnodes ▸ h.sound, ?_, fun w hw => hnext hw le_rfl (h.root w hw), ?_⟩
  · intro key j entry hkept
    rw [hleaves] at hkept
    split at hkept
    · next hkey =>
      obtain ⟨rfl, rfl⟩ := Prod.mk.inj hkey
      rcases Option.or_eq_some_iff.1 hkept with hentry | ⟨-, hkept⟩
      · exact ⟨v, hv, rfl, hentry⟩
      · exact h.entries hkept
    · exact h.entries hkept
  · intro w hw h' c hh hc hstored
    rw [hnodes] at hstored
    exact hnext hw hh.le (h.children hw hh hc hstored)

theorem Kept.visit {node' : Buffer} {lhs rhs : Option Buffer}
    (hH : Function.Injective2 hash) (hV : Compatible hash initialLeaf depth V) (hv : v ∈ V)
    (h : Kept hash initialLeaf depth V ((node', level, i) :: queue) b)
    (hqueued : Queued hash depth v (node', level, i)) (hlevel : level < depth)
    (hlhs : lhs.getD (zeroNode hash initialLeaf (depth - (level + 1))) =
      node hash v.leaf (depth - (level + 1)) (2 * i))
    (hrhs : rhs.getD (zeroNode hash initialLeaf (depth - (level + 1))) =
      node hash v.leaf (depth - (level + 1)) (2 * i + 1)) : Kept hash initialLeaf depth V
      (queue ++ (enqueue lhs (level + 1) (2 * i) ++ enqueue rhs (level + 1) (2 * i + 1)))
      { b with nodes := update b.nodes node'
                (some (lhs.getD (zeroNode hash initialLeaf (depth - (level + 1))),
                  rhs.getD (zeroNode hash initialLeaf (depth - (level + 1))))) } := by
  obtain ⟨k, hk⟩ : ∃ k, depth - (level + 1) = k := ⟨_, rfl⟩
  have hi : i < 2 ^ level := hqueued.index_lt
  have hnode : node' = node hash v.leaf (k + 1) i := by
    have hnode : node' = node hash v.leaf (depth - level) i := hqueued.node_eq
    rwa [show depth - level = k + 1 by omega] at hnode
  have hlevel' : depth - (k + 1) = level := by omega
  have hpow : 2 ^ (depth - k) = 2 * 2 ^ level := by
    rw [show depth - k = level + 1 by omega, pow_succ, Nat.mul_comm]
  rw [hk] at hlhs hrhs ⊢
  rw [hlhs, hrhs]
  set queue' := queue ++ (enqueue lhs (level + 1) (2 * i) ++ enqueue rhs (level + 1) (2 * i + 1))
    with hqueue'
  set b' : BaseFullTreeSnapshotBuilder Buffer Entry :=
    { b with nodes := update b.nodes node'
              (some (node hash v.leaf k (2 * i), node hash v.leaf k (2 * i + 1))) } with hb'
  have hnodes : ∀ key, b'.nodes key = if key = node' then
      some (node hash v.leaf k (2 * i), node hash v.leaf k (2 * i + 1)) else b.nodes key :=
    fun key => update_apply _ _ _ _
  have hnext : ∀ {w}, w ∈ V → ∀ {h j}, h ≤ depth →
      Covered hash initialLeaf depth ((node', level, i) :: queue) b w h j →
        Covered hash initialLeaf depth queue' b' w h j := by
    intro w hw h j hh
    have hitem : (b'.nodes node').isSome := by rw [hnodes, if_pos rfl]; rfl
    refine @Covered.next Buffer Entry hash initialLeaf depth queue b w b' queue' (node', level, i)
      (fun key hkey => ?_) (fun _ => id) (fun _ => mem_append_left _) (fun _ => hitem) ?_ h j
      hh
    · rw [hnodes]
      split
      · rfl
      · exact hkey
    · intro j entry hentry heq
      obtain ⟨-, rfl, -⟩ : node' = w.leaf j ∧ level = depth ∧ i = j := by simpa using heq
      exact absurd hlevel (lt_irrefl _)
  refine ⟨?_, h.entries, fun w hw => hnext hw le_rfl (h.root w hw), ?_⟩
  · intro key l r hkey
    rw [hnodes] at hkey
    split at hkey
    · next heq =>
      obtain ⟨rfl, rfl⟩ := Prod.mk.inj (Option.some.inj hkey)
      exact ⟨v, hv, k, by omega, i, by rwa [hlevel'], heq.trans hnode, rfl, rfl⟩
    · exact h.sound hkey
  · intro w hw h' c hh hc hstored
    rw [hnodes] at hstored
    split at hstored
    · next heq =>
      rw [hnode] at heq
      obtain rfl := hV.height_eq hw hv hh (by omega) hc (by rwa [hlevel']) heq
      rw [node_succ, node_succ] at heq
      obtain ⟨hleft, hright⟩ := hH heq
      rcases (by omega : c = 2 * (c / 2) ∨ c = 2 * (c / 2) + 1) with heven | hodd
      · rw [← heven] at hleft
        refine covered_child hV hv hw hh (by omega) hlhs (fun entry hentry => ?_) hleft
        refine mem_append_right _ (mem_append_left _ (mem_enqueue.2 ⟨hentry, ?_⟩))
        rw [show depth - h' = level + 1 by omega]
      · rw [← hodd] at hright
        refine covered_child hV hv hw hh (by omega) hrhs (fun entry hentry => ?_) hright
        refine mem_append_right _ (mem_append_right _ (mem_enqueue.2 ⟨hentry, ?_⟩))
        rw [show depth - h' = level + 1 by omega]
    · exact hnext hw hh.le (h.children hw hh hc hstored)

variable {t : TreeBase Buffer depth}

theorem walk_kept (hH : Function.Injective2 hash) (hV : Compatible hash initialLeaf depth V)
    (hv : v ∈ V) (ht : TreeBase.LatestNodes hash initialLeaf t false v.leaf)
    (queue : List (Buffer × ℕ × ℕ)) (b : BaseFullTreeSnapshotBuilder Buffer Entry)
    (hqueued : ∀ entry ∈ queue, Queued hash depth v entry)
    (h : Kept hash initialLeaf depth V queue b) :
    ∃ b', walk hash initialLeaf t v.entry queue b = .ok b' ∧
      Kept hash initialLeaf depth V [] b' ∧ b'.snapshotMetadata = b.snapshotMetadata := by
  have hnode : ∀ level ≤ depth, ∀ i, (t.nodes (level, i)).getD
      (zeroNode hash initialLeaf (depth - level)) = node hash v.leaf (depth - level) i := by
    intro level hlevel i
    rw [← ht level hlevel i]
    simp [TreeBase.getLatestValueAtIndex, TreeBase.zeroHash]
  fun_induction walk hash initialLeaf t v.entry queue b with
  | case1 b => exact ⟨b, rfl, h, rfl⟩
  | case2 b node level i queue hsome ih =>
    exact ih (fun entry hentry => hqueued entry (mem_cons_of_mem _ hentry)) (h.skip hV hsome)
  | case3 b node level i queue hnone hdeep ih =>
    have hentry := hqueued _ mem_cons_self
    have hlevel : level ≤ depth := hentry.level_le
    obtain ⟨b', hwalk, hkept, hmetadata⟩ :=
      ih (fun entry hentry => hqueued entry (mem_cons_of_mem _ hentry))
        (h.leaf hV hv hentry (by omega))
    refine ⟨b', hwalk, hkept, hmetadata.trans ?_⟩
    unfold handleLeaf
    cases v.entry i with
    | none => rfl
    | some entry => rfl
  | case4 b node level i queue hnone hshallow lhs rhs zeroHash hzero hrhs hlhs ih =>
    have hentry := hqueued _ mem_cons_self
    have hlevel : level < depth := by omega
    have hi : i < 2 ^ level := hentry.index_lt
    have hi' : 2 * i + 1 < 2 ^ (level + 1) := by rw [pow_succ]; omega
    rw [getNode_eq hlevel (by omega), Except.ok.injEq] at hlhs
    rw [getNode_eq hlevel hi', Except.ok.injEq] at hrhs
    rw [TreeBase.getZeroHash, if_neg (by omega), Except.ok.injEq, TreeBase.zeroHash] at hzero
    subst hlhs hrhs hzero
    refine ih ?_ (h.visit hH hV hv hentry hlevel (hnode _ hlevel _) (hnode _ hlevel _))
    intro entry hmem
    rcases mem_append.1 hmem with hmem | hmem
    · exact hqueued entry (mem_cons_of_mem _ hmem)
    · rcases mem_append.1 hmem with hmem | hmem
      · exact queued_enqueue hlevel (by omega) (hnode _ hlevel _) entry hmem
      · exact queued_enqueue hlevel hi' (hnode _ hlevel _) entry hmem
  | case5 b node level i queue hnone hshallow e hlhs =>
    have hi : i < 2 ^ level := (hqueued _ mem_cons_self).index_lt
    rw [getNode_eq (by omega) (by rw [pow_succ]; omega)] at hlhs
    cases hlhs
  | case6 b node level i queue hnone hshallow lhs e hrhs hlhs =>
    have hi : i < 2 ^ level := (hqueued _ mem_cons_self).index_lt
    rw [getNode_eq (by omega) (by rw [pow_succ]; omega)] at hrhs
    cases hrhs
  | case7 b node level i queue hnone hshallow lhs rhs e hzero hrhs hlhs =>
    rw [TreeBase.getZeroHash, if_neg (by omega)] at hzero
    cases hzero

theorem snapshot_kept (hH : Function.Injective2 hash)
    (hV : Compatible hash initialLeaf depth (Insert.insert v V))
    (ht : TreeBase.LatestNodes hash initialLeaf t false v.leaf)
    (hroot : t.root = node hash v.leaf depth 0) (h : Kept hash initialLeaf depth V [] b)
    {block : ℕ} (hnew : b.snapshotMetadata block = none) :
    ∃ b', b.snapshot hash initialLeaf t v.entry block = .ok b' ∧
      Kept hash initialLeaf depth (Insert.insert v V) [] b' ∧ b'.snapshotMetadata =
        update b.snapshotMetadata block (some (t.root, t.size)) := by
  have hqueued : ∀ entry ∈ [(t.root, 0, 0)], Queued hash depth v entry := by
    intro entry hentry
    obtain rfl := mem_singleton.1 hentry
    exact ⟨Nat.zero_le _, Nat.one_pos, hroot⟩
  obtain ⟨b', hwalk, hkept, hmetadata⟩ :=
    walk_kept hH hV (Set.mem_insert v V) ht _ b hqueued (hroot ▸ h.insert hH hV)
  refine ⟨{ b' with
    snapshotMetadata := update b.snapshotMetadata block (some (t.root, t.size)) }, ?_,
    ⟨hkept.sound, hkept.entries, hkept.root, hkept.children⟩, rfl⟩
  have hwalk' : walk hash initialLeaf t v.entry [(t.getRoot false, 0, 0)] b = .ok b' := hwalk
  simp only [snapshot, hnew, hwalk', ← hmetadata]
  rfl

end Kept

/-! ### Reading a version back -/

section Reading

variable {Buffer Entry : Type} {hash : Buffer → Buffer → Buffer} {initialLeaf : Buffer} {depth : ℕ}
  {V : Set (Version Buffer Entry)} {b : BaseFullTreeSnapshotBuilder Buffer Entry}
  {v : Version Buffer Entry}

section

variable (hH : Function.Injective2 hash) (h : Kept hash initialLeaf depth V [] b) (hv : v ∈ V)
include hH h hv

theorem Kept.stored_or_zero (level : ℕ) :
    ∀ {height i}, height + 1 + level = depth → i < 2 ^ level →
      (b.nodes (node hash v.leaf (height + 1) i)).isSome ∨
        node hash v.leaf (height + 1) i = zeroNode hash initialLeaf (height + 1) := by
  have hresolve : ∀ {height i}, Covered hash initialLeaf depth [] b v (height + 1) i →
      (b.nodes (node hash v.leaf (height + 1) i)).isSome ∨
        node hash v.leaf (height + 1) i = zeroNode hash initialLeaf (height + 1) := by
    rintro height i (hsome | hzero | ⟨j, hmem⟩)
    · exact .inl hsome
    · exact .inr hzero
    · cases hmem
  induction level with
  | zero =>
    rintro height i rfl hi
    obtain rfl : i = 0 := by simpa using hi
    exact hresolve (h.root v hv)
  | succ level ih =>
    intro height i hdepth hi
    have hi' : i / 2 < 2 ^ level := by rw [pow_succ] at hi; omega
    rcases @ih (height + 1) (i / 2) (by omega) hi' with hsome | hzero
    · refine hresolve (h.children hv (by omega) ?_ hsome)
      rwa [show depth - (height + 1 + 1) = level by omega]
    · rw [node_succ, zeroNode_succ] at hzero
      obtain ⟨hleft, hright⟩ := hH hzero
      rcases (by omega : i = 2 * (i / 2) ∨ i = 2 * (i / 2) + 1) with heven | hodd
      · rw [← heven] at hleft
        exact .inr hleft
      · rw [← hodd] at hright
        exact .inr hright

theorem Kept.getD_nodes {height i : ℕ} (hheight : height < depth) (hi : i < 2 ^ (depth - (height + 1))) :
    (b.nodes (node hash v.leaf (height + 1) i)).getD
        (zeroNode hash initialLeaf height, zeroNode hash initialLeaf height) =
      (node hash v.leaf height (2 * i), node hash v.leaf height (2 * i + 1)) := by
  cases hget : b.nodes (node hash v.leaf (height + 1) i) with
  | none =>
    have hzero : node hash v.leaf (height + 1) i = zeroNode hash initialLeaf (height + 1) := by
      refine (h.stored_or_zero hH hv (depth - (height + 1)) (by omega) hi).resolve_left ?_
      rw [hget]
      exact Bool.false_ne_true
    rw [node_succ, zeroNode_succ] at hzero
    obtain ⟨hleft, hright⟩ := hH hzero
    rw [Option.getD_none, hleft, hright]
  | some children =>
    obtain ⟨l, r⟩ := children
    obtain ⟨w, -, k, -, j, -, hkey, rfl, rfl⟩ := h.sound hget
    rw [node_succ, node_succ] at hkey
    obtain ⟨hleft, hright⟩ := hH hkey
    rw [Option.getD_some, hleft, hright]

end

end Reading

end BaseFullTreeSnapshotBuilder

namespace BaseFullTreeSnapshot

variable {Buffer Entry : Type} {hash : Buffer → Buffer → Buffer} {initialLeaf : Buffer} {depth : ℕ}
  {V : Set (Version Buffer Entry)} {b : BaseFullTreeSnapshotBuilder Buffer Entry}
  {v : Version Buffer Entry}

theorem getPathFromRoot_succ (level leafIndex : ℕ) : getPathFromRoot (level + 1) leafIndex =
    decide (leafIndex / 2 ^ level % 2 = 1) :: getPathFromRoot level leafIndex := by
  induction level generalizing leafIndex with
  | zero => simp [getPathFromRoot, pathToRoot]
  | succ level ih =>
    have hstep : ∀ level, getPathFromRoot (level + 1) leafIndex =
        getPathFromRoot level (leafIndex / 2) ++ [decide (leafIndex % 2 = 1)] := by
      intro level
      rw [getPathFromRoot, pathToRoot, reverse_cons]
      rfl
    rw [hstep (level + 1), ih, hstep level, div_two_div_pow, cons_append]

theorem pathFrom_eq (hH : Function.Injective2 hash)
    (h : BaseFullTreeSnapshotBuilder.Kept hash initialLeaf depth V [] b) (hv : v ∈ V)
    {s : BaseFullTreeSnapshot Buffer Entry depth} (hdb : s.db = b.nodes) {index : ℕ}
    (hindex : index < 2 ^ depth) (height : ℕ) :
    height ≤ depth → pathFrom hash initialLeaf s (getPathFromRoot height index) (depth - height)
        (node hash v.leaf height (index / 2 ^ height)) =
      (List.range height).reverse.map fun k => (node hash v.leaf k (index / 2 ^ k),
        node hash v.leaf k (siblingIndex (index / 2 ^ k))) := by
  induction height with
  | zero => intro _; rfl
  | succ height ih =>
    intro hheight
    have hi : index / 2 ^ (height + 1) < 2 ^ (depth - (height + 1)) := by
      rw [Nat.div_lt_iff_lt_mul (by positivity), ← pow_add]
      rwa [show depth - (height + 1) + (height + 1) = depth by omega]
    have hlevel : depth - (height + 1) + 1 = depth - height := by omega
    have hchildren := h.getD_nodes hH hv (by omega : height < depth) hi
    rw [getPathFromRoot_succ, pathFrom, range_succ, reverse_append,
      reverse_singleton, singleton_append, map_cons, ← ih (by omega), hlevel,
      TreeBase.zeroHash, show depth - (depth - height) = height by omega]
    simp only [hdb, hchildren]
    rw [← div_pow_div_two]
    by_cases hright : index / 2 ^ height % 2 = 1
    · rw [siblingIndex_of_odd hright,
        show 2 * (index / 2 ^ height / 2) + 1 = index / 2 ^ height by omega]
      simp only [hright, decide_true, if_true]
    · rw [siblingIndex_of_even hright,
        show 2 * (index / 2 ^ height / 2) = index / 2 ^ height by omega]
      simp only [hright, decide_false, Bool.false_eq_true, if_false]

theorem siblings_eq_map (f : ℕ → Buffer) (n : ℕ) : ∀ h i, siblings hash f h i n =
    (List.range n).map fun k => node hash f (h + k) (siblingIndex (i / 2 ^ k)) := by
  induction n with
  | zero => intro h i; rfl
  | succ n ih =>
    intro h i
    rw [siblings_succ, ih, range_succ_eq_map, map_cons, List.map_map, pow_zero, Nat.div_one]
    refine congrArg _ (map_congr_left fun k _ => ?_)
    rw [comp_apply, div_two_div_pow, Nat.add_assoc, Nat.add_comm 1 k]

variable (hH : Function.Injective2 hash)
  (h : BaseFullTreeSnapshotBuilder.Kept hash initialLeaf depth V [] b) (hv : v ∈ V)
  {s : BaseFullTreeSnapshot Buffer Entry depth} (hdb : s.db = b.nodes)
  (hroot : s.historicRoot = node hash v.leaf depth 0) {index : ℕ} (hindex : index < 2 ^ depth)
include hH h hv hdb hroot hindex

theorem pathFromRootToLeaf_eq : pathFromRootToLeaf hash initialLeaf s index =
    (List.range depth).reverse.map fun k =>
      (node hash v.leaf k (index / 2 ^ k), node hash v.leaf k (siblingIndex (index / 2 ^ k))) := by
  have hpath := pathFrom_eq hH h hv hdb hindex depth le_rfl
  rw [Nat.sub_self, Nat.div_eq_of_lt hindex, ← hroot] at hpath
  exact hpath

theorem getSiblingPath_eq : getSiblingPath hash initialLeaf s index =
    siblings hash v.leaf 0 index depth := by
  rw [getSiblingPath, pathFromRootToLeaf_eq hH h hv hdb hroot hindex, siblings_eq_map]
  simp [map_reverse]

theorem getLeafValue_eq (hdepth : 0 < depth) :
    getLeafValue hash initialLeaf s index = some (v.leaf index) := by
  obtain ⟨n, rfl⟩ : ∃ n, depth = n + 1 := ⟨depth - 1, by omega⟩
  rw [getLeafValue, pathFromRootToLeaf_eq hH h hv hdb hroot hindex, range_succ_eq_map]
  simp

end BaseFullTreeSnapshot

namespace BaseFullTreeSnapshotBuilder

theorem Kept.leaves_eq {Buffer Entry : Type} {hash : Buffer → Buffer → Buffer}
    {initialLeaf : Buffer} {depth : ℕ} {V : Set (Version Buffer Entry)}
    {b : BaseFullTreeSnapshotBuilder Buffer Entry} {v : Version Buffer Entry}
    (hH : Function.Injective2 hash) (hV : Compatible hash initialLeaf depth V)
    (h : Kept hash initialLeaf depth V [] b) (hv : v ∈ V) {index : ℕ} (hindex : index < 2 ^ depth) :
    b.leaves (v.leaf index, index) = v.entry index := by
  have hcovered : Covered hash initialLeaf depth [] b v 0 index := by
    cases depth with
    | zero =>
      obtain rfl : index = 0 := by simpa using hindex
      exact h.root v hv
    | succ depth =>
      have hi : index / 2 < 2 ^ depth := by rw [pow_succ] at hindex; omega
      have hparent : _ ∨ node hash v.leaf 1 (index / 2) = zeroNode hash initialLeaf 1 :=
        h.stored_or_zero hH hv depth (Nat.add_comm _ _) hi
      rcases hparent with hsome | hzero
      · exact h.children hv (Nat.succ_pos _) hi hsome
      · -- nothing is kept in an empty subtree
        intro entry hentry
        refine absurd ?_ (hV.nonzero hv (by rw [hentry]; rfl : (v.entry index).isSome))
        exact eq_of_node_eq_zeroNode hH hzero (pow_one 2 ▸ rfl)
  cases hentry : v.entry index with
  | some entry => exact (hcovered entry hentry).resolve_right not_mem_nil
  | none =>
    cases hkept : b.leaves (v.leaf index, index) with
    | none => rfl
    | some entry =>
      obtain ⟨w, hw, hleaf, hentry'⟩ := h.entries hkept
      rw [(hV.places hw hv hentry' hindex hleaf.symm).1] at hentry
      cases hentry

end BaseFullTreeSnapshotBuilder
