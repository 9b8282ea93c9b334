/-
**Runs of a tree with full snapshots, and the sparse tree.**

A run changes a tree in some way and takes snapshots of it at increasing block numbers.  A snapshot
is *faithful* when it answers as the committed tree did when it was taken.  The first part of the
module is about any tree that extends `TreeBase`; the second is about the sparse tree.
-/

import Aztec.FullSnapshot
import Aztec.LeafArrays

open Merkle List

namespace FullSnapshots

/-! ### Runs -/

/-- The tree, the store of its snapshots, and the blocks with the trees of which snapshots have
been taken, which only the statements below speak of. -/
structure State (Buffer Entry Tree : Type) where
  tree : Tree
  builder : BaseFullTreeSnapshotBuilder Buffer Entry
  taken : List (ℕ × Tree)

inductive Action (Change : Type) where
  | change (change : Change)
  | snapshot (block : ℕ)
  deriving DecidableEq

section Run

variable {Buffer Entry Tree Change : Type} [DecidableEq Buffer] {depth : ℕ}
  (hash : Buffer → Buffer → Buffer) (initialLeaf : Buffer)
  (base : Tree → TreeBase Buffer depth) (leafPreimage : Tree → ℕ → Option Entry)
  (act : Tree → Change → Tree)

def step (s : State Buffer Entry Tree) : Action Change → State Buffer Entry Tree
  | .change change => { s with tree := act s.tree change }
  | .snapshot block =>
    match s.builder.snapshot hash initialLeaf (base s.tree) (leafPreimage s.tree) block with
    | .ok builder => { s with builder := builder, taken := s.taken ++ [(block, s.tree)] }
    | .error _ => s

def run (tree : Tree) (actions : List (Action Change)) : State Buffer Entry Tree :=
  actions.foldl (step hash initialLeaf base leafPreimage act) ⟨tree, .new, []⟩

def blocks (actions : List (Action Change)) : List ℕ :=
  actions.filterMap fun action =>
    match action with
    | .snapshot block => some block
    | .change _ => none

end Run

section Statements

variable {Buffer Entry : Type} {depth : ℕ} (hash : Buffer → Buffer → Buffer) (initialLeaf : Buffer)

/-- A snapshot answers as a committed tree: its root, and for every index its sibling path and its
leaf. -/
structure Answers (snapshot : BaseFullTreeSnapshot Buffer Entry depth)
    (tree : TreeBase Buffer depth) : Prop where
  root : snapshot.getRoot = tree.getRoot false
  numLeaves : snapshot.getNumLeaves = tree.getNumLeaves false
  siblingPath : ∀ index < 2 ^ depth, snapshot.getSiblingPath hash initialLeaf index =
    tree.getSiblingPath hash initialLeaf index false
  leafValue : ∀ index < 2 ^ depth, snapshot.getLeafValue hash initialLeaf index =
    some (tree.getLeafValue hash initialLeaf index false)

def nodeOf (tree : TreeBase Buffer depth) (level index : ℕ) : Buffer :=
  tree.getLatestValueAtIndex hash initialLeaf level index false

/-- **Inner nodes of the trees differ when they are at different heights.** -/
def HeightsApart (trees : List (TreeBase Buffer depth)) : Prop :=
  ∀ t ∈ trees, ∀ t' ∈ trees, ∀ level < depth, ∀ level' < level, ∀ i < 2 ^ level,
    ∀ j < 2 ^ level', nodeOf hash initialLeaf t level i ≠ nodeOf hash initialLeaf t' level' j

instance [DecidableEq Buffer] (trees : List (TreeBase Buffer depth)) :
    Decidable (HeightsApart hash initialLeaf trees) :=
  inferInstanceAs (Decidable (∀ t ∈ trees, ∀ t' ∈ trees, ∀ level < depth, ∀ level' < level,
    ∀ i < 2 ^ level, ∀ j < 2 ^ level',
      nodeOf hash initialLeaf t level i ≠ nodeOf hash initialLeaf t' level' j))

def versionOf (tree : TreeBase Buffer depth) (entry : ℕ → Option Entry) : Version Buffer Entry :=
  ⟨fun i => tree.getLeafValue hash initialLeaf i false, entry⟩

end Statements

/-! ### The invariant of a run -/

section Invariant

variable {Buffer Entry Tree Change : Type} {depth : ℕ}
  (hash : Buffer → Buffer → Buffer) (initialLeaf : Buffer)
  (base : Tree → TreeBase Buffer depth) (leafPreimage : Tree → ℕ → Option Entry)

/-- The nodes and the root of a committed tree are those of the perfect tree with its leaves. -/
structure Perfect (tree : TreeBase Buffer depth) : Prop where
  latest : TreeBase.LatestNodes hash initialLeaf tree false
    fun i => tree.getLeafValue hash initialLeaf i false
  root_eq : tree.root = node hash (fun i => tree.getLeafValue hash initialLeaf i false) depth 0

theorem perfect_of_contents {hash : Buffer → Buffer → Buffer} {initialLeaf : Buffer}
    {tree : TreeBase Buffer depth} {f g : ℕ → Buffer}
    (h : TreeBase.Contents hash initialLeaf tree f g) : Perfect hash initialLeaf tree := by
  have hleaf : (fun i => tree.getLeafValue hash initialLeaf i false) = f :=
    funext fun i => h.getLeafValue i false
  exact ⟨hleaf.symm ▸ h.committed, hleaf.symm ▸ h.root_eq⟩

def versions (trees : List Tree) : Set (Version Buffer Entry) :=
  {v | ∃ tree ∈ trees, v = versionOf hash initialLeaf (base tree) (leafPreimage tree)}

/-- **The invariant of a run**: what the builder has stored is what the walks over the trees taken
store, and every snapshot has its metadata. -/
structure Sound (s : State Buffer Entry Tree) : Prop where
  kept : s.builder.Kept hash initialLeaf depth
    (versions hash initialLeaf base leafPreimage (s.taken.map Prod.snd)) []
  compatible : Compatible hash initialLeaf depth
    (versions hash initialLeaf base leafPreimage (s.taken.map Prod.snd))
  perfect : ∀ entry ∈ s.taken, Perfect hash initialLeaf (base entry.2)
  metadata : ∀ entry ∈ s.taken, s.builder.snapshotMetadata entry.1 =
    some ((base entry.2).root, (base entry.2).size)
  unknown : ∀ block, block ∉ s.taken.map Prod.fst → s.builder.snapshotMetadata block = none

variable {hash initialLeaf base leafPreimage}

theorem sound_new (tree : Tree) :
    Sound hash initialLeaf base leafPreimage (⟨tree, .new, []⟩ : State Buffer Entry Tree) := by
  have hnone : ∀ v, v ∉ versions hash initialLeaf base leafPreimage ([] : List Tree) := by
    rintro v ⟨tree, htree, -⟩
    cases htree
  refine ⟨⟨?_, ?_, fun v hv => absurd hv (hnone v), fun hv => absurd hv (hnone _)⟩,
    ⟨fun hv => absurd hv (hnone _), fun hv => absurd hv (hnone _),
      fun hv => absurd hv (hnone _), fun hv => absurd hv (hnone _)⟩, ?_, ?_, fun _ _ => rfl⟩
  · intro key l r hkey
    cases hkey
  · intro key i entry hkept
    cases hkept
  · intro entry hentry
    cases hentry
  · intro entry hentry
    cases hentry

theorem versions_append (trees : List Tree) (tree : Tree) :
    versions hash initialLeaf base leafPreimage (trees ++ [tree]) =
      insert (versionOf hash initialLeaf (base tree) (leafPreimage tree))
        (versions hash initialLeaf base leafPreimage trees) := by
  ext v
  simp only [versions, mem_append, mem_singleton, Set.mem_ofPred_eq, Set.mem_insert_iff]
  constructor
  · rintro ⟨tree', hmem | rfl, rfl⟩
    · exact .inr ⟨tree', hmem, rfl⟩
    · exact .inl rfl
  · rintro (rfl | ⟨tree', hmem, rfl⟩)
    · exact ⟨tree, .inr rfl, rfl⟩
    · exact ⟨tree', .inl hmem, rfl⟩

theorem Sound.answers (hH : Function.Injective2 hash) (hdepth : 0 < depth)
    {s : State Buffer Entry Tree} (h : Sound hash initialLeaf base leafPreimage s)
    {entry : ℕ × Tree} (hentry : entry ∈ s.taken) :
    ∃ snapshot : BaseFullTreeSnapshot Buffer Entry depth,
      s.builder.getSnapshot depth entry.1 = .ok snapshot ∧
      Answers hash initialLeaf snapshot (base entry.2) ∧ ∀ index < 2 ^ depth,
        snapshot.leaves ((base entry.2).getLeafValue hash initialLeaf index false, index) =
          leafPreimage entry.2 index := by
  have hperfect := h.perfect entry hentry
  have hv : versionOf hash initialLeaf (base entry.2) (leafPreimage entry.2) ∈
      versions hash initialLeaf base leafPreimage (s.taken.map Prod.snd) :=
    ⟨entry.2, mem_map_of_mem hentry, rfl⟩
  refine ⟨⟨s.builder.nodes, (base entry.2).root, (base entry.2).size, s.builder.leaves⟩, ?_,
    ⟨rfl, rfl, fun index hindex => ?_, fun index hindex => ?_⟩, fun index hindex => ?_⟩
  · simp only [BaseFullTreeSnapshotBuilder.getSnapshot, h.metadata entry hentry]
  · rw [BaseFullTreeSnapshot.getSiblingPath_eq hH h.kept hv rfl hperfect.root_eq hindex]
    rw [TreeBase.getSiblingPath, TreeBase.siblingPathFrom_eq hperfect.latest depth le_rfl,
      Nat.sub_self]
    rfl
  · exact BaseFullTreeSnapshot.getLeafValue_eq hH h.kept hv rfl hperfect.root_eq hindex hdepth
  · exact h.kept.leaves_eq hH h.compatible hv hindex

variable [DecidableEq Buffer] {act : Tree → Change → Tree}

theorem Sound.snapshot (hH : Function.Injective2 hash) {s : State Buffer Entry Tree}
    (h : Sound hash initialLeaf base leafPreimage s) {block : ℕ}
    (hperfect : Perfect hash initialLeaf (base s.tree)) (hV : Compatible hash initialLeaf depth
      (versions hash initialLeaf base leafPreimage (s.taken.map Prod.snd ++ [s.tree])))
    (hblock : ∀ entry ∈ s.taken, entry.1 < block) : Sound hash initialLeaf base leafPreimage
        (step hash initialLeaf base leafPreimage act s (.snapshot block)) ∧
      (step hash initialLeaf base leafPreimage act s (.snapshot block)).tree = s.tree ∧
      (step hash initialLeaf base leafPreimage act s (.snapshot block)).taken =
        s.taken ++ [(block, s.tree)] := by
  have hfresh : block ∉ s.taken.map Prod.fst := by
    intro hmem
    obtain ⟨entry, hentry, rfl⟩ := mem_map.1 hmem
    exact lt_irrefl _ (hblock entry hentry)
  rw [versions_append] at hV
  obtain ⟨b, hb, hkept, hmetadata⟩ := BaseFullTreeSnapshotBuilder.snapshot_kept hH hV
    hperfect.latest hperfect.root_eq h.kept (h.unknown block hfresh)
  have hstep : step hash initialLeaf base leafPreimage act s (.snapshot block) =
      { s with builder := b, taken := s.taken ++ [(block, s.tree)] } := by
    have hb' : s.builder.snapshot hash initialLeaf (base s.tree) (leafPreimage s.tree) block =
        .ok b := hb
    simp only [step, hb']
  rw [hstep]
  refine ⟨⟨?_, ?_, ?_, ?_, ?_⟩, rfl, rfl⟩
  · rw [map_append, map_singleton, versions_append]
    exact hkept
  · rw [map_append, map_singleton, versions_append]
    exact hV
  · intro entry hentry
    rcases mem_append.1 hentry with hentry | hentry
    · exact h.perfect entry hentry
    · obtain rfl := mem_singleton.1 hentry
      exact hperfect
  · intro entry hentry
    change b.snapshotMetadata entry.1 = _
    rw [hmetadata]
    rcases mem_append.1 hentry with hentry | hentry
    · rw [Function.update_of_ne (hblock entry hentry).ne]
      exact h.metadata entry hentry
    · obtain rfl := mem_singleton.1 hentry
      rw [Function.update_self]
  · intro block' hnot
    rw [map_append, mem_append, not_or] at hnot
    change b.snapshotMetadata block' = _
    rw [hmetadata, Function.update_of_ne (by simpa using hnot.2)]
    exact h.unknown block' hnot.1

variable (hash initialLeaf base leafPreimage act)

/-- What is asked for in a run: something of every change, in the tree it is made in, and something
of the trees taken together with the current one at every snapshot. -/
def Allowed (P : Tree → Change → Prop) (C : List Tree → Prop) :
    State Buffer Entry Tree → List (Action Change) → Prop
  | _, [] => True
  | s, action :: actions =>
    (match action with
      | .change change => P s.tree change
      | .snapshot _ => C (s.taken.map Prod.snd ++ [s.tree])) ∧
    Allowed P C (step hash initialLeaf base leafPreimage act s action) actions

variable {hash initialLeaf base leafPreimage act}

theorem Sound.run (hH : Function.Injective2 hash) {P : Tree → Change → Prop}
    {C : List Tree → Prop} {K : List Tree → Tree → Prop}
    (hchange : ∀ {trees tree change}, K trees tree → P tree change → K trees (act tree change))
    (hsnapshot : ∀ {trees tree}, K trees tree → K (trees ++ [tree]) tree)
    (hperfect : ∀ {trees tree}, K trees tree → Perfect hash initialLeaf (base tree))
    (hcompatible : ∀ {trees tree}, K trees tree → C (trees ++ [tree]) →
      Compatible hash initialLeaf depth
        (versions hash initialLeaf base leafPreimage (trees ++ [tree])))
    (actions : List (Action Change)) :
    ∀ {s : State Buffer Entry Tree}, Sound hash initialLeaf base leafPreimage s →
      K (s.taken.map Prod.snd) s.tree → (blocks actions).Pairwise (· < ·) →
      (∀ entry ∈ s.taken, ∀ block ∈ blocks actions, entry.1 < block) →
      Allowed hash initialLeaf base leafPreimage act P C s actions →
        Sound hash initialLeaf base leafPreimage
            (actions.foldl (step hash initialLeaf base leafPreimage act) s) ∧
          K ((actions.foldl (step hash initialLeaf base leafPreimage act) s).taken.map Prod.snd)
            (actions.foldl (step hash initialLeaf base leafPreimage act) s).tree := by
  induction actions with
  | nil => intro s h hknown _ _ _; exact ⟨h, hknown⟩
  | cons action actions ih =>
    intro s h hknown hblocks hlater hallowed
    cases action with
    | change change =>
      exact ih (s := step hash initialLeaf base leafPreimage act s (.change change))
        ⟨h.kept, h.compatible, h.perfect, h.metadata, h.unknown⟩
        (hchange hknown hallowed.1) hblocks hlater hallowed.2
    | snapshot block =>
      have hcons : blocks (.snapshot block :: actions) = block :: blocks actions := rfl
      rw [hcons, pairwise_cons] at hblocks
      obtain ⟨hsound, htree, htaken⟩ := @Sound.snapshot Buffer Entry Tree Change depth hash
        initialLeaf base leafPreimage _ act hH s h block (hperfect hknown)
        (hcompatible hknown hallowed.1)
        fun entry hentry => hlater entry hentry block (hcons ▸ mem_cons_self)
      refine ih hsound ?_ hblocks.2 ?_ hallowed.2
      · rw [htree, htaken, map_append]
        exact hsnapshot hknown
      · intro entry hentry block' hblock'
        rw [htaken] at hentry
        rcases mem_append.1 hentry with hentry | hentry
        · exact hlater entry hentry block' (hcons ▸ mem_cons_of_mem _ hblock')
        · obtain rfl := mem_singleton.1 hentry
          exact hblocks.1 block' hblock'

end Invariant

/-! ### Heights -/

section Heights

variable {Buffer Entry Tree : Type} {depth : ℕ} {hash : Buffer → Buffer → Buffer}
  {initialLeaf : Buffer}

theorem HeightsApart.node_ne {trees : List (TreeBase Buffer depth)}
    (h : HeightsApart hash initialLeaf trees)
    (hperfect : ∀ tree ∈ trees, Perfect hash initialLeaf tree) {t t' : TreeBase Buffer depth}
    (ht : t ∈ trees) (ht' : t' ∈ trees) {height height' i j : ℕ} (hlt : height < height')
    (hdepth : height' < depth) (hi : i < 2 ^ (depth - (height + 1)))
    (hj : j < 2 ^ (depth - (height' + 1))) :
    node hash (fun i => t.getLeafValue hash initialLeaf i false) (height + 1) i ≠
      node hash (fun i => t'.getLeafValue hash initialLeaf i false) (height' + 1) j := by
  have hnode := h t ht t' ht' (depth - (height + 1)) (by omega) (depth - (height' + 1))
    (by omega) i hi j hj
  rw [nodeOf, nodeOf, (hperfect t ht).latest _ (Nat.sub_le _ _),
    (hperfect t' ht').latest _ (Nat.sub_le _ _)] at hnode
  rwa [Nat.sub_sub_self (by omega), Nat.sub_sub_self (by omega)] at hnode

end Heights

end FullSnapshots

/-! ### The sparse tree -/

namespace SparseTree

open FullSnapshots

section Model

variable {Buffer : Type} [DecidableEq Buffer] {depth : ℕ} (hash : Buffer → Buffer → Buffer)
  (initialLeaf : Buffer)

/-- What is done with a sparse tree: a leaf is updated at an index, or the changes are committed or
rolled back. -/
def act : TreeBase Buffer depth → LeafArray.Action (Buffer × ℕ) → TreeBase Buffer depth :=
  LeafArray.step fun t leaf => SparseTree.updateLeaf hash initialLeaf t leaf.1 leaf.2

def leafPreimage (_ : TreeBase Buffer depth) (_ : ℕ) : Option Empty := none

def run (depth : ℕ) (actions : List (Action (LeafArray.Action (Buffer × ℕ)))) :
    State Buffer Empty (TreeBase Buffer depth) :=
  FullSnapshots.run hash initialLeaf id leafPreimage (act hash initialLeaf)
    (TreeBase.new hash initialLeaf depth) actions

/-- At every snapshot the heights are apart, of the trees taken so far and of the current one. -/
def Apart (depth : ℕ) (actions : List (Action (LeafArray.Action (Buffer × ℕ)))) : Prop :=
  Allowed hash initialLeaf (id : TreeBase Buffer depth → TreeBase Buffer depth) leafPreimage
    (act hash initialLeaf) (fun _ _ => True) (HeightsApart hash initialLeaf)
    ⟨TreeBase.new hash initialLeaf depth, .new, []⟩ actions

end Model

section Runs

variable {Buffer : Type} [DecidableEq Buffer] {depth : ℕ} {hash : Buffer → Buffer → Buffer}
  {initialLeaf : Buffer}

theorem contents_act {t : TreeBase Buffer depth} {f g : ℕ → Buffer}
    (h : TreeBase.Contents hash initialLeaf t f g) (change : LeafArray.Action (Buffer × ℕ)) :
    ∃ f' g', TreeBase.Contents hash initialLeaf (act hash initialLeaf t change) f' g' := by
  cases change with
  | write leaf =>
    have hupdate := h.addLeafToCacheAndHashToRoot leaf.1 leaf.2
    simp only [act, LeafArray.step, updateLeaf]
    split_ifs
    · exact ⟨f, g, h⟩
    · exact ⟨f, g, h⟩
    · exact ⟨f, _, hupdate.committed, hupdate.uncommitted, hupdate.root_eq⟩
    · exact ⟨f, _, hupdate.committed, hupdate.uncommitted, hupdate.root_eq⟩
    · exact ⟨f, _, hupdate⟩
  | commit => exact ⟨g, g, h.commit⟩
  | rollback => exact ⟨f, f, h.rollback⟩

theorem run_sound (hH : Function.Injective2 hash) (depth : ℕ)
    (actions : List (Action (LeafArray.Action (Buffer × ℕ))))
    (hblocks : (blocks actions).Pairwise (· < ·)) (hapart : Apart hash initialLeaf depth actions) :
    Sound hash initialLeaf id leafPreimage (run hash initialLeaf depth actions) := by
  refine (Sound.run (K := fun trees tree => ∀ t ∈ trees ++ [tree], ∃ f g,
    TreeBase.Contents hash initialLeaf t f g) hH ?_ ?_ ?_ ?_ actions
    (sound_new (TreeBase.new hash initialLeaf depth)) ?_ hblocks ?_ hapart).1
  · intro trees tree change hcontents _ t ht
    rcases mem_append.1 ht with ht | ht
    · exact hcontents t (mem_append_left _ ht)
    · obtain rfl := mem_singleton.1 ht
      obtain ⟨f, g, h⟩ := hcontents tree (by simp)
      exact contents_act h change
  · intro trees tree hcontents t ht
    exact hcontents t (by simpa using ht)
  · intro trees tree hcontents
    obtain ⟨f, g, h⟩ := hcontents tree (by simp)
    exact perfect_of_contents h
  · intro trees tree hcontents happart
    have hperfect : ∀ t ∈ trees ++ [tree], Perfect hash initialLeaf t := by
      intro t ht
      obtain ⟨f, g, h⟩ := hcontents t ht
      exact perfect_of_contents h
    refine ⟨?_, ?_, ?_, ?_⟩
    · rintro v w ⟨t, ht, rfl⟩ ⟨t', ht', rfl⟩ height height' i j hlt hdepth hi hj
      exact happart.node_ne hperfect ht ht' hlt hdepth hi hj
    -- nothing is kept for the leaves
    · rintro v w ⟨t, ht, rfl⟩ - height i j hentry
      cases hentry
    · rintro v w ⟨t, ht, rfl⟩ - i j entry hentry
      cases hentry
    · rintro v ⟨t, ht, rfl⟩ i hentry
      cases hentry
  · intro t ht
    obtain rfl : t = TreeBase.new hash initialLeaf depth := by simpa using ht
    exact ⟨_, _, TreeBase.contents_new⟩
  · intro entry hentry
    cases hentry

end Runs

end SparseTree
