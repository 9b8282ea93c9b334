/-
**Runs of an append-only tree with snapshots.**

A `StandardTree` is a `TreeBase` whose leaves are only appended, with a snapshot builder.  A run
appends leaves, commits, rolls back and takes snapshots at increasing block numbers.  A snapshot is
*faithful* when it answers as the committed tree did when it was taken.
-/

import Aztec.AppendOnlySnapshot
import Aztec.Failing

open List
open Option (some)

namespace StandardTree

open Merkle TreeBase AppendOnlySnapshotBuilder Failing

/-! ### Runs -/

/-- The tree, the records of its snapshots, and the blocks with the trees of which snapshots have
been taken, which only the statements below speak of. -/
structure State (Buffer : Type) (depth : ℕ) where
  tree : TreeBase Buffer depth
  builder : AppendOnlySnapshotBuilder Buffer
  taken : List (ℕ × TreeBase Buffer depth)

inductive Action (Buffer : Type) where
  | appendLeaves (leaves : List Buffer)
  | commit
  | rollback
  | snapshot (block : ℕ)
  deriving DecidableEq

section Run

variable {Buffer : Type} [DecidableEq Buffer] (hash : Buffer → Buffer → Buffer)
  (initialLeaf : Buffer) (depth : ℕ)

/-- One action.  Leaves that do not fit are not appended. -/
def step (s : State Buffer depth) : Action Buffer → State Buffer depth
  | .appendLeaves leaves =>
    match TreeBase.appendLeaves hash initialLeaf s.tree leaves with
    | .ok tree => { s with tree := tree }
    | .error _ => s
  | .commit => { s with tree := s.tree.commit }
  | .rollback => { s with tree := s.tree.rollback }
  | .snapshot block =>
    match s.builder.snapshot s.tree block with
    | .ok builder => { s with builder := builder, taken := s.taken ++ [(block, s.tree)] }
    | .error _ => s

def run (actions : List (Action Buffer)) : State Buffer depth :=
  actions.foldl (step hash initialLeaf depth) ⟨TreeBase.new hash initialLeaf depth, .new, []⟩

def blocks (actions : List (Action Buffer)) : List ℕ :=
  actions.filterMap fun action =>
    match action with
    | .snapshot block => some block
    | _ => none

end Run

section Statements

variable {Buffer : Type} (hash : Buffer → Buffer → Buffer) (initialLeaf : Buffer) {depth : ℕ}

/-- The snapshot of a block answers as the committed tree did: its root, its number of leaves, the
sibling path of every index, and every leaf. -/
def Faithful (builder : AppendOnlySnapshotBuilder Buffer) (block : ℕ)
    (tree : TreeBase Buffer depth) : Prop :=
  ∃ snapshot : AppendOnlySnapshot Buffer depth, builder.getSnapshot depth block = .ok snapshot ∧
    snapshot.getRoot = tree.getRoot false ∧
    snapshot.getNumLeaves = tree.getNumLeaves false ∧
    (∀ index, snapshot.getSiblingPath hash initialLeaf index =
      .ok (tree.getSiblingPath hash initialLeaf index false)) ∧
    ∀ index < tree.getNumLeaves false,
      snapshot.getLeafValue index = some (tree.getLeafValue hash initialLeaf index false)

/-- Every committed leaf that has no record yet will get one: on the way to it the walk meets no
node whose record is its current value. -/
def EveryLeafReached (s : State Buffer depth) : Prop :=
  ∀ i < s.tree.size, s.builder.nodeValue (depth, i) = none → ∀ level < depth,
    s.builder.nodeValue (level, i / 2 ^ (depth - level)) ≠
      some (s.tree.getLatestValueAtIndex hash initialLeaf level (i / 2 ^ (depth - level)) false)

end Statements

/-! ### The tree -/

section Grown

variable {Buffer : Type} (hash : Buffer → Buffer → Buffer) (initialLeaf : Buffer) {depth : ℕ}

def leafOf (t : TreeBase Buffer depth) (includeUncommitted : Bool) : ℕ → Buffer :=
  fun i => t.getLeafValue hash initialLeaf i includeUncommitted

/-- The committed nodes of the tree, by level and index. -/
def nodeOf (t : TreeBase Buffer depth) (key : ℕ × ℕ) : Buffer :=
  node hash (leafOf hash initialLeaf t false) (depth - key.1) key.2

/-- **The invariant of the tree**: the nodes are those of the perfect tree, the leaves beyond the
number of leaves hold the initial value, and the nodes above a leaf are stored. -/
structure Grown (t : TreeBase Buffer depth) : Prop where
  contents : Contents hash initialLeaf t (leafOf hash initialLeaf t false)
    (leafOf hash initialLeaf t true)
  size_le : t.size ≤ t.getNumLeaves true
  numLeaves_le : t.getNumLeaves true ≤ 2 ^ depth
  committed_empty : ∀ i, t.size ≤ i → leafOf hash initialLeaf t false i = initialLeaf
  uncommitted_empty : ∀ i, t.getNumLeaves true ≤ i → leafOf hash initialLeaf t true i = initialLeaf
  uncommitted_eq : ∀ i < t.size,
    leafOf hash initialLeaf t true i = leafOf hash initialLeaf t false i
  stored : ∀ i < t.size, ∀ level ≤ depth, (t.nodes (level, i / 2 ^ (depth - level))).isSome
  written : ∀ i < t.getNumLeaves true, ∀ level ≤ depth,
    t.Written (level, i / 2 ^ (depth - level))

structure Extends (t t' : TreeBase Buffer depth) : Prop where
  size_le : t.size ≤ t'.size
  leaf_eq : ∀ i < t.size, leafOf hash initialLeaf t' false i = leafOf hash initialLeaf t false i
  stored : ∀ key, (t.nodes key).isSome → (t'.nodes key).isSome

variable {hash initialLeaf} {t t' t'' : TreeBase Buffer depth}

theorem Extends.refl (t : TreeBase Buffer depth) : Extends hash initialLeaf t t :=
  ⟨le_rfl, fun _ _ => rfl, fun _ => id⟩

theorem Extends.trans (h : Extends hash initialLeaf t t') (h' : Extends hash initialLeaf t' t'') :
    Extends hash initialLeaf t t'' :=
  ⟨h.size_le.trans h'.size_le,
    fun i hi => (h'.leaf_eq i (hi.trans_le h.size_le)).trans (h.leaf_eq i hi),
    fun key hkey => h'.stored key (h.stored key hkey)⟩

theorem leafOf_eq {f g : ℕ → Buffer} (h : Contents hash initialLeaf t f g) :
    leafOf hash initialLeaf t false = f ∧ leafOf hash initialLeaf t true = g :=
  ⟨funext fun i => h.getLeafValue i false, funext fun i => h.getLeafValue i true⟩

theorem grown_new : Grown hash initialLeaf (TreeBase.new hash initialLeaf depth) := by
  have hcontents : Contents hash initialLeaf (TreeBase.new hash initialLeaf depth) _ _ :=
    contents_new
  obtain ⟨hf, hg⟩ := leafOf_eq hcontents
  refine ⟨by rwa [hf, hg], ?_, ?_, ?_, ?_, ?_, ?_, ?_⟩
  · simp [TreeBase.new, getNumLeaves]
  · simp [TreeBase.new, getNumLeaves]
  · simp [hf]
  · simp [hg]
  · simp [TreeBase.new]
  · simp [TreeBase.new]
  · simp [TreeBase.new, getNumLeaves]

section

variable (h : Grown hash initialLeaf t)
include h

theorem Grown.commit : Grown hash initialLeaf t.commit ∧ Extends hash initialLeaf t t.commit := by
  have hcontents := h.contents.commit
  obtain ⟨hf, hg⟩ := leafOf_eq hcontents
  have hsize : t.commit.size = t.getNumLeaves true := rfl
  have hnum : t.commit.getNumLeaves true = t.getNumLeaves true := rfl
  refine ⟨⟨by rwa [hf, hg], ?_, ?_, ?_, ?_, ?_, ?_, ?_⟩, ?_, ?_, ?_⟩
  · rw [hsize, hnum]
  · rw [hnum]
    exact h.numLeaves_le
  · rw [hf, hsize]
    exact h.uncommitted_empty
  · rw [hg, hnum]
    exact h.uncommitted_empty
  · rw [hf, hg]
    exact fun _ _ => rfl
  · exact h.written
  · intro i hi level hlevel
    simpa [Written, TreeBase.commit, clearCache] using h.written i hi level hlevel
  · exact h.size_le
  · rw [hf]
    exact h.uncommitted_eq
  · intro key hkey
    simp only [TreeBase.commit, clearCache]
    cases hcache : t.cache key with
    | none => simpa using hkey
    | some value => rfl

theorem Grown.rollback :
    Grown hash initialLeaf t.rollback ∧ Extends hash initialLeaf t t.rollback := by
  have hcontents := h.contents.rollback
  obtain ⟨hf, hg⟩ := leafOf_eq hcontents
  refine ⟨⟨by rwa [hf, hg], le_rfl, h.size_le.trans h.numLeaves_le, ?_, ?_, ?_, h.stored, ?_⟩,
    le_rfl, fun _ _ => rfl, fun _ => id⟩
  · rw [hf]
    exact h.committed_empty
  · rw [hg]
    exact h.committed_empty
  · rw [hf, hg]
    exact fun _ _ => rfl
  · intro i hi level hlevel
    simpa [Written, TreeBase.rollback, clearCache] using h.stored i hi level hlevel

theorem Grown.appendLeaves {leaves : List Buffer}
    (happend : TreeBase.appendLeaves hash initialLeaf t leaves = .ok t') :
    Grown hash initialLeaf t' ∧ Extends hash initialLeaf t t' := by
  have hcontents := h.contents.appendLeaves happend
  obtain ⟨⟨hnodes, -, hsize⟩, hnum, hfits⟩ := appendLeaves_same happend
  obtain ⟨hkept, hadded⟩ := appendLeaves_written happend
  obtain ⟨hf, hg⟩ := leafOf_eq hcontents
  refine ⟨⟨by rwa [hf, hg], ?_, ?_, ?_, ?_, ?_, ?_, ?_⟩, hsize.ge, ?_, ?_⟩
  · rw [hsize, hnum]
    exact h.size_le.trans (Nat.le_add_right _ _)
  · rwa [hnum]
  · rw [hf, hsize]
    exact h.committed_empty
  · intro i hi
    rw [hnum] at hi
    rw [hg, writeLeaves_of_notMem (.inr hi)]
    exact h.uncommitted_empty i (by omega)
  · intro i hi
    rw [hsize] at hi
    rw [hf, hg, writeLeaves_of_notMem (.inl (hi.trans_le h.size_le))]
    exact h.uncommitted_eq i hi
  · rw [hnodes, hsize]
    exact h.stored
  · intro i hi level hlevel
    rcases Nat.lt_or_ge i (t.getNumLeaves true) with hlt | hge
    · exact hkept _ (h.written i hlt level hlevel)
    · exact hadded i hge (by omega) level hlevel
  · rw [hf]
    exact fun _ _ => rfl
  · rw [hnodes]
    exact fun _ => id

theorem Grown.nodes : Nodes t (nodeOf hash initialLeaf t) := by
  refine ⟨h.contents.root_eq, @fun level index value hlevel hvalue => ?_⟩
  have := h.contents.committed level hlevel index
  rwa [getLatestValueAtIndex, if_neg Bool.false_ne_true, hvalue] at this

end

variable {level index : ℕ}

section

variable (h : Grown hash initialLeaf t)
include h

theorem Grown.latest_eq (hlevel : level ≤ depth) (index : ℕ) :
    t.getLatestValueAtIndex hash initialLeaf level index false =
      nodeOf hash initialLeaf t (level, index) :=
  h.contents.committed level hlevel index

theorem Grown.nodeOf_empty (hindex : t.size ≤ index * 2 ^ (depth - level)) :
    nodeOf hash initialLeaf t (level, index) = zeroHash hash initialLeaf depth level :=
  node_const fun _ hi _ => h.committed_empty _ (hindex.trans hi)

theorem Grown.nodeOf_not_stored (hlevel : level ≤ depth)
    (hstored : t.nodes (level, index) = none) :
    nodeOf hash initialLeaf t (level, index) = zeroHash hash initialLeaf depth level := by
  rw [← h.latest_eq hlevel]
  simp [getLatestValueAtIndex, hstored]

end

end Grown

/-! ### The records -/

section Records

variable {Buffer : Type} (hash : Buffer → Buffer → Buffer) (initialLeaf : Buffer) {depth : ℕ}

/-- **The invariant of the records**: a record was made at one of the snapshots, and its value is
the node of the trees of that and all later snapshots; a node without a record was empty at every
snapshot; above a record there are records. -/
structure Records (b : AppendOnlySnapshotBuilder Buffer) (t : TreeBase Buffer depth)
    (taken : List (ℕ × TreeBase Buffer depth)) : Prop where
  modified : ∀ key, (b.nodeValue key).isSome →
    ∃ entry ∈ taken, b.nodeLastModifiedByBlock key = some entry.1
  unmodified : ∀ key, b.nodeValue key = none → b.nodeLastModifiedByBlock key = none
  value_eq : ∀ key value block, b.nodeValue key = some value →
    b.nodeLastModifiedByBlock key = some block → ∀ entry ∈ taken, block ≤ entry.1 →
      value = nodeOf hash initialLeaf entry.2 key
  unrecorded : ∀ level index, level ≤ depth → b.nodeValue (level, index) = none →
    ∀ entry ∈ taken,
      nodeOf hash initialLeaf entry.2 (level, index) = zeroHash hash initialLeaf depth level
  parent : ∀ level index, (b.nodeValue (level + 1, index)).isSome →
    (b.nodeValue (level, index / 2)).isSome
  stored : ∀ key, (b.nodeValue key).isSome →
    key.1 ≤ depth ∧ key.2 < 2 ^ key.1 ∧ (key = (0, 0) ∨ (t.nodes key).isSome)
  metadata : ∀ entry ∈ taken, b.snapshotMetadata entry.1 = some (entry.2.root, entry.2.size)
  metadata_none : ∀ block, (∀ entry ∈ taken, entry.1 ≠ block) → b.snapshotMetadata block = none

variable {hash initialLeaf} {b b' : AppendOnlySnapshotBuilder Buffer}
  {t t' : TreeBase Buffer depth} {taken : List (ℕ × TreeBase Buffer depth)} {block : ℕ}

theorem records_new : Records hash initialLeaf .new t [] := by
  refine ⟨?_, fun _ _ => rfl, ?_, ?_, ?_, ?_, by simp, fun _ _ => rfl⟩ <;>
    simp [AppendOnlySnapshotBuilder.new]

theorem Records.extend (h : Records hash initialLeaf b t taken)
    (hext : Extends hash initialLeaf t t') : Records hash initialLeaf b t' taken :=
  { h with
    stored := fun key hkey =>
      ⟨(h.stored key hkey).1, (h.stored key hkey).2.1,
        (h.stored key hkey).2.2.imp_right (hext.stored key)⟩ }

theorem Records.current (h : Records hash initialLeaf b t taken)
    (hsorted : taken.Pairwise fun entry later => entry.1 < later.1) : ∃ f : ℕ → Buffer,
      (∀ level index value, b.nodeValue (level, index) = some value →
        value = node hash f (depth - level) index) ∧
      ∀ level index, level ≤ depth → b.nodeValue (level, index) = none →
        node hash f (depth - level) index = zeroHash hash initialLeaf depth level := by
  rcases taken.eq_nil_or_concat with rfl | ⟨before, last, rfl⟩
  · refine ⟨fun _ => initialLeaf, fun level index value hvalue => ?_, fun level index _ _ => ?_⟩
    · obtain ⟨entry, hentry, -⟩ := h.modified (level, index) (by simp [hvalue])
      cases hentry
    · exact node_const fun _ _ _ => rfl
  · have hlast : last ∈ before.concat last := by simp
    refine ⟨leafOf hash initialLeaf last.2 false, fun level index value hvalue => ?_,
      fun level index hlevel hnone => h.unrecorded level index hlevel hnone last hlast⟩
    obtain ⟨entry, hentry, hmodified⟩ := h.modified (level, index) (by simp [hvalue])
    refine h.value_eq _ value entry.1 hvalue hmodified last hlast ?_
    rw [concat_eq_append, pairwise_append] at hsorted
    rw [concat_eq_append, mem_append, mem_singleton] at hentry
    rcases hentry with hentry | rfl
    · exact (hsorted.2.2 entry hentry last mem_cons_self).le
    · exact le_rfl

theorem child_eq (hH : Function.Injective2 hash) {f g : ℕ → Buffer} {level index : ℕ}
    (hlevel : level < depth)
    (heq : node hash f (depth - level) (index / 2) = node hash g (depth - level) (index / 2)) :
    node hash f (depth - (level + 1)) index = node hash g (depth - (level + 1)) index := by
  rw [show depth - level = depth - (level + 1) + 1 by omega, node_succ, node_succ] at heq
  obtain ⟨hl, hr⟩ := hH heq
  rcases (by omega : index = 2 * (index / 2) ∨ index = 2 * (index / 2) + 1) with he | he
  · rw [he]
    exact hl
  · rw [he]
    exact hr

theorem child_zero (hH : Function.Injective2 hash) {f : ℕ → Buffer} {level index : ℕ}
    (hlevel : level < depth)
    (heq : node hash f (depth - level) (index / 2) = zeroHash hash initialLeaf depth level) :
    node hash f (depth - (level + 1)) index = zeroHash hash initialLeaf depth (level + 1) := by
  have hconst : ∀ h i, zeroNode hash initialLeaf h = node hash (fun _ => initialLeaf) h i :=
    fun _ _ => (node_const fun _ _ _ => rfl).symm
  rw [zeroHash, hconst _ (index / 2)] at heq
  rw [zeroHash, hconst _ index]
  exact child_eq hH hlevel heq

section Snapshot

variable (hH : Function.Injective2 hash) (ht : Grown hash initialLeaf t)
  (h : Records hash initialLeaf b t taken)
  (hsorted : taken.Pairwise fun entry later => entry.1 < later.1)
  (hwalked : Walking t block (nodeOf hash initialLeaf t) b b' [])
include hH ht h hsorted hwalked

theorem current_of_walked : ∀ level ≤ depth, ∀ index,
      (∀ value, b'.nodeValue (level, index) = some value →
        value = nodeOf hash initialLeaf t (level, index)) ∧ (b'.nodeValue (level, index) = none →
        nodeOf hash initialLeaf t (level, index) = zeroHash hash initialLeaf depth level) := by
  obtain ⟨f, hrec, hunrec⟩ := h.current hsorted
  intro level
  induction level with
  | zero =>
    intro _ index
    rcases Nat.eq_zero_or_pos index with rfl | hpos
    · have hroot := hwalked.root.resolve_left (by simp)
      exact ⟨fun value hvalue => by rw [hroot] at hvalue; exact (some.inj hvalue).symm,
        fun hnone => by rw [hroot] at hnone; cases hnone⟩
    · refine ⟨fun value hvalue => ?_, fun _ => ht.nodeOf_empty ?_⟩
      · rcases hwalked.record_eq (0, index) with ⟨heq, -⟩ | ⟨heq, -⟩
        · have := (h.stored (0, index) (by rw [← heq, hvalue]; rfl)).2.1
          simp only [pow_zero] at this
          omega
        · rw [hvalue] at heq
          exact some.inj heq
      · have := ht.size_le.trans ht.numLeaves_le
        calc t.size ≤ 1 * 2 ^ (depth - 0) := by simpa using this
          _ ≤ index * 2 ^ (depth - 0) := Nat.mul_le_mul_right _ hpos
  | succ level ih =>
    intro hlevel index
    obtain ⟨ihsome, ihnone⟩ := ih (by omega) (index / 2)
    rcases hwalked.record_eq (level + 1, index) with ⟨hsame, -⟩ | ⟨hnew, -, -⟩
    swap
    · exact ⟨fun value hvalue => by rw [hvalue] at hnew; exact some.inj hnew,
        fun hnone => by rw [hnone] at hnew; cases hnew⟩
    -- the record of this node is the old one
    by_cases hchanged : Changed b b' (level, index / 2)
    · -- the walk has passed through the parent and not recorded this node anew
      have hchild : (t.nodes (level + 1, index)).isSome → _ :=
        hwalked.children (by omega) hchanged
      refine ⟨fun value hvalue => ?_, fun hnone => ?_⟩
      · have hstored := (h.stored (level + 1, index) (by rw [← hsame, hvalue]; rfl)).2.2
        have := (hchild (hstored.resolve_left (by simp))).resolve_left (by simp)
        rw [hvalue] at this
        exact some.inj this
      · cases hstored : t.nodes (level + 1, index) with
        | none => exact ht.nodeOf_not_stored hlevel hstored
        | some value =>
          have := (hchild (by simp [hstored])).resolve_left (by simp)
          rw [hnone] at this
          cases this
    · -- the parent has its old record, or none
      have hparent : b'.nodeValue (level, index / 2) = b.nodeValue (level, index / 2) :=
        not_not.1 hchanged
      cases hp : b.nodeValue (level, index / 2) with
      | none =>
        have hempty := ihnone (hparent.trans hp)
        refine ⟨fun value hvalue => ?_, fun _ => child_zero hH (by omega) hempty⟩
        have := h.parent level index (by rw [← hsame, hvalue]; rfl)
        rw [hp] at this
        cases this
      | some u =>
        have hu := ihsome u (hparent.trans hp)
        have heq := child_eq hH (by omega) ((hrec level (index / 2) u hp).symm.trans hu)
        refine ⟨fun value hvalue => ?_, fun hnone => ?_⟩
        · exact (hrec (level + 1) index value (hsame.symm.trans hvalue)).trans heq
        · exact heq.symm.trans (hunrec (level + 1) index hlevel (hsame.symm.trans hnone))

theorem Records.walked (hblock : ∀ entry ∈ taken, entry.1 < block) : Records hash initialLeaf
      { b' with snapshotMetadata :=
          Function.update b.snapshotMetadata block (some (t.root, t.size)) }
      t (taken ++ [(block, t)]) := by
  have hcurrent := current_of_walked hH ht h hsorted hwalked
  have hstored : ∀ key, (b'.nodeValue key).isSome →
      key.1 ≤ depth ∧ key.2 < 2 ^ key.1 ∧ (key = (0, 0) ∨ (t.nodes key).isSome) := by
    intro key hkey
    by_cases hchanged : Changed b b' key
    · exact hwalked.stored hchanged
    · exact h.stored key (by rwa [← not_not.1 hchanged])
  have hnone : ∀ key, b'.nodeValue key = none → b.nodeValue key = none ∧
      b'.nodeLastModifiedByBlock key = b.nodeLastModifiedByBlock key := by
    intro key hkey
    rcases hwalked.record_eq key with ⟨hsame, hmod⟩ | ⟨hnew, -, -⟩
    · exact ⟨hsame.symm.trans hkey, hmod⟩
    · rw [hkey] at hnew
      cases hnew
  refine ⟨?_, ?_, ?_, ?_, ?_, hstored, ?_, ?_⟩
  · intro key hkey
    rcases hwalked.record_eq key with ⟨hsame, hmod⟩ | ⟨-, hmod, -⟩
    · obtain ⟨entry, hentry, hold⟩ := h.modified key (by rw [← hsame]; exact hkey)
      exact ⟨entry, mem_append_left _ hentry, hmod.trans hold⟩
    · exact ⟨(block, t), by simp, hmod⟩
  · intro key hkey
    obtain ⟨hold, hmod⟩ := hnone key hkey
    exact hmod.trans (h.unmodified key hold)
  · intro key value block' hvalue hmodified entry hentry hle
    rcases mem_append.1 hentry with hentry | hentry
    · rcases hwalked.record_eq key with ⟨hsame, hmod⟩ | ⟨-, hmod, -⟩
      · exact h.value_eq key value block' (hsame.symm.trans hvalue) (hmod.symm.trans hmodified)
          entry hentry hle
      · have heq : some block = some block' := hmod.symm.trans hmodified
        have := hblock entry hentry
        simp only [some.injEq] at heq
        omega
    · obtain rfl := mem_singleton.1 hentry
      exact (hcurrent key.1 (hstored key (by rw [hvalue]; rfl)).1 key.2).1 value hvalue
  · intro level index hlevel hkey entry hentry
    rcases mem_append.1 hentry with hentry | hentry
    · exact h.unrecorded level index hlevel (hnone _ hkey).1 entry hentry
    · obtain rfl := mem_singleton.1 hentry
      exact (hcurrent level hlevel index).2 hkey
  · intro level index hkey
    have hkept : ∀ key, (b.nodeValue key).isSome → (b'.nodeValue key).isSome := by
      intro key hkey
      rcases hwalked.record_eq key with ⟨hsame, -⟩ | ⟨hnew, -, -⟩
      · rwa [hsame]
      · rw [hnew]
        rfl
    by_cases hchanged : Changed b b' (level + 1, index)
    · rcases hwalked.record_eq (level, index / 2) with ⟨hsame, -⟩ | ⟨hnew, -, -⟩
      · exact absurd hsame (hwalked.parent hchanged)
      · simp [hnew]
    · refine hkept _ (h.parent level index ?_)
      rwa [← not_not.1 hchanged]
  · intro entry hentry
    rcases mem_append.1 hentry with hentry | hentry
    · exact (Function.update_of_ne (hblock entry hentry).ne _ _).trans (h.metadata entry hentry)
    · obtain rfl := mem_singleton.1 hentry
      simp
  · intro block' hall
    have hne : block' ≠ block := fun he => hall (block, t) (by simp) he.symm
    exact (Function.update_of_ne hne _ _).trans
      (h.metadata_none block' fun entry hentry => hall entry (mem_append_left _ hentry))

end Snapshot

/-! ### Leaves with a record -/

def Complete (b : AppendOnlySnapshotBuilder Buffer) (taken : List (ℕ × TreeBase Buffer depth)) :
    Prop :=
  ∀ entry ∈ taken, ∀ i < entry.2.size,
    ∃ block, b.nodeLastModifiedByBlock (depth, i) = some block ∧ block ≤ entry.1

theorem leaf_recorded_iff (ht : Grown hash initialLeaf t)
    (hwalked : Walking t block (nodeOf hash initialLeaf t) b b' []) {i : ℕ} (hi : i < t.size)
    (hnone : b.nodeValue (depth, i) = none) : (b'.nodeValue (depth, i)).isSome ↔ ∀ level < depth,
      b.nodeValue (level, i / 2 ^ (depth - level)) ≠
        some (nodeOf hash initialLeaf t (level, i / 2 ^ (depth - level))) := by
  have hup : ∀ level < depth, i / 2 ^ (depth - level) = i / 2 ^ (depth - (level + 1)) / 2 := by
    intro level hlevel
    rw [div_pow_div_two]
    congr 2
    omega
  have hnew : ∀ {key}, Changed b b' key → b'.nodeValue key = some (nodeOf hash initialLeaf t key) ∧
        b.nodeValue key ≠ some (nodeOf hash initialLeaf t key) := by
    intro key hchanged
    rcases hwalked.record_eq key with ⟨hsame, -⟩ | ⟨hnew, -, hne⟩
    · exact absurd hsame hchanged
    · exact ⟨hnew, hne⟩
  constructor
  · intro hsome
    -- everything above a changed record has changed
    have hall : ∀ k ≤ depth, Changed b b' (depth - k, i / 2 ^ k) := by
      intro k
      induction k with
      | zero =>
        intro _ heq
        rw [Nat.sub_zero, pow_zero, Nat.div_one] at heq
        rw [heq, hnone] at hsome
        cases hsome
      | succ k ih =>
        intro hk
        have hlevel : depth - k = depth - (k + 1) + 1 := by omega
        have := ih (by omega)
        rw [hlevel] at this
        simpa [div_pow_div_two] using hwalked.parent this
    intro level hlevel
    have := hall (depth - level) (by omega)
    rw [Nat.sub_sub_self hlevel.le] at this
    exact (hnew this).2
  · intro hne
    have hdown : ∀ level ≤ depth, b'.nodeValue (level, i / 2 ^ (depth - level)) =
          some (nodeOf hash initialLeaf t (level, i / 2 ^ (depth - level))) := by
      intro level
      induction level with
      | zero =>
        intro _
        have hroot : i / 2 ^ (depth - 0) = 0 :=
          Nat.div_eq_of_lt (by have := ht.size_le.trans ht.numLeaves_le; simpa using by omega)
        rw [hroot]
        exact hwalked.root.resolve_left (by simp)
      | succ level ih =>
        intro hlevel
        have hchanged : Changed b b' (level, i / 2 ^ (depth - (level + 1)) / 2) := by
          rw [← hup level hlevel]
          intro heq
          exact hne level hlevel (heq.symm.trans (ih (by omega)))
        exact (hwalked.children hlevel hchanged (ht.stored i hi _ hlevel)).resolve_left (by simp)
    have := hdown depth le_rfl
    rw [Nat.sub_self, pow_zero, Nat.div_one] at this
    rw [this]
    rfl

theorem complete_snapshot_iff (ht : Grown hash initialLeaf t)
    (h : Records hash initialLeaf b t taken)
    (hextends : ∀ entry ∈ taken, Extends hash initialLeaf entry.2 t)
    (hwalked : Walking t block (nodeOf hash initialLeaf t) b b' [])
    (hblock : ∀ entry ∈ taken, entry.1 < block) : Complete b' (taken ++ [(block, t)]) ↔
      Complete b taken ∧ EveryLeafReached hash initialLeaf ⟨t, b, taken⟩ := by
  have hreached : EveryLeafReached hash initialLeaf ⟨t, b, taken⟩ ↔
      ∀ i < t.size, (b'.nodeValue (depth, i)).isSome := by
    constructor
    · intro hreached i hi
      cases hnone : b.nodeValue (depth, i) with
      | none =>
        refine (leaf_recorded_iff ht hwalked hi hnone).2 fun level hlevel => ?_
        have := hreached i hi hnone level hlevel
        rwa [ht.latest_eq hlevel.le] at this
      | some value =>
        rcases hwalked.record_eq (depth, i) with ⟨hsame, -⟩ | ⟨hnew, -, -⟩
        · simp [hsame, hnone]
        · simp [hnew]
    · intro hall i hi hnone level hlevel
      rw [ht.latest_eq hlevel.le]
      exact (leaf_recorded_iff ht hwalked hi hnone).1 (hall i hi) level hlevel
  rw [hreached]
  constructor
  · intro hcomplete
    constructor
    · intro entry hentry i hi
      obtain ⟨block', hmodified, hle⟩ := hcomplete entry (mem_append_left _ hentry) i hi
      rcases hwalked.record_eq (depth, i) with ⟨-, hmod⟩ | ⟨-, hmod, -⟩
      · exact ⟨block', hmod.symm.trans hmodified, hle⟩
      · have heq : some block = some block' := hmod.symm.trans hmodified
        have := hblock entry hentry
        simp only [some.injEq] at heq
        omega
    · intro i hi
      obtain ⟨block', hmodified, -⟩ := hcomplete (block, t) (by simp) i hi
      by_contra hnone
      rw [Option.not_isSome_iff_eq_none] at hnone
      rcases hwalked.record_eq (depth, i) with ⟨hsame, hmod⟩ | ⟨hnew, -, -⟩
      · have := h.unmodified (depth, i) (hsame.symm.trans hnone)
        rw [← hmod, hmodified] at this
        cases this
      · rw [hnone] at hnew
        cases hnew
  · rintro ⟨hcomplete, hall⟩ entry hentry i hi
    rcases mem_append.1 hentry with hentry | hentry
    · obtain ⟨block', hmodified, hle⟩ := hcomplete entry hentry i hi
      refine ⟨block', ?_, hle⟩
      rcases hwalked.record_eq (depth, i) with ⟨-, hmod⟩ | ⟨-, -, hne⟩
      · exact hmod.trans hmodified
      · -- a leaf with a record has its value for good
        cases hvalue : b.nodeValue (depth, i) with
        | none =>
          have := h.unmodified (depth, i) hvalue
          rw [hmodified] at this
          cases this
        | some value =>
          have hold := h.value_eq _ value block' hvalue hmodified entry hentry hle
          have hleaf := (hextends entry hentry).leaf_eq i hi
          refine absurd ?_ hne
          rw [hvalue, hold]
          simp [nodeOf, hleaf]
    · obtain rfl := mem_singleton.1 hentry
      have hsome := hall i hi
      rcases hwalked.record_eq (depth, i) with ⟨hsame, hmod⟩ | ⟨-, hmod, -⟩
      · obtain ⟨entry, hentry, hmodified⟩ := h.modified (depth, i) (by rwa [← hsame])
        exact ⟨entry.1, hmod.trans hmodified, (hblock entry hentry).le⟩
      · exact ⟨block, hmod, le_rfl⟩

/-! ### Reading a snapshot -/

theorem getZeroHash_eq {level : ℕ} (hpos : 0 < level) (hlevel : level ≤ depth) :
    getZeroHash hash initialLeaf depth level = .ok (zeroHash hash initialLeaf depth level) := by
  rw [getZeroHash, if_neg (by omega)]

section

variable (h : Records hash initialLeaf b t taken) {entry : ℕ × TreeBase Buffer depth}
  (hentry : entry ∈ taken) (hgrown : Grown hash initialLeaf entry.2)
include h hentry hgrown

section

variable
  (hcomplete : ∀ i < entry.2.size, ∃ block, b.nodeLastModifiedByBlock (depth, i) = some block ∧ block ≤ entry.1)
  {root : Buffer}
include hcomplete

/-- **Rebuilding a node of an earlier tree**, when all its leaves have a record: records that are
later are rebuilt from the level below, and the leaves never are. -/
theorem getHistoricalNodeValue_eq : ∀ height level index, height = depth + 1 - level → 0 < level → level ≤ depth →
      AppendOnlySnapshot.getHistoricalNodeValue hash initialLeaf
          (⟨b.nodeValue, b.nodeLastModifiedByBlock, entry.1, entry.2.size, root⟩ :
            AppendOnlySnapshot Buffer depth) height level index =
        .ok (nodeOf hash initialLeaf entry.2 (level, index)) := by
  intro height
  induction height with
  | zero => intro level index hheight _ _; omega
  | succ height ih =>
    intro level index hheight hpos hlevel
    rw [AppendOnlySnapshot.getHistoricalNodeValue]
    cases hvalue : b.nodeValue (level, index) with
    | none =>
      simp only [h.unmodified _ hvalue]
      rw [getZeroHash_eq hpos hlevel, h.unrecorded level index hlevel hvalue entry hentry]
    | some value =>
      obtain ⟨made, -, hmodified⟩ := h.modified (level, index) (by simp [hvalue])
      simp only [hmodified]
      split
      · next hle =>
        simp only [hvalue, Except.ok.injEq]
        exact h.value_eq _ value made.1 hvalue hmodified entry hentry hle
      · next hlater =>
        split
        · next hempty => rw [getZeroHash_eq hpos hlevel, hgrown.nodeOf_empty hempty]
        · next hused =>
          rcases Nat.lt_or_ge level depth with hlt | hge
          · rw [ih (level + 1) (2 * index) (by omega) (by omega) hlt,
              ih (level + 1) (2 * index + 1) (by omega) (by omega) hlt]
            have hheight : depth - level = depth - (level + 1) + 1 := by omega
            simp [nodeOf, hheight, node_succ, bind, Except.bind, pure, Except.pure]
          · -- a leaf of the earlier tree had its record then
            obtain rfl : level = depth := by omega
            simp only [Nat.sub_self, pow_zero, Nat.mul_one, not_le] at hused
            obtain ⟨block', hold, hle⟩ := hcomplete index hused
            rw [hmodified, some.injEq] at hold
            omega

theorem snapshot_siblingPathFrom_eq : ∀ level ≤ depth, ∀ index, AppendOnlySnapshot.siblingPathFrom hash initialLeaf
          (⟨b.nodeValue, b.nodeLastModifiedByBlock, entry.1, entry.2.size, root⟩ :
            AppendOnlySnapshot Buffer depth) level index =
        .ok (TreeBase.siblingPathFrom hash initialLeaf entry.2 false level index) := by
  intro level
  induction level with
  | zero => intro _ index; rfl
  | succ level ih =>
    intro hlevel index
    rw [AppendOnlySnapshot.siblingPathFrom, TreeBase.siblingPathFrom, ih (by omega),
      getHistoricalNodeValue_eq h hentry hgrown hcomplete _ _ _ (by omega) (by omega) hlevel,
      hgrown.latest_eq hlevel]
    rfl

end

theorem faithful_iff_recorded : Faithful hash initialLeaf b entry.1 entry.2 ↔ ∀ i < entry.2.size,
      ∃ block, b.nodeLastModifiedByBlock (depth, i) = some block ∧ block ≤ entry.1 := by
  have hget : b.getSnapshot depth entry.1 = .ok
      ⟨b.nodeValue, b.nodeLastModifiedByBlock, entry.1, entry.2.size, entry.2.root⟩ := by
    simp only [getSnapshot, h.metadata entry hentry]
  constructor
  · rintro ⟨snapshot, hsnapshot, -, -, -, hleaf⟩ i hi
    obtain rfl := Except.ok.inj (hget.symm.trans hsnapshot)
    have := hleaf i hi
    simp only [AppendOnlySnapshot.getLeafValue] at this
    split at this
    · cases this
    · next block hblock =>
      split at this
      · next hle => exact ⟨block, hblock, hle⟩
      · cases this
  · intro hcomplete
    refine ⟨_, hget, rfl, rfl, fun index => ?_, fun index hindex => ?_⟩
    · exact snapshot_siblingPathFrom_eq h hentry hgrown hcomplete depth le_rfl index
    · obtain ⟨block, hmodified, hle⟩ := hcomplete index hindex
      cases hvalue : b.nodeValue (depth, index) with
      | none =>
        rw [h.unmodified _ hvalue] at hmodified
        cases hmodified
      | some value =>
        have := h.value_eq _ value block hvalue hmodified entry hentry hle
        simp [AppendOnlySnapshot.getLeafValue, hmodified, hle, hvalue, this, nodeOf, leafOf]

end

end Records

/-! ### Whole runs -/

section Runs

variable {Buffer : Type} {hash : Buffer → Buffer → Buffer} {initialLeaf : Buffer} {depth : ℕ}

/-- **The invariant of a run.** -/
structure Sound (hash : Buffer → Buffer → Buffer) (initialLeaf : Buffer)
    (s : State Buffer depth) : Prop where
  tree : Grown hash initialLeaf s.tree
  taken : ∀ entry ∈ s.taken,
    Grown hash initialLeaf entry.2 ∧ Extends hash initialLeaf entry.2 s.tree
  sorted : s.taken.Pairwise fun entry later => entry.1 < later.1
  records : Records hash initialLeaf s.builder s.tree s.taken

theorem Sound.grow {s : State Buffer depth} (h : Sound hash initialLeaf s)
    {tree : TreeBase Buffer depth}
    (htree : Grown hash initialLeaf tree ∧ Extends hash initialLeaf s.tree tree) :
    Sound hash initialLeaf { s with tree := tree } :=
  ⟨htree.1, fun entry hentry => ⟨(h.taken entry hentry).1, (h.taken entry hentry).2.trans htree.2⟩,
    h.sorted, h.records.extend htree.2⟩

/-- What an action asks for if all snapshots are to stay faithful. -/
def Reaching (hash : Buffer → Buffer → Buffer) (initialLeaf : Buffer) (s : State Buffer depth) :
    Action Buffer → Prop
  | .snapshot _ => EveryLeafReached hash initialLeaf s
  | _ => True

variable [DecidableEq Buffer]

theorem step_sound (hH : Function.Injective2 hash) {s : State Buffer depth}
    (h : Sound hash initialLeaf s) (action : Action Buffer)
    (hblock : ∀ block, action = .snapshot block → ∀ entry ∈ s.taken, entry.1 < block) :
    Sound hash initialLeaf (step hash initialLeaf depth s action) ∧
      (step hash initialLeaf depth s action).taken.map Prod.fst =
        s.taken.map Prod.fst ++ blocks [action] ∧
      (Complete (step hash initialLeaf depth s action).builder
          (step hash initialLeaf depth s action).taken ↔
        Complete s.builder s.taken ∧ Reaching hash initialLeaf s action) := by
  cases action with
  | appendLeaves leaves =>
    simp only [step]
    split
    · next tree happend =>
      exact ⟨h.grow (h.tree.appendLeaves happend), by simp [blocks], by simp [Reaching]⟩
    · exact ⟨h, by simp [blocks], by simp [Reaching]⟩
  | commit => exact ⟨h.grow h.tree.commit, by simp [step, blocks], by simp [step, Reaching]⟩
  | rollback => exact ⟨h.grow h.tree.rollback, by simp [step, blocks], by simp [step, Reaching]⟩
  | snapshot block =>
    have hblock := hblock block rfl
    have hnew := h.records.metadata_none block fun entry hentry => (hblock entry hentry).ne
    obtain ⟨b', hwalked, hsnapshot⟩ := snapshot_walked h.tree.nodes hnew
    simp only [step, hsnapshot]
    refine ⟨⟨h.tree, ?_, ?_, h.records.walked hH h.tree h.sorted hwalked hblock⟩,
      by simp [blocks], ?_⟩
    · intro entry hentry
      rcases mem_append.1 hentry with hentry | hentry
      · exact h.taken entry hentry
      · obtain rfl := mem_singleton.1 hentry
        exact ⟨h.tree, .refl _⟩
    · refine pairwise_append.2 ⟨h.sorted, pairwise_singleton _ _, ?_⟩
      intro entry hentry later hlater
      obtain rfl := mem_singleton.1 hlater
      exact hblock entry hentry
    · have hiff := complete_snapshot_iff h.tree h.records
        (fun entry hentry => (h.taken entry hentry).2) hwalked hblock
      exact hiff

theorem run_sound (hH : Function.Injective2 hash) (actions : List (Action Buffer))
    (hblocks : (blocks actions).Pairwise (· < ·)) :
    Sound hash initialLeaf (run hash initialLeaf depth actions) ∧
      (run hash initialLeaf depth actions).taken.map Prod.fst = blocks actions ∧
      (Complete (run hash initialLeaf depth actions).builder
          (run hash initialLeaf depth actions).taken ↔
        ∀ before block after, actions = before ++ .snapshot block :: after →
          EveryLeafReached hash initialLeaf (run hash initialLeaf depth before)) := by
  induction actions using reverseRecOn with
  | nil =>
    refine ⟨⟨grown_new, by simp [run], by simp [run], records_new⟩, rfl, ?_⟩
    simp [run, Complete]
  | append_singleton actions action ih =>
    have hsplit : blocks (actions ++ [action]) = blocks actions ++ blocks [action] := by
      simp [blocks, filterMap_append]
    rw [hsplit, pairwise_append] at hblocks
    obtain ⟨hsound, htaken, hcomplete⟩ := ih hblocks.1
    have hrun : run hash initialLeaf depth (actions ++ [action]) =
        step hash initialLeaf depth (run hash initialLeaf depth actions) action := by
      simp [run, foldl_append]
    obtain ⟨hsound', htaken', hstep⟩ := step_sound hH hsound action fun block hblock entry hentry =>
      hblocks.2.2 entry.1 (by rw [← htaken]; exact mem_map_of_mem hentry) block
        (by simp [hblock, blocks])
    rw [hrun]
    refine ⟨hsound', by rw [htaken', htaken, hsplit], hstep.trans ?_⟩
    rw [hcomplete]
    constructor
    · rintro ⟨hbefore, hreach⟩ before block after heq
      rcases after.eq_nil_or_concat with rfl | ⟨after', last, rfl⟩
      · obtain ⟨rfl, hlast⟩ := append_inj' heq rfl
        obtain rfl := singleton_inj.1 hlast
        exact hreach
      · rw [concat_eq_append, ← cons_append, ← append_assoc] at heq
        exact hbefore before block after' (append_inj' heq rfl).1
    · intro hall
      refine ⟨fun before block after heq => hall before block (after ++ [action]) (by simp [heq]),
        ?_⟩
      cases action with
      | snapshot block => exact hall actions block [] rfl
      | appendLeaves leaves => trivial
      | commit => trivial
      | rollback => trivial

/-- **The snapshots of a run are faithful exactly when every leaf was reached at each of them.**
In a run of appends, commits, rollbacks and snapshots at increasing blocks, all snapshots taken so
far answer as the committed tree did when they were taken if and only if, at each snapshot, the
walk met no node with a current record above a leaf without one. -/
theorem faithful_iff (hH : Function.Injective2 hash) (actions : List (Action Buffer))
    (hblocks : (blocks actions).Pairwise (· < ·)) :
    (∀ entry ∈ (run hash initialLeaf depth actions).taken,
        Faithful hash initialLeaf (run hash initialLeaf depth actions).builder entry.1 entry.2) ↔
      ∀ before block after, actions = before ++ .snapshot block :: after →
        EveryLeafReached hash initialLeaf (run hash initialLeaf depth before) := by
  obtain ⟨hsound, -, hcomplete⟩ : Sound hash initialLeaf (run hash initialLeaf depth actions) ∧ _ :=
    run_sound hH actions hblocks
  rw [← hcomplete]
  refine forall₂_congr fun entry hentry => ?_
  exact faithful_iff_recorded hsound.records hentry (hsound.taken entry hentry).1

end Runs

/-- A run in which two leaves are appended and two snapshots are taken. -/
theorem faithful_two_leaves : (∀ entry ∈ (run pairHash 0 1
        [.snapshot 1, .appendLeaves [5, 6], .commit, .snapshot 2]).taken,
      Faithful pairHash 0 (run pairHash 0 1
        [.snapshot 1, .appendLeaves [5, 6], .commit, .snapshot 2]).builder entry.1 entry.2) ↔
      ∀ before block after, [.snapshot 1, .appendLeaves [5, 6], .commit, .snapshot 2] =
            before ++ Action.snapshot block :: after →
          EveryLeafReached pairHash 0 (run pairHash 0 1 before) :=
  faithful_iff pairHash_injective _ (by decide)

/-- Of the leaves of faithful snapshots there are records. -/
def allRecorded (s : State ℕ 1) : Bool :=
  s.taken.all fun entry => (List.range (entry.2.getNumLeaves false)).all fun i =>
    (s.builder.nodeLastModifiedByBlock (1, i)).isSome

/-- **Snapshots are not faithful in general**: an initial value that is appended after a snapshot
of the empty tree does not change the root, so that the next snapshot has no record of it. -/
theorem not_faithful :
    ¬ ∀ (depth : ℕ) (hash : ℕ → ℕ → ℕ) (initialLeaf : ℕ) (actions : List (Action ℕ)),
      Function.Injective2 hash → (blocks actions).Pairwise (· < ·) →
        ∀ entry ∈ (run hash initialLeaf depth actions).taken,
          Faithful hash initialLeaf (run hash initialLeaf depth actions).builder entry.1
            entry.2 := by
  intro h
  have hall := h 1 pairHash 0 [.snapshot 1, .appendLeaves [0], .commit, .snapshot 2]
    pairHash_injective (by decide)
  have hnot : allRecorded (run pairHash 0 1
      [.snapshot 1, .appendLeaves [0], .commit, .snapshot 2]) = false := by decide +kernel
  refine absurd (List.all_eq_true.2 fun entry hentry => ?_) (ne_true_of_eq_false hnot)
  obtain ⟨snapshot, hsnapshot, -, -, -, hleaf⟩ := hall entry hentry
  refine List.all_eq_true.2 fun i hi => ?_
  have hsome := hleaf i (List.mem_range.1 hi)
  unfold getSnapshot at hsnapshot
  split at hsnapshot
  · cases hsnapshot
  · obtain rfl := Except.ok.inj hsnapshot
    simp only [AppendOnlySnapshot.getLeafValue] at hsome
    split at hsome
    · cases hsome
    · next block hblock => rw [hblock]; rfl

end StandardTree
