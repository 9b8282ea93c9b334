/-
**The Merkle tree of the TypeScript node: a committed part and a cache.**

`TreeBase` keeps the nodes of a tree of fixed depth in a key-value store, under their level and
index, where the root has level zero; what is not stored is the root of a subtree of initial
leaves.  Changes go to a cache first, which `commit` writes to the store and `rollback` drops.
-/

import Aztec.Merkle

open Merkle Function List

/-- The state of `TreeBase`.  The maps take the level and the index of a node; that they are
functions on all keys stands for the store and for an object that lack the others. -/
structure TreeBase (Buffer : Type) (depth : ℕ) where
  nodes : ℕ × ℕ → Option Buffer
  cache : ℕ × ℕ → Option Buffer
  size : ℕ
  cachedSize : Option ℕ
  root : Buffer

namespace TreeBase

section Model

variable {Buffer : Type} {depth : ℕ} (hash : Buffer → Buffer → Buffer) (initialLeaf : Buffer)

def zeroHash (depth level : ℕ) : Buffer := zeroNode hash initialLeaf (depth - level)

def new (depth : ℕ) : TreeBase Buffer depth :=
  { nodes := fun _ => none, cache := fun _ => none, size := 0, cachedSize := none,
    root := zeroHash hash initialLeaf depth 0 }

def maxIndex (depth : ℕ) : ℕ := 2 ^ depth - 1

variable (t : TreeBase Buffer depth)

def getRoot (includeUncommitted : Bool) : Buffer :=
  if includeUncommitted then (t.cache (0, 0)).getD t.root else t.root

def getNumLeaves (includeUncommitted : Bool) : ℕ :=
  if includeUncommitted then t.cachedSize.getD t.size else t.size

def getLatestValueAtIndex (level index : ℕ) (includeUncommitted : Bool) : Buffer :=
  let cached := if includeUncommitted then t.cache (level, index) else none
  (cached.or (t.nodes (level, index))).getD (zeroHash hash initialLeaf depth level)

/-- The loop of `getSiblingPath`, from a level down to the root. -/
def siblingPathFrom (includeUncommitted : Bool) : ℕ → ℕ → List Buffer
  | 0, _ => []
  | level + 1, index =>
    getLatestValueAtIndex hash initialLeaf t (level + 1) (siblingIndex index)
        includeUncommitted ::
      siblingPathFrom includeUncommitted level (index / 2)

def getSiblingPath (index : ℕ) (includeUncommitted : Bool) : List Buffer :=
  siblingPathFrom hash initialLeaf t includeUncommitted depth index

def getLeafValue (index : ℕ) (includeUncommitted : Bool) : Buffer :=
  getLatestValueAtIndex hash initialLeaf t depth index includeUncommitted

def getNode (level index : ℕ) : Except String (Option Buffer) :=
  if level > depth then .error ("Invalid level: " ++ toString level)
  else if index ≥ 2 ^ level then .error ("Invalid index: " ++ toString index)
  else .ok (t.nodes (level, index))

def getZeroHash (depth level : ℕ) : Except String Buffer :=
  if level ≤ 0 ∨ level > depth then .error "Invalid level"
  else .ok (zeroHash hash initialLeaf depth level)

def clearCache : TreeBase Buffer depth := { t with cache := fun _ => none, cachedSize := none }

def commit : TreeBase Buffer depth :=
  clearCache
    { t with
      nodes := fun key => (t.cache key).or (t.nodes key)
      size := t.getNumLeaves true
      root := t.getRoot true }

def rollback : TreeBase Buffer depth := t.clearCache

def setCache (level index : ℕ) (value : Buffer) : TreeBase Buffer depth :=
  { t with cache := Function.update t.cache (level, index) (some value) }

/-- The loop of `addLeafToCacheAndHashToRoot`, from a level down to the root. -/
def hashToRootFrom : ℕ → ℕ → Buffer → TreeBase Buffer depth → TreeBase Buffer depth
  | 0, _, _, t => t
  | level + 1, index, current, t =>
    let sibling :=
      getLatestValueAtIndex hash initialLeaf t (level + 1) (siblingIndex index) true
    let current := if index % 2 = 1 then hash sibling current else hash current sibling
    hashToRootFrom level (index / 2) current (t.setCache level (index / 2) current)

def addLeafToCacheAndHashToRoot (leaf : Buffer) (index : ℕ) : TreeBase Buffer depth :=
  hashToRootFrom hash initialLeaf depth index leaf (t.setCache depth index leaf)

/-- The node of `appendLeaves` at a level, from its children one level below. -/
def hashNode (level : ℕ) (t : TreeBase Buffer depth) (index : ℕ) : TreeBase Buffer depth :=
  let lhs := getLatestValueAtIndex hash initialLeaf t (level + 1) (index * 2) true
  let rhs := getLatestValueAtIndex hash initialLeaf t (level + 1) (index * 2 + 1) true
  t.setCache level index (hash lhs rhs)

/-- The loop of `appendLeaves` over the levels; both ends of the range of indices are included. -/
def hashLevelsFrom : ℕ → ℕ → ℕ → TreeBase Buffer depth → TreeBase Buffer depth
  | 0, _, _, t => t
  | level + 1, firstIndex, lastIndex, t =>
    let firstIndex := firstIndex / 2
    let lastIndex := lastIndex / 2
    let indices := List.range' firstIndex (lastIndex + 1 - firstIndex)
    hashLevelsFrom level firstIndex lastIndex
      (indices.foldl (hashNode hash initialLeaf level) t)

/-- `appendLeaves`.  The source compares the last index, `numLeaves + leaves.length - 1`, as an
integer. -/
def appendLeaves (leaves : List Buffer) : Except String (TreeBase Buffer depth) :=
  let numLeaves := t.getNumLeaves true
  if numLeaves + leaves.length > maxIndex depth + 1 then
    .error ("Can't append beyond max index. Max index: " ++ toString (maxIndex depth))
  else
    let t := leaves.zipIdx.foldl (fun t leaf => t.setCache depth (numLeaves + leaf.2) leaf.1) t
    let t := hashLevelsFrom hash initialLeaf depth numLeaves (numLeaves + leaves.length) t
    .ok { t with cachedSize := some (numLeaves + leaves.length) }

end Model

/-! ### Contents -/

section Contents

variable {Buffer : Type} {depth : ℕ} (hash : Buffer → Buffer → Buffer) (initialLeaf : Buffer)

/-- The latest nodes of the state are those of the perfect tree with leaves `f`. -/
def LatestNodes (t : TreeBase Buffer depth) (includeUncommitted : Bool) (f : ℕ → Buffer) : Prop :=
  ∀ level ≤ depth, ∀ index,
    getLatestValueAtIndex hash initialLeaf t level index includeUncommitted =
      node hash f (depth - level) index

/-- **The leaves a state stands for**: the committed ones are `f`, and with the uncommitted changes
they are `g`. -/
structure Contents (t : TreeBase Buffer depth) (f g : ℕ → Buffer) : Prop where
  committed : LatestNodes hash initialLeaf t false f
  uncommitted : LatestNodes hash initialLeaf t true g
  root_eq : t.root = node hash f depth 0

variable {hash initialLeaf} {t : TreeBase Buffer depth} {f g : ℕ → Buffer}

theorem contents_new : Contents hash initialLeaf (new hash initialLeaf depth) (fun _ => initialLeaf)
      (fun _ => initialLeaf) := by
  have h : ∀ h i, zeroNode hash initialLeaf h = node hash (fun _ => initialLeaf) h i :=
    fun _ _ => (node_const fun _ _ _ => rfl).symm
  exact ⟨fun _ _ _ => h _ _, fun _ _ _ => h _ _, h _ _⟩

theorem getLatestValueAtIndex_true (t : TreeBase Buffer depth) (level index : ℕ) :
    getLatestValueAtIndex hash initialLeaf t level index true =
      (t.cache (level, index)).getD (getLatestValueAtIndex hash initialLeaf t level index false) := by
  simp only [getLatestValueAtIndex, if_true, Bool.false_eq_true, if_false, Option.none_or]
  cases t.cache (level, index) with
  | none => rfl
  | some value => rfl

section

variable (h : Contents hash initialLeaf t f g)
include h

theorem Contents.getRoot (includeUncommitted : Bool) : t.getRoot includeUncommitted =
      node hash (if includeUncommitted then g else f) depth 0 := by
  cases includeUncommitted with
  | false => exact h.root_eq
  | true =>
    have hg := h.uncommitted 0 (Nat.zero_le _) 0
    rw [getLatestValueAtIndex_true, h.committed 0 (Nat.zero_le _) 0, Nat.sub_zero] at hg
    rw [TreeBase.getRoot, if_pos rfl, if_pos rfl, h.root_eq, hg]

theorem Contents.commit : Contents hash initialLeaf t.commit g g := by
  have hlatest : ∀ level index includeUncommitted,
      getLatestValueAtIndex hash initialLeaf t.commit level index includeUncommitted =
        getLatestValueAtIndex hash initialLeaf t level index true := by
    intro level index includeUncommitted
    simp [getLatestValueAtIndex, TreeBase.commit, clearCache]
  refine ⟨?_, ?_, h.getRoot true⟩
  · intro level hlevel index
    rw [hlatest, h.uncommitted level hlevel index]
  · intro level hlevel index
    rw [hlatest, h.uncommitted level hlevel index]

theorem Contents.rollback : Contents hash initialLeaf t.rollback f f :=
  ⟨h.committed, h.committed, h.root_eq⟩

end

theorem siblingPathFrom_eq {includeUncommitted : Bool}
    (h : LatestNodes hash initialLeaf t includeUncommitted f) :
    ∀ level ≤ depth, ∀ index, siblingPathFrom hash initialLeaf t includeUncommitted level index =
      siblings hash f (depth - level) index level := by
  intro level
  induction level with
  | zero => intro _ index; rfl
  | succ level ih =>
    intro hlevel index
    have hheight : depth - (level + 1) + 1 = depth - level := by omega
    rw [siblingPathFrom, h _ hlevel, ih (by omega), siblings_succ, hheight]

theorem Contents.getSiblingPath (h : Contents hash initialLeaf t f g) (index : ℕ)
    (includeUncommitted : Bool) : getSiblingPath hash initialLeaf t index includeUncommitted =
      siblings hash (if includeUncommitted then g else f) 0 index depth := by
  have hlatest : LatestNodes hash initialLeaf t includeUncommitted
      (if includeUncommitted then g else f) := by
    cases includeUncommitted with
    | false => exact h.committed
    | true => exact h.uncommitted
  rw [TreeBase.getSiblingPath, siblingPathFrom_eq hlatest depth le_rfl, Nat.sub_self]

theorem Contents.getLeafValue (h : Contents hash initialLeaf t f g) (index : ℕ)
    (includeUncommitted : Bool) : getLeafValue hash initialLeaf t index includeUncommitted =
      if includeUncommitted then g index else f index := by
  cases includeUncommitted with
  | false => simpa [TreeBase.getLeafValue] using h.committed depth le_rfl index
  | true => simpa [TreeBase.getLeafValue] using h.uncommitted depth le_rfl index

theorem getLatestValueAtIndex_setCache (t : TreeBase Buffer depth) (level index : ℕ)
    (value : Buffer) (level' index' : ℕ) :
    getLatestValueAtIndex hash initialLeaf (t.setCache level index value) level' index' true =
      if level' = level ∧ index' = index then value
      else getLatestValueAtIndex hash initialLeaf t level' index' true := by
  simp only [getLatestValueAtIndex, setCache, if_true]
  split
  · next h => simp [h.1, h.2]
  · next h =>
    rw [update_of_ne]
    simpa using h

/-! ### Updating and appending -/

/-- The nodes from a level down to the leaves are those of the tree with leaves `g'`, the nodes
above still those of the tree with leaves `g`. -/
def LatestFrom (hash : Buffer → Buffer → Buffer) (initialLeaf : Buffer) (t : TreeBase Buffer depth)
    (level : ℕ) (g' g : ℕ → Buffer) : Prop :=
  ∀ level' ≤ depth, ∀ index,
    getLatestValueAtIndex hash initialLeaf t level' index true =
      node hash (if level ≤ level' then g' else g) (depth - level') index

def SameCommitted (t t' : TreeBase Buffer depth) : Prop :=
  t'.nodes = t.nodes ∧ t'.root = t.root ∧ t'.size = t.size

variable {t' : TreeBase Buffer depth} {g' : ℕ → Buffer} {n i : ℕ} {leaves : List Buffer}

theorem SameCommitted.trans {t t'' : TreeBase Buffer depth} (h : SameCommitted t t')
    (h' : SameCommitted t' t'') : SameCommitted t t'' :=
  ⟨h'.1.trans h.1, h'.2.1.trans h.2.1, h'.2.2.trans h.2.2⟩

theorem Contents.of_latestFrom (h : Contents hash initialLeaf t f g) (hsame : SameCommitted t t')
    (hlatest : LatestFrom hash initialLeaf t' 0 g' g) : Contents hash initialLeaf t' f g' := by
  obtain ⟨hnodes, hroot, -⟩ := hsame
  refine ⟨?_, fun level hlevel index => hlatest level hlevel index, hroot ▸ h.root_eq⟩
  intro level hlevel index
  have := h.committed level hlevel index
  rwa [getLatestValueAtIndex, ← hnodes] at this

theorem hashToRootFrom_same (level index : ℕ) : ∀ (current : Buffer) (t : TreeBase Buffer depth),
      SameCommitted t (hashToRootFrom hash initialLeaf level index current t) := by
  induction level generalizing index with
  | zero => intro current t; exact ⟨rfl, rfl, rfl⟩
  | succ level ih =>
    intro current t
    exact ih (index / 2) _ (t.setCache level (index / 2) _)

theorem hashToRootFrom_cachedSize (level index : ℕ) :
    ∀ (current : Buffer) (t : TreeBase Buffer depth),
      (hashToRootFrom hash initialLeaf level index current t).cachedSize = t.cachedSize := by
  induction level generalizing index with
  | zero => intro current t; rfl
  | succ level ih =>
    intro current t
    exact ih (index / 2) _ (t.setCache level (index / 2) _)

theorem addLeafToCacheAndHashToRoot_same (t : TreeBase Buffer depth) (leaf : Buffer) (index : ℕ) :
    SameCommitted t (addLeafToCacheAndHashToRoot hash initialLeaf t leaf index) ∧
      (addLeafToCacheAndHashToRoot hash initialLeaf t leaf index).getNumLeaves true =
        t.getNumLeaves true := by
  have hsame : SameCommitted t (addLeafToCacheAndHashToRoot hash initialLeaf t leaf index) :=
    hashToRootFrom_same depth index leaf (t.setCache depth index leaf)
  have hcached : (addLeafToCacheAndHashToRoot hash initialLeaf t leaf index).cachedSize =
      t.cachedSize := hashToRootFrom_cachedSize depth index leaf (t.setCache depth index leaf)
  refine ⟨hsame, ?_⟩
  rw [getNumLeaves, if_pos rfl, hcached, hsame.2.2]
  rfl

theorem hashToRootFrom_latestFrom {leafIndex : ℕ} {leaf : Buffer} :
    ∀ (level : ℕ), level ≤ depth → ∀ (t : TreeBase Buffer depth),
      LatestFrom hash initialLeaf t level (update g leafIndex leaf) g →
      LatestFrom hash initialLeaf
        (hashToRootFrom hash initialLeaf level (leafIndex / 2 ^ (depth - level))
          (node hash (update g leafIndex leaf) (depth - level)
            (leafIndex / 2 ^ (depth - level))) t) 0 (update g leafIndex leaf) g := by
  intro level
  induction level with
  | zero => intro _ t h; exact h
  | succ level ih =>
    intro hlevel t h
    have hheight : depth - (level + 1) + 1 = depth - level := by omega
    have hsibling := h (level + 1) hlevel (siblingIndex (leafIndex / 2 ^ (depth - (level + 1))))
    rw [if_pos le_rfl] at hsibling
    rw [hashToRootFrom, hsibling, ← node_parent, div_pow_div_two, hheight]
    refine ih (by omega) _ ?_
    intro level' hlevel' index
    rw [getLatestValueAtIndex_setCache]
    split
    · next heq => rw [heq.1, heq.2, if_pos le_rfl]
    · next hne =>
      rw [h level' hlevel' index]
      rcases lt_trichotomy level' level with hlt | rfl | hgt
      · rw [if_neg (by omega), if_neg (by omega)]
      · rw [if_neg (by omega), if_pos le_rfl, node_update_of_ne _ fun he => hne ⟨rfl, he.symm⟩]
      · rw [if_pos (by omega), if_pos (by omega)]

theorem Contents.addLeafToCacheAndHashToRoot (h : Contents hash initialLeaf t f g)
    (leaf : Buffer) (index : ℕ) :
    Contents hash initialLeaf (addLeafToCacheAndHashToRoot hash initialLeaf t leaf index) f
      (update g index leaf) := by
  refine h.of_latestFrom (hashToRootFrom_same depth index leaf (t.setCache depth index leaf)) ?_
  have hstart : LatestFrom hash initialLeaf (t.setCache depth index leaf) depth
      (update g index leaf) g := by
    intro level hlevel index'
    rw [getLatestValueAtIndex_setCache, h.uncommitted level hlevel index']
    split
    · next heq => simp [heq.1, heq.2]
    · next hne =>
      rcases Nat.lt_or_ge level depth with hlt | hge
      · rw [if_neg (by omega)]
      · obtain rfl : level = depth := by omega
        have hne : index' ≠ index := fun he => hne ⟨rfl, he⟩
        simp [hne]
  have := hashToRootFrom_latestFrom depth le_rfl _ hstart
  rwa [Nat.sub_self, pow_zero, Nat.div_one, node_zero, update_self] at this

/-- The leaves after some have been written from index `n` on. -/
def writeLeaves (f : ℕ → Buffer) (n : ℕ) (leaves : List Buffer) : ℕ → Buffer :=
  fun i => if n ≤ i then (leaves[i - n]?).getD (f i) else f i

theorem writeLeaves_of_notMem (h : i < n ∨ n + leaves.length ≤ i) :
    writeLeaves f n leaves i = f i := by
  unfold writeLeaves
  split
  · rw [getElem?_eq_none (by omega), Option.getD_none]
  · rfl

theorem node_writeLeaves_of_notMem {height index : ℕ}
    (h : index < n / 2 ^ height ∨ (n + leaves.length) / 2 ^ height < index) :
    node hash (writeLeaves f n leaves) height index = node hash f height index := by
  refine node_congr fun i h₁ h₂ => writeLeaves_of_notMem ?_
  have hi := div_of_block h₁ h₂
  by_contra hnot
  have hle₁ : n / 2 ^ height ≤ i / 2 ^ height := Nat.div_le_div_right (by omega)
  have hle₂ : i / 2 ^ height ≤ (n + leaves.length) / 2 ^ height :=
    Nat.div_le_div_right (by omega)
  omega

theorem setLeaves_same (n : ℕ) (leaves : List (Buffer × ℕ)) :
    ∀ t : TreeBase Buffer depth, SameCommitted t
      (leaves.foldl (fun t leaf => t.setCache depth (n + leaf.2) leaf.1) t) := by
  induction leaves with
  | nil => intro t; exact ⟨rfl, rfl, rfl⟩
  | cons leaf leaves ih => intro t; exact ih (t.setCache depth (n + leaf.2) leaf.1)

theorem setLeaves_latestFrom (h : LatestNodes hash initialLeaf t true g) (n : ℕ)
    (leaves : List Buffer) : LatestFrom hash initialLeaf
      (leaves.zipIdx.foldl (fun t leaf => t.setCache depth (n + leaf.2) leaf.1) t) depth
      (writeLeaves g n leaves) g := by
  induction leaves using reverseRecOn with
  | nil =>
    intro level hlevel index
    have hnone : writeLeaves g n [] = g := funext fun i => writeLeaves_of_notMem (by simp; omega)
    rw [hnone, ite_self]
    exact h level hlevel index
  | append_singleton leaves leaf ih =>
    intro level hlevel index
    rw [zipIdx_append, foldl_append]
    simp only [zipIdx_cons, zipIdx_nil, foldl_cons, foldl_nil, Nat.zero_add]
    rw [getLatestValueAtIndex_setCache, ih level hlevel index]
    rcases Nat.lt_or_ge level depth with hlt | hge
    · rw [if_neg (by omega), if_neg (by omega), if_neg (by omega)]
    · obtain rfl : level = depth := by omega
      simp only [le_refl, if_true, Nat.sub_self, node_zero, true_and]
      split
      · next heq => simp [writeLeaves, heq]
      · next hne =>
        unfold writeLeaves
        split
        · next hle =>
          congr 1
          rcases Nat.lt_or_ge (index - n) leaves.length with hlt | hge
          · rw [getElem?_append_left hlt]
          · rw [getElem?_eq_none hge, getElem?_eq_none (by simp; omega)]
        · rfl

theorem foldl_hashNode_same (level : ℕ) (indices : List ℕ) : ∀ t : TreeBase Buffer depth,
      SameCommitted t (indices.foldl (hashNode hash initialLeaf level) t) := by
  induction indices with
  | nil => intro t; exact ⟨rfl, rfl, rfl⟩
  | cons index indices ih => intro t; exact ih (hashNode hash initialLeaf level t index)

theorem hashLevelsFrom_same (level : ℕ) : ∀ (firstIndex lastIndex : ℕ) (t : TreeBase Buffer depth),
      SameCommitted t (hashLevelsFrom hash initialLeaf level firstIndex lastIndex t) := by
  induction level with
  | zero => intro _ _ t; exact ⟨rfl, rfl, rfl⟩
  | succ level ih =>
    intro firstIndex lastIndex t
    exact (foldl_hashNode_same level _ t).trans (ih _ _ _)

theorem foldl_hashNode {level : ℕ} (hlevel : level < depth) (indices : List ℕ) :
    ∀ (t : TreeBase Buffer depth),
      (∀ index, getLatestValueAtIndex hash initialLeaf t (level + 1) index true =
        node hash g' (depth - (level + 1)) index) →
      ∀ level' index, getLatestValueAtIndex hash initialLeaf
          (indices.foldl (hashNode hash initialLeaf level) t) level' index true =
        if level' = level ∧ index ∈ indices then node hash g' (depth - level) index
        else getLatestValueAtIndex hash initialLeaf t level' index true := by
  induction indices with
  | nil => intro t _; simp
  | cons i indices ih =>
    intro t hchildren
    have hheight : depth - level = depth - (level + 1) + 1 := by omega
    have hnode : ∀ level' index, getLatestValueAtIndex hash initialLeaf
        (hashNode hash initialLeaf level t i) level' index true =
          if level' = level ∧ index = i then node hash g' (depth - level) i
          else getLatestValueAtIndex hash initialLeaf t level' index true := by
      intro level' index
      rw [hashNode, getLatestValueAtIndex_setCache, hchildren, hchildren, hheight, node_succ,
        Nat.mul_comm i 2]
    have hlatest := ih (hashNode hash initialLeaf level t i) fun index => by
      rw [hnode, if_neg (by omega), hchildren]
    intro level' index
    rw [foldl_cons, hlatest, hnode]
    by_cases hl : level' = level
    · by_cases hi : index = i
      · simp [hl, hi]
      · simp [hl, hi]
    · simp [hl]

theorem hashLevelsFrom_latestFrom : ∀ (level : ℕ), level ≤ depth → ∀ (t : TreeBase Buffer depth),
      LatestFrom hash initialLeaf t level (writeLeaves g n leaves) g → LatestFrom hash initialLeaf
        (hashLevelsFrom hash initialLeaf level (n / 2 ^ (depth - level))
          ((n + leaves.length) / 2 ^ (depth - level)) t) 0 (writeLeaves g n leaves) g := by
  intro level
  induction level with
  | zero => intro _ t h; exact h
  | succ level ih =>
    intro hlevel t h
    have hheight : depth - (level + 1) + 1 = depth - level := by omega
    rw [hashLevelsFrom, div_pow_div_two, div_pow_div_two, hheight]
    have hbelow : ∀ index, getLatestValueAtIndex hash initialLeaf t (level + 1) index true =
        node hash (writeLeaves g n leaves) (depth - (level + 1)) index := fun index => by
      rw [h (level + 1) hlevel index, if_pos le_rfl]
    have hlatest := foldl_hashNode (by omega : level < depth) (range' (n / 2 ^ (depth - level))
        ((n + leaves.length) / 2 ^ (depth - level) + 1 - n / 2 ^ (depth - level))) t hbelow
    refine ih (by omega) _ fun level' hlevel' index => ?_
    rw [hlatest, h level' hlevel' index]
    rcases lt_trichotomy level' level with hlt | rfl | hgt
    · rw [if_neg (by omega), if_neg (by omega), if_neg (by omega)]
    · rw [if_pos (le_refl level'), if_neg (by omega : ¬level' + 1 ≤ level')]
      split
      · rfl
      · next hnot =>
        refine (node_writeLeaves_of_notMem ?_).symm
        simp only [true_and, mem_range'_1] at hnot
        omega
    · rw [if_neg (by omega), if_pos (by omega), if_pos (by omega)]

theorem appendLeaves_isOk (hfits : t.getNumLeaves true + leaves.length ≤ 2 ^ depth) :
    ∃ t', appendLeaves hash initialLeaf t leaves = .ok t' := by
  have hpos : 0 < 2 ^ depth := by positivity
  refine ⟨_, if_neg ?_⟩
  rw [maxIndex]
  omega

theorem appendLeaves_same (happend : appendLeaves hash initialLeaf t leaves = .ok t') :
    SameCommitted t t' ∧ t'.getNumLeaves true = t.getNumLeaves true + leaves.length ∧
      t.getNumLeaves true + leaves.length ≤ 2 ^ depth := by
  unfold TreeBase.appendLeaves at happend
  simp only at happend
  split at happend
  · cases happend
  · next hfits =>
    simp only [Except.ok.injEq] at happend
    have hpos : 0 < 2 ^ depth := by positivity
    rw [maxIndex, Nat.sub_add_cancel hpos, not_lt] at hfits
    have hset := setLeaves_same (t.getNumLeaves true) leaves.zipIdx t
    subst happend
    exact ⟨hset.trans (hashLevelsFrom_same depth _ _ _), rfl, hfits⟩

theorem Contents.appendLeaves (h : Contents hash initialLeaf t f g)
    (happend : appendLeaves hash initialLeaf t leaves = .ok t') :
    Contents hash initialLeaf t' f (writeLeaves g (t.getNumLeaves true) leaves) := by
  have hsame := (appendLeaves_same happend).1
  unfold TreeBase.appendLeaves at happend
  simp only at happend
  split at happend
  · cases happend
  · have hlatest := hashLevelsFrom_latestFrom depth le_rfl _
      (setLeaves_latestFrom h.uncommitted (t.getNumLeaves true) leaves)
    rw [Nat.sub_self, pow_zero, Nat.div_one, Nat.div_one] at hlatest
    simp only [Except.ok.injEq] at happend
    subst happend
    exact h.of_latestFrom hsame hlatest

/-! ### What is stored -/

def Written (t : TreeBase Buffer depth) (key : ℕ × ℕ) : Prop :=
  ((t.cache key).or (t.nodes key)).isSome

theorem Written.setCache {key : ℕ × ℕ} (h : Written t key) (level index : ℕ) (value : Buffer) :
    Written (t.setCache level index value) key := by
  unfold Written TreeBase.setCache at *
  rcases eq_or_ne key (level, index) with rfl | hne
  · simp
  · simpa [hne] using h

theorem written_setCache (t : TreeBase Buffer depth) (level index : ℕ) (value : Buffer) :
    Written (t.setCache level index value) (level, index) := by
  simp [Written, TreeBase.setCache]

theorem written_foldl {α : Type} {write : TreeBase Buffer depth → α → TreeBase Buffer depth}
    {key : α → ℕ × ℕ} (hkeep : ∀ t a k, Written t k → Written (write t a) k)
    (hadd : ∀ t a, Written (write t a) (key a)) (l : List α) :
    ∀ t : TreeBase Buffer depth, (∀ k, Written t k → Written (l.foldl write t) k) ∧
      ∀ a ∈ l, Written (l.foldl write t) (key a) := by
  induction l with
  | nil => intro t; exact ⟨fun _ => id, by simp⟩
  | cons a l ih =>
    intro t
    obtain ⟨hkept, hadded⟩ := ih (write t a)
    refine ⟨fun k hk => hkept k (hkeep t a k hk), fun a' ha' => ?_⟩
    rcases mem_cons.1 ha' with rfl | ha'
    · exact hkept _ (hadd t a')
    · exact hadded a' ha'

theorem hashLevelsFrom_written {m : ℕ} (hi : n ≤ i ∧ i ≤ m) :
    ∀ (level : ℕ), level ≤ depth → ∀ (t : TreeBase Buffer depth),
      (∀ key, Written t key → Written (hashLevelsFrom hash initialLeaf level
        (n / 2 ^ (depth - level)) (m / 2 ^ (depth - level)) t) key) ∧
      ∀ level' < level, Written (hashLevelsFrom hash initialLeaf level
        (n / 2 ^ (depth - level)) (m / 2 ^ (depth - level)) t)
          (level', i / 2 ^ (depth - level')) := by
  intro level
  induction level with
  | zero => intro _ t; exact ⟨fun _ => id, by simp⟩
  | succ level ih =>
    intro hlevel t
    have hheight : depth - (level + 1) + 1 = depth - level := by omega
    rw [hashLevelsFrom, div_pow_div_two, div_pow_div_two, hheight]
    have hadd : ∀ (t : TreeBase Buffer depth) index,
        Written (hashNode hash initialLeaf level t index) (level, index) :=
      fun t index => written_setCache t level index _
    obtain ⟨hkept, hadded⟩ := written_foldl (fun t index k hk => hk.setCache level index _) hadd
      (range' (n / 2 ^ (depth - level)) (m / 2 ^ (depth - level) + 1 - n / 2 ^ (depth - level))) t
    obtain ⟨hkept', hadded'⟩ := ih (by omega) (foldl (hashNode hash initialLeaf level) t
      (range' (n / 2 ^ (depth - level)) (m / 2 ^ (depth - level) + 1 - n / 2 ^ (depth - level))))
    refine ⟨fun key hkey => hkept' key (hkept key hkey), fun level' hlevel' => ?_⟩
    rcases Nat.lt_or_ge level' level with hlt | hge
    · exact hadded' level' hlt
    · obtain rfl : level' = level := by omega
      refine hkept' _ (hadded _ (mem_range'_1.2 ?_))
      have h₁ : n / 2 ^ (depth - level') ≤ i / 2 ^ (depth - level') := Nat.div_le_div_right hi.1
      have h₂ : i / 2 ^ (depth - level') ≤ m / 2 ^ (depth - level') := Nat.div_le_div_right hi.2
      omega

theorem appendLeaves_written (happend : appendLeaves hash initialLeaf t leaves = .ok t') :
    (∀ key, Written t key → Written t' key) ∧
      ∀ i, t.getNumLeaves true ≤ i → i < t.getNumLeaves true + leaves.length →
        ∀ level ≤ depth, Written t' (level, i / 2 ^ (depth - level)) := by
  unfold TreeBase.appendLeaves at happend
  simp only at happend
  split at happend
  · cases happend
  · simp only [Except.ok.injEq] at happend
    set n := t.getNumLeaves true with hn
    have hadd : ∀ (t : TreeBase Buffer depth) (leaf : Buffer × ℕ),
        Written (t.setCache depth (n + leaf.2) leaf.1) (depth, n + leaf.2) :=
      fun t leaf => written_setCache t depth _ _
    obtain ⟨hkept, hadded⟩ := written_foldl (fun t leaf k hk => hk.setCache depth _ _) hadd
      leaves.zipIdx t
    set t₁ := leaves.zipIdx.foldl (fun t leaf => t.setCache depth (n + leaf.2) leaf.1) t
    have hlevels : ∀ i, n ≤ i ∧ i ≤ n + leaves.length →
        (∀ key, Written t₁ key → Written (hashLevelsFrom hash initialLeaf depth _ _ t₁) key) ∧ _ :=
      fun i hi => hashLevelsFrom_written hi depth le_rfl t₁
    simp only [Nat.sub_self, pow_zero, Nat.div_one] at hlevels
    subst happend
    refine ⟨fun key hkey => (hlevels n ⟨le_rfl, by omega⟩).1 key (hkept key hkey), ?_⟩
    intro i hge hlt level hlevel
    rcases Nat.lt_or_ge level depth with hlevel | hlevel
    · exact (hlevels i ⟨hge, by omega⟩).2 level hlevel
    · obtain rfl : level = depth := by omega
      have hmem : (leaves.get ⟨i - n, by omega⟩, i - n) ∈ leaves.zipIdx := by
        rw [mem_zipIdx_iff_getElem?]
        simp
      have := hadded _ hmem
      simp only [Nat.add_sub_cancel' hge] at this
      rw [Nat.sub_self, pow_zero, Nat.div_one]
      exact (hlevels i ⟨hge, by omega⟩).1 _ this

end Contents

end TreeBase
