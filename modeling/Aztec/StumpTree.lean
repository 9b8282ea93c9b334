/-
**The sparse Merkle tree of the C++ world state.**

`MerkleTree` stores a node under its hash: as its two children, or, when a single leaf below it is
not empty, as a stump, which holds the leaf.  A stump is forked on demand, and an empty subtree is
not stored at all.  On an update the old nodes are deleted, although a subtree with the same leaves
may stand at another place of the tree; when none does, the tree is that of the array.
-/

import Aztec.Merkle
import Mathlib.Data.Nat.Bitwise
import Mathlib.Data.Nat.Size

open Merkle List

/-! ### The store -/

structure MemoryStore (K V : Type) where
  store : K → Option V
  puts : K → Option V
  deletes : K → Bool

namespace MemoryStore

variable {K V : Type} [DecidableEq K]

def empty : MemoryStore K V := ⟨fun _ => none, fun _ => none, fun _ => false⟩

def put (s : MemoryStore K V) (key : K) (value : V) : MemoryStore K V :=
  { s with
    puts := Function.update s.puts key (some value)
    deletes := Function.update s.deletes key false }

def del (s : MemoryStore K V) (key : K) : MemoryStore K V :=
  { s with
    puts := Function.update s.puts key none
    deletes := Function.update s.deletes key true }

def get (s : MemoryStore K V) (key : K) : Option V :=
  if s.deletes key then none else (s.puts key).or (s.store key)

omit [DecidableEq K] in
@[simp] theorem get_empty (key : K) : (empty : MemoryStore K V).get key = none := rfl

theorem get_put (s : MemoryStore K V) (key key' : K) (value : V) :
    (s.put key value).get key' = if key' = key then some value else s.get key' := by
  unfold get put
  by_cases h : key' = key
  · subst h
    simp
  · simp [h]

theorem get_del (s : MemoryStore K V) (key key' : K) :
    (s.del key).get key' = if key' = key then none else s.get key' := by
  unfold get del
  by_cases h : key' = key
  · subst h
    simp
  · simp [h]

end MemoryStore

namespace StumpTree

/-! ### The tree -/

inductive NodeData (Fr : Type) where
  | stump (value : Fr) (index : ℕ)
  | regular (left right : Fr)
  deriving DecidableEq

/-- The state of `MerkleTree`: its nodes and the root in its metadata.  The leaves it also puts in
the store are never read. -/
structure Tree (Fr : Type) where
  nodes : MemoryStore Fr (NodeData Fr)
  root : Option Fr

section Model

variable {Fr : Type} [DecidableEq Fr] (hashPair : Fr → Fr → Fr) (zero : Fr)

/-- `compute_zero_path_hash`, by the last turn of its loop. -/
def computeZeroPathHash : ℕ → ℕ → Fr → Fr
  | 0, _, value => value
  | height + 1, index, value =>
    let current := computeZeroPathHash height index value
    if index.testBit height then hashPair (zeroNode hashPair zero height) current
    else hashPair current (zeroNode hashPair zero height)

def binaryPut (s : MemoryStore Fr (NodeData Fr)) (aIndex : ℕ) (a b : Fr) (height : ℕ) :
    Fr × MemoryStore Fr (NodeData Fr) :=
  let aIsRight := aIndex.testBit (height - 1)
  let left := if aIsRight then b else a
  let right := if aIsRight then a else b
  let key := hashPair left right
  (key, s.put key (.regular left right))

def forkStump (value1 : Fr) (index1 : ℕ) (value2 : Fr) (index2 commonHeight : ℕ) :
    ℕ → MemoryStore Fr (NodeData Fr) → Fr × MemoryStore Fr (NodeData Fr)
  | 0, s => (value1, s)
  | height + 1, s =>
    if height + 1 = commonHeight then
      if height = 0 then binaryPut hashPair s (index1 % 2) value1 value2 (height + 1)
      else
        let stump1Index := index1 % 2 ^ height
        let stump2Index := index2 % 2 ^ height
        let stump1Hash := computeZeroPathHash hashPair zero height stump1Index value1
        let stump2Hash := computeZeroPathHash hashPair zero height stump2Index value2
        let s := s.put stump1Hash (.stump value1 stump1Index)
        let s := s.put stump2Hash (.stump value2 stump2Index)
        binaryPut hashPair s index1 stump1Hash stump2Hash (height + 1)
    else
      let (newRoot, s) := forkStump value1 index1 value2 index2 commonHeight height s
      binaryPut hashPair s index1 newRoot (zeroNode hashPair zero height) (height + 1)

/-- The recursive `update_element`.  The common height of two indices is the number of bits in
which they may differ, which the source finds by counting leading zeros. -/
def updateElement (value : Fr) : ℕ → MemoryStore Fr (NodeData Fr) → Fr → ℕ →
    Fr × MemoryStore Fr (NodeData Fr)
  | 0, s, _, _ => (value, s)
  | height + 1, s, root, index =>
    match s.get root with
    | none =>
      let key := computeZeroPathHash hashPair zero (height + 1) index value
      (key, s.put key (.stump value index))
    | some (.stump existingValue existingIndex) =>
      if existingIndex = index then
        let newHash := computeZeroPathHash hashPair zero (height + 1) index value
        (newHash, s.put newHash (.stump value existingIndex))
      else
        forkStump hashPair zero existingValue existingIndex value index
          (existingIndex ^^^ index).size (height + 1) s
    | some (.regular left right) =>
      let isRight := index.testBit height
      let subtreeRoot := if isRight then right else left
      let (newSubtreeRoot, s) := updateElement value height s subtreeRoot (index % 2 ^ height)
      let left := if isRight then left else newSubtreeRoot
      let right := if isRight then newSubtreeRoot else right
      let newRoot := hashPair left right
      let s := s.put newRoot (.regular left right)
      -- the old node is removed while rolling back
      (newRoot, if subtreeRoot = newSubtreeRoot then s else s.del subtreeRoot)

def getRoot (depth : ℕ) (t : Tree Fr) : Fr := t.root.getD (zeroNode hashPair zero depth)

/-- `update_element`. -/
def update (depth : ℕ) (t : Tree Fr) (index : ℕ) (value : Fr) : Tree Fr :=
  let (root, nodes) :=
    updateElement hashPair zero value depth t.nodes (getRoot hashPair zero depth t) index
  { nodes := nodes, root := some root }

/-- The pairs along the only leaf of a stump, from a level on. -/
def stumpPairs (elementIndex : ℕ) : ℕ → ℕ → Fr → List (Fr × Fr)
  | 0, _, _ => []
  | levels + 1, j, current =>
    let pair := if elementIndex.testBit j then (zeroNode hashPair zero j, current)
      else (current, zeroNode hashPair zero j)
    pair :: stumpPairs elementIndex levels (j + 1) (hashPair pair.1 pair.2)

def stumpHashPath (levels : ℕ) (current : Fr) (elementIndex subtreeIndex : ℕ) : List (Fr × Fr) :=
  let diff := elementIndex ^^^ subtreeIndex
  if diff < 2 then stumpPairs hashPair zero elementIndex levels 0 current
  else
    let commonHeight := diff.size - 1
    let current := computeZeroPathHash hashPair zero commonHeight elementIndex current
    (List.range commonHeight).map (fun j => (zeroNode hashPair zero j, zeroNode hashPair zero j)) ++
      stumpPairs hashPair zero elementIndex (levels - commonHeight) commonHeight current

/-- The loop of `get_hash_path`, from the top; the path starts with the leaves. -/
def hashPathFrom (s : MemoryStore Fr (NodeData Fr)) (index : ℕ) :
    ℕ → Option (NodeData Fr) → List (Fr × Fr)
  | 0, _ => []
  | i + 1, none => hashPathFrom s index i none ++
      [(zeroNode hashPair zero i, zeroNode hashPair zero i)]
  | i + 1, some (.regular left right) =>
    hashPathFrom s index i (s.get (if index.testBit i then right else left)) ++ [(left, right)]
  | i + 1, some (.stump value elementIndex) =>
    stumpHashPath hashPair zero (i + 1) value elementIndex (index % 2 ^ (i + 1))

def getHashPath (depth : ℕ) (t : Tree Fr) (index : ℕ) : List (Fr × Fr) :=
  hashPathFrom hashPair zero t.nodes index depth (t.nodes.get (getRoot hashPair zero depth t))

def stumpSiblingPath (levels : ℕ) (current : Fr) (elementIndex subtreeIndex : ℕ) : List Fr :=
  let diff := elementIndex ^^^ subtreeIndex
  let path := (List.range levels).map (zeroNode hashPair zero)
  if diff = 1 then path.set 0 current
  else if diff > 1 then
    let commonHeight := diff.size - 1
    path.set commonHeight (computeZeroPathHash hashPair zero commonHeight elementIndex current)
  else path

/-- The loop of `get_sibling_path`. -/
def siblingPathFrom (s : MemoryStore Fr (NodeData Fr)) (index : ℕ) :
    ℕ → Option (NodeData Fr) → List Fr
  | 0, _ => []
  | i + 1, none => siblingPathFrom s index i none ++ [zeroNode hashPair zero i]
  | i + 1, some (.regular left right) =>
    siblingPathFrom s index i (s.get (if index.testBit i then right else left)) ++
      [if index.testBit i then left else right]
  | i + 1, some (.stump value elementIndex) =>
    stumpSiblingPath hashPair zero (i + 1) value elementIndex (index % 2 ^ (i + 1))

def getSiblingPath (depth : ℕ) (t : Tree Fr) (index : ℕ) : List Fr :=
  siblingPathFrom hashPair zero t.nodes index depth (t.nodes.get (getRoot hashPair zero depth t))

def run (depth : ℕ) (updates : List (ℕ × Fr)) : Tree Fr :=
  updates.foldl (fun t u => update hashPair zero depth t u.1 u.2) ⟨MemoryStore.empty, none⟩

def arrayOf (updates : List (ℕ × Fr)) : ℕ → Fr :=
  updates.foldl (fun f u => Function.update f u.1 u.2) fun _ => zero

def pairAt (f : ℕ → Fr) (index height : ℕ) : Fr × Fr :=
  (node hashPair f height (2 * (index / 2 ^ (height + 1))),
    node hashPair f height (2 * (index / 2 ^ (height + 1)) + 1))

def siblingAt (f : ℕ → Fr) (index height : ℕ) : Fr :=
  node hashPair f height (siblingIndex (index / 2 ^ height))

/-- **What a tree of an array answers.** -/
structure Answers (depth : ℕ) (t : Tree Fr) (f : ℕ → Fr) : Prop where
  root_eq : getRoot hashPair zero depth t = node hashPair f depth 0
  hashPath_eq : ∀ index < 2 ^ depth, getHashPath hashPair zero depth t index =
    (List.range depth).map (pairAt hashPair f index)
  siblingPath_eq : ∀ index < 2 ^ depth, getSiblingPath hashPair zero depth t index =
    (List.range depth).map (siblingAt hashPair f index)

/-- The node is looked up by itself, from a height on: the nodes above it are stored with their two
children. -/
def Separate (s : MemoryStore Fr (NodeData Fr)) (f : ℕ → Fr) (top height i : ℕ) : Prop :=
  ∀ above, height < above → above ≤ top →
    ∃ left right, s.get (node hashPair f above (i / 2 ^ (above - height))) =
      some (.regular left right)

/-- The update changes no subtree of which a copy stands elsewhere, unless it is empty or one of
the two is inside a stump. -/
def Unshared (depth : ℕ) (t : Tree Fr) (f : ℕ → Fr) (index : ℕ) (value : Fr) : Prop :=
  f index ≠ value → ∀ height, 0 < height → height < depth →
    Separate hashPair t.nodes f depth height (index / 2 ^ height) →
    ∀ i, i / 2 ^ (depth - height) = 0 → i ≠ index / 2 ^ height →
      Separate hashPair t.nodes f depth height i →
      (∀ k < 2 ^ height, f (i * 2 ^ height + k) = f (index / 2 ^ height * 2 ^ height + k)) →
      ∀ k < 2 ^ height, f (i * 2 ^ height + k) = zero

end Model

/-! ### Paths to a single leaf -/

section Bits

theorem xor_lt_iff {a b n : ℕ} : a ^^^ b < 2 ^ n ↔ a / 2 ^ n = b / 2 ^ n := by
  have hdiv : (a ^^^ b) / 2 ^ n = a / 2 ^ n ^^^ b / 2 ^ n := by
    simp only [← Nat.shiftRight_eq_div_pow, Nat.shiftRight_xor_distrib]
  rw [← Nat.div_eq_zero_iff_lt (by positivity), hdiv, Nat.xor_eq_zero_iff]

theorem size_xor_le_iff {a b n : ℕ} : (a ^^^ b).size ≤ n ↔ a / 2 ^ n = b / 2 ^ n := by
  rw [Nat.size_le, xor_lt_iff]

theorem siblingIndex_ne (i : ℕ) : siblingIndex i ≠ i := by
  rw [siblingIndex]
  split <;> omega

theorem siblingIndex_div_two (i : ℕ) : siblingIndex i / 2 = i / 2 := by
  rw [siblingIndex]
  split <;> omega

theorem eq_siblingIndex {i j : ℕ} (h : j / 2 = i / 2) (hne : j ≠ i) : j = siblingIndex i := by
  rw [siblingIndex]
  split <;> omega

theorem testBit_iff {index height : ℕ} :
    index.testBit height = true ↔ index / 2 ^ height % 2 = 1 := by
  rw [Nat.testBit_eq_decide_div_mod_eq, decide_eq_true_eq]

end Bits

section Single

variable {Fr : Type} {hashPair : Fr → Fr → Fr} {zero : Fr}

theorem computeZeroPathHash_mod {height bits : ℕ} (h : height ≤ bits) (index : ℕ) (value : Fr) :
    computeZeroPathHash hashPair zero height (index % 2 ^ bits) value =
      computeZeroPathHash hashPair zero height index value := by
  induction height with
  | zero => rfl
  | succ height ih =>
    rw [computeZeroPathHash, computeZeroPathHash, ih (by omega), Nat.testBit_mod_two_pow,
      decide_eq_true (by omega : height < bits), Bool.true_and]

theorem node_eq_computeZeroPathHash {f : ℕ → Fr} {index : ℕ} {value : Fr} (height : ℕ)
    (hvalue : f index = value)
    (hothers : ∀ j, j / 2 ^ height = index / 2 ^ height → j ≠ index → f j = zero) :
    node hashPair f height (index / 2 ^ height) =
      computeZeroPathHash hashPair zero height index value := by
  induction height with
  | zero => simpa [computeZeroPathHash] using hvalue
  | succ height ih =>
    have hbelow : ∀ j, j / 2 ^ height = index / 2 ^ height →
        j / 2 ^ (height + 1) = index / 2 ^ (height + 1) := by
      intro j hj
      rw [← div_pow_div_two, ← div_pow_div_two, hj]
    have hpath := ih fun j hj => hothers j (hbelow j hj)
    -- the sibling is empty
    have hsibling : node hashPair f height (siblingIndex (index / 2 ^ height)) =
        zeroNode hashPair zero height := by
      refine node_const fun j h₁ h₂ => hothers j ?_ ?_
      · rw [← div_pow_div_two, ← div_pow_div_two, div_of_block h₁ h₂, siblingIndex_div_two]
      · rintro rfl
        exact siblingIndex_ne _ (div_of_block h₁ h₂).symm
    rw [← div_pow_div_two, node_parent, hpath, hsibling, computeZeroPathHash]
    simp only [testBit_iff]

end Single

/-! ### Sound and readable stores -/

section Stores

variable {Fr : Type} [DecidableEq Fr] (hashPair : Fr → Fr → Fr) (zero : Fr) (Leaf : Fr → Prop)

def SoundData (key : Fr) : NodeData Fr → Prop
  | .stump value index => Leaf value ∧ ∃ height, index < 2 ^ height ∧
      key = computeZeroPathHash hashPair zero height index value
  | .regular left right => key = hashPair left right

def Sound (s : MemoryStore Fr (NodeData Fr)) : Prop :=
  ∀ key data, s.get key = some data → SoundData hashPair zero Leaf key data

/-- A node of a height can be read from the store: it is empty when it is missing, and so on for
its children. -/
def Readable (s : MemoryStore Fr (NodeData Fr)) : ℕ → Fr → Prop
  | 0, _ => True
  | height + 1, key =>
    (s.get key = none → key = zeroNode hashPair zero (height + 1)) ∧
      ∀ left right, s.get key = some (.regular left right) →
        Readable s height left ∧ Readable s height right

/-- What a leaf may be: the hash is injective and not a leaf. -/
structure LeafRules : Prop where
  injective : Function.Injective2 hashPair
  zero : Leaf zero
  hash_ne : ∀ value, Leaf value → ∀ a b, hashPair a b ≠ value

variable {hashPair zero Leaf} {s : MemoryStore Fr (NodeData Fr)} {f g : ℕ → Fr}

omit [DecidableEq Fr] in
theorem LeafRules.height_eq (h : LeafRules hashPair zero Leaf) (hf : ∀ j, Leaf (f j))
    (hg : ∀ j, Leaf (g j)) :
    ∀ {height height' i i' : ℕ}, node hashPair f height i = node hashPair g height' i' →
      height = height' := by
  intro height
  induction height with
  | zero =>
    intro height' i i' heq
    cases height' with
    | zero => rfl
    | succ height' =>
      rw [node_zero, node_succ] at heq
      exact absurd heq.symm (h.hash_ne _ (hf i) _ _)
  | succ height ih =>
    intro height' i i' heq
    cases height' with
    | zero =>
      rw [node_zero, node_succ] at heq
      exact absurd heq (h.hash_ne _ (hg i') _ _)
    | succ height' =>
      rw [node_succ, node_succ] at heq
      rw [ih (h.injective heq).1]

omit [DecidableEq Fr] in
theorem Sound.regular_eq (h : LeafRules hashPair zero Leaf) (hs : Sound hashPair zero Leaf s)
    {height i : ℕ} {left right : Fr}
    (hget : s.get (node hashPair f (height + 1) i) = some (.regular left right)) :
    left = node hashPair f height (2 * i) ∧ right = node hashPair f height (2 * i + 1) := by
  have hdata : node hashPair f (height + 1) i = hashPair left right := hs _ _ hget
  rw [node_succ] at hdata
  obtain ⟨hleft, hright⟩ := h.injective hdata
  exact ⟨hleft.symm, hright.symm⟩

omit [DecidableEq Fr] in
theorem LeafRules.const (h : LeafRules hashPair zero Leaf) : ∀ j : ℕ, Leaf ((fun _ => zero) j) :=
  fun _ => h.zero

omit [DecidableEq Fr] in
theorem LeafRules.update (h : ∀ j, Leaf (f j)) (index : ℕ) {value : Fr} (hvalue : Leaf value) :
    ∀ j, Leaf (Function.update f index value j) := by
  intro j
  by_cases hj : j = index
  · rw [hj, Function.update_self]
    exact hvalue
  · rw [Function.update_of_ne hj]
    exact h j

omit [DecidableEq Fr] in
theorem Sound.stump_eq (h : LeafRules hashPair zero Leaf) (hs : Sound hashPair zero Leaf s)
    (hf : ∀ j, Leaf (f j)) {height i : ℕ} {value : Fr} {index : ℕ}
    (hget : s.get (node hashPair f height i) = some (.stump value index)) :
    Leaf value ∧ index < 2 ^ height ∧ f (i * 2 ^ height + index) = value ∧
      ∀ j, j / 2 ^ height = i → j ≠ i * 2 ^ height + index → f j = zero := by
  obtain ⟨hvalue, height', hindex, hkey⟩ := hs _ _ hget
  -- the hash of the path is a node of the array with this leaf only
  have hsingle := @node_eq_computeZeroPathHash Fr hashPair zero
    (Function.update (fun _ => zero) index value) index _ height'
    (Function.update_self _ _ _) fun j _ hj => Function.update_of_ne hj _ _
  rw [Nat.div_eq_of_lt hindex] at hsingle
  rw [← hsingle] at hkey
  obtain rfl := h.height_eq hf (LeafRules.update h.const index hvalue) hkey
  have hblock := node_inj h.injective hkey
  simp only [Nat.zero_mul, Nat.zero_add] at hblock
  refine ⟨hvalue, hindex, by rw [hblock index hindex, Function.update_self], fun j hj hne => ?_⟩
  obtain ⟨h₁, h₂⟩ := div_eq_iff_block.1 hj
  rw [Nat.add_mul, Nat.one_mul] at h₂
  have hj' := hblock (j - i * 2 ^ height) (by omega)
  rw [Nat.add_sub_cancel' h₁] at hj'
  rw [hj', Function.update_of_ne (by omega)]

omit [DecidableEq Fr] in
theorem readable_zeroNode (h : LeafRules hashPair zero Leaf) (hs : Sound hashPair zero Leaf s)
    (height : ℕ) : Readable hashPair zero s height (zeroNode hashPair zero height) := by
  induction height with
  | zero => trivial
  | succ height ih =>
    refine ⟨fun _ => rfl, fun left right hget => ?_⟩
    have hdata : zeroNode hashPair zero (height + 1) = hashPair left right := hs _ _ hget
    rw [zeroNode_succ] at hdata
    obtain ⟨rfl, rfl⟩ := h.injective hdata
    exact ⟨ih, ih⟩

omit [DecidableEq Fr] in
theorem Separate.succ {top height i : ℕ} (h : Separate hashPair s f top height i)
    (htop : ∃ left right, s.get (node hashPair f (top + 1) (i / 2 ^ (top + 1 - height))) =
      some (.regular left right)) : Separate hashPair s f (top + 1) height i := by
  intro above hlt hle
  rcases Nat.lt_or_ge top above with habove | habove
  · obtain rfl : above = top + 1 := by omega
    exact htop
  · exact h above hlt habove

theorem Sound.put (hs : Sound hashPair zero Leaf s) {key : Fr} {data : NodeData Fr}
    (hdata : SoundData hashPair zero Leaf key data) :
    Sound hashPair zero Leaf (s.put key data) := by
  intro key' data' hget
  rw [MemoryStore.get_put] at hget
  split at hget
  · next heq =>
    obtain rfl := Option.some.inj hget
    rw [heq]
    exact hdata
  · exact hs key' data' hget

theorem Sound.del (hs : Sound hashPair zero Leaf s) (key : Fr) :
    Sound hashPair zero Leaf (s.del key) := by
  intro key' data' hget
  rw [MemoryStore.get_del] at hget
  split at hget
  · cases hget
  · exact hs key' data' hget

section

variable (h : LeafRules hashPair zero Leaf) (hs : Sound hashPair zero Leaf s) (hg : ∀ j, Leaf (g j))
  {k i : ℕ}
include h hs hg

theorem Readable.put {data : NodeData Fr}
    (hdata : SoundData hashPair zero Leaf (node hashPair g (k + 1) i) data)
    (hchildren : ∀ left right, data = .regular left right →
      Readable hashPair zero s k left ∧ Readable hashPair zero s k right) (hf : ∀ j, Leaf (f j)) :
    ∀ {height i' : ℕ}, Readable hashPair zero s height (node hashPair f height i') →
      Readable hashPair zero (s.put (node hashPair g (k + 1) i) data) height
        (node hashPair f height i') := by
  intro height
  induction height with
  | zero => intros; trivial
  | succ height ih =>
    intro i' hread
    refine ⟨fun hget => ?_, fun left right hget => ?_⟩
    · rw [MemoryStore.get_put] at hget
      split at hget
      · cases hget
      · exact hread.1 hget
    · obtain ⟨hleft, hright⟩ := (hs.put hdata).regular_eq h hget
      rw [MemoryStore.get_put] at hget
      have hold : Readable hashPair zero s height left ∧
          Readable hashPair zero s height right := by
        split at hget
        · next heq =>
          obtain hk : height + 1 = k + 1 := h.height_eq hf hg heq
          obtain rfl : height = k := by omega
          exact hchildren left right (Option.some.inj hget)
        · exact hread.2 left right hget
      rw [hleft, hright] at hold ⊢
      exact ⟨ih hold.1, ih hold.2⟩

theorem Readable.del (hf : ∀ j, Leaf (f j)) {height i' : ℕ}
    (hread : Readable hashPair zero s height (node hashPair f height i'))
    (hcopies : 0 < k → k ≤ height → ∀ j, j / 2 ^ (height - k) = i' →
      Separate hashPair s f height k j → node hashPair f k j = node hashPair g k i →
        node hashPair g k i = zeroNode hashPair zero k) :
    Readable hashPair zero (s.del (node hashPair g k i)) height (node hashPair f height i') := by
  induction height generalizing i' with
  | zero => trivial
  | succ height ih =>
    refine ⟨fun hget => ?_, fun left right hget => ?_⟩
    · rw [MemoryStore.get_del] at hget
      split at hget
      · next heq =>
        obtain rfl := h.height_eq hf hg heq
        rw [heq]
        exact hcopies (Nat.succ_pos _) le_rfl i' (by simp) (fun _ _ _ => by omega) heq
      · exact hread.1 hget
    · obtain ⟨hleft, hright⟩ := (hs.del _).regular_eq h hget
      rw [MemoryStore.get_del] at hget
      split at hget
      · cases hget
      · have hold := hread.2 left right hget
        rw [hleft, hright] at hold ⊢
        have hbelow : ∀ i'', i'' / 2 = i' → 0 < k → k ≤ height → ∀ j,
            j / 2 ^ (height - k) = i'' → Separate hashPair s f height k j →
            node hashPair f k j = node hashPair g k i →
            node hashPair g k i = zeroNode hashPair zero k := by
          intro i'' hi'' hk hle j hj hseparate
          have hj' : j / 2 ^ (height + 1 - k) = i' := by
            rw [show height + 1 - k = height - k + 1 by omega, ← div_pow_div_two, hj, hi'']
          exact hcopies hk (by omega) j hj' (hseparate.succ ⟨left, right, hj' ▸ hget⟩)
        exact ⟨ih hold.1 (hbelow _ (by omega)), ih hold.2 (hbelow _ (by omega))⟩

theorem Readable.put_self {data : NodeData Fr}
    (hdata : SoundData hashPair zero Leaf (node hashPair g (k + 1) i) data)
    (hchildren : ∀ left right, data = .regular left right →
      Readable hashPair zero s k left ∧ Readable hashPair zero s k right) :
    Readable hashPair zero (s.put (node hashPair g (k + 1) i) data) (k + 1)
      (node hashPair g (k + 1) i) := by
  refine ⟨fun hget => ?_, fun left right hget => ?_⟩
  · rw [MemoryStore.get_put, if_pos rfl] at hget
    cases hget
  · obtain ⟨hleft, hright⟩ := (hs.put hdata).regular_eq h hget
    rw [MemoryStore.get_put, if_pos rfl] at hget
    have hold := hchildren left right (Option.some.inj hget)
    rw [hleft, hright] at hold ⊢
    exact ⟨Readable.put h hs hg hdata hchildren hg hold.1,
      Readable.put h hs hg hdata hchildren hg hold.2⟩

end

variable (hashPair zero Leaf) in
/-- What an operation that only stores nodes leaves behind, and the node it returns. -/
structure Stores (s s' : MemoryStore Fr (NodeData Fr)) (height : ℕ) (key : Fr) : Prop where
  sound : Sound hashPair zero Leaf s'
  readable : Readable hashPair zero s' height key
  keeps : ∀ f : ℕ → Fr, (∀ j, Leaf (f j)) → ∀ height' i,
    Readable hashPair zero s height' (node hashPair f height' i) →
      Readable hashPair zero s' height' (node hashPair f height' i)
  frame : ∀ f : ℕ → Fr, (∀ j, Leaf (f j)) → ∀ height' i, height < height' →
    s'.get (node hashPair f height' i) = s.get (node hashPair f height' i)

section

variable (h : LeafRules hashPair zero Leaf) (hs : Sound hashPair zero Leaf s) (hg : ∀ j, Leaf (g j))
include h hs hg

theorem stores_put {k i : ℕ} {data : NodeData Fr}
    (hdata : SoundData hashPair zero Leaf (node hashPair g (k + 1) i) data)
    (hchildren : ∀ left right, data = .regular left right →
      Readable hashPair zero s k left ∧ Readable hashPair zero s k right) :
    Stores hashPair zero Leaf s (s.put (node hashPair g (k + 1) i) data) (k + 1)
      (node hashPair g (k + 1) i) where
  sound := hs.put hdata
  readable := Readable.put_self h hs hg hdata hchildren
  keeps _ hf _ _ := Readable.put h hs hg hdata hchildren hf
  frame _ hf _ _ hlt := by
    rw [MemoryStore.get_put, if_neg fun heq => hlt.ne' (h.height_eq hf hg heq)]

theorem stores_stump {height : ℕ} (index : ℕ)
    (hothers : ∀ j, j / 2 ^ height = index / 2 ^ height → j ≠ index → g j = zero)
    (hheight : 0 < height) :
    computeZeroPathHash hashPair zero height (index % 2 ^ height) (g index) =
        node hashPair g height (index / 2 ^ height) ∧ Stores hashPair zero Leaf s
        (s.put (node hashPair g height (index / 2 ^ height))
          (.stump (g index) (index % 2 ^ height))) height
        (node hashPair g height (index / 2 ^ height)) := by
  have hkey : computeZeroPathHash hashPair zero height (index % 2 ^ height) (g index) =
      node hashPair g height (index / 2 ^ height) := by
    rw [computeZeroPathHash_mod le_rfl, node_eq_computeZeroPathHash height rfl hothers]
  obtain ⟨k, rfl⟩ : ∃ k, height = k + 1 := ⟨height - 1, by omega⟩
  refine ⟨hkey, stores_put h hs hg ⟨hg index, k + 1, ?_, hkey.symm⟩ ?_⟩
  · exact Nat.mod_lt _ (by positivity)
  · intro left right hdata
    cases hdata

theorem binaryPut_spec {aIndex height c : ℕ} (hbit : aIndex.testBit height = true ↔ c % 2 = 1)
    (hread : Readable hashPair zero s height (node hashPair g height c))
    (hsibling : Readable hashPair zero s height (node hashPair g height (siblingIndex c))) :
    ∃ s', binaryPut hashPair s aIndex (node hashPair g height c)
        (node hashPair g height (siblingIndex c)) (height + 1) =
          (node hashPair g (height + 1) (c / 2), s') ∧
      Stores hashPair zero Leaf s s' (height + 1) (node hashPair g (height + 1) (c / 2)) := by
  have hparent := node_parent hashPair g height c
  simp only [binaryPut, Nat.add_sub_cancel]
  by_cases hc : c % 2 = 1
  · rw [if_pos hc] at hparent
    rw [if_pos (hbit.2 hc), if_pos (hbit.2 hc), ← hparent]
    refine ⟨_, rfl, stores_put h hs hg hparent fun left right hdata => ?_⟩
    obtain ⟨rfl, rfl⟩ := NodeData.regular.inj hdata
    exact ⟨hsibling, hread⟩
  · rw [if_neg hc] at hparent
    rw [if_neg (fun hb => hc (hbit.1 hb)), if_neg (fun hb => hc (hbit.1 hb)), ← hparent]
    refine ⟨_, rfl, stores_put h hs hg hparent fun left right hdata => ?_⟩
    obtain ⟨rfl, rfl⟩ := NodeData.regular.inj hdata
    exact ⟨hread, hsibling⟩

end

omit [DecidableEq Fr] in
theorem Stores.trans {s' s'' : MemoryStore Fr (NodeData Fr)} {height height' : ℕ} {key key' : Fr}
    (h₁ : Stores hashPair zero Leaf s s' height key)
    (h₂ : Stores hashPair zero Leaf s' s'' height' key') (hle : height ≤ height') :
    Stores hashPair zero Leaf s s'' height' key' where
  sound := h₂.sound
  readable := h₂.readable
  keeps f hf height i hread := h₂.keeps f hf height i (h₁.keeps f hf height i hread)
  frame f hf height i hlt :=
    (h₂.frame f hf height i hlt).trans (h₁.frame f hf height i (hle.trans_lt hlt))

/-! ### An update -/

theorem forkStump_spec (h : LeafRules hashPair zero Leaf) (hs : Sound hashPair zero Leaf s)
    (hg : ∀ j, Leaf (g j)) {index1 index2 : ℕ} (hne : index1 ≠ index2)
    (hothers : ∀ j, j ≠ index1 → j ≠ index2 → g j = zero) {height : ℕ}
    (hheight : (index1 ^^^ index2).size ≤ height) :
    ∃ s', forkStump hashPair zero (g index1) index1 (g index2) index2 (index1 ^^^ index2).size
        height s = (node hashPair g height (index1 / 2 ^ height), s') ∧
      Stores hashPair zero Leaf s s' height (node hashPair g height (index1 / 2 ^ height)) := by
  induction height with
  | zero =>
    have heq := size_xor_le_iff.1 hheight
    simp only [pow_zero, Nat.div_one] at heq
    exact absurd heq hne
  | succ height ih =>
    have hbit : index1.testBit height = true ↔ index1 / 2 ^ height % 2 = 1 := testBit_iff
    rw [← div_pow_div_two]
    by_cases hcommon : height + 1 = (index1 ^^^ index2).size
    · -- the two indices part here
      have hapart : index1 / 2 ^ height ≠ index2 / 2 ^ height := by
        rw [Ne, ← size_xor_le_iff]
        omega
      have hsibling : index2 / 2 ^ height = siblingIndex (index1 / 2 ^ height) := by
        have htogether := size_xor_le_iff.1 hheight
        rw [← div_pow_div_two, ← div_pow_div_two] at htogether
        exact eq_siblingIndex htogether.symm hapart.symm
      rw [forkStump, if_pos hcommon]
      rcases Nat.eq_zero_or_pos height with rfl | hpos
      · have hbit' : (index1 % 2).testBit 0 = true ↔ index1 / 2 ^ 0 % 2 = 1 := by
          rw [testBit_iff]
          simp
        have hput := binaryPut_spec h hs hg hbit' trivial trivial
        rw [← hsibling] at hput
        simpa using hput
      · obtain ⟨hkey1, hstump1⟩ := stores_stump h hs hg index1
          (fun j hj hne' => hothers j hne' (by rintro rfl; exact hapart hj.symm)) hpos
        obtain ⟨hkey2, hstump2⟩ := stores_stump h hstump1.sound hg index2
          (fun j hj hne' => hothers j (by rintro rfl; exact hapart hj) hne') hpos
        rw [if_neg (by omega)]
        simp only [hkey1, hkey2]
        obtain ⟨s', heq, hput⟩ := binaryPut_spec h hstump2.sound hg hbit
          (hstump2.keeps g hg _ _ hstump1.readable) (hsibling ▸ hstump2.readable)
        rw [← hsibling] at heq
        exact ⟨s', heq, (hstump1.trans hstump2 le_rfl).trans hput (Nat.le_succ _)⟩
    · -- the subtree beside them is empty
      obtain ⟨s', heq, hfork⟩ := ih (by omega)
      have htogether : index1 / 2 ^ height = index2 / 2 ^ height :=
        size_xor_le_iff.1 (by omega)
      have hempty : node hashPair g height (siblingIndex (index1 / 2 ^ height)) =
          zeroNode hashPair zero height := by
        refine node_const fun j h₁ h₂ => hothers j ?_ ?_
        · rintro rfl
          exact siblingIndex_ne _ (div_of_block h₁ h₂).symm
        · rintro rfl
          rw [htogether] at h₁ h₂
          exact siblingIndex_ne _ (div_of_block h₁ h₂).symm
      obtain ⟨s'', heq', hput⟩ := binaryPut_spec h hfork.sound hg hbit hfork.readable
        (hempty ▸ readable_zeroNode h hfork.sound height)
      rw [hempty] at heq'
      refine ⟨s'', ?_, hfork.trans hput (Nat.le_succ _)⟩
      rw [forkStump, if_neg hcommon, heq]
      exact heq'

variable (hashPair zero) in
/-- The nodes below a height that a change of a leaf replaces have no copies that are looked up
below another node, unless empty. -/
def NoCopies (s : MemoryStore Fr (NodeData Fr)) (f g : ℕ → Fr) (index height height' i : ℕ) :
    Prop :=
  ∀ k, 0 < k → k < height → k ≤ height' →
    node hashPair f k (index / 2 ^ k) ≠ node hashPair g k (index / 2 ^ k) →
    Separate hashPair s f height k (index / 2 ^ k) →
    ∀ j, j / 2 ^ (height' - k) = i → j ≠ index / 2 ^ k → Separate hashPair s f height' k j →
      node hashPair f k j = node hashPair f k (index / 2 ^ k) →
        node hashPair f k (index / 2 ^ k) = zeroNode hashPair zero k

variable (hashPair zero Leaf) in
/-- What an update of a leaf leaves behind, and the node it returns. -/
structure Updates (f g : ℕ → Fr) (index : ℕ) (s s' : MemoryStore Fr (NodeData Fr)) (height : ℕ) :
    Prop where
  sound : Sound hashPair zero Leaf s'
  readable : Readable hashPair zero s' height (node hashPair g height (index / 2 ^ height))
  keeps : ∀ height' i, index / 2 ^ height' ≠ i →
    NoCopies hashPair zero s f g index height height' i →
    Readable hashPair zero s height' (node hashPair f height' i) →
      Readable hashPair zero s' height' (node hashPair f height' i)
  frame : ∀ height' i, height < height' →
    s'.get (node hashPair f height' i) = s.get (node hashPair f height' i)

variable {s' : MemoryStore Fr (NodeData Fr)}

omit [DecidableEq Fr] in
theorem Stores.updates {height index : ℕ}
    (h : Stores hashPair zero Leaf s s' height (node hashPair g height (index / 2 ^ height)))
    (hf : ∀ j, Leaf (f j)) : Updates hashPair zero Leaf f g index s s' height where
  sound := h.sound
  readable := h.readable
  keeps height i _ _ hread := h.keeps f hf height i hread
  frame height i hlt := h.frame f hf height i hlt

omit [DecidableEq Fr] in
theorem NoCopies.below {index height height' i : ℕ}
    (h : NoCopies hashPair zero s f g index (height + 1) height' i)
    (hnode : ∃ left right, s.get (node hashPair f (height + 1) (index / 2 ^ (height + 1))) =
      some (.regular left right)) : NoCopies hashPair zero s f g index height height' i := by
  intro k hpos hlt hle hne hseparate
  refine h k hpos (by omega) hle hne (hseparate.succ ?_)
  rwa [Nat.div_div_eq_div_mul, ← pow_add, Nat.add_sub_cancel' (by omega)]

theorem forkStump_update (h : LeafRules hashPair zero Leaf) (hs : Sound hashPair zero Leaf s)
    {index height existingIndex : ℕ} {value existingValue : Fr}
    (hvalue : Leaf value) (hexisting : Leaf existingValue) (hlt : existingIndex < 2 ^ height)
    (hne : existingIndex ≠ index % 2 ^ height)
    (hfe : f (index / 2 ^ height * 2 ^ height + existingIndex) = existingValue)
    (hzero : ∀ j, j / 2 ^ height = index / 2 ^ height →
      j ≠ index / 2 ^ height * 2 ^ height + existingIndex → f j = zero) :
    ∃ s', forkStump hashPair zero existingValue existingIndex value (index % 2 ^ height)
        (existingIndex ^^^ index % 2 ^ height).size height s =
          (node hashPair (Function.update f index value) height (index / 2 ^ height), s') ∧
      Stores hashPair zero Leaf s s' height
        (node hashPair (Function.update f index value) height (index / 2 ^ height)) := by
  have hmod : index % 2 ^ height < 2 ^ height := Nat.mod_lt _ (by positivity)
  -- the two leaves as an array of their own
  let g := Function.update (Function.update (fun _ => zero) existingIndex existingValue)
    (index % 2 ^ height) value
  have hg : ∀ j, Leaf (g j) :=
    LeafRules.update (LeafRules.update h.const _ hexisting) _ hvalue
  have hg1 : g existingIndex = existingValue := by simp [g, Function.update_of_ne hne]
  have hg2 : g (index % 2 ^ height) = value := Function.update_self _ _ _
  have hothers : ∀ j, j ≠ existingIndex → j ≠ index % 2 ^ height → g j = zero := by
    intro j hj1 hj2
    simp [g, Function.update_of_ne hj1, Function.update_of_ne hj2]
  have hblock : node hashPair g height (existingIndex / 2 ^ height) =
      node hashPair (Function.update f index value) height (index / 2 ^ height) := by
    rw [Nat.div_eq_of_lt hlt]
    refine node_congr_block fun k hk => ?_
    have hposition : (index / 2 ^ height * 2 ^ height + k) / 2 ^ height = index / 2 ^ height := by
      rw [Nat.mul_comm, Nat.mul_add_div (by positivity), Nat.div_eq_of_lt hk, Nat.add_zero]
    have hindex := Nat.div_add_mod' index (2 ^ height)
    rw [Nat.zero_mul, Nat.zero_add]
    by_cases hk2 : k = index % 2 ^ height
    · rw [hk2, hg2, hindex, Function.update_self]
    · rw [Function.update_of_ne (by omega)]
      by_cases hk1 : k = existingIndex
      · rw [hk1, hg1, hfe]
      · rw [hzero _ hposition (by omega), hothers k hk1 hk2]
  have hsize : (existingIndex ^^^ index % 2 ^ height).size ≤ height :=
    size_xor_le_iff.2 (by rw [Nat.div_eq_of_lt hlt, Nat.div_eq_of_lt hmod])
  have hfork := forkStump_spec h hs hg hne hothers hsize
  rwa [hg1, hg2, hblock] at hfork

omit [DecidableEq Fr] in
theorem child_eq (hH : Function.Injective2 hashPair) {height i i' j : ℕ}
    (h : node hashPair f (height + 1) i = node hashPair g (height + 1) i') (hj : j / 2 = i) :
    ∃ j', j' / 2 = i' ∧ node hashPair f height j = node hashPair g height j' := by
  rw [node_succ, node_succ] at h
  obtain ⟨hleft, hright⟩ := hH h
  rcases Nat.mod_two_eq_zero_or_one j with hmod | hmod
  · refine ⟨2 * i', by omega, ?_⟩
    rw [← hleft, show 2 * i = j by omega]
  · refine ⟨2 * i' + 1, by omega, ?_⟩
    rw [← hright, show 2 * i + 1 = j by omega]

theorem Updates.rollback (h : LeafRules hashPair zero Leaf) (hf : ∀ j, Leaf (f j))
    (hg : ∀ j, Leaf (g j)) {index height : ℕ} (hother : ∀ j, j ≠ index → g j = f j) {left right : Fr}
    (hup : Updates hashPair zero Leaf f g index s s' height)
    (hnode : ∃ left right, s.get (node hashPair f (height + 1) (index / 2 ^ (height + 1))) =
      some (.regular left right))
    (hcopies : NoCopies hashPair zero s f g index (height + 1) (height + 1)
      (index / 2 ^ (height + 1)))
    (hkey : node hashPair g (height + 1) (index / 2 ^ (height + 1)) = hashPair left right)
    (hchildren : Readable hashPair zero s' height left ∧ Readable hashPair zero s' height right) :
    let key := node hashPair g (height + 1) (index / 2 ^ (height + 1))
    let old := node hashPair f height (index / 2 ^ height)
    Updates hashPair zero Leaf f g index s
      (if old = node hashPair g height (index / 2 ^ height) then s'.put key (.regular left right)
        else (s'.put key (.regular left right)).del old) (height + 1) := by
  intro key old
  have hput : Stores hashPair zero Leaf s' (s'.put key (.regular left right)) (height + 1) key :=
    stores_put h hup.sound hg hkey fun l r hlr => by
      obtain ⟨rfl, rfl⟩ := NodeData.regular.inj hlr
      exact hchildren
  have hkeeps : ∀ height' i, index / 2 ^ height' ≠ i →
      NoCopies hashPair zero s f g index (height + 1) height' i →
      Readable hashPair zero s height' (node hashPair f height' i) →
        Readable hashPair zero (s'.put key (.regular left right)) height'
          (node hashPair f height' i) :=
    fun height' i hi hno hread =>
      hput.keeps f hf height' i (hup.keeps height' i hi (hno.below hnode) hread)
  have hframe : ∀ height' i, height + 1 < height' →
      (s'.put key (.regular left right)).get (node hashPair f height' i) =
        s.get (node hashPair f height' i) := fun height' i hlt =>
    (hput.frame f hf height' i hlt).trans (hup.frame height' i (by omega))
  by_cases hold : old = node hashPair g height (index / 2 ^ height)
  · rw [if_pos hold]
    exact ⟨hput.sound, hput.readable, hkeeps, hframe⟩
  · rw [if_neg hold]
    -- the node itself and its sibling are looked up below the node above
    have hseparate : ∀ j, j / 2 = index / 2 ^ height / 2 →
        Separate hashPair s f (height + 1) height j := by
      intro j hj above hlt hle
      obtain rfl : above = height + 1 := by omega
      rwa [Nat.add_sub_cancel_left, pow_one, hj, div_pow_div_two]
    -- a copy below the new node, which is the sibling
    have hsibling : 0 < height → ∀ j, j / 2 = index / 2 ^ height / 2 → j ≠ index / 2 ^ height →
        node hashPair f height j = old → old = zeroNode hashPair zero height := by
      intro hpos j hj hne heq
      refine hcopies height hpos (Nat.lt_succ_self _) (Nat.le_succ _) hold (hseparate _ rfl) j ?_
        hne (hseparate j hj) heq
      rw [Nat.add_sub_cancel_left, pow_one, hj, div_pow_div_two]
    have hsame : ∀ j, j ≠ index / 2 ^ height →
        node hashPair g height j = node hashPair f height j := fun j hne =>
      node_congr fun k h₁ h₂ => hother k fun hk => hne (by rw [← hk, div_of_block h₁ h₂])
    refine ⟨hput.sound.del _, ?_, fun height' i hi hno hread => ?_, fun height' i hlt => ?_⟩
    · refine Readable.del h hput.sound hf hg hput.readable fun hpos _ j hj _ heq => ?_
      rw [Nat.add_sub_cancel_left, pow_one, ← div_pow_div_two] at hj
      by_cases hc : j = index / 2 ^ height
      · rw [hc] at heq
        exact absurd heq.symm hold
      · exact hsibling hpos j hj hc ((hsame j hc).symm.trans heq)
    · refine Readable.del h hput.sound hf hf (hkeeps height' i hi hno hread)
        fun hpos hle j hj hcopy heq => ?_
      have hne : j ≠ index / 2 ^ height := by
        intro hc
        rw [hc, Nat.div_div_eq_div_mul, ← pow_add, Nat.add_sub_cancel' hle] at hj
        exact hi hj
      by_cases habove : height < height' ∧ node hashPair f (height + 1) (j / 2) = key
      · -- the node above the copy has become the new node
        obtain ⟨hlt, habove⟩ := habove
        obtain ⟨j', hj', heq'⟩ := child_eq h.injective habove rfl
        rw [← div_pow_div_two] at hj'
        rw [heq] at heq'
        by_cases hc : j' = index / 2 ^ height
        · rw [hc] at heq'
          exact absurd heq' hold
        · exact hsibling hpos j' hj' hc ((hsame j' hc).symm.trans heq'.symm)
      · refine hno height hpos (Nat.lt_succ_self _) hle hold (hseparate _ rfl) j hj hne ?_ heq
        intro above hlt hle'
        obtain ⟨l, r, hget⟩ := hcopy above hlt hle'
        refine ⟨l, r, ?_⟩
        rcases Nat.lt_or_ge (height + 1) above with hhigh | hlow
        · rwa [hframe _ _ hhigh] at hget
        · obtain rfl : above = height + 1 := by omega
          rw [Nat.add_sub_cancel_left, pow_one] at hget ⊢
          rw [MemoryStore.get_put, if_neg fun heq' => habove ⟨by omega, heq'⟩] at hget
          rwa [hup.frame _ _ (Nat.lt_succ_self _)] at hget
    · rw [MemoryStore.get_del, if_neg fun heq => by
        have := h.height_eq hf hf heq
        omega]
      exact hframe height' i hlt

omit [DecidableEq Fr] in
theorem NoCopies.child {index height j : ℕ}
    (h : NoCopies hashPair zero s f g index (height + 1) (height + 1)
      (index / 2 ^ (height + 1)))
    (hnode : ∃ left right, s.get (node hashPair f (height + 1) (index / 2 ^ (height + 1))) =
      some (.regular left right))
    (hj : j / 2 = index / 2 ^ (height + 1)) :
    NoCopies hashPair zero s f g index height height j := by
  intro k hpos hlt hle hne hseparate i hi hi' hseparate' heq
  have hi'' : i / 2 ^ (height + 1 - k) = index / 2 ^ (height + 1) := by
    rw [show height + 1 - k = height - k + 1 by omega, ← div_pow_div_two, hi, hj]
  refine h.below hnode k hpos hlt (by omega) hne hseparate i hi'' hi' (hseparate'.succ ?_) heq
  rwa [hi'']

section

variable (h : LeafRules hashPair zero Leaf) (hf : ∀ j, Leaf (f j)) {index : ℕ} {value : Fr}
  (hvalue : Leaf value) (hg : g = Function.update f index value) {height : ℕ}
include h hf hvalue hg

/-- The step at a node with two children, of which one is updated. -/
theorem updateElement_regular {left right : Fr} (hs : Sound hashPair zero Leaf s)
    (hread : Readable hashPair zero s (height + 1)
      (node hashPair f (height + 1) (index / 2 ^ (height + 1))))
    (hcopies : NoCopies hashPair zero s f g index (height + 1) (height + 1)
      (index / 2 ^ (height + 1)))
    (hget : s.get (node hashPair f (height + 1) (index / 2 ^ (height + 1))) =
      some (.regular left right))
    (hbelow : Readable hashPair zero s height (node hashPair f height (index / 2 ^ height)) →
      NoCopies hashPair zero s f g index height height (index / 2 ^ height) →
      ∃ s', updateElement hashPair zero value height s
          (node hashPair f height (index / 2 ^ height)) (index % 2 ^ height) =
            (node hashPair g height (index / 2 ^ height), s') ∧
        Updates hashPair zero Leaf f g index s s' height) :
    ∃ s', updateElement hashPair zero value (height + 1) s
        (node hashPair f (height + 1) (index / 2 ^ (height + 1))) (index % 2 ^ (height + 1)) =
          (node hashPair g (height + 1) (index / 2 ^ (height + 1)), s') ∧
      Updates hashPair zero Leaf f g index s s' (height + 1) := by
  have hleaf : ∀ j, Leaf (g j) := hg ▸ LeafRules.update hf index hvalue
  have hother : ∀ j, j ≠ index → g j = f j := fun j hj => by rw [hg, Function.update_of_ne hj]
  rw [updateElement]
  simp only [hget]
  obtain ⟨hleft, hright⟩ := hs.regular_eq h hget
  obtain ⟨hreadLeft, hreadRight⟩ := hread.2 left right hget
  have hparent := node_parent hashPair g height (index / 2 ^ height)
  have hbit : (index % 2 ^ (height + 1)).testBit height = true ↔
      index / 2 ^ height % 2 = 1 := by
    rw [Nat.testBit_mod_two_pow, decide_eq_true (Nat.lt_succ_self _), Bool.true_and,
      testBit_iff]
  have hmod : index % 2 ^ (height + 1) % 2 ^ height = index % 2 ^ height :=
    Nat.mod_mod_of_dvd _ (pow_dvd_pow 2 (Nat.le_succ _))
  have hsibling : node hashPair g height (siblingIndex (index / 2 ^ height)) =
      node hashPair f height (siblingIndex (index / 2 ^ height)) := by
    rw [hg]
    exact node_update_of_ne value (siblingIndex_ne _).symm
  have hnode : ∃ left right, s.get (node hashPair f (height + 1) (index / 2 ^ (height + 1))) =
      some (.regular left right) := ⟨left, right, hget⟩
  have hkeep := fun (s' : MemoryStore Fr (NodeData Fr))
    (hup : Updates hashPair zero Leaf f g index s s' height) =>
      hup.keeps height (siblingIndex (index / 2 ^ height)) (siblingIndex_ne _).symm
        (hcopies.child hnode ((siblingIndex_div_two _).trans (div_pow_div_two _ _)))
  rw [div_pow_div_two] at hparent
  by_cases hc : index / 2 ^ height % 2 = 1
  · have hrightNode : right = node hashPair f height (index / 2 ^ height) := by
      rw [hright, ← div_pow_div_two, show 2 * (index / 2 ^ height / 2) + 1 =
        index / 2 ^ height by omega]
    have hleftNode : left =
        node hashPair f height (siblingIndex (index / 2 ^ height)) := by
      rw [hleft, ← div_pow_div_two, siblingIndex_of_odd hc]
    rw [hrightNode] at hreadRight
    rw [hleftNode] at hreadLeft
    obtain ⟨s', hupdate, hup⟩ := hbelow hreadRight (hcopies.child hnode (div_pow_div_two _ _))
    rw [if_pos hc, hsibling] at hparent
    have hroll := hup.rollback h hf hleaf hother hnode hcopies hparent
      ⟨hkeep s' hup hreadLeft, hup.readable⟩
    simp only [if_pos (hbit.2 hc), hmod, hleftNode, hrightNode, hupdate, ← hparent]
    exact ⟨_, rfl, hroll⟩
  · have hleftNode : left = node hashPair f height (index / 2 ^ height) := by
      rw [hleft, ← div_pow_div_two, show 2 * (index / 2 ^ height / 2) =
        index / 2 ^ height by omega]
    have hrightNode : right =
        node hashPair f height (siblingIndex (index / 2 ^ height)) := by
      rw [hright, ← div_pow_div_two, siblingIndex_of_even hc]
    rw [hleftNode] at hreadLeft
    rw [hrightNode] at hreadRight
    obtain ⟨s', hupdate, hup⟩ := hbelow hreadLeft (hcopies.child hnode (div_pow_div_two _ _))
    rw [if_neg hc, hsibling] at hparent
    have hroll := hup.rollback h hf hleaf hother hnode hcopies hparent
      ⟨hup.readable, hkeep s' hup hreadRight⟩
    simp only [if_neg (hbit.not.2 hc), hmod, hleftNode, hrightNode, hupdate, ← hparent]
    exact ⟨_, rfl, hroll⟩

theorem updateElement_spec (hs : Sound hashPair zero Leaf s)
    (hread : Readable hashPair zero s height (node hashPair f height (index / 2 ^ height)))
    (hcopies : NoCopies hashPair zero s f g index height height (index / 2 ^ height)) :
    ∃ s', updateElement hashPair zero value height s
        (node hashPair f height (index / 2 ^ height)) (index % 2 ^ height) =
          (node hashPair g height (index / 2 ^ height), s') ∧
      Updates hashPair zero Leaf f g index s s' height := by
  have hleaf : ∀ j, Leaf (g j) := hg ▸ LeafRules.update hf index hvalue
  have hself : g index = value := by rw [hg, Function.update_self]
  have hother : ∀ j, j ≠ index → g j = f j := fun j hj => by rw [hg, Function.update_of_ne hj]
  induction height generalizing s with
  | zero =>
    exact ⟨s, by simp [updateElement, hself], hs, trivial, fun _ _ _ _ hread => hread,
      fun _ _ _ => rfl⟩
  | succ height ih =>
    have hstump : (∀ j, j / 2 ^ (height + 1) = index / 2 ^ (height + 1) → j ≠ index →
        f j = zero) → _ := fun hzero =>
      stores_stump h hs hleaf index
        (fun j hj hne => (hother j hne).trans (hzero j hj hne)) (Nat.succ_pos _)
    rw [hself] at hstump
    cases hget : s.get (node hashPair f (height + 1) (index / 2 ^ (height + 1))) with
    | none =>
      -- the subtree is empty
      obtain ⟨hkey, hstores⟩ := hstump fun j hj _ =>
        eq_of_node_eq_zeroNode h.injective (hread.1 hget) hj
      simp only [updateElement, hget, hkey]
      exact ⟨_, rfl, hstores.updates hf⟩
    | some data =>
      cases data with
      | stump existingValue existingIndex =>
        obtain ⟨hexisting, hlt, hfe, hzero⟩ := hs.stump_eq h hf hget
        by_cases heq : existingIndex = index % 2 ^ (height + 1)
        · -- the only leaf is the updated one
          subst heq
          rw [Nat.mul_comm, Nat.div_add_mod] at hfe hzero
          obtain ⟨hkey, hstores⟩ := hstump hzero
          simp only [updateElement, hget, hkey, if_true]
          exact ⟨_, rfl, hstores.updates hf⟩
        · obtain ⟨s', hfork, hstores⟩ :=
            forkStump_update h hs hvalue hexisting hlt heq hfe hzero
          rw [← hg] at hfork hstores
          simp only [updateElement, hget, if_neg heq]
          exact ⟨s', hfork, hstores.updates hf⟩
      | regular left right =>
        exact updateElement_regular h hf hvalue hg hs hread hcopies hget (ih hs)

end

end Stores

/-! ### Paths -/

section Paths

variable {Fr : Type} {hashPair : Fr → Fr → Fr} {zero : Fr} {Leaf : Fr → Prop} {f : ℕ → Fr}
  {index leaf height : ℕ}

theorem mul_two_pow_add_div (k : ℕ) {i n : ℕ} (h : i < 2 ^ n) : (k * 2 ^ n + i) / 2 ^ n = k := by
  rw [Nat.mul_comm, Nat.mul_add_div (by positivity), Nat.div_eq_of_lt h, Nat.add_zero]

theorem div_eq_of_beside {j k q : ℕ} (hk : k / 2 ^ j = q) (hq : q / 2 = index / 2 ^ (j + 1))
    (hj : j < height) : k / 2 ^ height = index / 2 ^ height := by
  have hup : k / 2 ^ (j + 1) = index / 2 ^ (j + 1) := by rw [← div_pow_div_two, hk, hq]
  rw [show height = j + 1 + (height - (j + 1)) by omega, pow_add, ← Nat.div_div_eq_div_mul, hup,
    Nat.div_div_eq_div_mul]

theorem node_beside (hothers : ∀ j, j / 2 ^ height = leaf / 2 ^ height → j ≠ leaf → f j = zero)
    (hindex : index / 2 ^ height = leaf / 2 ^ height) {j q : ℕ} (hj : j < height)
    (hq : q / 2 = index / 2 ^ (j + 1)) (hne : leaf / 2 ^ j ≠ q) :
    node hashPair f j q = zeroNode hashPair zero j := by
  refine node_const fun k h₁ h₂ => hothers k ?_ ?_
  · rw [div_eq_of_beside (div_of_block h₁ h₂) hq hj, hindex]
  · rintro rfl
    exact hne (div_of_block h₁ h₂)

theorem pairAt_congr {j : ℕ} (h : index / 2 ^ (j + 1) = leaf / 2 ^ (j + 1)) :
    pairAt hashPair f index j = pairAt hashPair f leaf j := by
  rw [pairAt, pairAt, h]

theorem stumpPairs_eq (hothers : ∀ j, j / 2 ^ height = leaf / 2 ^ height → j ≠ leaf → f j = zero)
    {levels j : ℕ} (hle : j + levels ≤ height) :
    stumpPairs hashPair zero (leaf % 2 ^ height) levels j (node hashPair f j (leaf / 2 ^ j)) =
      (range levels).map fun k => pairAt hashPair f leaf (j + k) := by
  induction levels generalizing j with
  | zero => rfl
  | succ levels ih =>
    have hbit : (leaf % 2 ^ height).testBit j = true ↔ leaf / 2 ^ j % 2 = 1 := by
      rw [Nat.testBit_mod_two_pow, decide_eq_true (by omega : j < height), Bool.true_and,
        testBit_iff]
    have hup := div_pow_div_two leaf j
    have hpair : (if (leaf % 2 ^ height).testBit j
        then (zeroNode hashPair zero j, node hashPair f j (leaf / 2 ^ j))
        else (node hashPair f j (leaf / 2 ^ j), zeroNode hashPair zero j)) =
          pairAt hashPair f leaf j := by
      by_cases hc : leaf / 2 ^ j % 2 = 1
      · rw [if_pos (hbit.2 hc), pairAt, node_beside (q := 2 * (leaf / 2 ^ (j + 1))) hothers rfl
          (by omega) (by omega) (by omega),
          show 2 * (leaf / 2 ^ (j + 1)) + 1 = leaf / 2 ^ j by omega]
      · rw [if_neg (hbit.not.2 hc), pairAt,
          node_beside (q := 2 * (leaf / 2 ^ (j + 1)) + 1) hothers rfl
          (by omega) (by omega) (by omega),
          show 2 * (leaf / 2 ^ (j + 1)) = leaf / 2 ^ j by omega]
    simp only [stumpPairs, hpair]
    rw [range_succ_eq_map, map_cons, map_map]
    refine congrArg₂ _ rfl ((ih (by omega)).trans (map_congr_left fun k _ => ?_))
    rw [Function.comp_apply, show j + 1 + k = j + (k + 1) by omega]

theorem mod_xor_mod (h : leaf / 2 ^ height = index / 2 ^ height) :
    leaf % 2 ^ height ^^^ index % 2 ^ height = leaf ^^^ index := by
  rw [← Nat.xor_mod_two_pow, Nat.mod_eq_of_lt (xor_lt_iff.2 h)]

section

variable (hothers : ∀ j, j / 2 ^ height = leaf / 2 ^ height → j ≠ leaf → f j = zero)
include hothers

theorem computeZeroPathHash_eq_node {j : ℕ}
    (hj : j ≤ height) : computeZeroPathHash hashPair zero j (leaf % 2 ^ height) (f leaf) =
      node hashPair f j (leaf / 2 ^ j) := by
  rw [computeZeroPathHash_mod hj, node_eq_computeZeroPathHash j rfl]
  intro k hk hne
  refine hothers k ?_ hne
  rw [show height = j + (height - j) by omega, pow_add, ← Nat.div_div_eq_div_mul, hk,
    Nat.div_div_eq_div_mul]

theorem stumpHashPath_eq (hindex : index / 2 ^ height = leaf / 2 ^ height) :
    stumpHashPath hashPair zero height (f leaf) (leaf % 2 ^ height) (index % 2 ^ height) =
      (range height).map (pairAt hashPair f index) := by
  have hsize : (leaf ^^^ index).size ≤ height := size_xor_le_iff.2 hindex.symm
  rw [stumpHashPath, mod_xor_mod hindex.symm]
  by_cases hdiff : leaf ^^^ index < 2
  · have htogether : leaf / 2 ^ 1 = index / 2 ^ 1 := xor_lt_iff.1 (by simpa using hdiff)
    have hpairs := @stumpPairs_eq Fr hashPair zero f leaf height hothers height 0 (by omega)
    rw [pow_zero, Nat.div_one, node_zero] at hpairs
    rw [if_pos hdiff, hpairs]
    refine map_congr_left fun j _ => ?_
    rw [Nat.zero_add]
    refine (pairAt_congr ?_).symm
    rw [pow_succ', ← Nat.div_div_eq_div_mul, ← Nat.div_div_eq_div_mul]
    rw [pow_one] at htogether
    rw [htogether]
  · -- above the height at which the two paths part they are the same
    have hpart : 1 < (leaf ^^^ index).size := by
      rw [← not_le, size_xor_le_iff, ← xor_lt_iff]
      simpa using hdiff
    obtain ⟨common, hcommon⟩ : ∃ common, (leaf ^^^ index).size = common + 1 :=
      ⟨(leaf ^^^ index).size - 1, by omega⟩
    rw [if_neg hdiff, hcommon, Nat.add_sub_cancel]
    simp only []
    rw [computeZeroPathHash_eq_node hothers (by omega), stumpPairs_eq hothers (by omega)]
    conv_rhs => rw [show height = common + (height - common) by omega, range_add,
      map_append, map_map]
    refine congrArg₂ _ (map_congr_left fun j hj => ?_) (map_congr_left fun j _ => ?_)
    · have hj' := mem_range.1 hj
      have hapart : ¬leaf / 2 ^ (j + 1) = index / 2 ^ (j + 1) := by
        rw [← size_xor_le_iff]
        omega
      have hup := div_pow_div_two leaf j
      rw [pairAt, node_beside (q := 2 * (index / 2 ^ (j + 1))) hothers hindex (by omega) (by omega)
        (by omega), node_beside (q := 2 * (index / 2 ^ (j + 1)) + 1) hothers hindex (by omega)
        (by omega) (by omega)]
    · exact (pairAt_congr (size_xor_le_iff.1 (by rw [Nat.xor_comm, hcommon]; omega))).symm

theorem stumpSiblingPath_eq (hindex : index / 2 ^ height = leaf / 2 ^ height) :
    stumpSiblingPath hashPair zero height (f leaf) (leaf % 2 ^ height) (index % 2 ^ height) =
      (range height).map (siblingAt hashPair f index) := by
  have hsize : (leaf ^^^ index).size ≤ height := size_xor_le_iff.2 hindex.symm
  -- the only sibling that is not empty is the one at which the two paths part
  have hsibling : ∀ j < height, siblingAt hashPair f index j =
      if j + 1 = (leaf ^^^ index).size then node hashPair f j (leaf / 2 ^ j)
      else zeroNode hashPair zero j := by
    intro j hj
    have hupIndex := div_pow_div_two index j
    have hupLeaf := div_pow_div_two leaf j
    have hbelow := @size_xor_le_iff leaf index j
    have habove := @size_xor_le_iff leaf index (j + 1)
    rw [siblingAt]
    split
    · next heq =>
      rw [← eq_siblingIndex (i := index / 2 ^ j) (j := leaf / 2 ^ j)
        (by rw [hupLeaf, hupIndex, habove.1 heq.ge]) fun h => by
          have := hbelow.2 h
          omega]
    · next hne =>
      refine node_beside hothers hindex hj (by rw [siblingIndex_div_two, hupIndex]) fun h => hne ?_
      have h₁ := habove.2 (by rw [← hupLeaf, h, siblingIndex_div_two, hupIndex])
      have h₂ : ¬(leaf ^^^ index).size ≤ j := fun hle =>
        siblingIndex_ne _ (h.symm.trans (hbelow.1 hle))
      omega
  have hset : ∀ i, (leaf ^^^ index).size = i + 1 →
      ((range height).map (zeroNode hashPair zero)).set i (node hashPair f i (leaf / 2 ^ i)) =
        (range height).map (siblingAt hashPair f index) := by
    intro i hi
    refine ext_getElem (by simp) fun j h₁ h₂ => ?_
    have hj : j < height := by simpa using h₂
    rw [getElem_map, getElem_range, hsibling j hj, hi, getElem_set, getElem_map,
      getElem_range]
    by_cases hij : i = j
    · rw [if_pos hij, if_pos (by rw [hij]), hij]
    · rw [if_neg hij, if_neg (by omega)]
  rw [stumpSiblingPath, mod_xor_mod hindex.symm]
  by_cases hone : leaf ^^^ index = 1
  · have hfirst := hset 0 (by rw [hone, Nat.size_one])
    rw [pow_zero, Nat.div_one, node_zero] at hfirst
    rw [if_pos hone, hfirst]
  · rw [if_neg hone]
    by_cases hmany : leaf ^^^ index > 1
    · have hpos : 0 < (leaf ^^^ index).size := Nat.size_pos.2 (by omega)
      rw [if_pos hmany]
      simp only []
      rw [computeZeroPathHash_eq_node hothers (by omega)]
      exact hset _ (by omega)
    · have hzero : (leaf ^^^ index).size = 0 := by
        rw [show leaf ^^^ index = 0 by omega, Nat.size_zero]
      rw [if_neg hmany]
      refine map_congr_left fun j hj => ?_
      rw [hsibling j (mem_range.1 hj), hzero, if_neg (Nat.succ_ne_zero j)]

end

theorem hashPathFrom_none (s : MemoryStore Fr (NodeData Fr)) (height : ℕ) :
    hashPathFrom hashPair zero s index height none =
      (range height).map fun j => (zeroNode hashPair zero j, zeroNode hashPair zero j) := by
  induction height with
  | zero => rfl
  | succ height ih => rw [hashPathFrom, ih, range_succ, map_append]; rfl

theorem siblingPathFrom_none (s : MemoryStore Fr (NodeData Fr)) (height : ℕ) :
    siblingPathFrom hashPair zero s index height none =
      (range height).map (zeroNode hashPair zero) := by
  induction height with
  | zero => rfl
  | succ height ih => rw [siblingPathFrom, ih, range_succ, map_append]; rfl

theorem node_beside_empty (hempty : ∀ j, j / 2 ^ height = index / 2 ^ height → f j = zero)
    {j q : ℕ} (hj : j < height) (hq : q / 2 = index / 2 ^ (j + 1)) :
    node hashPair f j q = zeroNode hashPair zero j :=
  node_const fun k h₁ h₂ => hempty k (div_eq_of_beside (div_of_block h₁ h₂) hq hj)

variable {s : MemoryStore Fr (NodeData Fr)}

section

variable (h : LeafRules hashPair zero Leaf) (hs : Sound hashPair zero Leaf s)
include h hs

theorem Sound.child_eq {left right : Fr} (hget : s.get (node hashPair f (height + 1) (index / 2 ^ (height + 1))) =
      some (.regular left right)) : (left, right) = pairAt hashPair f index height ∧
    (if index.testBit height then right else left) = node hashPair f height (index / 2 ^ height) ∧
    (if index.testBit height then left else right) = siblingAt hashPair f index height := by
  obtain ⟨hleft, hright⟩ := hs.regular_eq h hget
  have hup := div_pow_div_two index height
  have hbit : index.testBit height = true ↔ index / 2 ^ height % 2 = 1 := testBit_iff
  refine ⟨by rw [hleft, hright, pairAt], ?_⟩
  rw [siblingAt]
  by_cases hc : index / 2 ^ height % 2 = 1
  · rw [if_pos (hbit.2 hc), if_pos (hbit.2 hc), siblingIndex_of_odd hc, hleft, hright, hup,
      show 2 * (index / 2 ^ (height + 1)) + 1 = index / 2 ^ height by omega]
    exact ⟨rfl, rfl⟩
  · rw [if_neg (hbit.not.2 hc), if_neg (hbit.not.2 hc), siblingIndex_of_even hc, hleft, hright,
      hup, show 2 * (index / 2 ^ (height + 1)) = index / 2 ^ height by omega]
    exact ⟨rfl, rfl⟩

theorem Readable.child (hread : Readable hashPair zero s (height + 1)
      (node hashPair f (height + 1) (index / 2 ^ (height + 1)))) {left right : Fr}
    (hget : s.get (node hashPair f (height + 1) (index / 2 ^ (height + 1))) =
      some (.regular left right)) :
    Readable hashPair zero s height (node hashPair f height (index / 2 ^ height)) := by
  rw [← (hs.child_eq h hget).2.1]
  split
  · exact (hread.2 left right hget).2
  · exact (hread.2 left right hget).1

section

variable (hf : ∀ j, Leaf (f j))
  (hread : Readable hashPair zero s height (node hashPair f height (index / 2 ^ height)))
include hf hread

theorem hashPathFrom_eq :
    hashPathFrom hashPair zero s index height
        (s.get (node hashPair f height (index / 2 ^ height))) =
      (range height).map (pairAt hashPair f index) := by
  induction height with
  | zero => rfl
  | succ height ih =>
    cases hget : s.get (node hashPair f (height + 1) (index / 2 ^ (height + 1))) with
    | none =>
      have hempty : ∀ j, j / 2 ^ (height + 1) = index / 2 ^ (height + 1) → f j = zero :=
        fun j hj => eq_of_node_eq_zeroNode h.injective (hread.1 hget) hj
      rw [hashPathFrom_none]
      refine map_congr_left fun j hj => ?_
      have hj' := mem_range.1 hj
      rw [pairAt, node_beside_empty hempty hj' (by omega), node_beside_empty hempty hj' (by omega)]
    | some data =>
      cases data with
      | stump value elementIndex =>
        obtain ⟨-, hlt, rfl, hothers⟩ := hs.stump_eq h hf hget
        have hup := mul_two_pow_add_div (index / 2 ^ (height + 1)) hlt
        have hpath := @stumpHashPath_eq Fr hashPair zero f index _ (height + 1)
          (fun j hj => hothers j (hj.trans hup)) hup.symm
        rwa [Nat.mul_add_mod_of_lt hlt] at hpath
      | regular left right =>
        obtain ⟨hpair, hchild, -⟩ := hs.child_eq h hget
        rw [hashPathFrom, hchild, ih (hread.child h hs hget), hpair, range_succ,
          map_append]
        rfl

theorem siblingPathFrom_eq :
    siblingPathFrom hashPair zero s index height
        (s.get (node hashPair f height (index / 2 ^ height))) =
      (range height).map (siblingAt hashPair f index) := by
  induction height with
  | zero => rfl
  | succ height ih =>
    cases hget : s.get (node hashPair f (height + 1) (index / 2 ^ (height + 1))) with
    | none =>
      have hempty : ∀ j, j / 2 ^ (height + 1) = index / 2 ^ (height + 1) → f j = zero :=
        fun j hj => eq_of_node_eq_zeroNode h.injective (hread.1 hget) hj
      rw [siblingPathFrom_none]
      refine map_congr_left fun j hj => ?_
      rw [siblingAt, node_beside_empty hempty (mem_range.1 hj)
        (by rw [siblingIndex_div_two, div_pow_div_two])]
    | some data =>
      cases data with
      | stump value elementIndex =>
        obtain ⟨-, hlt, rfl, hothers⟩ := hs.stump_eq h hf hget
        have hup := mul_two_pow_add_div (index / 2 ^ (height + 1)) hlt
        have hpath := @stumpSiblingPath_eq Fr hashPair zero f index _ (height + 1)
          (fun j hj => hothers j (hj.trans hup)) hup.symm
        rwa [Nat.mul_add_mod_of_lt hlt] at hpath
      | regular left right =>
        obtain ⟨-, hchild, hsibling⟩ := hs.child_eq h hget
        rw [siblingPathFrom, hchild, ih (hread.child h hs hget), hsibling, range_succ,
          map_append]
        rfl

end

end

end Paths

/-! ### Runs -/

section Runs

variable {Fr : Type} [DecidableEq Fr] {hashPair : Fr → Fr → Fr} {zero : Fr} {Leaf : Fr → Prop}
  {f : ℕ → Fr} {depth : ℕ} {t : Tree Fr}

variable (hashPair zero Leaf) in
structure Represents (depth : ℕ) (t : Tree Fr) (f : ℕ → Fr) : Prop where
  leaves : ∀ j, Leaf (f j)
  sound : Sound hashPair zero Leaf t.nodes
  root_eq : getRoot hashPair zero depth t = node hashPair f depth 0
  readable : Readable hashPair zero t.nodes depth (node hashPair f depth 0)

omit [DecidableEq Fr] in
theorem Represents.answers (h : LeafRules hashPair zero Leaf)
    (ht : Represents hashPair zero Leaf depth t f) : Answers hashPair zero depth t f := by
  have htop : ∀ index < 2 ^ depth, index / 2 ^ depth = 0 := fun index => Nat.div_eq_of_lt
  refine ⟨ht.root_eq, fun index hindex => ?_, fun index hindex => ?_⟩
  · rw [getHashPath, ht.root_eq, ← htop index hindex]
    exact hashPathFrom_eq h ht.sound ht.leaves (by rw [htop index hindex]; exact ht.readable)
  · rw [getSiblingPath, ht.root_eq, ← htop index hindex]
    exact siblingPathFrom_eq h ht.sound ht.leaves (by rw [htop index hindex]; exact ht.readable)

omit [DecidableEq Fr] in
theorem represents_empty (h : LeafRules hashPair zero Leaf) :
    Represents hashPair zero Leaf depth ⟨MemoryStore.empty, none⟩ fun _ => zero := by
  have hsound : Sound hashPair zero Leaf (MemoryStore.empty : MemoryStore Fr (NodeData Fr)) :=
    fun key data hget => by cases hget
  have hzero : node hashPair (fun _ => zero) depth 0 = zeroNode hashPair zero depth :=
    node_const fun _ _ _ => rfl
  refine ⟨fun _ => h.zero, hsound, by rw [hzero]; rfl, ?_⟩
  rw [hzero]
  exact readable_zeroNode h hsound depth

theorem Represents.update (h : LeafRules hashPair zero Leaf)
    (ht : Represents hashPair zero Leaf depth t f) {index : ℕ} {value : Fr}
    (hindex : index < 2 ^ depth) (hvalue : Leaf value)
    (hunshared : Unshared hashPair zero depth t f index value) :
    Represents hashPair zero Leaf depth (update hashPair zero depth t index value)
      (Function.update f index value) := by
  have hdiv : index / 2 ^ depth = 0 := Nat.div_eq_of_lt hindex
  have hcopies : NoCopies hashPair zero t.nodes f (Function.update f index value) index depth depth
      (index / 2 ^ depth) := by
    intro k hpos hlt _ hne hseparate i hi hne' hseparate' heq
    have hchange : f index ≠ value := by
      rintro rfl
      exact hne (by rw [Function.update_eq_self])
    have hempty := hunshared hchange k hpos hlt hseparate i (hi.trans hdiv) hne' hseparate'
      (node_inj h.injective heq)
    rw [← heq]
    refine node_const fun j h₁ h₂ => ?_
    have hj := hempty (j - i * 2 ^ k) (by rw [Nat.add_mul, Nat.one_mul] at h₂; omega)
    rwa [Nat.add_sub_cancel' h₁] at hj
  obtain ⟨nodes, hupdate, hup⟩ := updateElement_spec h ht.leaves hvalue rfl ht.sound
    (by rw [hdiv]; exact ht.readable) hcopies
  rw [hdiv, Nat.mod_eq_of_lt hindex, ← ht.root_eq] at hupdate
  have hreadable := hup.readable
  rw [hdiv] at hreadable
  rw [StumpTree.update, hupdate]
  exact ⟨LeafRules.update ht.leaves index hvalue, hup.sound, rfl, hreadable⟩

/-- **Runs of updates refine an array**, when none changes a subtree with a copy elsewhere. -/
theorem refines_array (hinjective : Function.Injective2 hashPair)
    (hzero : ∀ a b, hashPair a b ≠ zero) (depth : ℕ) (updates : List (ℕ × Fr))
    (hindex : ∀ u ∈ updates, u.1 < 2 ^ depth) (hvalue : ∀ u ∈ updates, ∀ a b, hashPair a b ≠ u.2)
    (hunshared : ∀ before u after, updates = before ++ u :: after →
      Unshared hashPair zero depth (run hashPair zero depth before) (arrayOf zero before) u.1 u.2) :
    Answers hashPair zero depth (run hashPair zero depth updates) (arrayOf zero updates) := by
  have h : LeafRules hashPair zero fun value => ∀ a b, hashPair a b ≠ value :=
    ⟨hinjective, hzero, fun _ hvalue => hvalue⟩
  suffices hrun : Represents hashPair zero (fun value => ∀ a b, hashPair a b ≠ value) depth
      (run hashPair zero depth updates) (arrayOf zero updates) from hrun.answers h
  induction updates using List.reverseRecOn with
  | nil => exact represents_empty h
  | append_singleton updates u ih =>
    have hrun := ih (fun u hu => hindex u (by simp [hu])) (fun u hu => hvalue u (by simp [hu]))
      fun before v after heq => hunshared before v (after ++ [u]) (by rw [heq]; simp)
    rw [run, arrayOf, List.foldl_concat, List.foldl_concat]
    exact hrun.update h (hindex u (by simp)) (hvalue u (by simp)) (hunshared updates u [] rfl)

/-- A hash without collisions and without even values. -/
def oddHash (a b : ℕ) : ℕ := 2 * Nat.pair a b + 1

theorem oddHash_injective : Function.Injective2 oddHash := by
  intro a b c d h
  exact Nat.pair_eq_pair.1 (by unfold oddHash at h; omega)

theorem oddHash_ne {value : ℕ} (h : value % 2 = 0) (a b : ℕ) : oddHash a b ≠ value := by
  unfold oddHash
  omega

theorem refines_array_three : Answers oddHash 0 2 (run oddHash 0 2 [(0, 2), (2, 4), (0, 6)])
      (arrayOf 0 [(0, 2), (2, 4), (0, 6)]) := by
  refine refines_array oddHash_injective (oddHash_ne rfl) 2 _ (by decide) ?_ ?_
  · intro u hu
    exact oddHash_ne (by revert u; decide)
  · intro before u after heq _ height hpos hlt hseparate i hi hne _ hcopy
    obtain rfl : height = 1 := by omega
    rcases before with _ | ⟨a, _ | ⟨b, _ | ⟨c, before⟩⟩⟩ <;> simp at heq
    · -- nothing is stored
      obtain ⟨rfl, -⟩ := heq
      obtain ⟨l, r, hget⟩ := hseparate 2 (by omega) le_rfl
      cases hget
    · -- the root is a stump
      obtain ⟨rfl, rfl, -⟩ := heq
      obtain ⟨l, r, hget⟩ := hseparate 2 (by omega) le_rfl
      have hstump : (run oddHash 0 2 [(0, 2)]).nodes.get (node oddHash (arrayOf 0 [(0, 2)]) 2 0) =
          some (.stump 2 0) := by decide
      cases hstump.symm.trans hget
    · -- the two halves differ
      obtain ⟨rfl, rfl, rfl, -⟩ := heq
      obtain rfl : i = 1 := by omega
      exact absurd (hcopy 0 (by decide)) (by decide)

/-- A copy of the replaced subtree is lost, and the next update beside it gives a wrong root. -/
theorem not_refines_array :
    ¬ ∀ (hashPair : ℕ → ℕ → ℕ) (zeroLeaf : ℕ), Function.Injective2 hashPair →
      (∀ a b, hashPair a b ≠ zeroLeaf) → ∀ (depth : ℕ) (updates : List (ℕ × ℕ)),
      (∀ u ∈ updates, u.1 < 2 ^ depth) → (∀ u ∈ updates, ∀ a b, hashPair a b ≠ u.2) →
      Answers hashPair zeroLeaf depth (run hashPair zeroLeaf depth updates)
        (arrayOf zeroLeaf updates) := by
  intro hall
  have hanswers := hall oddHash 0 oddHash_injective (oddHash_ne rfl) 2
    [(0, 2), (2, 2), (0, 4), (3, 6)] (by decide)
    fun u hu => oddHash_ne (by revert u; decide)
  exact absurd hanswers.root_eq (by decide)

end Runs

end StumpTree
