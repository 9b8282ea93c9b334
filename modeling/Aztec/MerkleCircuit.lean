/-
**Merkle trees in the circuits: membership and subtree roots.**

A circuit never sees a tree.  It is given a value, an index and a path of siblings, all of them
chosen by the prover, and hashes its way up to a root; and it computes the root of a small tree of
leaves it has itself.
-/

import Aztec.Merkle
import Aztec.NoirArrays

namespace Noir

open Failing Merkle

/-! ### The hash -/

/-- The two-to-one hash, and the precomputed roots of empty trees.  The tests of the circuits
compare the entries of the table with the computed roots; here this is a field. -/
structure MerkleHash where
  merkleHash : Field → Field → Field
  emptyRoots : ℕ → Field
  emptyRoots_eq : ∀ depth ≤ 10, emptyRoots depth = zeroNode merkleHash 0 depth

def pairing : MerkleHash where
  merkleHash := pairHash
  emptyRoots := zeroNode pairHash 0
  emptyRoots_eq _ _ := rfl

def calculateEmptyTreeRoot (H : MerkleHash) (depth : ℕ) : Circuit Field :=
  if depth ≤ 10 then .ok (H.emptyRoots depth)
  else .error "depth should be between 0 and 10"

variable {root leaf value index : Field} {n : ℕ} {siblingPath : Vector Field n}

variable {H : MerkleHash}

theorem calculateEmptyTreeRoot_eq_ok {depth : ℕ} : calculateEmptyTreeRoot H depth = .ok root ↔
      depth ≤ 10 ∧ root = zeroNode H.merkleHash 0 depth := by
  unfold calculateEmptyTreeRoot
  split
  · next h => rw [H.emptyRoots_eq depth h]; simp [h, eq_comm]
  · next h => simp [h]

/-! ### Paths -/

def toLeBits (x : Field) (n : ℕ) : Circuit (Vector Bool n) := do
  assert (x < 2 ^ n) "Field does not fit into the number of bits"
  return Vector.ofFn fun i => x.testBit i

def rootFromSiblingPath (H : MerkleHash) {n : ℕ} (leaf leafIndex : Field)
    (siblingPath : Vector Field n) : Circuit Field := do
  let indices ← toLeBits leafIndex n
  return (List.finRange n).foldl
    (fun node i =>
      let sibling := getElem siblingPath i i.isLt
      if getElem indices i i.isLt then H.merkleHash sibling node else H.merkleHash node sibling)
    leaf

def assertCheckMembership (H : MerkleHash) {n : ℕ} (value index : Field)
    (siblingPath : Vector Field n) (root : Field) : Circuit Unit := do
  let calculatedRoot ← rootFromSiblingPath H value index siblingPath
  assert (calculatedRoot = root) "membership check failed"

theorem foldl_testBit_eq_climb (H : Field → Field → Field) :
    ∀ (n : ℕ) (path : Fin n → Field) (index node : Field), (List.finRange n).foldl
        (fun node (i : Fin n) =>
          if index.testBit i then H (path i) node else H node (path i)) node =
      climb H index node (List.ofFn path) := by
  intro n
  induction n with
  | zero => intro path index node; simp
  | succ n ih =>
    intro path index node
    have hbit : ∀ i : ℕ, index.testBit (i + 1) = (index / 2).testBit i := Nat.testBit_succ index
    rw [List.finRange_succ, List.foldl_cons, List.foldl_map, List.ofFn_succ, climb_cons]
    simp only [Fin.val_succ, Fin.val_zero, hbit]
    rw [ih]
    simp [Nat.testBit_zero]

theorem rootFromSiblingPath_eq_ok {leafIndex : Field} :
    rootFromSiblingPath H leaf leafIndex siblingPath = .ok root ↔
      leafIndex < 2 ^ n ∧ climb H.merkleHash leafIndex leaf siblingPath.toList = root := by
  have hpath : List.ofFn (fun i : Fin n => siblingPath[i]) = siblingPath.toList := by
    apply List.ext_getElem <;> simp
  have hloop := foldl_testBit_eq_climb H.merkleHash n (fun i => siblingPath[i]) leafIndex leaf
  rw [hpath] at hloop
  simp only [rootFromSiblingPath, toLeBits, bind_eq_ok, assert_eq_ok, decide_eq_true_eq, pure_eq_ok]
  constructor
  · rintro ⟨indices, ⟨-, hlt, rfl⟩, rfl⟩
    refine ⟨hlt, ?_⟩
    rw [← hloop]
    simp
  · rintro ⟨hlt, rfl⟩
    refine ⟨_, ⟨(), hlt, rfl⟩, ?_⟩
    rw [← hloop]
    simp

theorem assertCheckMembership_eq_ok :
    assertCheckMembership H value index siblingPath root = .ok () ↔
      index < 2 ^ n ∧ climb H.merkleHash index value siblingPath.toList = root := by
  simp only [assertCheckMembership, bind_eq_ok, rootFromSiblingPath_eq_ok, assert_eq_ok,
    decide_eq_true_eq]
  constructor
  · rintro ⟨_, ⟨hlt, rfl⟩, hroot⟩; exact ⟨hlt, hroot⟩
  · rintro ⟨hlt, hroot⟩; exact ⟨_, ⟨hlt, rfl⟩, hroot⟩

def computeMerkleRoot (pedersenHash : Field → Field → Field) {n : ℕ} (leaf index : Field)
    (hashPath : Vector Field n) : Circuit Field := do
  let indexBits ← toLeBits index n
  return (List.finRange n).foldl
    (fun current i =>
      let sibling := getElem hashPath i i.isLt
      if getElem indexBits i i.isLt then pedersenHash sibling current
      else pedersenHash current sibling)
    leaf

theorem computeMerkleRoot_eq_ok {pedersenHash : Field → Field → Field} {hashPath : Vector Field n} :
    computeMerkleRoot pedersenHash leaf index hashPath = .ok root ↔
      index < 2 ^ n ∧ climb pedersenHash index leaf hashPath.toList = root :=
  rootFromSiblingPath_eq_ok (H := ⟨pedersenHash, zeroNode pedersenHash 0, fun _ _ => rfl⟩)

variable {f : ℕ → Field}

/-- **Only honest paths are accepted.**  A value that is accepted at height `h` of a tree is the
node of the tree there, and the siblings are those of the tree. -/
theorem assertCheckMembership_inv (hH : Function.Injective2 H.merkleHash)
    {n h : ℕ} {value index : Field} {siblingPath : Vector Field n} (hok : assertCheckMembership H value index siblingPath (node H.merkleHash f (h + n) 0) =
      .ok ()) : index < 2 ^ n ∧ value = node H.merkleHash f h index ∧
      siblingPath.toList = siblings H.merkleHash f h index n := by
  obtain ⟨hlt, hclimb⟩ := assertCheckMembership_eq_ok.1 hok
  have hlen : siblingPath.toList.length = n := by simp
  have hzero : index / 2 ^ n = 0 := Nat.div_eq_of_lt hlt
  have := climb_inj hH (p := siblingPath.toList) (x := value) (f := f) (h := h) (i := index)
    (by rw [hlen, hzero, hclimb])
  rw [hlen] at this
  exact ⟨hlt, this⟩

theorem rootFromSiblingPath_graft {h : ℕ} {f g : ℕ → Field} (hlt : index < 2 ^ n)
    (hpath : siblingPath.toList = siblings H.merkleHash f h index n) :
    rootFromSiblingPath H (node H.merkleHash g h index) index siblingPath =
      .ok (node H.merkleHash (graft f g h index) (h + n) 0) := by
  rw [rootFromSiblingPath_eq_ok, hpath, climb_graft, Nat.div_eq_of_lt hlt]
  exact ⟨hlt, rfl⟩

theorem assertCheckMembership_siblings {h : ℕ} (hlt : index < 2 ^ n) (hpath : siblingPath.toList = siblings H.merkleHash f h index n) :
    assertCheckMembership H (node H.merkleHash f h index) index siblingPath
      (node H.merkleHash f (h + n) 0) = .ok () := by
  rw [assertCheckMembership_eq_ok, hpath, climb_siblings, Nat.div_eq_of_lt hlt]
  exact ⟨hlt, rfl⟩

/-! ### The root of a tree of leaves -/

def hashPair (H : MerkleHash) {n : ℕ} (values nodes : Vector Field n) (i place : ℕ) :
    Circuit (Vector Field n) := do
  let left ← get values (2 * i)
  let right ← get values (2 * i + 1)
  set nodes place (H.merkleHash left right)

/-- `MerkleTree::new`: the nodes above the leaves, level by level in one array.  The first loop
hashes the base layer, the second one the other layers. -/
def merkleTreeNodes (H : MerkleHash) {n : ℕ} (leaves : Vector Field n) :
    Circuit (Vector Field n) := do
  let totalNodes := n - 1
  let halfSize := n / 2
  let nodes ← (List.range halfSize).foldlM (fun nodes i => hashPair H leaves nodes i i)
    (Vector.replicate n 0)
  (List.range (totalNodes - halfSize)).foldlM
    (fun nodes i => hashPair H nodes nodes i (halfSize + i)) nodes

/-- `calculate_subtree`: `MerkleTree::new(leaves).get_root()`.  The root is the last node but one
of the array; a tree of one leaf has none. -/
def calculateSubtree (H : MerkleHash) {n : ℕ} (leaves : Vector Field n) : Circuit Field := do
  let nodes ← merkleTreeNodes H leaves
  assert (2 ≤ n) "attempt to subtract with overflow"
  get nodes (n - 2)

/-- The first `done` nodes are those of the tree.  The nodes at height `l + 1` start at place
`2 ^ (h + 1) - 2 ^ (h + 1 - l)`. -/
def Filled (H : MerkleHash) (f : ℕ → Field) (h done : ℕ) (nodes : Vector Field (2 ^ (h + 1))) :
    Prop :=
  ∀ l ≤ h, ∀ j < 2 ^ (h - l), 2 ^ (h + 1) - 2 ^ (h + 1 - l) + j < done →
    nodes[2 ^ (h + 1) - 2 ^ (h + 1 - l) + j]? = some (node H.merkleHash f (l + 1) j)

theorem Filled.set {h done : ℕ} {x : Field}
    {nodes : Vector Field (2 ^ (h + 1))} (hfilled : Filled H f h done nodes)
    (hdone : done < 2 ^ (h + 1))
    (hx : ∀ l ≤ h, ∀ j < 2 ^ (h - l), 2 ^ (h + 1) - 2 ^ (h + 1 - l) + j = done →
      x = node H.merkleHash f (l + 1) j) : Filled H f h (done + 1) (nodes.set done x hdone) := by
  intro l hl j hj hlt
  rcases Nat.lt_succ_iff_lt_or_eq.1 hlt with hlt | heq
  · rw [Vector.getElem?_set_ne _ (by omega)]
    exact hfilled l hl j hj hlt
  · rw [heq, Vector.getElem?_set_self, hx l hl j hj heq]

theorem place_parent {h l : ℕ} (hl : l < h) (j : ℕ) :
    2 * (2 ^ (h + 1) - 2 ^ (h + 1 - (l + 1)) + j - 2 ^ h) = 2 ^ (h + 1) - 2 ^ (h + 1 - l) + 2 * j ∧
      2 ^ h ≤ 2 ^ (h + 1) - 2 ^ (h + 1 - (l + 1)) := by
  have h₂ : 2 ^ (h + 1 - l) = 2 * 2 ^ (h + 1 - (l + 1)) := by
    rw [show h + 1 - l = h + 1 - (l + 1) + 1 by omega, pow_succ']
  have h₃ : 2 ^ (h + 1 - (l + 1)) ≤ 2 ^ h := Nat.pow_le_pow_right (by norm_num) (by omega)
  omega

theorem hashPair_eq {values nodes : Vector Field n} {i place : ℕ}
    {left right : Field} (hl : values[2 * i]? = some left) (hr : values[2 * i + 1]? = some right)
    (hplace : place < n) :
    hashPair H values nodes i place = .ok (nodes.set place (H.merkleHash left right) hplace) := by
  simp only [hashPair, bind_eq_ok, get_eq_ok]
  exact ⟨left, hl, right, hr, set_eq_ok.2 ⟨hplace, rfl⟩⟩

section Nodes

variable {H : MerkleHash} {h : ℕ} {f : ℕ → Field} {nodes : Vector Field (2 ^ (h + 1))} {i : ℕ}

variable {leaves : Vector Field (2 ^ (h + 1))}

theorem Filled.base (hf : ∀ i < 2 ^ (h + 1), leaves[i]? = some (f i)) (hi : i < 2 ^ h)
    (hfilled : Filled H f h i nodes) :
    ∃ nodes', hashPair H leaves nodes i i = .ok nodes' ∧ Filled H f h (i + 1) nodes' := by
  refine ⟨_, hashPair_eq (hf (2 * i) (by omega)) (hf (2 * i + 1) (by omega)) (by omega), ?_⟩
  refine hfilled.set (by omega) fun l hl j hj heq => ?_
  rcases Nat.eq_zero_or_pos l with rfl | hpos
  · obtain rfl : j = i := by simpa using heq
    rfl
  · obtain ⟨m, rfl⟩ : ∃ m, l = m + 1 := ⟨l - 1, by omega⟩
    have := (place_parent (by omega : m < h) j).2
    omega

theorem Filled.other (hi : 2 ^ h + i < 2 ^ (h + 1) - 1) (hfilled : Filled H f h (2 ^ h + i) nodes) :
    ∃ nodes', hashPair H nodes nodes i (2 ^ h + i) = .ok nodes' ∧
      Filled H f h (2 ^ h + (i + 1)) nodes' := by
  have hpow : 2 ^ (h + 1) = 2 * 2 ^ h := by ring
  obtain ⟨left, hleft⟩ : ∃ x, nodes[2 * i]? = some x := ⟨_, Vector.getElem?_eq_getElem (by omega)⟩
  obtain ⟨right, hright⟩ : ∃ x, nodes[2 * i + 1]? = some x :=
    ⟨_, Vector.getElem?_eq_getElem (by omega)⟩
  refine ⟨_, hashPair_eq hleft hright (by omega), ?_⟩
  refine hfilled.set (by omega) fun l hl j hj heq => ?_
  rcases Nat.eq_zero_or_pos l with rfl | hpos
  · simp only [Nat.sub_zero, Nat.sub_self, Nat.zero_add] at hj heq
    omega
  · -- the children of the node stand at `2 * i` and `2 * i + 1`
    obtain ⟨m, rfl⟩ : ∃ m, l = m + 1 := ⟨l - 1, by omega⟩
    obtain ⟨hplace, hge⟩ := place_parent (by omega : m < h) j
    have hwidth : 2 ^ (h - m) = 2 * 2 ^ (h - (m + 1)) := by
      rw [show h - m = h - (m + 1) + 1 by omega, pow_succ']
    have hi' : 2 * i = 2 ^ (h + 1) - 2 ^ (h + 1 - m) + 2 * j := by omega
    have h₁ := hfilled m (by omega) (2 * j) (by omega) (by omega)
    have h₂ := hfilled m (by omega) (2 * j + 1) (by omega) (by omega)
    rw [← hi', hleft, Option.some.injEq] at h₁
    rw [← Nat.add_assoc, ← hi', hright, Option.some.injEq] at h₂
    rw [node_succ H.merkleHash f (m + 1) j, h₁, h₂]

theorem calculateSubtree_eq (hf : ∀ i < 2 ^ (h + 1), leaves[i]? = some (f i)) :
    calculateSubtree H leaves = .ok (node H.merkleHash f (h + 1) 0) := by
  have hpos : 0 < 2 ^ h := by positivity
  have hhalf : 2 ^ (h + 1) / 2 = 2 ^ h := by omega
  have hzero : Filled H f h 0 (Vector.replicate (2 ^ (h + 1)) 0) :=
    fun _ _ _ _ hlt => absurd hlt (Nat.not_lt_zero _)
  obtain ⟨nodes₁, hloop₁, hfilled₁⟩ := foldlM_range_total (Filled H f h) hzero
    fun i hi _ hfilled => hfilled.base hf hi
  obtain ⟨nodes₂, hloop₂, hfilled₂⟩ := foldlM_range_total (fun i => Filled H f h (2 ^ h + i))
    hfilled₁ fun i (hi : i < 2 ^ (h + 1) - 1 - 2 ^ h) _ hfilled => hfilled.other (by omega)
  have hnodes : merkleTreeNodes H leaves = .ok nodes₂ := by
    simp only [merkleTreeNodes, hhalf]
    exact bind_eq_ok.2 ⟨nodes₁, hloop₁, hloop₂⟩
  have hroot : nodes₂[2 ^ (h + 1) - 2]? = some (node H.merkleHash f (h + 1) 0) := by
    have := hfilled₂ h le_rfl 0 (by simp) (by
      rw [show h + 1 - h = 1 by omega, pow_one]; omega)
    simpa only [show h + 1 - h = 1 by omega, pow_one, Nat.add_zero] using this
  simp only [calculateSubtree, bind_eq_ok, assert_eq_ok, decide_eq_true_eq, get_eq_ok]
  exact ⟨nodes₂, hnodes, (), by omega, hroot⟩

end Nodes

theorem calculateSubtree_one {leaves : Vector Field (2 ^ 0)} :
    calculateSubtree H leaves ≠ .ok root := by
  simp [calculateSubtree, bind_eq_ok]

end Noir
