/-
**Inserting a subtree, in the circuit and in the node.**

The rollup circuits append a batch of leaves to a tree of which they know the root and the size:
they check, against a sibling path, that an empty subtree stands where the batch belongs, and put
the subtree of the batch in its place.  The node appends the same leaves one beside the other.
-/

import Aztec.IndexedTreeCircuit
import Aztec.LeafArrays

namespace Rollup

open Failing Merkle Noir IndexedTree TreeBase LeafArray

/-- `insert_subtree_to_snapshot_tree`.  The new index is computed with 64 bits and then cast to
32. -/
def insertSubtreeToSnapshotTree (H : MerkleHash) {n : ℕ} (snapshot : AppendOnlyTreeSnapshot)
    (siblingPath : Vector Field n) (emptySubtreeRoot subtreeRootToInsert : Field)
    (subtreeDepth : ℕ) : Circuit AppendOnlyTreeSnapshot := do
  let leafIndexAtDepth := snapshot.nextAvailableLeafIndex >>> subtreeDepth
  assertCheckMembership H emptySubtreeRoot leafIndexAtDepth siblingPath snapshot.root
  let newRoot ← rootFromSiblingPath H subtreeRootToInsert leafIndexAtDepth siblingPath
  let newNextAvailableLeafIndex := snapshot.nextAvailableLeafIndex + 1 <<< subtreeDepth
  return { root := newRoot, nextAvailableLeafIndex := newNextAvailableLeafIndex % 2 ^ 32 }

section Insertion

variable {H : MerkleHash} {h n : ℕ} {f : ℕ → Field} {leaves : Vector Field (2 ^ (h + 1))}

theorem writeLeaves_eq_graft (b : ℕ) : writeLeaves f (b * 2 ^ (h + 1)) leaves.toList =
      graft f (fun j => (leaves.toList[j - b * 2 ^ (h + 1)]?).getD 0) (h + 1) b := by
  funext j
  by_cases hj : j / 2 ^ (h + 1) = b
  · obtain ⟨hge, hlt⟩ := div_eq_iff_block.1 hj
    rw [Nat.add_mul, Nat.one_mul] at hlt
    have hin : j - b * 2 ^ (h + 1) < leaves.toList.length := by
      rw [Vector.length_toList]
      omega
    rw [graft_of_eq hj, writeLeaves, if_pos hge, List.getElem?_eq_getElem hin, Option.getD_some,
      Option.getD_some]
  · rw [graft_of_ne hj, writeLeaves_of_notMem]
    rw [div_eq_iff_block, Nat.add_mul, Nat.one_mul] at hj
    rw [Vector.length_toList]
    omega

theorem calculateSubtree_at (b : ℕ) : calculateSubtree H leaves =
      .ok (node H.merkleHash (fun j => (leaves.toList[j - b * 2 ^ (h + 1)]?).getD 0) (h + 1) b) := by
  have hleaves : ∀ i < 2 ^ (h + 1), leaves[i]? = some ((leaves.toList[i]?).getD 0) := by
    intro i hi
    simp [hi]
  rw [calculateSubtree_eq hleaves]
  congr 1
  refine node_congr_block fun k hk => ?_
  rw [Nat.zero_mul, Nat.zero_add, Nat.add_sub_cancel_left]

/-- **What the circuit returns for the tree of the node**: its root after the leaves have been
appended, and its size cast to 32 bits. -/
theorem insertSubtree_appendLeaves {depth : ℕ} {t t' : TreeBase Field depth} {g : ℕ → Field}
    (hcontents : Contents H.merkleHash 0 t f g) (hzero : ∀ i, t.getNumLeaves true ≤ i → g i = 0)
    (haligned : 2 ^ (h + 1) ∣ t.getNumLeaves true)
    (happend : TreeBase.appendLeaves H.merkleHash 0 t leaves.toList = .ok t')
    {path : Vector Field (depth - (h + 1))} (hpath : path.toList =
      (getSiblingPath H.merkleHash 0 t (t.getNumLeaves true) true).drop (h + 1)) :
    ∃ subtreeRoot, calculateSubtree H leaves = .ok subtreeRoot ∧
      insertSubtreeToSnapshotTree H ⟨t.getRoot true, t.getNumLeaves true⟩ path
        (zeroNode H.merkleHash 0 (h + 1)) subtreeRoot (h + 1) =
          .ok ⟨t'.getRoot true, t'.getNumLeaves true % 2 ^ 32⟩ := by
  obtain ⟨-, hnum, hfits⟩ := appendLeaves_same happend
  have hafter := (hcontents.appendLeaves happend).getRoot true
  have hbefore := hcontents.getRoot true
  rw [if_pos rfl] at hafter hbefore
  rw [hcontents.getSiblingPath, if_pos rfl] at hpath
  rw [Vector.length_toList] at hnum hfits
  obtain ⟨b, hb⟩ := haligned
  rw [Nat.mul_comm] at hb
  rw [hb] at hpath hfits hzero
  have hpow : 2 ^ (h + 1) ≤ 2 ^ depth := by omega
  have hheight : h + 1 ≤ depth := (Nat.pow_le_pow_iff_right (by norm_num)).1 hpow
  have hdepth : h + 1 + (depth - (h + 1)) = depth := Nat.add_sub_cancel' hheight
  have hpos : 0 < 2 ^ (h + 1) := by positivity
  have hlt : b < 2 ^ (depth - (h + 1)) := by
    by_contra hge
    have := Nat.mul_le_mul_right (2 ^ (h + 1)) (not_lt.1 hge)
    rw [← pow_add, Nat.add_comm, hdepth] at this
    omega
  have hsiblings : path.toList = siblings H.merkleHash g (h + 1) b (depth - (h + 1)) := by
    have hdrop := drop_siblings H.merkleHash g (h + 1) (depth - (h + 1)) 0 (b * 2 ^ (h + 1))
    rwa [hdepth, Nat.mul_div_cancel _ hpos, Nat.zero_add, ← hpath] at hdrop
  have hempty : zeroNode H.merkleHash 0 (h + 1) = node H.merkleHash g (h + 1) b :=
    (node_const fun j hj _ => hzero j hj).symm
  have hshift : t.getNumLeaves true >>> (h + 1) = b := by
    rw [hb, Nat.shiftRight_eq_div_pow, Nat.mul_div_cancel _ hpos]
  refine ⟨_, calculateSubtree_at b, ?_⟩
  simp only [insertSubtreeToSnapshotTree, hshift, hempty]
  refine bind_eq_ok.2 ⟨(), ?_, bind_eq_ok.2 ⟨_, rootFromSiblingPath_graft hlt hsiblings, ?_⟩⟩
  · have hok := assertCheckMembership_siblings hlt hsiblings
    rwa [hdepth, ← hbefore] at hok
  · rw [hdepth, ← writeLeaves_eq_graft, ← hb, ← hafter, Nat.one_shiftLeft, ← hnum]
    rfl

/-- **What an accepted insertion returns**, whatever the path: where the batch goes there were
empty leaves, and the new root is that of the old leaves with the batch there. -/
theorem insertSubtree_inv (hH : Function.Injective2 H.merkleHash)
    {snapshot out : AppendOnlyTreeSnapshot} {path : Vector Field n} {subtreeRoot : Field}
    (hroot : snapshot.root = node H.merkleHash f (h + 1 + n) 0)
    (hsubtree : calculateSubtree H leaves = .ok subtreeRoot)
    (hok : insertSubtreeToSnapshotTree H snapshot path (zeroNode H.merkleHash 0 (h + 1))
      subtreeRoot (h + 1) = .ok out) {start : ℕ}
    (hstart : start = snapshot.nextAvailableLeafIndex / 2 ^ (h + 1) * 2 ^ (h + 1)) :
    start + 2 ^ (h + 1) ≤ 2 ^ (h + 1 + n) ∧ (∀ i, start ≤ i → i < start + 2 ^ (h + 1) → f i = 0) ∧
      out.root = node H.merkleHash (writeLeaves f start leaves.toList) (h + 1 + n) 0 ∧
      out.nextAvailableLeafIndex = (snapshot.nextAvailableLeafIndex + 2 ^ (h + 1)) % 2 ^ 32 := by
  set b := snapshot.nextAvailableLeafIndex / 2 ^ (h + 1) with hb
  obtain ⟨u, hmember, hok⟩ := bind_eq_ok.1 hok
  obtain ⟨newRoot, hnew, hout⟩ := bind_eq_ok.1 hok
  simp only [pure_eq_ok] at hout
  rw [Nat.shiftRight_eq_div_pow, ← hb] at hmember hnew
  rw [hroot] at hmember
  obtain ⟨hlt, hempty, hsiblings⟩ := assertCheckMembership_inv hH hmember
  rw [calculateSubtree_at b, Except.ok.injEq] at hsubtree
  rw [← hsubtree, rootFromSiblingPath_graft hlt hsiblings, Except.ok.injEq] at hnew
  subst hstart hout
  refine ⟨?_, fun i hge hi => ?_, ?_, by rw [Nat.one_shiftLeft]⟩
  · calc b * 2 ^ (h + 1) + 2 ^ (h + 1) = (b + 1) * 2 ^ (h + 1) := by ring
      _ ≤ 2 ^ n * 2 ^ (h + 1) := Nat.mul_le_mul_right _ hlt
      _ = 2 ^ (h + 1 + n) := by rw [← pow_add, Nat.add_comm]
  · exact eq_of_node_eq_zeroNode hH hempty.symm
      (div_eq_iff_block.2 ⟨hge, by rwa [Nat.add_mul, Nat.one_mul]⟩)
  · rw [writeLeaves_eq_graft]
    exact hnew.symm

end Insertion

/-! ### Agreement -/

/-- For this tree and these leaves the circuit agrees with the node: given the sibling path of the
place of the subtree, it accepts the subtree of the leaves, and returns the root and the number of
leaves that the tree has after appending them. -/
def AgreesWithNode (H : MerkleHash) {depth : ℕ} (height : ℕ) (t : TreeBase Field depth)
    (leaves : Vector Field (2 ^ height)) : Prop :=
  ∀ t', TreeBase.appendLeaves H.merkleHash 0 t leaves.toList = .ok t' →
    ∀ path : Vector Field (depth - height), path.toList =
      (getSiblingPath H.merkleHash 0 t (t.getNumLeaves true) true).drop height →
      ∃ subtreeRoot, calculateSubtree H leaves = .ok subtreeRoot ∧
        insertSubtreeToSnapshotTree H ⟨t.getRoot true, t.getNumLeaves true⟩ path
          (zeroNode H.merkleHash 0 height) subtreeRoot height =
            .ok ⟨t'.getRoot true, t'.getNumLeaves true⟩

/-- The accepted insertion commits to the old leaves with the batch from `start` on. -/
def CommitsToBatch (H : MerkleHash) {height n : ℕ} (f : ℕ → Field)
    (leaves : Vector Field (2 ^ height)) (start : ℕ) (out : AppendOnlyTreeSnapshot) : Prop :=
  start + 2 ^ height ≤ 2 ^ (height + n) ∧
    (∀ i, start ≤ i → i < start + 2 ^ height → f i = 0) ∧
    out.root = node H.merkleHash (writeLeaves f start leaves.toList) (height + n) 0

/-- **Inserting a subtree agrees with appending its leaves**, from the height of one pair of leaves
on and as long as the number of leaves fits into 32 bits; and, when the hash has no collisions,
every accepted insertion commits to the old leaves and the new ones. -/
theorem insertSubtree_agrees (H : MerkleHash) (height : ℕ) (hheight : 1 ≤ height) :
    (∀ (depth : ℕ) (actions : List (Action (List Field))) (leaves : Vector Field (2 ^ height)),
      2 ^ height ∣ (runStandard H.merkleHash 0 depth actions).getNumLeaves true →
      (runStandard H.merkleHash 0 depth actions).getNumLeaves true + 2 ^ height < 2 ^ 32 →
      AgreesWithNode H height (runStandard H.merkleHash 0 depth actions) leaves) ∧
    (Function.Injective2 H.merkleHash →
      ∀ (n : ℕ) (snapshot out : AppendOnlyTreeSnapshot) (path : Vector Field n)
        (leaves : Vector Field (2 ^ height)) (subtreeRoot : Field) (f : ℕ → Field),
      snapshot.root = node H.merkleHash f (height + n) 0 →
      calculateSubtree H leaves = .ok subtreeRoot →
      insertSubtreeToSnapshotTree H snapshot path (zeroNode H.merkleHash 0 height) subtreeRoot
        height = .ok out → 2 ^ height ∣ snapshot.nextAvailableLeafIndex →
      @CommitsToBatch H height n f leaves snapshot.nextAvailableLeafIndex out) := by
  obtain ⟨h, rfl⟩ := Nat.exists_eq_add_of_le' hheight
  constructor
  · intro depth actions leaves haligned hsmall t' happend path hpath
    have hstands := stands_standard H.merkleHash 0 depth actions
    have hnum := hstands.cachedSize_eq
    obtain ⟨subtreeRoot, hsubtree, hinsert⟩ := insertSubtree_appendLeaves hstands.contents
      (fun i hi => by
        rw [hnum] at hi
        rw [padded, List.getElem?_eq_none hi, Option.getD_none])
      haligned happend hpath
    refine ⟨subtreeRoot, hsubtree, ?_⟩
    have hfits : t'.getNumLeaves true < 2 ^ 32 := by
      rw [(appendLeaves_same happend).2.1, Vector.length_toList]
      exact hsmall
    rwa [Nat.mod_eq_of_lt hfits] at hinsert
  · intro hH n snapshot out path leaves subtreeRoot f hroot hsubtree hok haligned
    obtain ⟨hfits, hempty, hnew, -⟩ := insertSubtree_inv hH hroot hsubtree hok
      (Nat.div_mul_cancel haligned).symm
    exact ⟨hfits, hempty, hnew⟩

/-- Two leaves after two others, in a tree of four. -/
theorem insertSubtree_agrees_four :
    AgreesWithNode pairing 1 (runStandard pairing.merkleHash 0 2 [.write [1, 2]]) #v[3, 4] ∧
      ∃ out, insertSubtreeToSnapshotTree pairing
          ⟨node pairHash (padded 0 [1, 2]) 2 0, 2⟩ #v[pairHash 1 2] (zeroNode pairHash 0 1)
          (pairHash 3 4) 1 = .ok out ∧
        @CommitsToBatch pairing 1 1 (padded 0 [1, 2]) #v[3, 4] 2 out := by
  have hsize : (runStandard pairing.merkleHash 0 2 [.write [1, 2]]).getNumLeaves true = 2 :=
    (stands_standard pairing.merkleHash 0 2 [.write [1, 2]]).cachedSize_eq
  refine ⟨(insertSubtree_agrees pairing 1 le_rfl).1 2 _ _ (by rw [hsize, pow_one])
      (by rw [hsize]; norm_num),
    _, rfl, ?_⟩
  exact (insertSubtree_agrees pairing 1 le_rfl).2 pairHash_injective 1
    ⟨node pairHash (padded 0 [1, 2]) 2 0, 2⟩ _ #v[pairHash 1 2] #v[3, 4] (pairHash 3 4)
    (padded 0 [1, 2]) rfl (by decide) rfl (by norm_num)

/-- A subtree of one leaf has no root in the circuit; and when a tree of height 32 becomes full, the
number of leaves the circuit returns is zero. -/
theorem not_insertSubtree_agrees :
    ¬AgreesWithNode pairing 0 (runStandard pairing.merkleHash 0 1 []) #v[5] ∧
      ¬AgreesWithNode pairing 1
        (runStandard pairing.merkleHash 0 32 [.write (List.replicate (2 ^ 32 - 2) 0)]) #v[5, 7] := by
  constructor
  · intro h
    obtain ⟨t', happend⟩ : ∃ t', TreeBase.appendLeaves pairing.merkleHash 0
        (runStandard pairing.merkleHash 0 1 []) [5] = .ok t' := ⟨_, rfl⟩
    obtain ⟨subtreeRoot, hsubtree, -⟩ := h t' happend
      (Vector.ofFn fun _ => 0) (by decide)
    exact calculateSubtree_one hsubtree
  · intro h
    -- a variable for the number of leaves, which nothing should try to count
    obtain ⟨k, hk⟩ : ∃ k, k = 2 ^ 32 - 2 := ⟨_, rfl⟩
    rw [← hk] at h
    set t := runStandard pairing.merkleHash 0 32 [.write (List.replicate k 0)]
    have hstands := stands_standard pairing.merkleHash 0 32 [.write (List.replicate k 0)]
    have hlist : (listsOf 32 [.write (List.replicate k (0 : Field))]).uncommitted =
        List.replicate k 0 := by
      have hroom : ([] : List Field).length + (List.replicate k (0 : Field)).length ≤ 2 ^ 32 := by
        rw [List.length_nil, List.length_replicate, hk]
        norm_num
      change append 32 [] (List.replicate k 0) = _
      rw [append, if_pos hroom, List.nil_append]
    have hsize : t.getNumLeaves true = k := by
      rw [hstands.cachedSize_eq, hlist, List.length_replicate]
    have hbatch : (#v[5, 7] : Vector Field (2 ^ 1)).toList.length = 2 := rfl
    obtain ⟨t', happend⟩ : ∃ t', TreeBase.appendLeaves pairing.merkleHash 0 t
        (#v[5, 7] : Vector Field (2 ^ 1)).toList = .ok t' :=
      appendLeaves_isOk (by rw [hsize, hbatch, hk]; norm_num)
    have hfull : t'.getNumLeaves true = 2 ^ 32 := by
      rw [(appendLeaves_same happend).2.1, hsize, hbatch, hk]
      norm_num
    have hzero : ∀ i, t.getNumLeaves true ≤ i →
        padded 0 (listsOf 32 [.write (List.replicate k (0 : Field))]).uncommitted i = 0 := by
      intro i hi
      rw [hsize] at hi
      rw [hlist, padded, List.getElem?_eq_none (by rwa [List.length_replicate]), Option.getD_none]
    have haligned : 2 ^ (0 + 1) ∣ t.getNumLeaves true := by
      rw [hsize, hk]
      exact ⟨2 ^ 31 - 1, by norm_num⟩
    -- the honest path
    have hlength : ((getSiblingPath pairing.merkleHash 0 t (t.getNumLeaves true) true).drop 1).length
        = 32 - 1 := by
      rw [List.length_drop, hstands.contents.getSiblingPath, length_siblings]
    set siblings := (getSiblingPath pairing.merkleHash 0 t (t.getNumLeaves true) true).drop 1
    obtain ⟨path, hpath⟩ : ∃ path : Vector Field (32 - 1), path.toList = siblings :=
      ⟨⟨siblings.toArray, by simpa using hlength⟩, by simp⟩
    obtain ⟨subtreeRoot, hsubtree, hinsert⟩ := insertSubtree_appendLeaves hstands.contents hzero
      haligned happend hpath
    obtain ⟨subtreeRoot', hsubtree', hagrees⟩ := h t' happend path hpath
    rw [hsubtree, Except.ok.injEq] at hsubtree'
    subst hsubtree'
    rw [hinsert, hfull, Except.ok.injEq] at hagrees
    cases hagrees

end Rollup
