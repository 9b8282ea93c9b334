/-
**What contracts prove about past state.**

A contract shows that a nullifier is not in the nullifier tree of a block, or which value a slot has
in its public data tree, by a leaf that an oracle supplies together with its place and its path.  A
nullifier is absent when it lies between the nullifier of that leaf and the next one.  An empty
place of a tree holds the hash of the empty leaf, which reads as a leaf that has the nullifier zero
and points nowhere; the rollup circuit asks for a low leaf that is not empty, and these functions do
not.
-/

import Aztec.BaseRollupTrees

namespace HistoryProofs

open Failing Noir Merkle LinkedLeaves IndexedTree BaseRollup

/-! ### The checks -/

structure Header where
  blockNumber : Field
  nullifierTree : AppendOnlyTreeSnapshot
  publicDataTree : AppendOnlyTreeSnapshot

/-- A cast to `u32`. -/
def asU32 (x : Field) : ℕ := x % 2 ^ 32

def fullFieldGreaterThan (lhs rhs : Field) : Bool := fullFieldLessThan rhs lhs

structure NullifierMembershipWitness (n : ℕ) where
  index : Field
  leafPreimage : NullifierLeafPreimage
  path : Vector Field n

def NullifierMembershipWitness.deserialize {n : ℕ} (fields : Vector Field (1 + 3 + n)) :
    NullifierMembershipWitness n where
  index := fields[0]
  leafPreimage := ⟨fields[1], fields[2], asU32 fields[3]⟩
  path := Vector.ofFn fun i => fields[1 + 3 + i.1]

structure PublicDataWitness (n : ℕ) where
  index : Field
  leafPreimage : PublicDataTreeLeafPreimage
  path : Vector Field n

/-- What `get_public_data_witness` makes of the fields of the oracle. -/
def PublicDataWitness.deserialize {n : ℕ} (fields : Vector Field (1 + 4 + n)) :
    PublicDataWitness n where
  index := fields[0]
  leafPreimage :=
    { slot := fields[1], value := fields[2], nextIndex := asU32 fields[3], nextSlot := fields[4] }
  path := Vector.ofFn fun i => fields[1 + 4 + i.1]

def generatorIndexPublicLeafIndex : ℕ := 23

section Checks

-- pedersen_hash_with_separator; the hash of the standard library has the separator zero
variable (pedersenHash : List Field → ℕ → Field)

def leafHash (input : List Field) : Field := pedersenHash input 0

def nodeHash (left right : Field) : Field := pedersenHash [left, right] 0

def nullifierNonInclusion {n : ℕ} (oracle : ℕ → Field → Vector Field (1 + 3 + n))
    (nullifier : Field) (header : Header) : Circuit Unit := do
  let witness := NullifierMembershipWitness.deserialize
    (oracle (asU32 header.blockNumber) nullifier)
  let lowNullifierLeaf := witness.leafPreimage.hash (leafHash pedersenHash)
  let root ← computeMerkleRoot (nodeHash pedersenHash) lowNullifierLeaf witness.index witness.path
  assert (header.nullifierTree.root = root)
    "Proving nullifier non-inclusion failed: Could not prove low nullifier inclusion"
  assert (fullFieldLessThan witness.leafPreimage.nullifier nullifier)
    "Proving nullifier non-inclusion failed: low_nullifier.value < nullifier.value check failed"
  assert (fullFieldGreaterThan witness.leafPreimage.nextNullifier nullifier ||
      witness.leafPreimage.nextIndex = 0) ("Proving nullifier non-inclusion failed: " ++
    "low_nullifier.next_value > nullifier.value check failed")

def publicValueLeafSlot (contractAddress storageSlot : Field) : Field :=
  pedersenHash [contractAddress, storageSlot] generatorIndexPublicLeafIndex

/-- The test `is_in_range`: the slot lies between that of the leaf and the next one. -/
def isInRange (preimage : PublicDataTreeLeafPreimage) (leafSlot : Field) : Bool :=
  let isLessThanSlot := fullFieldLessThan preimage.slot leafSlot
  let isNextGreaterThan := fullFieldLessThan leafSlot preimage.nextSlot
  let isMax := decide (preimage.nextIndex = 0) && decide (preimage.nextSlot = 0)
  isLessThanSlot && (isNextGreaterThan || isMax)

def publicValueInclusion {n : ℕ} (oracle : ℕ → Field → Vector Field (1 + 4 + n))
    (value storageSlot contractAddress : Field) (header : Header) : Circuit Unit := do
  let leafSlot := publicValueLeafSlot pedersenHash contractAddress storageSlot
  let witness := PublicDataWitness.deserialize (oracle (asU32 header.blockNumber) leafSlot)
  let preimage := witness.leafPreimage
  if isInRange preimage leafSlot then
    assert (value = 0) "Non-existant public data leaf value is non-zero"
  else do
    assert (preimage.slot = leafSlot) "Public data slot don't match witness"
    assert (preimage.value = value) "Public value does not match the witness"
  let root ← computeMerkleRoot (nodeHash pedersenHash) (preimage.hash (leafHash pedersenHash))
    witness.index witness.path
  assert (header.publicDataTree.root = root) "Proving public value inclusion failed"

/-! ### What the checks are for -/

/-- No two inputs have the same hash, and no input but the empty one has the hash zero. -/
structure HashOk : Prop where
  injective : Function.Injective2 pedersenHash
  ne_zero : ∀ input separator, input ≠ [] → pedersenHash input separator ≠ 0

/-- The root of a header commits to the leaves of a linked list, empty places holding the empty
leaf. -/
structure NullifierTree (n : ℕ) (header : Header) (leaves : ℕ → NullifierLeafPreimage) :
    Prop where
  root : header.nullifierTree.root = node (nodeHash pedersenHash)
    (fun i => (leaves i).hash (leafHash pedersenHash)) n 0
  linked : Linked ((nullifierList (leafHash pedersenHash)).table leaves)

structure PublicDataTree (n : ℕ) (header : Header) (leaves : ℕ → PublicDataTreeLeafPreimage) :
    Prop where
  root : header.publicDataTree.root = node (nodeHash pedersenHash)
    (fun i => (leaves i).hash (leafHash pedersenHash)) n 0
  linked : Linked ((publicDataList (leafHash pedersenHash)).table leaves)

/-- The witness of an empty place: its leaf hashes to zero, and its path leads to the root. -/
def OpensEmpty {n : ℕ} (root index : Field) (path : Vector Field n) : Prop :=
  computeMerkleRoot (nodeHash pedersenHash) 0 index path = .ok root

end Checks

def IsValueOf (leaves : ℕ → PublicDataTreeLeafPreimage) (slot value : Field) : Prop :=
  Holds leaves slot value ∨ value = 0 ∧ ∀ value', ¬ Holds leaves slot value'

section Soundness

variable {pedersenHash : List Field → ℕ → Field} {n : ℕ} {header : Header}

section

variable (h : HashOk pedersenHash)
include h

theorem HashOk.leafHash_injective : Function.Injective (leafHash pedersenHash) :=
  fun _ _ he => (h.injective he).1

theorem HashOk.nodeHash_injective : Function.Injective2 (nodeHash pedersenHash) := by
  intro left left' right right' he
  have hlist := (h.injective he).1
  simp only [List.cons.injEq, and_true] at hlist
  exact hlist

theorem HashOk.opens_iff {f : ℕ → Field} {leaf index : Field} {path : Vector Field n} :
    computeMerkleRoot (nodeHash pedersenHash) leaf index path =
        .ok (node (nodeHash pedersenHash) f n 0) ↔ index < 2 ^ n ∧ leaf = f index ∧
        path.toList = siblings (nodeHash pedersenHash) f 0 index n := by
  rw [computeMerkleRoot_eq_ok]
  have hlen : path.toList.length = n := by simp
  constructor
  · rintro ⟨hlt, hclimb⟩
    have hzero : index / 2 ^ n = 0 := Nat.div_eq_of_lt hlt
    have hinj := climb_inj h.nodeHash_injective (p := path.toList) (x := leaf) (f := f) (h := 0)
      (i := index) (by rw [hlen, hzero, Nat.zero_add, hclimb])
    rw [hlen] at hinj
    exact ⟨hlt, hinj⟩
  · rintro ⟨hlt, rfl, hpath⟩
    have hclimb := climb_siblings (nodeHash pedersenHash) f n 0 index
    rw [Nat.zero_add, Nat.div_eq_of_lt hlt] at hclimb
    exact ⟨hlt, hpath ▸ hclimb⟩

theorem HashOk.nullifierLeaf_injective :
    Function.Injective (NullifierLeafPreimage.hash (leafHash pedersenHash)) := by
  intro p q he
  have hne : ∀ p : NullifierLeafPreimage, leafHash pedersenHash p.serialize ≠ 0 :=
    fun p => h.ne_zero _ _ (List.cons_ne_nil _ _)
  unfold NullifierLeafPreimage.hash at he
  split at he <;> split at he
  · next hp hq =>
    rw [NullifierLeafPreimage.isEmpty_iff.1 hp, NullifierLeafPreimage.isEmpty_iff.1 hq]
  · exact absurd he.symm (hne q)
  · exact absurd he (hne p)
  · have hlist := h.leafHash_injective he
    simp only [NullifierLeafPreimage.serialize, List.cons.injEq, and_true] at hlist
    exact NullifierLeafPreimage.ext hlist.1 hlist.2.1 hlist.2.2

theorem HashOk.publicDataLeaf_injective :
    Function.Injective (PublicDataTreeLeafPreimage.hash (leafHash pedersenHash)) := by
  intro p q he
  have hne : ∀ a l, leafHash pedersenHash (a :: l) ≠ 0 :=
    fun a l => h.ne_zero _ _ (List.cons_ne_nil _ _)
  unfold PublicDataTreeLeafPreimage.hash at he
  split at he <;> split at he
  · next hp hq =>
    rw [PublicDataTreeLeafPreimage.isEmpty_iff.1 hp, PublicDataTreeLeafPreimage.isEmpty_iff.1 hq]
  · exact absurd he.symm (hne _ _)
  · exact absurd he (hne _ _)
  · have hlist := h.leafHash_injective he
    simp only [List.cons.injEq, and_true] at hlist
    exact PublicDataTreeLeafPreimage.ext hlist.1 hlist.2.1 hlist.2.2.2 hlist.2.2.1

end

theorem isLast_of_nextIndex {T : Table ℕ} (h : Linked T) {i : ℕ} {c : Cell ℕ} (hc : T i = some c)
    (hzero : c.nextIndex = 0) : c.IsLast := by
  rcases h.next hc with ⟨hlast, -⟩ | ⟨hlt, ⟨d, hd, hkey⟩, -⟩
  · exact hlast
  · obtain ⟨e, he, hbot⟩ := h.head
    rw [hzero, he, Option.some.injEq] at hd
    rw [← hkey, ← hd, hbot] at hlt
    exact absurd hlt not_lt_bot

section Nullifier

variable {leaves : ℕ → NullifierLeafPreimage} {nullifier : Field}
  {oracle : ℕ → Field → Vector Field (1 + 3 + n)}

def lowNullifierWitness (oracle : ℕ → Field → Vector Field (1 + 3 + n)) (nullifier : Field)
    (header : Header) : NullifierMembershipWitness n :=
  NullifierMembershipWitness.deserialize (oracle (asU32 header.blockNumber) nullifier)

theorem nullifierNonInclusion_eq_ok :
    nullifierNonInclusion pedersenHash oracle nullifier header = .ok () ↔
      computeMerkleRoot (nodeHash pedersenHash)
        ((lowNullifierWitness oracle nullifier header).leafPreimage.hash (leafHash pedersenHash))
        (lowNullifierWitness oracle nullifier header).index
        (lowNullifierWitness oracle nullifier header).path = .ok header.nullifierTree.root ∧
      (lowNullifierWitness oracle nullifier header).leafPreimage.nullifier < nullifier ∧
      (nullifier < (lowNullifierWitness oracle nullifier header).leafPreimage.nextNullifier ∨
        (lowNullifierWitness oracle nullifier header).leafPreimage.nextIndex = 0) := by
  simp only [nullifierNonInclusion, bind_eq_ok, assert_eq_ok, fullFieldLessThan,
    fullFieldGreaterThan, Bool.or_eq_true, decide_eq_true_eq]
  constructor
  · rintro ⟨root, hroot, -, rfl, -, hlow, hnext⟩
    exact ⟨hroot, hlow, hnext⟩
  · rintro ⟨hroot, hlow, hnext⟩
    exact ⟨_, hroot, (), rfl, (), hlow, hnext⟩

/-- **Absence of a nullifier.**  The check is sound unless the witness is that of an empty place
and the tree has the nullifier. -/
theorem nullifierNonInclusion_iff (hash : HashOk pedersenHash)
    (htree : NullifierTree pedersenHash n header leaves) (hne : nullifier ≠ 0) :
    (nullifierNonInclusion pedersenHash oracle nullifier header = .ok () →
        nullifier ∉ nullifiers leaves) ↔
      ¬ ((lowNullifierWitness oracle nullifier header).leafPreimage = .empty ∧
        OpensEmpty pedersenHash header.nullifierTree.root
          (lowNullifierWitness oracle nullifier header).index
          (lowNullifierWitness oracle nullifier header).path ∧ nullifier ∈ nullifiers leaves) := by
  rw [nullifierNonInclusion_eq_ok]
  constructor
  · rintro h ⟨hempty, hopens, hmem⟩
    refine h ⟨?_, ?_, .inr ?_⟩ hmem <;> rw [hempty]
    · exact hopens
    · exact Nat.pos_of_ne_zero hne
    · rfl
  · rintro h ⟨hroot, hlow, hnext⟩ hmem
    by_cases hempty : (lowNullifierWitness oracle nullifier header).leafPreimage = .empty
    · rw [hempty] at hroot
      exact h ⟨hempty, hroot, hmem⟩
    · -- the leaf is a cell of the list, and the nullifier lies in its gap
      rw [htree.root, hash.opens_iff] at hroot
      obtain ⟨-, hleaf, -⟩ := hroot
      have hleaf := hash.nullifierLeaf_injective hleaf
      rw [hleaf] at hlow hnext hempty
      have hcell := (nullifierList (leafHash pedersenHash)).isCell_iff.2 (.inr hempty)
      have hc := Layout.table_of_isCell hcell
      have hgap : InGap ((nullifierList (leafHash pedersenHash)).cell
          (leaves (lowNullifierWitness oracle nullifier header).index)) nullifier :=
        ⟨hlow, hnext.imp_right fun hzero => isLast_of_nextIndex htree.linked hc hzero⟩
      refine htree.linked.notMem_of_inGap hc hgap ?_
      rw [keys_nullifierList]
      exact hmem

end Nullifier

section PublicData

variable {leaves : ℕ → PublicDataTreeLeafPreimage} {value storageSlot contractAddress : Field}
  {oracle : ℕ → Field → Vector Field (1 + 4 + n)}

def publicDataWitness (oracle : ℕ → Field → Vector Field (1 + 4 + n)) (leafSlot : Field)
    (header : Header) : PublicDataWitness n :=
  PublicDataWitness.deserialize (oracle (asU32 header.blockNumber) leafSlot)

variable {leafSlot : Field}

theorem isInRange_iff {preimage : PublicDataTreeLeafPreimage} :
    isInRange preimage leafSlot = true ↔ preimage.slot < leafSlot ∧
      (leafSlot < preimage.nextSlot ∨ preimage.nextIndex = 0 ∧ preimage.nextSlot = 0) := by
  simp only [isInRange, fullFieldLessThan, Bool.and_eq_true, Bool.or_eq_true, decide_eq_true_eq]

theorem publicValueInclusion_eq_ok
    (hslot : leafSlot = publicValueLeafSlot pedersenHash contractAddress storageSlot) :
    publicValueInclusion pedersenHash oracle value storageSlot contractAddress header = .ok () ↔
      (if isInRange (publicDataWitness oracle leafSlot header).leafPreimage leafSlot then value = 0
        else (publicDataWitness oracle leafSlot header).leafPreimage.slot = leafSlot ∧
          (publicDataWitness oracle leafSlot header).leafPreimage.value = value) ∧
      computeMerkleRoot (nodeHash pedersenHash)
        ((publicDataWitness oracle leafSlot header).leafPreimage.hash (leafHash pedersenHash))
        (publicDataWitness oracle leafSlot header).index
        (publicDataWitness oracle leafSlot header).path = .ok header.publicDataTree.root := by
  subst hslot
  by_cases hrange : isInRange (publicDataWitness oracle
      (publicValueLeafSlot pedersenHash contractAddress storageSlot) header).leafPreimage
      (publicValueLeafSlot pedersenHash contractAddress storageSlot) = true
  · rw [if_pos hrange]
    rw [publicDataWitness] at hrange
    simp only [publicValueInclusion, if_pos hrange, bind_eq_ok, assert_eq_ok, decide_eq_true_eq]
    constructor
    · rintro ⟨-, hvalue, root, hroot, rfl⟩
      exact ⟨hvalue, hroot⟩
    · rintro ⟨hvalue, hroot⟩
      exact ⟨(), hvalue, _, hroot, rfl⟩
  · rw [if_neg hrange]
    rw [publicDataWitness] at hrange
    simp only [publicValueInclusion, if_neg hrange, bind_eq_ok, assert_eq_ok, decide_eq_true_eq]
    constructor
    · rintro ⟨-, hslot, -, hvalue, root, hroot, rfl⟩
      exact ⟨⟨hslot, hvalue⟩, hroot⟩
    · rintro ⟨⟨hslot, hvalue⟩, hroot⟩
      exact ⟨(), hslot, (), hvalue, _, hroot, rfl⟩

theorem holds_unique (htree : PublicDataTree pedersenHash n header leaves) {slot v w : Field}
    (hv : Holds leaves slot v) (hw : Holds leaves slot w) : v = w := by
  obtain ⟨i, hi, hslot, rfl⟩ := hv
  obtain ⟨j, hj, hslot', rfl⟩ := hw
  have hci := Layout.table_of_isCell ((publicDataList (leafHash pedersenHash)).isCell_iff.2 hi)
  have hcj := Layout.table_of_isCell ((publicDataList (leafHash pedersenHash)).isCell_iff.2 hj)
  rw [htree.linked.unique hci hcj (hslot.trans hslot'.symm)]

/-- **The value of a slot.**  The check is sound unless the witness is that of an empty place and
the slot has a value other than the zero that is claimed. -/
theorem publicValueInclusion_iff (hash : HashOk pedersenHash)
    (htree : PublicDataTree pedersenHash n header leaves)
    (hslot : leafSlot = publicValueLeafSlot pedersenHash contractAddress storageSlot) :
    (publicValueInclusion pedersenHash oracle value storageSlot contractAddress header = .ok () →
        IsValueOf leaves leafSlot value) ↔
      ¬ ((publicDataWitness oracle leafSlot header).leafPreimage = .empty ∧
        OpensEmpty pedersenHash header.publicDataTree.root
          (publicDataWitness oracle leafSlot header).index
          (publicDataWitness oracle leafSlot header).path ∧
        value = 0 ∧ ∃ value', value' ≠ 0 ∧ Holds leaves leafSlot value') := by
  have hpos : 0 < leafSlot := by
    rw [hslot]
    exact Nat.pos_of_ne_zero (hash.ne_zero _ _ (List.cons_ne_nil _ _))
  have hrange : isInRange .empty leafSlot = true := isInRange_iff.2 ⟨hpos, .inr ⟨rfl, rfl⟩⟩
  rw [publicValueInclusion_eq_ok hslot]
  constructor
  · rintro h ⟨hempty, hopens, rfl, value', hne, hholds⟩
    rw [hempty, if_pos hrange] at h
    rcases h ⟨rfl, hopens⟩ with hzero | ⟨-, hnone⟩
    · exact hne (holds_unique htree hholds hzero)
    · exact hnone value' hholds
  · rintro h ⟨hcheck, hroot⟩
    by_cases hempty : (publicDataWitness oracle leafSlot header).leafPreimage = .empty
    · rw [hempty] at hcheck hroot
      rw [if_pos hrange] at hcheck
      subst hcheck
      by_contra hvalue
      have hnone : ∀ value', ¬ Holds leaves leafSlot value' := by
        intro value' hholds
        by_cases hzero : value' = 0
        · exact hvalue (.inl (hzero ▸ hholds))
        · exact h ⟨hempty, hroot, rfl, value', hzero, hholds⟩
      exact hvalue (.inr ⟨rfl, hnone⟩)
    · rw [htree.root, hash.opens_iff] at hroot
      obtain ⟨-, hleaf, -⟩ := hroot
      have hleaf := hash.publicDataLeaf_injective hleaf
      rw [hleaf] at hcheck hempty
      split at hcheck
      · next hrange =>
        subst hcheck
        -- the slot lies in the gap of a cell
        have hcell := (publicDataList (leafHash pedersenHash)).isCell_iff.2 (.inr hempty)
        have hgap : InGap ((publicDataList (leafHash pedersenHash)).cell
            (leaves (publicDataWitness oracle leafSlot header).index)) leafSlot :=
          isInRange_iff.1 hrange
        refine .inr ⟨rfl, fun value' hholds => ?_⟩
        refine htree.linked.notMem_of_inGap (Layout.table_of_isCell hcell) hgap ?_
        rw [Layout.mem_keys_iff_stores, stores_publicDataList]
        exact ⟨value', hholds⟩
      · exact .inl ⟨_, .inr hempty, hcheck.1, hcheck.2⟩

end PublicData

/-- **When the two checks are sound**, for any witnesses of the oracles. -/
theorem sound_iff (pedersenHash : List Field → ℕ → Field) (hash : HashOk pedersenHash) (n m : ℕ)
    (header : Header) (leaves : ℕ → NullifierLeafPreimage)
    (publicLeaves : ℕ → PublicDataTreeLeafPreimage)
    (htree : NullifierTree pedersenHash n header leaves)
    (hpublic : PublicDataTree pedersenHash m header publicLeaves) :
    (∀ (oracle : ℕ → Field → Vector Field (1 + 3 + n)) (nullifier : Field), nullifier ≠ 0 →
      ((nullifierNonInclusion pedersenHash oracle nullifier header = .ok () →
          nullifier ∉ nullifiers leaves) ↔
        ¬ ((lowNullifierWitness oracle nullifier header).leafPreimage = .empty ∧
          OpensEmpty pedersenHash header.nullifierTree.root
            (lowNullifierWitness oracle nullifier header).index
            (lowNullifierWitness oracle nullifier header).path ∧ nullifier ∈ nullifiers leaves))) ∧
    ∀ (oracle : ℕ → Field → Vector Field (1 + 4 + m))
      (value storageSlot contractAddress leafSlot : Field),
      leafSlot = publicValueLeafSlot pedersenHash contractAddress storageSlot →
      ((publicValueInclusion pedersenHash oracle value storageSlot contractAddress header =
            .ok () → IsValueOf publicLeaves leafSlot value) ↔
        ¬ ((publicDataWitness oracle leafSlot header).leafPreimage = .empty ∧
          OpensEmpty pedersenHash header.publicDataTree.root
            (publicDataWitness oracle leafSlot header).index
            (publicDataWitness oracle leafSlot header).path ∧
          value = 0 ∧ ∃ value', value' ≠ 0 ∧ Holds publicLeaves leafSlot value')) :=
  ⟨fun _ _ hne => nullifierNonInclusion_iff hash htree hne,
    fun _ _ _ _ _ hslot => publicValueInclusion_iff hash hpublic hslot⟩

end Soundness

/-! ### Trees with empty places -/

namespace EmptyPlaces

def hash (input : List Field) (separator : ℕ) : Field := pairHash separator (listHash input)

theorem hash_ok : HashOk hash where
  injective := by
    intro input input' separator separator' h
    obtain ⟨hseparator, hinput⟩ := pairHash_injective h
    exact ⟨listHash_injective hinput, hseparator⟩
  ne_zero _ _ _ := Nat.succ_ne_zero _

def leavesOfSlot (slot : Field) : ℕ → PublicDataTreeLeafPreimage :=
  Function.update (Function.update (fun _ => .empty) 0 ⟨0, 0, slot, 1⟩) 1 ⟨slot, 9, 0, 0⟩

theorem linked_leavesOfSlot (pedersenHash : List Field → Field) {slot : Field} (h : 0 < slot) :
    Linked ((publicDataList pedersenHash).table (leavesOfSlot slot)) := by
  have hempty : Linked ((publicDataList pedersenHash).table fun _ => .empty) := Layout.linked_empty
  have hgap : InGap ((publicDataList pedersenHash).cell .empty) slot := ⟨h, .inr ⟨rfl, rfl⟩⟩
  have hlow : (publicDataList pedersenHash).cell ⟨0, 0, slot, 1⟩ =
      ((publicDataList pedersenHash).cell .empty).pointingTo slot 1 := rfl
  have hnew : (publicDataList pedersenHash).cell ⟨slot, 9, 0, 0⟩ =
      ((publicDataList pedersenHash).cell .empty).withKey slot := rfl
  have habsent : (publicDataList pedersenHash).absent ⟨slot, 9, 0, 0⟩ = false := by
    simp [publicDataList, PublicDataTreeLeafPreimage.isEmpty]
  exact (Layout.link hempty (.inl rfl) one_ne_zero rfl hgap hlow (.inl rfl) rfl hnew habsent).1

def slot : Field := publicValueLeafSlot hash 1 1

def nullifierLeaf (i : ℕ) : Field := (leavesOfFive i).hash (leafHash hash)

def publicLeaf (i : ℕ) : Field := (leavesOfSlot slot i).hash (leafHash hash)

/-- The header of trees with two leaves and two empty places. -/
def header : Header :=
  ⟨1, ⟨node (nodeHash hash) nullifierLeaf 2 0, 2⟩, ⟨node (nodeHash hash) publicLeaf 2 0, 2⟩⟩

theorem nullifierTree : NullifierTree hash 2 header leavesOfFive := ⟨rfl, linked_leavesOfFive⟩

theorem publicDataTree : PublicDataTree hash 2 header (leavesOfSlot slot) :=
  ⟨rfl, linked_leavesOfSlot _ (Nat.succ_pos _)⟩

/-- The empty leaf at position `2` of the nullifier tree. -/
def nullifierOracle (_ : ℕ) (_ : Field) : Vector Field (1 + 3 + 2) :=
  #v[2, 0, 0, 0, 0, node (nodeHash hash) nullifierLeaf 1 0]

/-- The empty leaf at position `2` of the public data tree. -/
def publicDataOracle (_ : ℕ) (_ : Field) : Vector Field (1 + 4 + 2) :=
  #v[2, 0, 0, 0, 0, 0, node (nodeHash hash) publicLeaf 1 0]

end EmptyPlaces

open EmptyPlaces in
/-- The checks against trees with empty places, for the oracles that supply one of these. -/
theorem sound_iff_emptyPlaces :
    (nullifierNonInclusion hash nullifierOracle 3 header = .ok () → 3 ∉ nullifiers leavesOfFive) ∧
      (publicValueInclusion hash publicDataOracle 9 1 1 header = .ok () →
        IsValueOf (leavesOfSlot slot) slot 9) := by
  obtain ⟨hnullifier, hpublic⟩ := sound_iff hash hash_ok 2 2 header leavesOfFive (leavesOfSlot slot)
    nullifierTree publicDataTree
  refine ⟨(hnullifier nullifierOracle 3 (by decide)).2 ?_,
    (hpublic publicDataOracle 9 1 1 slot rfl).2 ?_⟩
  · rintro ⟨-, -, i, -, hi⟩
    rcases i with _ | _ | i <;> cases hi
  · rintro ⟨-, -, hzero, -⟩
    cases hzero

open EmptyPlaces in
/-- **An empty place denies what the trees have**: the nullifier `5`, and the value of a slot. -/
theorem not_sound : (¬ ∀ (pedersenHash : List Field → ℕ → Field) (n : ℕ) (header : Header)
      (leaves : ℕ → NullifierLeafPreimage) (oracle : ℕ → Field → Vector Field (1 + 3 + n))
      (nullifier : Field), HashOk pedersenHash → NullifierTree pedersenHash n header leaves →
      nullifier ≠ 0 → nullifierNonInclusion pedersenHash oracle nullifier header = .ok () →
      nullifier ∉ nullifiers leaves) ∧
    ¬ ∀ (pedersenHash : List Field → ℕ → Field) (n : ℕ) (header : Header)
      (leaves : ℕ → PublicDataTreeLeafPreimage) (oracle : ℕ → Field → Vector Field (1 + 4 + n))
      (value storageSlot contractAddress : Field), HashOk pedersenHash →
      PublicDataTree pedersenHash n header leaves →
      publicValueInclusion pedersenHash oracle value storageSlot contractAddress header = .ok () →
      IsValueOf leaves (publicValueLeafSlot pedersenHash contractAddress storageSlot) value := by
  constructor
  · intro h
    have hsound := h hash 2 header leavesOfFive nullifierOracle 5 hash_ok nullifierTree (by decide)
    refine (nullifierNonInclusion_iff hash_ok nullifierTree (by decide)).1 hsound ⟨rfl, ?_, ?_⟩
    · exact hash_ok.opens_iff.2 ⟨by decide, rfl, rfl⟩
    · exact ⟨1, .inr (by decide), rfl⟩
  · intro h
    have hsound := h hash 2 header (leavesOfSlot slot) publicDataOracle 0 1 1 hash_ok publicDataTree
    refine (publicValueInclusion_iff hash_ok publicDataTree rfl).1 hsound
      ⟨rfl, ?_, rfl, 9, by decide, 1, .inr ?_, rfl, rfl⟩
    · exact hash_ok.opens_iff.2 ⟨by decide, rfl, rfl⟩
    · exact fun h => absurd (congrArg PublicDataTreeLeafPreimage.value h) (by decide)

end HistoryProofs
