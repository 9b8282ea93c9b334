/-
**The nullifier tree and the public data tree of the base rollup.**

The base rollup inserts the nullifiers of a transaction into the nullifier tree and its public data
writes into the public data tree.  Both are indexed trees, and both insertions are `batch_insert`
with the functions for their leaves.  A nullifier can only be new; a public data write goes to the
leaf of its slot if there is one.
-/

import Aztec.IndexedTreeCircuit

namespace BaseRollup

open Failing Merkle Noir LinkedLeaves IndexedTree

/-! ### Nullifiers -/

@[ext] structure NullifierLeafPreimage where
  nullifier : Field
  nextNullifier : Field
  nextIndex : ℕ
deriving DecidableEq

namespace NullifierLeafPreimage

def empty : NullifierLeafPreimage := ⟨0, 0, 0⟩

def isEmpty (p : NullifierLeafPreimage) : Bool :=
  p.nullifier = 0 && p.nextNullifier = 0 && p.nextIndex = 0

def serialize (p : NullifierLeafPreimage) : List Field :=
  [p.nullifier, p.nextNullifier, p.nextIndex]

def hash (pedersenHash : List Field → Field) (p : NullifierLeafPreimage) : Field :=
  if p.isEmpty then 0 else pedersenHash p.serialize

theorem isEmpty_iff {p : NullifierLeafPreimage} : p.isEmpty = true ↔ p = empty := by
  rw [NullifierLeafPreimage.ext_iff]
  simp [isEmpty, empty, and_assoc]

theorem hash_listHash_injective : Function.Injective (hash listHash) := by
  intro p q h
  have hpos : ∀ p : NullifierLeafPreimage, listHash p.serialize ≠ 0 := fun p => Nat.succ_ne_zero _
  unfold hash at h
  split at h <;> split at h
  · next hp hq => rw [isEmpty_iff.1 hp, isEmpty_iff.1 hq]
  · exact absurd h.symm (hpos q)
  · exact absurd h (hpos p)
  · have := listHash_injective h
    simp only [serialize, List.cons.injEq, and_true] at this
    exact NullifierLeafPreimage.ext this.1 this.2.1 this.2.2

end NullifierLeafPreimage

def fullFieldLessThan (lhs rhs : Field) : Bool := lhs < rhs

/-- The functions `check_nullifier_tree_non_membership_and_insert_to_tree` passes on. -/
def nullifierFunctions (pedersenHash : List Field → Field) :
    LeafFunctions Field NullifierLeafPreimage where
  isEqual a b := a = b
  isEmptyValue nullifier := nullifier = 0
  hashLeaf leaf := leaf.hash pedersenHash
  isValidLowLeaf lowLeaf nullifier :=
    let isLessThanNullifier := fullFieldLessThan lowLeaf.nullifier nullifier
    let isNextGreaterThan := fullFieldLessThan nullifier lowLeaf.nextNullifier
    !lowLeaf.isEmpty && isLessThanNullifier &&
      (isNextGreaterThan || (lowLeaf.nextIndex = 0 && lowLeaf.nextNullifier = 0))
  updateLowLeaf lowLeaf nullifier nullifierIndex :=
    { nullifier := lowLeaf.nullifier, nextNullifier := nullifier, nextIndex := nullifierIndex }
  buildInsertionLeaf nullifier lowLeaf :=
    { nullifier := nullifier, nextNullifier := lowLeaf.nextNullifier,
      nextIndex := lowLeaf.nextIndex }
  zeroed := ⟨0, 0, 0⟩

/-- `check_nullifier_tree_non_membership_and_insert_to_tree`. -/
def insertNullifiers (pedersenHash : List Field → Field) (H : MerkleHash) {h n : ℕ}
    (start : AppendOnlyTreeSnapshot) (newNullifiers : Vector Field (2 ^ h))
    (hints : Hints Field NullifierLeafPreimage (2 ^ h) (h + n) n) :
    Circuit AppendOnlyTreeSnapshot :=
  batchInsert (nullifierFunctions pedersenHash) H h start newNullifiers hints

/-- The linked list of the nullifier tree.  Its leaves carry no data. -/
def nullifierList (pedersenHash : List Field → Field) :
    ListView (nullifierFunctions pedersenHash) Unit where
  empty := NullifierLeafPreimage.empty
  absent p := p.isEmpty
  absent_empty := rfl
  absent_iff := NullifierLeafPreimage.isEmpty_iff
  cell p := ⟨p.nullifier, p.nextNullifier, p.nextIndex⟩
  payload _ := ()
  cell_empty := rfl
  key nullifier := nullifier
  datum _ := ()
  updatable := False
  zeroed_eq := rfl
  hashLeaf_zeroed := rfl
  isEqual_iff := decide_eq_true_iff
  isValidLowLeaf_iff := by
    intro low v
    have hempty : (!low.isEmpty) = true ↔ low ≠ NullifierLeafPreimage.empty := by
      rw [Bool.not_eq_true', Bool.eq_false_iff, ne_eq, NullifierLeafPreimage.isEmpty_iff]
    simp only [nullifierFunctions, fullFieldLessThan, Bool.and_eq_true, hempty, Bool.or_eq_true,
      decide_eq_true_eq, InGap, Cell.IsLast, false_and, or_false, and_assoc]
    rfl
  linkLow _ _ := ⟨rfl, rfl⟩
  linkNew _ := ⟨rfl, rfl⟩
  writeLow _ h := h.elim
  writeLow_ne _ h := h.elim
  writeNew h := h.elim

/-- The nullifiers of a sequence of leaves: those of the leaves that are not empty, and zero, that
of the first leaf. -/
def nullifiers (leaves : ℕ → NullifierLeafPreimage) : Set Field :=
  {v | ∃ i, (i = 0 ∨ leaves i ≠ .empty) ∧ (leaves i).nullifier = v}

theorem keys_nullifierList (pedersenHash : List Field → Field)
    (leaves : ℕ → NullifierLeafPreimage) :
    keys ((nullifierList pedersenHash).table leaves) = nullifiers leaves := by
  ext v
  rw [Layout.mem_keys_iff]
  simp only [nullifiers, Set.mem_ofPred_eq, (nullifierList pedersenHash).isCell_iff]
  rfl

/-- **Soundness of the nullifier tree.**  Let the hashes be injective, let the root commit to
leaves that form a linked list, and let the next available index be a multiple of the width.
Whatever the hints, when the insertion is accepted, none of the nullifiers was in the tree and none
occurs twice, and the new root commits to leaves that form a linked list, whose nullifiers are the
old ones and the new ones. -/
theorem insertNullifiers_sound (pedersenHash : List Field → Field) (H : MerkleHash) {h n : ℕ}
    (hH : Function.Injective2 H.merkleHash)
    (hF : Function.Injective (NullifierLeafPreimage.hash pedersenHash))
    {start finish : AppendOnlyTreeSnapshot} {newNullifiers : Vector Field (2 ^ h)}
    {hints : Hints Field NullifierLeafPreimage (2 ^ h) (h + n) n}
    {leaves : ℕ → NullifierLeafPreimage}
    (hcommits : Commits (nullifierFunctions pedersenHash) H (h + n) start.root leaves)
    (hlinked : Linked ((nullifierList pedersenHash).table leaves))
    (haligned : 2 ^ h ∣ start.nextAvailableLeafIndex)
    (haccepted : insertNullifiers pedersenHash H start newNullifiers hints = .ok finish) :
    (∀ v ∈ newNullifiers.toList, v ≠ 0 → v ∉ nullifiers leaves) ∧
      (newNullifiers.toList.filter (· ≠ 0)).Nodup ∧
      finish.nextAvailableLeafIndex = start.nextAvailableLeafIndex + 2 ^ h ∧
      ∃ leaves', Commits (nullifierFunctions pedersenHash) H (h + n) finish.root leaves' ∧
        Linked ((nullifierList pedersenHash).table leaves') ∧
        nullifiers leaves' = nullifiers leaves ∪ {v | v ∈ newNullifiers.toList ∧ v ≠ 0} ∧
        ((∀ j, start.nextAvailableLeafIndex ≤ j → leaves j = .empty) →
          ∀ j, finish.nextAvailableLeafIndex ≤ j → leaves' j = .empty) := by
  obtain ⟨hnext, hperm, hnew, leaves', hcommits', hlinked', hstores, hempties⟩ :=
    batchInsert_sound (nullifierList pedersenHash) hH hF hcommits hlinked haligned haccepted
  have hperm := hperm.perm decide_eq_true_iff
  obtain ⟨hnodup, hfresh⟩ := hnew id
  -- the keys written are the nullifiers other than zero
  have hkeys : ((nullifierList pedersenHash).writes hints.sortedValues.toList).map Prod.fst =
      hints.sortedValues.toList.filter (· ≠ 0) := by
    rw [ListView.writes, List.map_map]
    refine (List.map_id' _).trans (List.filter_congr fun v _ => ?_)
    simp [nullifierFunctions]
  rw [hkeys] at hnodup hfresh
  rw [keys_nullifierList] at hfresh
  have hmem : ∀ v, v ∈ hints.sortedValues.toList.filter (· ≠ 0) ↔
      v ∈ newNullifiers.toList ∧ v ≠ 0 := fun v => by
    rw [List.mem_filter, hperm.mem_iff, decide_eq_true_eq]
  refine ⟨fun v hv hne => hfresh v ((hmem v).2 ⟨hv, hne⟩), (hperm.filter _).nodup_iff.1 hnodup,
    hnext, leaves', hcommits', hlinked', ?_, fun hbeyond j hj => ?_⟩
  · ext v
    rw [← keys_nullifierList pedersenHash, ← keys_nullifierList pedersenHash, Set.mem_union,
      Layout.mem_keys_iff_stores, Layout.mem_keys_iff_stores]
    simp only [hstores]
    rw [exists_writesTo, hkeys, hmem]
    rfl
  · rw [hnext] at hj
    exact hempties j (hbeyond j (by omega)) (.inr hj)

def leavesOfFive : ℕ → NullifierLeafPreimage :=
  Function.update (Function.update (fun _ => .empty) 0 ⟨0, 5, 1⟩) 1 ⟨5, 0, 0⟩

theorem linked_leavesOfFive : Linked ((nullifierList listHash).table leavesOfFive) := by
  have hempty : Linked ((nullifierList listHash).table fun _ => .empty) := Layout.linked_empty
  have hgap : InGap ((nullifierList listHash).cell .empty) 5 :=
    ⟨Nat.zero_lt_succ 4, .inr ⟨rfl, rfl⟩⟩
  have hlow : (nullifierList listHash).cell ⟨0, 5, 1⟩ =
      ((nullifierList listHash).cell .empty).pointingTo 5 1 := rfl
  have hnew : (nullifierList listHash).cell ⟨5, 0, 0⟩ =
      ((nullifierList listHash).cell .empty).withKey 5 := rfl
  exact (Layout.link hempty (.inl rfl) one_ne_zero rfl hgap hlow (.inl rfl) rfl hnew rfl).1

def snapshotOfFive : AppendOnlyTreeSnapshot :=
  ⟨node pairHash (NullifierLeafPreimage.hash listHash ∘ leavesOfFive) 2 0, 2⟩

/-- Hints for the insertion of `3` and `7`: first `7` goes behind `5`, then `3` behind `0`. -/
def hintsForThreeAndSeven : Hints Field NullifierLeafPreimage (2 ^ 1) (1 + 1) 1 :=
  let hash := NullifierLeafPreimage.hash listHash
  { sortedValues := #v[7, 3]
    sortedValuesIndexes := #v[1, 0]
    newSubtreeSiblingPath := #v[pairHash (hash ⟨0, 3, 2⟩) (hash ⟨5, 7, 3⟩)]
    lowLeafPreimages := #v[⟨5, 0, 0⟩, ⟨0, 5, 1⟩]
    lowLeafMembershipWitnesses :=
      #v[⟨1, #v[hash ⟨0, 5, 1⟩, pairHash 0 0]⟩, ⟨0, #v[hash ⟨5, 7, 3⟩, pairHash 0 0]⟩] }

/-- Inserting `3` and `7`. -/
theorem insertNullifiers_three_seven : (∀ v ∈ [3, 7], v ≠ 0 → v ∉ nullifiers leavesOfFive) ∧
      ∃ leaves', Linked ((nullifierList listHash).table leaves') ∧
        nullifiers leaves' = nullifiers leavesOfFive ∪ {v | v ∈ [3, 7] ∧ v ≠ 0} := by
  have hcommits : Commits (nullifierFunctions listHash) pairing (1 + 1) snapshotOfFive.root
      leavesOfFive := ⟨rfl, fun i hi => by
    rw [leavesOfFive, Function.update_of_ne (by omega), Function.update_of_ne (by omega)]; rfl⟩
  have haccepted : ∃ finish, insertNullifiers listHash pairing snapshotOfFive #v[3, 7]
      hintsForThreeAndSeven = .ok finish :=
    ⟨⟨node pairHash (NullifierLeafPreimage.hash listHash ∘ fun i =>
      [⟨0, 3, 2⟩, ⟨5, 7, 3⟩, ⟨3, 5, 1⟩, ⟨7, 0, 0⟩].getD i .empty) 2 0, 4⟩, by decide +kernel⟩
  obtain ⟨finish, haccepted⟩ := haccepted
  obtain ⟨hnew, -, -, leaves', -, hlinked, hkeys, -⟩ := insertNullifiers_sound listHash pairing
    pairHash_injective NullifierLeafPreimage.hash_listHash_injective hcommits linked_leavesOfFive
    (by decide) haccepted
  exact ⟨hnew, leaves', hlinked, hkeys⟩

/-! ### Public data -/

/-- `PublicDataTreeLeaf`: a write of a value to a slot. -/
@[ext] structure PublicDataTreeLeaf where
  slot : Field
  value : Field
deriving DecidableEq

def PublicDataTreeLeaf.isEmpty (write : PublicDataTreeLeaf) : Bool :=
  write.slot = 0 && write.value = 0

@[ext] structure PublicDataTreeLeafPreimage where
  slot : Field
  value : Field
  nextSlot : Field
  nextIndex : ℕ
deriving DecidableEq

open PublicDataTreeLeafPreimage

namespace PublicDataTreeLeafPreimage

def empty : PublicDataTreeLeafPreimage := ⟨0, 0, 0, 0⟩

def isEmpty (p : PublicDataTreeLeafPreimage) : Bool :=
  p.slot = 0 && p.value = 0 && p.nextSlot = 0 && p.nextIndex = 0

def hash (pedersenHash : List Field → Field) (p : PublicDataTreeLeafPreimage) : Field :=
  if p.isEmpty then 0 else pedersenHash [p.slot, p.value, p.nextIndex, p.nextSlot]

theorem isEmpty_iff {p : PublicDataTreeLeafPreimage} : p.isEmpty = true ↔ p = empty := by
  rw [PublicDataTreeLeafPreimage.ext_iff]
  simp [isEmpty, empty, and_assoc]

theorem hash_listHash_injective : Function.Injective (hash listHash) := by
  intro p q h
  have hpos : ∀ a l, listHash (a :: l) ≠ 0 := fun a l => Nat.succ_ne_zero _
  unfold hash at h
  split at h <;> split at h
  · next hp hq => rw [isEmpty_iff.1 hp, isEmpty_iff.1 hq]
  · exact absurd h.symm (hpos _ _)
  · exact absurd h (hpos _ _)
  · have := listHash_injective h
    simp only [List.cons.injEq, and_true] at this
    exact PublicDataTreeLeafPreimage.ext this.1 this.2.1 this.2.2.2 this.2.2.1

end PublicDataTreeLeafPreimage

/-- The functions `insert_public_data_update_requests` passes on. -/
def publicDataFunctions (pedersenHash : List Field → Field) :
    LeafFunctions PublicDataTreeLeaf PublicDataTreeLeafPreimage where
  isEqual a b := a.slot = b.slot && a.value = b.value
  isEmptyValue write := write.isEmpty
  hashLeaf preimage := preimage.hash pedersenHash
  isValidLowLeaf lowPreimage write :=
    let isUpdate : Bool := lowPreimage.slot = write.slot
    let isLowEmpty := lowPreimage.isEmpty
    let isLessThanSlot := fullFieldLessThan lowPreimage.slot write.slot
    let isNextGreaterThan := fullFieldLessThan write.slot lowPreimage.nextSlot
    let isInRange := isLessThanSlot &&
      (isNextGreaterThan || (lowPreimage.nextIndex = 0 && lowPreimage.nextSlot = 0))
    !isLowEmpty && (isUpdate || isInRange)
  updateLowLeaf lowPreimage write writeIndex :=
    let isUpdate : Bool := lowPreimage.slot = write.slot
    if isUpdate then
      { slot := lowPreimage.slot, value := write.value, nextSlot := lowPreimage.nextSlot,
        nextIndex := lowPreimage.nextIndex }
    else
      { slot := lowPreimage.slot, value := lowPreimage.value, nextSlot := write.slot,
        nextIndex := writeIndex }
  buildInsertionLeaf write lowPreimage :=
    let isUpdate : Bool := lowPreimage.slot = write.slot
    if isUpdate then .empty
    else
      { slot := write.slot, value := write.value, nextSlot := lowPreimage.nextSlot,
        nextIndex := lowPreimage.nextIndex }
  zeroed := ⟨0, 0, 0, 0⟩

def insertPublicDataUpdateRequests (pedersenHash : List Field → Field) (H : MerkleHash) {h n : ℕ}
    (prevSnapshot : AppendOnlyTreeSnapshot) (publicDataWrites : Vector PublicDataTreeLeaf (2 ^ h))
    (hints : Hints PublicDataTreeLeaf PublicDataTreeLeafPreimage (2 ^ h) (h + n) n) :
    Circuit AppendOnlyTreeSnapshot :=
  batchInsert (publicDataFunctions pedersenHash) H h prevSnapshot publicDataWrites hints

/-- The linked list of the public data tree.  The slots are its keys, and the values its data. -/
def publicDataList (pedersenHash : List Field → Field) :
    ListView (publicDataFunctions pedersenHash) Field where
  empty := PublicDataTreeLeafPreimage.empty
  absent p := p.isEmpty
  absent_empty := rfl
  absent_iff := PublicDataTreeLeafPreimage.isEmpty_iff
  cell p := ⟨p.slot, p.nextSlot, p.nextIndex⟩
  payload p := p.value
  cell_empty := rfl
  key write := write.slot
  datum write := write.value
  updatable := True
  zeroed_eq := rfl
  hashLeaf_zeroed := rfl
  isEqual_iff := by
    intro v w
    rw [PublicDataTreeLeaf.ext_iff]
    simp [publicDataFunctions]
  isValidLowLeaf_iff := by
    intro low v
    have hempty : (!low.isEmpty) = true ↔ low ≠ PublicDataTreeLeafPreimage.empty := by
      rw [Bool.not_eq_true', Bool.eq_false_iff, ne_eq, PublicDataTreeLeafPreimage.isEmpty_iff]
    simp only [publicDataFunctions, fullFieldLessThan, Bool.and_eq_true, hempty, Bool.or_eq_true,
      decide_eq_true_eq, InGap, Cell.IsLast, true_and]
    exact and_congr_right fun _ => or_comm
  linkLow j hgap := by
    have hne := hgap.1.ne
    simp only [publicDataFunctions, decide_eq_true_eq, if_neg hne]
    exact ⟨rfl, trivial⟩
  linkNew hgap := by
    have hne := hgap.1.ne
    simp only [publicDataFunctions, decide_eq_true_eq, if_neg hne]
    exact ⟨rfl, trivial⟩
  writeLow j _ hkey := by
    simp only [publicDataFunctions, decide_eq_true_eq, if_pos hkey, and_self]
  writeLow_ne j _ hne hvalue hkey := by
    simp only [publicDataFunctions, decide_eq_true_eq, if_pos hkey]
    intro hempty
    simp only [PublicDataTreeLeafPreimage.empty, PublicDataTreeLeafPreimage.mk.injEq] at hempty
    simp only [publicDataFunctions, PublicDataTreeLeaf.isEmpty, ← hkey, hempty.1, hempty.2.1,
      decide_true, Bool.and_self, Bool.true_eq_false] at hvalue
  writeNew _ hkey := by
    simp only [publicDataFunctions, decide_eq_true_eq, if_pos hkey]

def Holds (leaves : ℕ → PublicDataTreeLeafPreimage) (slot value : Field) : Prop :=
  ∃ i, (i = 0 ∨ leaves i ≠ .empty) ∧ (leaves i).slot = slot ∧ (leaves i).value = value

/-- The slots and values of the writes that are not empty. -/
def slotWrites (writes : List PublicDataTreeLeaf) : List (Field × Field) :=
  (writes.filter fun write => !write.isEmpty).map fun write => (write.slot, write.value)

/-- **The last write wins**: the tree maps every slot to the value of the last of the writes to it,
and slots that are not written to keep their values. -/
def LastWriteWins (leaves leaves' : ℕ → PublicDataTreeLeafPreimage)
    (writes : List PublicDataTreeLeaf) : Prop :=
  ∀ slot value, Holds leaves' slot value ↔ WritesTo (Holds leaves) (slotWrites writes) slot value

theorem stores_publicDataList (pedersenHash : List Field → Field)
    (leaves : ℕ → PublicDataTreeLeafPreimage) :
    (publicDataList pedersenHash).Stores leaves = Holds leaves := by
  funext slot value
  simp only [Layout.Stores, Holds, (publicDataList pedersenHash).isCell_iff]
  rfl

theorem lastWrite_eq_none_of_perm {writes sorted : List PublicDataTreeLeaf}
    (hperm : sorted.Perm writes) (slot : Field) :
    lastWrite (slotWrites sorted) slot = none ↔ lastWrite (slotWrites writes) slot = none := by
  rw [lastWrite_eq_none, lastWrite_eq_none]
  exact not_congr (((hperm.filter _).map _).map Prod.fst).mem_iff

/-- **The last write in the prover's order wins.**  Let the hashes be injective, let the root
commit to leaves that form a linked list, and let the next available index be a multiple of the
width.  When the insertion is accepted, the last write to each slot wins if and only if the
prover's order of the writes ends, for every slot, in a write of the same value. -/
theorem lastWriteWins_iff (pedersenHash : List Field → Field) (H : MerkleHash) {h n : ℕ}
    (hH : Function.Injective2 H.merkleHash) (hF : Function.Injective (hash pedersenHash))
    {start finish : AppendOnlyTreeSnapshot} {publicDataWrites : Vector PublicDataTreeLeaf (2 ^ h)}
    {hints : Hints PublicDataTreeLeaf PublicDataTreeLeafPreimage (2 ^ h) (h + n) n}
    {leaves leaves' : ℕ → PublicDataTreeLeafPreimage}
    (hcommits : Commits (publicDataFunctions pedersenHash) H (h + n) start.root leaves)
    (hlinked : Linked ((publicDataList pedersenHash).table leaves))
    (haligned : 2 ^ h ∣ start.nextAvailableLeafIndex)
    (haccepted : insertPublicDataUpdateRequests pedersenHash H start publicDataWrites hints =
      .ok finish)
    (hcommits' : Commits (publicDataFunctions pedersenHash) H (h + n) finish.root leaves') :
    LastWriteWins leaves leaves' publicDataWrites.toList ↔
      ∀ slot, lastWrite (slotWrites hints.sortedValues.toList) slot =
        lastWrite (slotWrites publicDataWrites.toList) slot := by
  obtain ⟨-, hperm, -, leaves'', hcommits'', -, hstores, -⟩ :=
    batchInsert_sound (publicDataList pedersenHash) hH hF hcommits hlinked haligned haccepted
  obtain rfl := hcommits'.unique hH hF hcommits''
  have hperm := hperm.perm (publicDataList pedersenHash).isEqual_iff
  have hholds : ∀ slot value, Holds leaves' slot value ↔
      WritesTo (Holds leaves) (slotWrites hints.sortedValues.toList) slot value := by
    intro slot value
    rw [← stores_publicDataList pedersenHash, ← stores_publicDataList pedersenHash]
    exact hstores slot value
  constructor
  · intro hwins slot
    have hsame : ∀ value, WritesTo (Holds leaves) (slotWrites hints.sortedValues.toList) slot value ↔
        WritesTo (Holds leaves) (slotWrites publicDataWrites.toList) slot value :=
      fun value => (hholds slot value).symm.trans (hwins slot value)
    have hnone := lastWrite_eq_none_of_perm hperm slot
    cases hs : lastWrite (slotWrites hints.sortedValues.toList) slot with
    | none => exact (hnone.1 hs).symm
    | some q =>
      cases hw : lastWrite (slotWrites publicDataWrites.toList) slot with
      | none => rw [hnone.2 hw] at hs; cases hs
      | some q' =>
        have := hsame q
        simp only [WritesTo, hs, hw, true_iff] at this
        rw [this]
  · intro hlast slot value
    rw [hholds, WritesTo, WritesTo, hlast]

def leavesOfSlotFive : ℕ → PublicDataTreeLeafPreimage :=
  Function.update (Function.update (fun _ => .empty) 0 ⟨0, 0, 5, 1⟩) 1 ⟨5, 9, 0, 0⟩

theorem linked_leavesOfSlotFive : Linked ((publicDataList listHash).table leavesOfSlotFive) := by
  have hempty : Linked ((publicDataList listHash).table fun _ => .empty) := Layout.linked_empty
  have hgap : InGap ((publicDataList listHash).cell .empty) 5 :=
    ⟨Nat.zero_lt_succ 4, .inr ⟨rfl, rfl⟩⟩
  have hlow : (publicDataList listHash).cell ⟨0, 0, 5, 1⟩ =
      ((publicDataList listHash).cell .empty).pointingTo 5 1 := rfl
  have hnew : (publicDataList listHash).cell ⟨5, 9, 0, 0⟩ =
      ((publicDataList listHash).cell .empty).withKey 5 := rfl
  exact (Layout.link hempty (.inl rfl) one_ne_zero rfl hgap hlow (.inl rfl) rfl hnew rfl).1

/-- The root of a tree with four places, the leaves `l` in the first of them. -/
def rootOf (l : List PublicDataTreeLeafPreimage) : Field :=
  node pairHash (hash listHash ∘ fun i => l.getD i .empty) 2 0

theorem commits_rootOf (l : List PublicDataTreeLeafPreimage) (hl : l.length ≤ 4) :
    Commits (publicDataFunctions listHash) pairing (1 + 1) (rootOf l) fun i => l.getD i .empty :=
  ⟨rfl, fun i hi => by
    rw [List.getD_eq_getElem?_getD, List.getElem?_eq_none (by omega)]; rfl⟩

theorem commits_leavesOfSlotFive : Commits (publicDataFunctions listHash) pairing (1 + 1)
    (rootOf [⟨0, 0, 5, 1⟩, ⟨5, 9, 0, 0⟩]) leavesOfSlotFive :=
  ⟨rfl, fun i hi => by
    rw [leavesOfSlotFive, Function.update_of_ne (by omega), Function.update_of_ne (by omega)]; rfl⟩

/-- Hints for two writes in reverse order, when the low leaves of both are at position `1`. -/
def hintsInReverse (first second : PublicDataTreeLeaf)
    (low low' last : PublicDataTreeLeafPreimage) :
    Hints PublicDataTreeLeaf PublicDataTreeLeafPreimage (2 ^ 1) (1 + 1) 1 :=
  let hash := hash listHash
  let path := #v[hash ⟨0, 0, 5, 1⟩, pairHash 0 0]
  { sortedValues := #v[second, first]
    sortedValuesIndexes := #v[1, 0]
    newSubtreeSiblingPath := #v[pairHash (hash ⟨0, 0, 5, 1⟩) (hash last)]
    lowLeafPreimages := #v[low, low']
    lowLeafMembershipWitnesses := #v[⟨1, path⟩, ⟨1, path⟩] }

/-- Updating the slot `5` and inserting the slot `8`. -/
theorem lastWriteWins_five_eight : LastWriteWins leavesOfSlotFive
        (fun i => [⟨0, 0, 5, 1⟩, ⟨5, 1, 8, 3⟩, .empty, ⟨8, 2, 0, 0⟩].getD i .empty)
        [⟨5, 1⟩, ⟨8, 2⟩] ↔ ∀ slot, lastWrite (slotWrites [⟨8, 2⟩, ⟨5, 1⟩]) slot =
        lastWrite (slotWrites [⟨5, 1⟩, ⟨8, 2⟩]) slot := by
  have haccepted : insertPublicDataUpdateRequests listHash pairing
      ⟨rootOf [⟨0, 0, 5, 1⟩, ⟨5, 9, 0, 0⟩], 2⟩ #v[⟨5, 1⟩, ⟨8, 2⟩]
      (hintsInReverse ⟨5, 1⟩ ⟨8, 2⟩ ⟨5, 9, 0, 0⟩ ⟨5, 9, 8, 3⟩ ⟨5, 1, 8, 3⟩) =
        .ok ⟨rootOf [⟨0, 0, 5, 1⟩, ⟨5, 1, 8, 3⟩, .empty, ⟨8, 2, 0, 0⟩], 4⟩ := by decide +kernel
  exact lastWriteWins_iff listHash pairing pairHash_injective
    hash_listHash_injective commits_leavesOfSlotFive
    linked_leavesOfSlotFive (by decide) haccepted (commits_rootOf _ (by decide))

/-- **The last write does not win in general**: of the writes of `1` and of `2` to the slot `5`,
the prover may apply the second one first. -/
theorem not_lastWriteWins : ¬ ∀ (pedersenHash : List Field → Field) (H : MerkleHash) (h n : ℕ)
      (start finish : AppendOnlyTreeSnapshot) (publicDataWrites : Vector PublicDataTreeLeaf (2 ^ h))
      (hints : Hints PublicDataTreeLeaf PublicDataTreeLeafPreimage (2 ^ h) (h + n) n)
      (leaves leaves' : ℕ → PublicDataTreeLeafPreimage), Function.Injective2 H.merkleHash →
      Function.Injective (hash pedersenHash) →
      Commits (publicDataFunctions pedersenHash) H (h + n) start.root leaves →
      Linked ((publicDataList pedersenHash).table leaves) → 2 ^ h ∣ start.nextAvailableLeafIndex →
      insertPublicDataUpdateRequests pedersenHash H start publicDataWrites hints = .ok finish →
      Commits (publicDataFunctions pedersenHash) H (h + n) finish.root leaves' →
      LastWriteWins leaves leaves' publicDataWrites.toList := by
  intro hall
  have hwins := hall listHash pairing 1 1 ⟨_, 2⟩ ⟨_, 4⟩ #v[⟨5, 1⟩, ⟨5, 2⟩]
    (hintsInReverse ⟨5, 1⟩ ⟨5, 2⟩ ⟨5, 9, 0, 0⟩ ⟨5, 2, 0, 0⟩ ⟨5, 1, 0, 0⟩) _ _ pairHash_injective
    hash_listHash_injective commits_leavesOfSlotFive
    linked_leavesOfSlotFive (by decide) (by decide +kernel)
    (commits_rootOf [⟨0, 0, 5, 1⟩, ⟨5, 1, 0, 0⟩] (by decide))
  have htwo : WritesTo (Holds leavesOfSlotFive) (slotWrites [⟨5, 1⟩, ⟨5, 2⟩]) 5 2 := rfl
  obtain ⟨i, -, hslot, hvalue⟩ := (hwins 5 2).2 htwo
  match i with
  | 0 => simp at hslot
  | 1 => simp at hvalue
  | i + 2 => simp [empty] at hslot

end BaseRollup
