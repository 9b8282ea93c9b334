/-
**A map whose updates wait for the end of the epoch.**

A slow map keeps, for every leaf and for the root of the tree, the value before and the value after
the next change, and the time of that change, which is the start of the next epoch.  Up to that time
the value before is the current one.  The values are moved from after to before when they are next
written, so that a leaf and the root are moved at different times.

An update at the very time of a pending change finds that change not yet in effect and puts it off
by another epoch, for the root but not for the other leaves; from then on the root is not that of
the leaves.
-/

import Aztec.MerkleCircuit

namespace SlowMap

open Failing Noir Merkle

/-! ### The map -/

@[ext] structure Leaf where
  nextChange : Field
  before : Field
  after : Field
deriving DecidableEq

def Leaf.serialize (leaf : Leaf) : Field × Field × Field :=
  (leaf.nextChange, leaf.before, leaf.after)

def Leaf.deserialize (serialized : Field × Field × Field) : Leaf :=
  ⟨serialized.1, serialized.2.1, serialized.2.2⟩

/-- The public storage of the contract, slot by slot. -/
abbrev Storage := Field → Field

def storageRead (storage : Storage) (slot : Field) : Field × Field × Field :=
  (storage slot, storage (slot + 1), storage (slot + 2))

def storageWrite (storage : Storage) (slot : Field) (fields : Field × Field × Field) : Storage :=
  Function.update (Function.update (Function.update storage slot fields.1) (slot + 1) fields.2.1)
    (slot + 2) fields.2.2

def epochLength : ℕ := 100

/-- A cast to `u120`. -/
def asU120 (x : Field) : ℕ := x % 2 ^ 120

/-- The unsigned integers of 120 bits: a result that does not fit makes the circuit fail. -/
def checkU120 (x : ℕ) (msg : String) : Circuit ℕ :=
  if x < 2 ^ 120 then .ok x else .error msg

def computeNextChange (time : Field) : Circuit Field := do
  let epoch ← checkU120 (asU120 time / epochLength + 1) "attempt to add with overflow"
  checkU120 (epoch * epochLength) "attempt to multiply with overflow"

/-- `SlowUpdateInner<N>`, of which the map uses the path only. -/
structure SlowUpdateInner (n : ℕ) where
  value : Field
  siblingPath : Vector Field n

structure SlowUpdateProof (n : ℕ) where
  index : Field
  newValue : Field
  before : SlowUpdateInner n
  after : SlowUpdateInner n

section Map

variable (pedersenHash : Field → Field → Field) (storageSlot : Field)

def readRoot (storage : Storage) : Leaf :=
  Leaf.deserialize (storageRead storage storageSlot)

def initializeMap (initialRoot : Field) (storage : Storage) : Circuit Storage := do
  let rootObject := readRoot storageSlot storage
  assert (rootObject.nextChange = 0) "cannot initialize twice"
  let rootObject : Leaf :=
    { nextChange := 0xffffffffffffffffffffffffffffff, before := initialRoot, after := initialRoot }
  return storageWrite storage storageSlot rootObject.serialize

def currentRoot (timestamp : Field) (storage : Storage) : Field :=
  let time := asU120 timestamp
  let rootObject := readRoot storageSlot storage
  if time ≤ asU120 rootObject.nextChange then rootObject.before else rootObject.after

def readLeafAt (key : Field) (storage : Storage) : Leaf :=
  let derivedStorageSlot := pedersenHash storageSlot key
  Leaf.deserialize (storageRead storage derivedStorageSlot)

def readAt (timestamp key : Field) (storage : Storage) : Field :=
  let time := asU120 timestamp
  let leaf := readLeafAt pedersenHash storageSlot key storage
  if time ≤ asU120 leaf.nextChange then leaf.before else leaf.after

def updateUnsafe (index : Field) (leaf root : Leaf) (storage : Storage) : Storage :=
  let derivedStorageSlot := pedersenHash storageSlot index
  storageWrite (storageWrite storage derivedStorageSlot leaf.serialize) storageSlot root.serialize

/-- Moving the value after a change to the value before it, once the time of the change is past. -/
def Leaf.moved (leaf : Leaf) (time : ℕ) : Leaf :=
  if time > asU120 leaf.nextChange then { leaf with before := leaf.after } else leaf

def updateAt {n : ℕ} (timestamp : Field) (p : SlowUpdateProof n) (storage : Storage) :
    Circuit Storage := do
  let time := asU120 timestamp
  let nextChange ← computeNextChange time
  let leaf := (readLeafAt pedersenHash storageSlot p.index storage).moved time
  let root := (readRoot storageSlot storage).moved time
  let beforeRoot ← computeMerkleRoot pedersenHash leaf.before p.index p.before.siblingPath
  assert (root.before = beforeRoot) "Before root don't match"
  let afterRoot ← computeMerkleRoot pedersenHash leaf.after p.index p.after.siblingPath
  assert (root.after = afterRoot) "After root don't match"
  let leaf := { leaf with after := p.newValue, nextChange := nextChange }
  let newRoot ← computeMerkleRoot pedersenHash leaf.after p.index p.after.siblingPath
  let root := { root with after := newRoot, nextChange := nextChange }
  return updateUnsafe pedersenHash storageSlot p.index leaf root storage

/-- A call of `update_at`: its timestamp and its proof. -/
abbrev Update (n : ℕ) := Field × SlowUpdateProof n

/-- Calls of `update_at` in sequence. -/
def run {n : ℕ} (updates : List (Update n)) (storage : Storage) : Circuit Storage :=
  updates.foldlM (fun storage u => updateAt pedersenHash storageSlot u.1 u.2 storage) storage

end Map

/-! ### What the map is for -/

/-- An update that was made, with the time of its change. -/
structure Done where
  index : Field
  newValue : Field
  nextChange : ℕ

def endOfEpoch (time : ℕ) : ℕ := (time / epochLength + 1) * epochLength

def Done.of {n : ℕ} (u : Update n) : Done := ⟨u.2.index, u.2.newValue, endOfEpoch u.1⟩

def lastValue (done : List Done) (key : Field) : Field :=
  ((done.filter (·.index = key)).getLast?.map Done.newValue).getD 0

/-- **The value of a key that is in effect at a time**: the one last written in an epoch that has
ended. -/
def effective (done : List Done) (time : ℕ) (key : Field) : Field :=
  lastValue (done.filter (·.nextChange < time)) key

theorem lastValue_concat (done : List Done) (u : Done) (key : Field) :
    lastValue (done ++ [u]) key = if u.index = key then u.newValue else lastValue done key := by
  by_cases h : u.index = key
  · simp [lastValue, h]
  · simp [lastValue, h]

theorem lastValue_concat_eq_update (done : List Done) (u : Done) :
    lastValue (done ++ [u]) = Function.update (lastValue done) u.index u.newValue := by
  funext key
  rw [lastValue_concat, Function.update_apply]
  by_cases h : u.index = key
  · rw [if_pos h, if_pos h.symm]
  · rw [if_neg h, if_neg (Ne.symm h)]

theorem lastValue_filter {done : List Done} {key : Field} {keep : Done → Bool}
    (h : ∀ u ∈ done, u.index = key → keep u = true) :
    lastValue (done.filter keep) key = lastValue done key := by
  have hfilter : (done.filter keep).filter (·.index = key) = done.filter (·.index = key) := by
    rw [List.filter_filter]
    refine List.filter_congr fun u hu => ?_
    by_cases hkey : u.index = key
    · simp [hkey, h u hu hkey]
    · simp [hkey]
  rw [lastValue, lastValue, hfilter]

section Meaning

variable (pedersenHash : Field → Field → Field) (storageSlot : Field) (n : ℕ)

/-- The slots of the root and of the leaves do not meet. -/
structure SlotsApart : Prop where
  root : ∀ key < 2 ^ n, ∀ i < 3, ∀ j < 3, pedersenHash storageSlot key + i ≠ storageSlot + j
  leaf : ∀ key < 2 ^ n, ∀ key' < 2 ^ n, key ≠ key' → ∀ i < 3, ∀ j < 3,
    pedersenHash storageSlot key + i ≠ pedersenHash storageSlot key' + j

/-- The paths of a proof are those of the current tree and of the tree after the change. -/
structure ValidProof (timestamp : Field) (p : SlowUpdateProof n) (storage : Storage) : Prop where
  index : p.index < 2 ^ n
  before : p.before.siblingPath.toList = siblings pedersenHash
    (fun key => readAt pedersenHash storageSlot timestamp key storage) 0 p.index n
  after : p.after.siblingPath.toList = siblings pedersenHash
    (fun key => (readLeafAt pedersenHash storageSlot key storage).after) 0 p.index n

/-- **When the map keeps in step**: no update is made at the time of the pending change of the root,
and times do not overflow. -/
def Timely (timestamp : Field) (storage : Storage) : Prop :=
  timestamp ≠ (readRoot storageSlot storage).nextChange ∧ endOfEpoch timestamp < 2 ^ 120

/-- Updates at times that do not decrease, with valid proofs, that meet a condition. -/
def UpdatesOk (condition : Field → Storage → Prop) :
    Field → Storage → List (Update n) → Prop
  | _, _, [] => True
  | time, storage, u :: updates =>
    time ≤ u.1 ∧ ValidProof pedersenHash storageSlot n u.1 u.2 storage ∧ condition u.1 storage ∧
      ∀ storage', updateAt pedersenHash storageSlot u.1 u.2 storage = .ok storage' →
        UpdatesOk condition u.1 storage' updates

/-- From a time on, the root is that of the leaves, and the leaves are what is in effect. -/
def Agrees (done : List Done) (time : ℕ) (storage : Storage) : Prop :=
  ∀ timestamp, time ≤ timestamp → timestamp < 2 ^ 120 →
    currentRoot storageSlot timestamp storage = node pedersenHash
      (fun key => readAt pedersenHash storageSlot timestamp key storage) n 0 ∧
    ∀ key < 2 ^ n,
      readAt pedersenHash storageSlot timestamp key storage = effective done timestamp key

/-- **The invariant**, after updates of which the last was made at `time`. -/
structure InStep (done : List Done) (time : ℕ) (storage : Storage) : Prop where
  time_lt : time < (readRoot storageSlot storage).nextChange
  bound : (readRoot storageSlot storage).nextChange < 2 ^ 120
  epoch : done ≠ [] → (readRoot storageSlot storage).nextChange = endOfEpoch time
  change : ∀ u ∈ done, u.nextChange = (readRoot storageSlot storage).nextChange ∨
    u.nextChange < time
  before : (readRoot storageSlot storage).before = node pedersenHash
    (lastValue (done.filter (·.nextChange ≠ (readRoot storageSlot storage).nextChange))) n 0
  after : (readRoot storageSlot storage).after = node pedersenHash (lastValue done) n 0
  leaf_after : ∀ key < 2 ^ n,
    (readLeafAt pedersenHash storageSlot key storage).after = lastValue done key
  leaf_pending : ∀ key < 2 ^ n, (readLeafAt pedersenHash storageSlot key storage).nextChange =
      (readRoot storageSlot storage).nextChange → done ≠ [] ∧
    (readLeafAt pedersenHash storageSlot key storage).before =
      lastValue (done.filter (·.nextChange ≠ (readRoot storageSlot storage).nextChange)) key
  leaf_settled : ∀ key < 2 ^ n, (readLeafAt pedersenHash storageSlot key storage).nextChange ≠
      (readRoot storageSlot storage).nextChange →
    ((readLeafAt pedersenHash storageSlot key storage).nextChange < time ∨
      (readLeafAt pedersenHash storageSlot key storage).nextChange = 0 ∧
      (readLeafAt pedersenHash storageSlot key storage).before =
        (readLeafAt pedersenHash storageSlot key storage).after) ∧
    ∀ u ∈ done, u.index = key → u.nextChange ≠ (readRoot storageSlot storage).nextChange

end Meaning

/-! ### Storage -/

section Slots

variable {pedersenHash : Field → Field → Field} {storageSlot : Field} {n : ℕ} {storage : Storage}

theorem storageRead_write (slot : Field) (fields : Field × Field × Field) :
    storageRead (storageWrite storage slot fields) slot = fields := by
  simp [storageRead, storageWrite]

theorem storageRead_write_of_ne {slot slot' : Field} (fields : Field × Field × Field)
    (h : ∀ i < 3, ∀ j < 3, slot' + i ≠ slot + j) :
    storageRead (storageWrite storage slot fields) slot' = storageRead storage slot' := by
  have hne : ∀ i < 3, storageWrite storage slot fields (slot' + i) = storage (slot' + i) := by
    intro i hi
    have h0 := h i hi 0 (by decide)
    have h1 := h i hi 1 (by decide)
    have h2 := h i hi 2 (by decide)
    rw [Nat.add_zero] at h0
    simp [storageWrite, h0, h1, h2]
  have h0 := hne 0 (by decide)
  rw [Nat.add_zero] at h0
  rw [storageRead, storageRead, h0, hne 1 (by decide), hne 2 (by decide)]

@[simp] theorem Leaf.deserialize_serialize (leaf : Leaf) :
    Leaf.deserialize leaf.serialize = leaf := rfl

theorem readRoot_updateUnsafe (index : Field) (leaf root : Leaf) :
    readRoot storageSlot (updateUnsafe pedersenHash storageSlot index leaf root storage) =
      root := by
  rw [readRoot, updateUnsafe, storageRead_write, Leaf.deserialize_serialize]

theorem readLeafAt_updateUnsafe (hapart : SlotsApart pedersenHash storageSlot n) {index : Field}
    (hindex : index < 2 ^ n) (leaf root : Leaf) {key : Field} (hkey : key < 2 ^ n) :
    readLeafAt pedersenHash storageSlot key
        (updateUnsafe pedersenHash storageSlot index leaf root storage) =
      if key = index then leaf else readLeafAt pedersenHash storageSlot key storage := by
  simp only [readLeafAt, updateUnsafe]
  rw [storageRead_write_of_ne _ (hapart.root key hkey)]
  split
  · next heq =>
    subst heq
    rw [storageRead_write, Leaf.deserialize_serialize]
  · next hne =>
    rw [storageRead_write_of_ne _ (hapart.leaf key hkey index hindex hne)]

end Slots

/-! ### The invariant -/

section Invariant

variable {pedersenHash : Field → Field → Field} {storageSlot : Field} {n : ℕ} {storage : Storage}
  {done : List Done} {time : ℕ}

theorem asU120_of_lt {x : ℕ} (h : x < 2 ^ 120) : asU120 x = x := Nat.mod_eq_of_lt h

theorem time_lt_endOfEpoch (time : ℕ) : time < endOfEpoch time := by
  rw [endOfEpoch, epochLength]
  omega

theorem endOfEpoch_eq {time time' : ℕ} (h : time ≤ time') (h' : time' < endOfEpoch time) :
    endOfEpoch time' = endOfEpoch time := by
  rw [endOfEpoch, epochLength] at h'
  rw [endOfEpoch, endOfEpoch, epochLength]
  omega

theorem computeNextChange_eq (h : endOfEpoch time < 2 ^ 120) :
    computeNextChange time = .ok (endOfEpoch time) := by
  have htime : asU120 time = time := asU120_of_lt ((time_lt_endOfEpoch time).trans h)
  have hle : time / epochLength + 1 ≤ endOfEpoch time := by
    rw [endOfEpoch, epochLength]
    omega
  rw [computeNextChange, htime, checkU120, if_pos (hle.trans_lt h)]
  change checkU120 ((time / epochLength + 1) * epochLength) _ = _
  rw [checkU120, ← endOfEpoch, if_pos h]

section

variable (h : InStep pedersenHash storageSlot n done time storage)
include h

theorem InStep.leaf_le {key : Field} (hkey : key < 2 ^ n) :
    (readLeafAt pedersenHash storageSlot key storage).nextChange ≤
      (readRoot storageSlot storage).nextChange := by
  by_cases heq : (readLeafAt pedersenHash storageSlot key storage).nextChange =
      (readRoot storageSlot storage).nextChange
  · exact heq.le
  · have hlt := h.time_lt
    rcases (h.leaf_settled key hkey heq).1 with hpast | ⟨hzero, -⟩
    · exact (hpast.trans hlt).le
    · rw [hzero]
      exact Nat.zero_le _

theorem InStep.effective_eq {τ : ℕ} (hτ : time ≤ τ) : effective done τ =
      if τ ≤ (readRoot storageSlot storage).nextChange then
        lastValue (done.filter (·.nextChange ≠ (readRoot storageSlot storage).nextChange))
      else lastValue done := by
  funext key
  split
  · next hle =>
    rw [effective]
    congr 1
    refine List.filter_congr fun u hu => ?_
    rcases h.change u hu with hsame | hpast
    · simp [hsame, hle]
    · have h1 : u.nextChange < τ := hpast.trans_le hτ
      have h2 : u.nextChange ≠ (readRoot storageSlot storage).nextChange := by omega
      simp [h1, h2]
  · next hgt =>
    refine lastValue_filter fun u hu _ => ?_
    rcases h.change u hu with hsame | hpast
    · simpa [hsame] using hgt
    · simpa using hpast.trans_le hτ

theorem InStep.agrees : Agrees pedersenHash storageSlot n done time storage := by
  intro τ hτ hlt
  have hread : ∀ key < 2 ^ n,
      readAt pedersenHash storageSlot τ key storage = effective done τ key := by
    intro key hkey
    have hle := h.leaf_le hkey
    have hleaf : (readLeafAt pedersenHash storageSlot key storage).nextChange < 2 ^ 120 :=
      hle.trans_lt h.bound
    rw [h.effective_eq hτ, readAt, asU120_of_lt hlt, asU120_of_lt hleaf]
    by_cases heq : (readLeafAt pedersenHash storageSlot key storage).nextChange =
        (readRoot storageSlot storage).nextChange
    · -- the leaf and the root change at the same time
      rw [heq]
      split
      · exact (h.leaf_pending key hkey heq).2
      · exact h.leaf_after key hkey
    · -- the leaf is not to be changed
      obtain ⟨hsettled, hnone⟩ := h.leaf_settled key hkey heq
      have hall : lastValue (done.filter
          (·.nextChange ≠ (readRoot storageSlot storage).nextChange)) key = lastValue done key :=
        lastValue_filter fun u hu hukey => by simpa using hnone u hu hukey
      have hboth : (if τ ≤ (readRoot storageSlot storage).nextChange then
          lastValue (done.filter (·.nextChange ≠ (readRoot storageSlot storage).nextChange))
          else lastValue done) key = lastValue done key := by
        split
        · exact hall
        · rfl
      rw [hboth]
      rcases hsettled with hpast | ⟨-, hsame⟩
      · rw [if_neg (not_le.2 (hpast.trans_le hτ)), h.leaf_after key hkey]
      · rw [hsame, ite_self, h.leaf_after key hkey]
  refine ⟨?_, hread⟩
  have hroot : currentRoot storageSlot τ storage = node pedersenHash (effective done τ) n 0 := by
    rw [h.effective_eq hτ, currentRoot, asU120_of_lt hlt, asU120_of_lt h.bound]
    split
    · exact h.before
    · exact h.after
  rw [hroot]
  refine node_congr fun key _ hkey => (hread key ?_).symm
  simpa using hkey

end

theorem moved_before_leaf (timestamp key : Field) :
    ((readLeafAt pedersenHash storageSlot key storage).moved (asU120 timestamp)).before =
      readAt pedersenHash storageSlot timestamp key storage := by
  rw [Leaf.moved, readAt]
  by_cases h : asU120 timestamp ≤
      asU120 (readLeafAt pedersenHash storageSlot key storage).nextChange
  · rw [if_pos h, if_neg (not_lt.2 h)]
  · rw [if_neg h, if_pos (not_le.1 h)]

theorem moved_before_root (timestamp : Field) :
    ((readRoot storageSlot storage).moved (asU120 timestamp)).before =
      currentRoot storageSlot timestamp storage := by
  rw [Leaf.moved, currentRoot]
  by_cases h : asU120 timestamp ≤ asU120 (readRoot storageSlot storage).nextChange
  · rw [if_pos h, if_neg (not_lt.2 h)]
  · rw [if_neg h, if_pos (not_le.1 h)]

@[simp] theorem moved_after (leaf : Leaf) (time : ℕ) : (leaf.moved time).after = leaf.after := by
  rw [Leaf.moved]
  split <;> rfl

theorem updateAt_eq (h : InStep pedersenHash storageSlot n done time storage)
    {timestamp : Field} (htime : time ≤ timestamp) {p : SlowUpdateProof n}
    (hvalid : ValidProof pedersenHash storageSlot n timestamp p storage)
    (hend : endOfEpoch timestamp < 2 ^ 120) :
    updateAt pedersenHash storageSlot timestamp p storage =
      .ok (updateUnsafe pedersenHash storageSlot p.index
        ⟨endOfEpoch timestamp, readAt pedersenHash storageSlot timestamp p.index storage,
          p.newValue⟩ ⟨endOfEpoch timestamp, currentRoot storageSlot timestamp storage,
          node pedersenHash (lastValue (done ++ [⟨p.index, p.newValue, endOfEpoch timestamp⟩])) n 0⟩
        storage) := by
  have hlt : timestamp < 2 ^ 120 := (time_lt_endOfEpoch timestamp).trans hend
  have hzero : p.index / 2 ^ n = 0 := Nat.div_eq_of_lt hvalid.index
  -- the check of the root before
  have hbefore : computeMerkleRoot pedersenHash
      (readAt pedersenHash storageSlot timestamp p.index storage) p.index p.before.siblingPath =
        .ok (currentRoot storageSlot timestamp storage) := by
    rw [computeMerkleRoot_eq_ok, hvalid.before, (h.agrees timestamp htime hlt).1]
    refine ⟨hvalid.index, ?_⟩
    have hclimb := climb_siblings pedersenHash
      (fun key => readAt pedersenHash storageSlot timestamp key storage) n 0 p.index
    rwa [hzero, Nat.zero_add] at hclimb
  -- the check of the root after, and the new root
  have hafter : computeMerkleRoot pedersenHash
      (readLeafAt pedersenHash storageSlot p.index storage).after p.index p.after.siblingPath =
        .ok (readRoot storageSlot storage).after := by
    rw [computeMerkleRoot_eq_ok, hvalid.after, h.after]
    refine ⟨hvalid.index, ?_⟩
    have hclimb := climb_siblings pedersenHash
      (fun key => (readLeafAt pedersenHash storageSlot key storage).after) n 0 p.index
    rw [hzero, Nat.zero_add] at hclimb
    rw [node_zero] at hclimb
    rw [hclimb]
    exact node_congr fun key _ hkey => h.leaf_after key (by simpa using hkey)
  have hnew : computeMerkleRoot pedersenHash p.newValue p.index p.after.siblingPath =
      .ok (node pedersenHash
        (lastValue (done ++ [⟨p.index, p.newValue, endOfEpoch timestamp⟩])) n 0) := by
    rw [computeMerkleRoot_eq_ok, hvalid.after, climb_update, hzero]
    refine ⟨hvalid.index, node_congr fun key _ hkey => ?_⟩
    rw [lastValue_concat_eq_update, Function.update_apply, Function.update_apply]
    split
    · rfl
    · exact h.leaf_after key (by simpa using hkey)
  rw [updateAt, asU120_of_lt hlt, computeNextChange_eq hend]
  have htime' := asU120_of_lt hlt
  simp only [bind, Except.bind]
  conv_lhs => rw [← htime']
  simp only [moved_before_leaf, moved_before_root, moved_after, hbefore, hafter, hnew, assert,
    decide_true, if_true]
  rw [htime']
  rfl

section

variable (h : InStep pedersenHash storageSlot n done time storage) {timestamp : Field}
  (htime : time ≤ timestamp)
include h htime

theorem InStep.before_of_pending {key : Field} (hkey : key < 2 ^ n)
    (hchange : (readLeafAt pedersenHash storageSlot key storage).nextChange =
      endOfEpoch timestamp) :
    (readLeafAt pedersenHash storageSlot key storage).before =
      lastValue (done.filter (·.nextChange ≠ endOfEpoch timestamp)) key := by
  have hstart := time_lt_endOfEpoch timestamp
  by_cases hold : (readLeafAt pedersenHash storageSlot key storage).nextChange =
      (readRoot storageSlot storage).nextChange
  · have hpending := (h.leaf_pending key hkey hold).2
    rw [← hold, hchange] at hpending
    exact hpending
  · rcases (h.leaf_settled key hkey hold).1 with hlast | ⟨hzero, -⟩
    · rw [hchange] at hlast
      exact absurd (hlast.trans_le htime) hstart.le.not_gt
    · have hend : endOfEpoch timestamp = 0 := hchange.symm.trans hzero
      exact absurd hstart (hend ▸ Nat.not_lt_zero _)

variable (hne : timestamp ≠ (readRoot storageSlot storage).nextChange)
include hne

/-- The change of an earlier update is past, or it is that of the new epoch. -/
theorem InStep.past_or_pending : ∀ v ∈ done,
    v.nextChange = endOfEpoch timestamp ∨ v.nextChange < timestamp := by
  intro v hv
  rcases h.change v hv with hsame | hlast
  · rcases lt_or_gt_of_ne hne with hbefore | hafter
    · have hepoch := h.epoch (List.ne_nil_of_mem hv)
      rw [hepoch] at hbefore
      exact .inl (by rw [hsame, hepoch, endOfEpoch_eq htime hbefore])
    · exact .inr (hsame ▸ hafter)
  · exact .inr (hlast.trans_le htime)

/-- What was not changed in the new epoch is what is in effect. -/
theorem InStep.filter_ne_endOfEpoch : done.filter (·.nextChange ≠ endOfEpoch timestamp) =
    done.filter (·.nextChange < timestamp) := by
  have hstart := time_lt_endOfEpoch timestamp
  refine List.filter_congr fun v hv => ?_
  rcases h.past_or_pending htime hne v hv with hsame | hlast
  · simp [hsame, hstart.le]
  · have hv : v.nextChange ≠ endOfEpoch timestamp := (hlast.trans hstart).ne
    simp [hlast, hv]

theorem InStep.settled_of_ne {key : Field} (hkey : key < 2 ^ n)
    (hchange : (readLeafAt pedersenHash storageSlot key storage).nextChange ≠
      endOfEpoch timestamp) :
    ((readLeafAt pedersenHash storageSlot key storage).nextChange < timestamp ∨
      (readLeafAt pedersenHash storageSlot key storage).nextChange = 0 ∧
      (readLeafAt pedersenHash storageSlot key storage).before =
        (readLeafAt pedersenHash storageSlot key storage).after) ∧
    ∀ v ∈ done, v.index = key → v.nextChange ≠ endOfEpoch timestamp := by
  have hstart := time_lt_endOfEpoch timestamp
  by_cases hold : (readLeafAt pedersenHash storageSlot key storage).nextChange =
      (readRoot storageSlot storage).nextChange
  · -- the root has changed since
    obtain ⟨hdone, -⟩ := h.leaf_pending key hkey hold
    have hafter : (readRoot storageSlot storage).nextChange < timestamp := by
      rcases lt_or_gt_of_ne hne with hbefore | hafter
      · rw [h.epoch hdone] at hbefore
        rw [hold, h.epoch hdone, endOfEpoch_eq htime hbefore] at hchange
        exact absurd rfl hchange
      · exact hafter
    refine ⟨.inl (hold ▸ hafter), fun v hv _ => ?_⟩
    rcases h.change v hv with hsame | hlast
    · exact ((hsame ▸ hafter).trans hstart).ne
    · exact ((hlast.trans_le htime).trans hstart).ne
  · obtain ⟨hleaf, hnone⟩ := h.leaf_settled key hkey hold
    refine ⟨hleaf.imp_left fun hlast => hlast.trans_le htime, fun v hv hvkey => ?_⟩
    rcases h.change v hv with hsame | hlast
    · exact absurd hsame (hnone v hv hvkey)
    · exact ((hlast.trans_le htime).trans hstart).ne

end

section

variable (hapart : SlotsApart pedersenHash storageSlot n)
include hapart

theorem updateAt_inStep (h : InStep pedersenHash storageSlot n done time storage) {u : Update n}
    (htime : time ≤ u.1) (hvalid : ValidProof pedersenHash storageSlot n u.1 u.2 storage)
    (htimely : Timely storageSlot u.1 storage) :
    ∃ storage', updateAt pedersenHash storageSlot u.1 u.2 storage = .ok storage' ∧
      InStep pedersenHash storageSlot n (done ++ [Done.of u]) u.1 storage' := by
  obtain ⟨timestamp, p⟩ := u
  obtain ⟨hne, hend⟩ := htimely
  have hlt : timestamp < 2 ^ 120 := (time_lt_endOfEpoch timestamp).trans hend
  refine ⟨_, updateAt_eq h htime hvalid hend, ?_⟩
  obtain ⟨hroot, hread⟩ := h.agrees timestamp htime hlt
  have hstart := time_lt_endOfEpoch timestamp
  have hkept : (done ++ [Done.of (timestamp, p)]).filter (·.nextChange ≠ endOfEpoch timestamp) =
      done.filter (·.nextChange ≠ endOfEpoch timestamp) := by
    rw [List.filter_append]
    simp [Done.of]
  have hsettled := h.filter_ne_endOfEpoch htime hne
  constructor
  case time_lt =>
    rw [readRoot_updateUnsafe]
    exact hstart
  case bound =>
    rw [readRoot_updateUnsafe]
    exact hend
  case epoch =>
    rw [readRoot_updateUnsafe]
    exact fun _ => rfl
  case change =>
    rw [readRoot_updateUnsafe]
    intro v hv
    rcases List.mem_append.1 hv with hv | hv
    · exact h.past_or_pending htime hne v hv
    · rw [List.mem_singleton.1 hv]
      exact .inl rfl
  case before =>
    rw [readRoot_updateUnsafe, hkept, hsettled, hroot]
    exact node_congr fun key _ hkey => hread key (by simpa using hkey)
  case after =>
    rw [readRoot_updateUnsafe]
    rfl
  case leaf_after =>
    intro key hkey
    rw [readLeafAt_updateUnsafe hapart hvalid.index _ _ hkey, lastValue_concat]
    change _ = if p.index = key then p.newValue else lastValue done key
    by_cases heq : key = p.index
    · rw [if_pos heq, if_pos heq.symm]
    · rw [if_neg heq, if_neg (Ne.symm heq)]
      exact h.leaf_after key hkey
  case leaf_pending =>
    intro key hkey
    rw [readLeafAt_updateUnsafe hapart hvalid.index _ _ hkey, readRoot_updateUnsafe, hkept]
    split
    · next heq =>
      subst heq
      rw [hsettled]
      exact fun _ => ⟨by simp, hread _ hvalid.index⟩
    · exact fun hchange => ⟨by simp, h.before_of_pending htime hkey hchange⟩
  case leaf_settled =>
    intro key hkey
    rw [readLeafAt_updateUnsafe hapart hvalid.index _ _ hkey, readRoot_updateUnsafe]
    split
    · exact fun hchange => absurd rfl hchange
    · next hother =>
      intro hchange
      obtain ⟨hleaf, hnone⟩ := h.settled_of_ne htime hne hkey hchange
      refine ⟨hleaf, fun v hv hvkey => ?_⟩
      rcases List.mem_append.1 hv with hv | hv
      · exact hnone v hv hvkey
      · rw [List.mem_singleton.1 hv] at hvkey
        exact absurd hvkey.symm hother

theorem initializeMap_inStep :
    ∃ storage, initializeMap storageSlot (zeroNode pedersenHash 0 n) (fun _ => 0) = .ok storage ∧
      InStep pedersenHash storageSlot n [] 0 storage := by
  refine ⟨_, rfl, ?_⟩
  have hroot : readRoot storageSlot (storageWrite (fun _ => 0) storageSlot
      (Leaf.serialize ⟨0xffffffffffffffffffffffffffffff, zeroNode pedersenHash 0 n,
        zeroNode pedersenHash 0 n⟩)) =
      ⟨0xffffffffffffffffffffffffffffff, zeroNode pedersenHash 0 n, zeroNode pedersenHash 0 n⟩ := by
    rw [readRoot, storageRead_write, Leaf.deserialize_serialize]
  have hleaf : ∀ key < 2 ^ n, readLeafAt pedersenHash storageSlot key
      (storageWrite (fun _ => 0) storageSlot (Leaf.serialize ⟨0xffffffffffffffffffffffffffffff,
        zeroNode pedersenHash 0 n, zeroNode pedersenHash 0 n⟩)) = ⟨0, 0, 0⟩ := by
    intro key hkey
    rw [readLeafAt, storageRead_write_of_ne _ (hapart.root key hkey)]
    rfl
  have hzero : zeroNode pedersenHash 0 n = node pedersenHash (lastValue []) n 0 :=
    (node_const fun _ _ _ => rfl).symm
  constructor
  case time_lt =>
    rw [hroot]
    change 0 < 0xffffffffffffffffffffffffffffff
    decide
  case bound =>
    rw [hroot]
    change 0xffffffffffffffffffffffffffffff < 2 ^ 120
    decide
  case epoch => exact fun h => absurd rfl h
  case change => exact fun _ h => absurd h List.not_mem_nil
  case before => rw [hroot]; exact hzero
  case after => rw [hroot]; exact hzero
  case leaf_after => intro key hkey; rw [hleaf key hkey]; rfl
  case leaf_pending =>
    intro key hkey
    rw [hleaf key hkey, hroot]
    change 0 = 0xffffffffffffffffffffffffffffff → _
    exact fun h => absurd h (by decide)
  case leaf_settled =>
    intro key hkey
    rw [hleaf key hkey]
    exact fun _ => ⟨.inr ⟨rfl, rfl⟩, fun _ h => absurd h List.not_mem_nil⟩

theorem run_inv (updates : List (Update n)) : ∀ {done : List Done} {time : ℕ} {storage : Storage},
      InStep pedersenHash storageSlot n done time storage →
      UpdatesOk pedersenHash storageSlot n (Timely storageSlot) time storage updates →
      ∃ storage', run pedersenHash storageSlot updates storage = .ok storage' ∧
        InStep pedersenHash storageSlot n (done ++ updates.map Done.of)
          ((updates.getLast?.map Prod.fst).getD time) storage' := by
  induction updates with
  | nil =>
    intro done time storage h _
    exact ⟨storage, rfl, by simpa using h⟩
  | cons u updates ih =>
    intro done time storage h hupdates
    obtain ⟨htime, hvalid, htimely, hrest⟩ := hupdates
    obtain ⟨mid, hmid, hinStep⟩ := updateAt_inStep hapart h htime hvalid htimely
    obtain ⟨storage', hrun, hinStep'⟩ := ih hinStep (hrest mid hmid)
    refine ⟨storage', bind_eq_ok.2 ⟨mid, hmid, hrun⟩, ?_⟩
    rw [List.append_assoc] at hinStep'
    have hlast : ((u :: updates).getLast?.map Prod.fst).getD time =
        (updates.getLast?.map Prod.fst).getD u.1 := by
      rw [List.getLast?_cons]
      cases updates.getLast? <;> rfl
    rw [hlast]
    exact hinStep'

end

end Invariant

def lastTime {n : ℕ} (updates : List (Update n)) : ℕ := (updates.getLast?.map Prod.fst).getD 0

/-- **Leaves and root are in step** in every run whose updates are not made at the time of the
pending change of the root: no update fails, and the root is that of the leaves at every time. -/
theorem run_inStep (pedersenHash : Field → Field → Field) (storageSlot : Field) (n : ℕ)
    (hapart : SlotsApart pedersenHash storageSlot n) : ∃ storage,
      initializeMap storageSlot (zeroNode pedersenHash 0 n) (fun _ => 0) = .ok storage ∧
      ∀ updates : List (Update n),
        UpdatesOk pedersenHash storageSlot n (Timely storageSlot) 0 storage updates →
        ∃ storage', run pedersenHash storageSlot updates storage = .ok storage' ∧
          Agrees pedersenHash storageSlot n (updates.map Done.of) (lastTime updates) storage' := by
  obtain ⟨storage, hinit, h⟩ := initializeMap_inStep hapart
  refine ⟨storage, hinit, fun updates hupdates => ?_⟩
  obtain ⟨storage', hrun, h'⟩ := run_inv hapart updates h hupdates
  exact ⟨storage', hrun, h'.agrees⟩

/-! ### An update at the time of a change -/

namespace AtTheChange

def hash (a b : Field) : Field := 10 * pairHash a b

theorem apart : SlotsApart hash 1 1 := ⟨by decide, by decide⟩

def first : Update 1 := (5, ⟨0, 7, ⟨0, #v[0]⟩, ⟨0, #v[0]⟩⟩)

def second (timestamp : Field) : Update 1 := (timestamp, ⟨1, 8, ⟨0, #v[0]⟩, ⟨0, #v[7]⟩⟩)

def storageAfter (updates : List (Update 1)) : Storage :=
  ((initializeMap 1 (zeroNode hash 0 1) (fun _ => 0) >>= run hash 1 updates).toOption).getD
    fun _ => 0

theorem updatesOk {condition : Field → Storage → Prop} {timestamp : Field}
    (htime : 5 ≤ timestamp ∧ timestamp ≤ 100) (hfirst : condition 5 (storageAfter []))
    (hsecond : condition timestamp (storageAfter [first])) :
    UpdatesOk hash 1 1 condition 0 (storageAfter []) [first, second timestamp] := by
  have hread : readAt hash 1 timestamp 0 (storageAfter [first]) = 0 := by
    have hlt : timestamp < 2 ^ 120 := htime.2.trans_lt (by decide)
    rw [readAt, asU120_of_lt hlt]
    exact if_pos htime.2
  refine ⟨Nat.zero_le _, ⟨by decide, by decide, by decide⟩, hfirst, fun storage' h => ?_⟩
  obtain rfl : storageAfter [first] = storage' := Except.ok.inj (Eq.trans rfl h)
  refine ⟨htime.1, ⟨Nat.one_lt_two, ?_, rfl⟩, hsecond, fun _ _ => trivial⟩
  exact congrArg (fun x => [x]) hread.symm

end AtTheChange

open AtTheChange in
/-- Two updates in one epoch. -/
theorem run_inStep_epoch : ∃ storage,
    initializeMap 1 (zeroNode hash 0 1) (fun _ => 0) = .ok storage ∧
    ∃ storage', run hash 1 [first, second 50] storage = .ok storage' ∧
      Agrees hash 1 1 ([first, second 50].map Done.of) (lastTime [first, second 50]) storage' := by
  obtain ⟨storage, hinit, hrun⟩ := run_inStep hash 1 1 apart
  obtain rfl : storageAfter [] = storage := Except.ok.inj (Eq.trans rfl hinit)
  refine ⟨_, hinit, hrun [first, second 50] ?_⟩
  exact updatesOk (by decide) ⟨by decide, by decide⟩ ⟨by decide, by decide⟩

open AtTheChange in
/-- **An update at the time of the pending change of the root puts it out of step**: the other leaf
changes and the root does not. -/
theorem out_of_step : ¬ ∀ (pedersenHash : Field → Field → Field) (storageSlot : Field) (n : ℕ),
    SlotsApart pedersenHash storageSlot n → ∃ storage,
      initializeMap storageSlot (zeroNode pedersenHash 0 n) (fun _ => 0) = .ok storage ∧
      ∀ updates : List (Update n), UpdatesOk pedersenHash storageSlot n
          (fun timestamp _ => endOfEpoch timestamp < 2 ^ 120) 0 storage updates →
        ∃ storage', run pedersenHash storageSlot updates storage = .ok storage' ∧
          Agrees pedersenHash storageSlot n (updates.map Done.of) (lastTime updates) storage' := by
  intro h
  obtain ⟨storage, hinit, hrun⟩ := h hash 1 1 apart
  obtain rfl : storageAfter [] = storage := Except.ok.inj (Eq.trans rfl hinit)
  obtain ⟨storage', hrun, hagrees⟩ := hrun [first, second 100]
    (updatesOk (by decide) (by decide) (by decide))
  obtain rfl : storageAfter [first, second 100] = storage' :=
    Except.ok.inj (Eq.trans rfl hrun)
  have hroot := (hagrees 101 (by decide) (by decide)).1
  revert hroot
  decide

end SlowMap
