/-
**The decoders of the block body on L1.**

A block body is a byte string of nine sections, each behind a length of four bytes.  `TxsDecoder`
walks them with running offsets, hashes the data of each base rollup to a leaf and returns the root
over the leaves; `MessagesDecoder` walks them on its own and copies the cross-chain messages out.
-/

import Aztec.BigEndian

open Option

/-! ### Reading -/

open List hiding Vector
open BigEndian (read_write write)

namespace BlockBody

abbrev Bytes := List UInt8

abbrev Bytes32 := Vector UInt8 32

/-- `slice`, which reverts past the end. -/
def slice (data : Bytes) (start length : ℕ) : Option Bytes :=
  if start + length ≤ data.length then some ((data.drop start).take length) else none

def read4 (data : Bytes) (offset : ℕ) : Option ℕ := (slice data offset 4).map BigEndian.read

def Stands (data : Bytes) (offset : ℕ) (bytes : Bytes) : Prop :=
  ∃ front behind, data = front ++ bytes ++ behind ∧ front.length = offset

section Lemmas

variable {data data' bytes bytes' : Bytes} {offset length n : ℕ}

theorem slice_eq_some : slice data offset length = some bytes ↔
    offset + length ≤ data.length ∧ (data.drop offset).take length = bytes := by
  rw [slice]
  split
  · next h => simp [h]
  · next h => simp [h]

theorem length_of_slice (h : slice data offset length = some bytes) : bytes.length = length := by
  obtain ⟨hle, rfl⟩ := slice_eq_some.1 h
  rw [length_take, length_drop]
  omega

theorem slice_mono (hfront : data <+: data') (h : slice data offset length = some bytes) :
    slice data' offset length = some bytes ∧ offset + length ≤ data.length := by
  obtain ⟨behind, rfl⟩ := hfront
  obtain ⟨hle, rfl⟩ := slice_eq_some.1 h
  refine ⟨slice_eq_some.2 ⟨?_, ?_⟩, hle⟩
  · rw [length_append]
    omega
  · rw [drop_append_of_le_length (by omega), take_append_of_le_length]
    rw [length_drop]
    omega

theorem read4_mono (hfront : data <+: data') (h : read4 data offset = some n) :
    read4 data' offset = some n ∧ offset + 4 ≤ data.length := by
  obtain ⟨bytes, hslice, rfl⟩ := map_eq_some_iff.1 h
  obtain ⟨hslice', hle⟩ := slice_mono hfront hslice
  exact ⟨map_eq_some_iff.2 ⟨bytes, hslice', rfl⟩, hle⟩

theorem Stands.slice (h : Stands data offset bytes) (hlength : bytes.length = length) :
    slice data offset length = some bytes := by
  obtain ⟨front, behind, rfl, rfl⟩ := h
  subst hlength
  refine slice_eq_some.2 ⟨by simp only [length_append]; omega, ?_⟩
  rw [append_assoc, drop_left, take_left]

theorem Stands.left (h : Stands data offset (bytes ++ bytes')) : Stands data offset bytes := by
  obtain ⟨front, behind, rfl, hlen⟩ := h
  exact ⟨front, bytes' ++ behind, by simp only [append_assoc], hlen⟩

theorem Stands.right (h : Stands data offset (bytes ++ bytes')) :
    Stands data (offset + bytes.length) bytes' := by
  obtain ⟨front, behind, rfl, rfl⟩ := h
  exact ⟨front ++ bytes, behind, by simp only [append_assoc], length_append⟩

theorem Stands.read4 (h : Stands data offset (write 4 n)) (hn : n < 2 ^ 32) :
    read4 data offset = some n := by
  rw [BlockBody.read4, h.slice (BigEndian.length_write 4 n), map_some, read_write,
    Nat.mod_eq_of_lt (by omega)]

end Lemmas

/-! ### Counts -/

/-- The lengths in front of the sections of a body, up to that of the encrypted logs. -/
structure Counts where
  noteHashes : ℕ
  nullifiers : ℕ
  publicDataWrites : ℕ
  l2ToL1Msgs : ℕ
  contracts : ℕ
  l1ToL2Msgs : ℕ

namespace Counts

variable (c : Counts)

/-- Where the lengths stand, as the outline of the layout has it. -/
def nullifiersAt : ℕ := 0x04 + c.noteHashes * 0x20

def publicDataWritesAt : ℕ := c.nullifiersAt + (0x04 + c.nullifiers * 0x20)

def l2ToL1MsgsAt : ℕ := c.publicDataWritesAt + (0x04 + c.publicDataWrites * 0x40)

def contractsAt : ℕ := c.l2ToL1MsgsAt + (0x04 + c.l2ToL1Msgs * 0x20)

def l1ToL2MsgsAt : ℕ := c.contractsAt + (0x04 + c.contracts * 0x54)

def encryptedLogsAt : ℕ := c.l1ToL2MsgsAt + (0x04 + c.l1ToL2Msgs * 0x20)

structure ReadFrom (body : Bytes) : Prop where
  noteHashes_eq : read4 body 0 = some c.noteHashes
  nullifiers_eq : read4 body c.nullifiersAt = some c.nullifiers
  publicDataWrites_eq : read4 body c.publicDataWritesAt = some c.publicDataWrites
  l2ToL1Msgs_eq : read4 body c.l2ToL1MsgsAt = some c.l2ToL1Msgs
  contracts_eq : read4 body c.contractsAt = some c.contracts
  l1ToL2Msgs_eq : read4 body c.l1ToL2MsgsAt = some c.l1ToL2Msgs

theorem ReadFrom.mono {c : Counts} {body body' : Bytes} (h : c.ReadFrom body)
    (hfront : body <+: body') : c.ReadFrom body' :=
  ⟨(read4_mono hfront h.noteHashes_eq).1, (read4_mono hfront h.nullifiers_eq).1,
    (read4_mono hfront h.publicDataWrites_eq).1, (read4_mono hfront h.l2ToL1Msgs_eq).1,
    (read4_mono hfront h.contracts_eq).1, (read4_mono hfront h.l1ToL2Msgs_eq).1⟩

end Counts

end BlockBody

open BlockBody

/-! ### The transactions -/

namespace TxsDecoder

/-- `ArrayOffsets`; the offset of the messages from L1 is not used. -/
structure ArrayOffsets where
  noteHash : ℕ
  nullifier : ℕ
  publicData : ℕ
  l2ToL1Msgs : ℕ
  contracts : ℕ
  contractData : ℕ
  encryptedLogs : ℕ
  unencryptedLogs : ℕ

structure BaseLeaf where
  noteHashes : Bytes
  nullifiers : Bytes
  publicData : Bytes
  l2ToL1Msgs : Bytes
  contracts : Bytes
  aztecAddress : Bytes
  ethAddress : Bytes
  encryptedLogsHash : Bytes32
  unencryptedLogsHash : Bytes32

/-- The bytes of a base leaf, with the address on L1 padded to 32 bytes. -/
def BaseLeaf.toBytes (leaf : BaseLeaf) : Bytes :=
  leaf.noteHashes ++ leaf.nullifiers ++ leaf.publicData ++ leaf.l2ToL1Msgs ++ leaf.contracts ++
    (leaf.aztecAddress ++ List.replicate 12 0 ++ leaf.ethAddress) ++
    (leaf.encryptedLogsHash.toList ++ leaf.unencryptedLogsHash.toList)

/-- The offsets before the first leaf, the number of base leaves and that of the messages to L1. -/
def arrayOffsets (body : Bytes) : Option (ArrayOffsets × ℕ × ℕ) := do
  let offset := 0
  -- note hashes; 64 in each transaction
  let count ← read4 body offset
  let baseLeaves := count / 64
  let noteHash := 0x4
  let offset := offset + (0x4 + count * 0x20)
  let nullifier := offset + 0x4
  -- nullifiers
  let count ← read4 body offset
  let offset := offset + (0x4 + count * 0x20)
  let publicData := offset + 0x4
  -- public data writes
  let count ← read4 body offset
  let offset := offset + (0x4 + count * 0x40)
  let l2ToL1Msgs := offset + 0x4
  -- messages from L2 to L1
  let count ← read4 body offset
  let l2ToL1MsgsCount := count
  let offset := offset + (0x4 + count * 0x20)
  let contracts := offset + 0x4
  -- contracts
  let count ← read4 body offset
  let contractData := contracts + count * 0x20
  let offset := offset + (0x4 + count * 0x54)
  -- messages from L1 to L2
  let count ← read4 body offset
  let offset := offset + (0x4 + count * 0x20)
  let encryptedLogs := offset + 0x4
  -- the encrypted logs, whose length is in bytes
  let length ← read4 body offset
  let unencryptedLogs := encryptedLogs + 0x4 + length
  return (⟨noteHash, nullifier, publicData, l2ToL1Msgs, contracts, contractData, encryptedLogs,
    unencryptedLogs⟩, baseLeaves, l2ToL1MsgsCount)

section Decode

variable (sha256 : Bytes → Bytes32)

/-- The loop of `computeKernelLogsHash`.  A turn takes up at least four bytes, which bounds the
number of turns. -/
def logsLoop (body : Bytes) : ℕ → ℕ → ℕ → Bytes32 → Option (Bytes32 × ℕ)
  | 0, offset, _, kernelPublicInputsLogsHash => some (kernelPublicInputsLogsHash, offset)
  | turns + 1, offset, remainingLogsLength, kernelPublicInputsLogsHash =>
    if remainingLogsLength > 0 then do
      let length ← read4 body offset
      let offset := offset + 0x4
      let logs ← slice body offset length
      let offset := offset + length
      -- the subtraction is checked
      if remainingLogsLength < length + 0x4 then none
      else
        let hash := sha256 (kernelPublicInputsLogsHash.toList ++ (sha256 logs).toList)
        logsLoop body turns offset (remainingLogsLength - (length + 0x4)) hash
    else some (kernelPublicInputsLogsHash, offset)

def computeKernelLogsHash (offsetInBlock : ℕ) (body : Bytes) : Option (Bytes32 × ℕ) := do
  let remainingLogsLength ← read4 body offsetInBlock
  logsLoop sha256 body remainingLogsLength (offsetInBlock + 0x4) remainingLogsLength
    (Vector.replicate 32 0)

def baseLeaf (body : Bytes) (offsets : ArrayOffsets) : Option (BaseLeaf × ArrayOffsets) := do
  let (encryptedLogsHash, encryptedLogs) ←
    computeKernelLogsHash sha256 offsets.encryptedLogs body
  let (unencryptedLogsHash, unencryptedLogs) ←
    computeKernelLogsHash sha256 offsets.unencryptedLogs body
  let noteHashes ← slice body offsets.noteHash 2048
  let nullifiers ← slice body offsets.nullifier 2048
  let publicData ← slice body offsets.publicData 2048
  let l2ToL1Msgs ← slice body offsets.l2ToL1Msgs 64
  let contracts ← slice body offsets.contracts 32
  let aztecAddress ← slice body offsets.contractData 0x20
  let ethAddress ← slice body (offsets.contractData + 0x20) 0x14
  let offsets' : ArrayOffsets :=
    { noteHash := offsets.noteHash + 2048, nullifier := offsets.nullifier + 2048,
      publicData := offsets.publicData + 2048, l2ToL1Msgs := offsets.l2ToL1Msgs + 64,
      contracts := offsets.contracts + 32, contractData := offsets.contractData + 52,
      encryptedLogs := encryptedLogs, unencryptedLogs := unencryptedLogs }
  return (⟨noteHashes, nullifiers, publicData, l2ToL1Msgs, contracts, aztecAddress, ethAddress,
    encryptedLogsHash, unencryptedLogsHash⟩, offsets')

def baseLeaves (body : Bytes) : ℕ → ArrayOffsets → Option (List BaseLeaf × ArrayOffsets)
  | 0, offsets => some ([], offsets)
  | n + 1, offsets => do
    let (leaf, offsets) ← baseLeaf sha256 body offsets
    let (leaves, offsets) ← baseLeaves body n offsets
    return (leaf :: leaves, offsets)

def decodeLeaves (body : Bytes) : Option (List BaseLeaf × ArrayOffsets) := do
  let (offsets, n, _) ← arrayOffsets body
  baseLeaves sha256 body n offsets

def treeDepth (length : ℕ) : ℕ → ℕ → ℕ
  | 0, depth => depth
  | turns + 1, depth => if 2 ^ depth < length then treeDepth length turns (depth + 1) else depth

/-- The inner loop of `computeRoot`, in place. -/
def hashPairs (treeSize : ℕ) (leafs : List Bytes32) : List Bytes32 :=
  (List.range (treeSize / 2)).foldl (fun leafs j =>
    leafs.set j (sha256 ((leafs.getD (2 * j) (Vector.replicate 32 0)).toList ++
      (leafs.getD (2 * j + 1) (Vector.replicate 32 0)).toList))) leafs

/-- The outer loop of `computeRoot`. -/
def hashLevels : ℕ → ℕ → List Bytes32 → List Bytes32
  | 0, _, leafs => leafs
  | depth + 1, treeSize, leafs => hashLevels depth (treeSize / 2) (hashPairs sha256 treeSize leafs)

/-- `computeRoot`.  The length of the leaves is set to the size of the tree without padding them:
what memory holds behind them is read as well. -/
def computeRoot (memory : ℕ → Bytes32) (leafs : List Bytes32) : Bytes32 :=
  let depth := treeDepth leafs.length leafs.length 0
  let treeSize := 2 ^ depth
  let leafs := leafs ++ (List.range (treeSize - leafs.length)).map memory
  (hashLevels sha256 depth treeSize leafs).getD 0 (Vector.replicate 32 0)

def decode (memory : ℕ → Bytes32) (body : Bytes) : Option Bytes32 :=
  (decodeLeaves sha256 body).map fun leaves =>
    computeRoot sha256 memory (leaves.1.map fun leaf => sha256 leaf.toBytes)

end Decode

/-! ### What is read -/

section Prefix

variable {sha256 : Bytes → Bytes32} {body body' : Bytes}

theorem logsLoop_succ_eq_some {turns offset remaining : ℕ} {hash : Bytes32} {r : Bytes32 × ℕ}
    (hmore : remaining > 0) : logsLoop sha256 body (turns + 1) offset remaining hash = some r ↔
      ∃ length logs, read4 body offset = some length ∧
        slice body (offset + 0x4) length = some logs ∧ length + 0x4 ≤ remaining ∧
        logsLoop sha256 body turns (offset + 0x4 + length) (remaining - (length + 0x4))
          (sha256 (hash.toList ++ (sha256 logs).toList)) = some r := by
  rw [logsLoop, if_pos hmore]
  constructor
  · intro h
    obtain ⟨length, hlength, h⟩ := bind_eq_some_iff.1 h
    obtain ⟨logs, hlogs, h⟩ := bind_eq_some_iff.1 h
    split at h
    · cases h
    · next hchecked => exact ⟨length, logs, hlength, hlogs, not_lt.1 hchecked, h⟩
  · rintro ⟨length, logs, hlength, hlogs, hchecked, h⟩
    refine bind_eq_some_iff.2 ⟨length, hlength, bind_eq_some_iff.2 ⟨logs, hlogs, ?_⟩⟩
    exact (if_neg (not_lt.2 hchecked)).trans h

theorem logsLoop_mono (hfront : body <+: body') (turns : ℕ) :
    ∀ {offset remaining : ℕ} {hash : Bytes32} {r : Bytes32 × ℕ}, offset ≤ body.length →
      logsLoop sha256 body turns offset remaining hash = some r →
      logsLoop sha256 body' turns offset remaining hash = some r ∧ r.2 ≤ body.length := by
  induction turns with
  | zero =>
    intro offset remaining hash r hoffset h
    obtain rfl := some.inj h
    exact ⟨rfl, hoffset⟩
  | succ turns ih =>
    intro offset remaining hash r hoffset h
    by_cases hmore : remaining > 0
    · obtain ⟨length, logs, hlength, hlogs, hchecked, h⟩ := (logsLoop_succ_eq_some hmore).1 h
      obtain ⟨hlength', -⟩ := read4_mono hfront hlength
      obtain ⟨hlogs', hle⟩ := slice_mono hfront hlogs
      obtain ⟨hloop, hend⟩ := ih hle h
      exact ⟨(logsLoop_succ_eq_some hmore).2 ⟨length, logs, hlength', hlogs', hchecked, hloop⟩,
        hend⟩
    · rw [logsLoop, if_neg hmore] at h ⊢
      obtain rfl := some.inj h
      exact ⟨rfl, hoffset⟩

theorem computeKernelLogsHash_mono (hfront : body <+: body') {offset : ℕ}
    {r : Bytes32 × ℕ} (h : computeKernelLogsHash sha256 offset body = some r) :
    computeKernelLogsHash sha256 offset body' = some r ∧ r.2 ≤ body.length := by
  obtain ⟨remaining, hremaining, h⟩ := bind_eq_some_iff.1 h
  obtain ⟨hremaining', hle⟩ := read4_mono hfront hremaining
  obtain ⟨hloop, hend⟩ := logsLoop_mono hfront remaining hle h
  exact ⟨bind_eq_some_iff.2 ⟨remaining, hremaining', hloop⟩, hend⟩

theorem baseLeaf_eq_some {offsets offsets' : ArrayOffsets} {leaf : BaseLeaf} :
    baseLeaf sha256 body offsets = some (leaf, offsets') ↔
      computeKernelLogsHash sha256 offsets.encryptedLogs body =
        some (leaf.encryptedLogsHash, offsets'.encryptedLogs) ∧
      computeKernelLogsHash sha256 offsets.unencryptedLogs body =
        some (leaf.unencryptedLogsHash, offsets'.unencryptedLogs) ∧
      slice body offsets.noteHash 2048 = some leaf.noteHashes ∧
      slice body offsets.nullifier 2048 = some leaf.nullifiers ∧
      slice body offsets.publicData 2048 = some leaf.publicData ∧
      slice body offsets.l2ToL1Msgs 64 = some leaf.l2ToL1Msgs ∧
      slice body offsets.contracts 32 = some leaf.contracts ∧
      slice body offsets.contractData 0x20 = some leaf.aztecAddress ∧
      slice body (offsets.contractData + 0x20) 0x14 = some leaf.ethAddress ∧
      offsets' = ⟨offsets.noteHash + 2048, offsets.nullifier + 2048, offsets.publicData + 2048,
        offsets.l2ToL1Msgs + 64, offsets.contracts + 32, offsets.contractData + 52,
        offsets'.encryptedLogs, offsets'.unencryptedLogs⟩ := by
  constructor
  · intro h
    obtain ⟨⟨encryptedLogsHash, encryptedLogs⟩, h₁, h⟩ := bind_eq_some_iff.1 h
    obtain ⟨⟨unencryptedLogsHash, unencryptedLogs⟩, h₂, h⟩ := bind_eq_some_iff.1 h
    obtain ⟨noteHashes, h₃, h⟩ := bind_eq_some_iff.1 h
    obtain ⟨nullifiers, h₄, h⟩ := bind_eq_some_iff.1 h
    obtain ⟨publicData, h₅, h⟩ := bind_eq_some_iff.1 h
    obtain ⟨l2ToL1Msgs, h₆, h⟩ := bind_eq_some_iff.1 h
    obtain ⟨contracts, h₇, h⟩ := bind_eq_some_iff.1 h
    obtain ⟨aztecAddress, h₈, h⟩ := bind_eq_some_iff.1 h
    obtain ⟨ethAddress, h₉, h⟩ := bind_eq_some_iff.1 h
    obtain ⟨rfl, rfl⟩ := Prod.mk.inj (some.inj h)
    exact ⟨h₁, h₂, h₃, h₄, h₅, h₆, h₇, h₈, h₉, rfl⟩
  · rintro ⟨h₁, h₂, h₃, h₄, h₅, h₆, h₇, h₈, h₉, h⟩
    rw [h, baseLeaf]
    simp only [h₁, h₂, h₃, h₄, h₅, h₆, h₇, h₈, h₉, bind_eq_bind, bind_some]
    rfl

theorem baseLeaf_mono (hfront : body <+: body') {offsets : ArrayOffsets}
    {r : BaseLeaf × ArrayOffsets} (h : baseLeaf sha256 body offsets = some r) :
    baseLeaf sha256 body' offsets = some r ∧ r.2.unencryptedLogs ≤ body.length := by
  obtain ⟨h₁, h₂, h₃, h₄, h₅, h₆, h₇, h₈, h₉, hoffsets⟩ := baseLeaf_eq_some.1 h
  obtain ⟨h₂', hend⟩ := computeKernelLogsHash_mono hfront h₂
  exact ⟨baseLeaf_eq_some.2 ⟨(computeKernelLogsHash_mono hfront h₁).1, h₂',
    (slice_mono hfront h₃).1, (slice_mono hfront h₄).1,
    (slice_mono hfront h₅).1, (slice_mono hfront h₆).1,
    (slice_mono hfront h₇).1, (slice_mono hfront h₈).1,
    (slice_mono hfront h₉).1, hoffsets⟩, hend⟩

theorem baseLeaves_mono (hfront : body <+: body') (n : ℕ) :
    ∀ {offsets : ArrayOffsets} {r : List BaseLeaf × ArrayOffsets},
      baseLeaves sha256 body n offsets = some r → baseLeaves sha256 body' n offsets = some r ∧
        (0 < n → r.2.unencryptedLogs ≤ body.length) := by
  induction n with
  | zero => exact fun h => ⟨h, fun hn => absurd hn (lt_irrefl 0)⟩
  | succ n ih =>
    intro offsets r h
    obtain ⟨⟨leaf, offsets₁⟩, hleaf, h⟩ := bind_eq_some_iff.1 h
    obtain ⟨⟨leaves, offsets₂⟩, hleaves, h⟩ := bind_eq_some_iff.1 h
    obtain rfl := some.inj h
    obtain ⟨hleaf', hend⟩ := baseLeaf_mono hfront hleaf
    obtain ⟨hleaves', hends⟩ := ih hleaves
    refine ⟨bind_eq_some_iff.2 ⟨_, hleaf', bind_eq_some_iff.2 ⟨_, hleaves', rfl⟩⟩, fun _ => ?_⟩
    cases n with
    | zero =>
      obtain ⟨-, rfl⟩ := Prod.mk.inj (some.inj hleaves)
      exact hend
    | succ n => exact hends (Nat.succ_pos n)

end Prefix

/-! ### Offsets -/

section Offsets

variable {sha256 : Bytes → Bytes32} {body body' : Bytes}

def offsetsOf (c : Counts) (length : ℕ) : ArrayOffsets where
  noteHash := 0x4
  nullifier := c.nullifiersAt + 0x4
  publicData := c.publicDataWritesAt + 0x4
  l2ToL1Msgs := c.l2ToL1MsgsAt + 0x4
  contracts := c.contractsAt + 0x4
  contractData := c.contractsAt + 0x4 + c.contracts * 0x20
  encryptedLogs := c.encryptedLogsAt + 0x4
  unencryptedLogs := c.encryptedLogsAt + 0x4 + 0x4 + length

theorem arrayOffsets_eq_some {r : ArrayOffsets × ℕ × ℕ} :
    arrayOffsets body = some r ↔ ∃ (c : Counts) (length : ℕ), c.ReadFrom body ∧
      read4 body c.encryptedLogsAt = some length ∧
      r = (offsetsOf c length, c.noteHashes / 64, c.l2ToL1Msgs) := by
  constructor
  · intro h
    obtain ⟨noteHashes, h₁, h⟩ := bind_eq_some_iff.1 h
    obtain ⟨nullifiers, h₂, h⟩ := bind_eq_some_iff.1 h
    obtain ⟨publicDataWrites, h₃, h⟩ := bind_eq_some_iff.1 h
    obtain ⟨l2ToL1Msgs, h₄, h⟩ := bind_eq_some_iff.1 h
    obtain ⟨contracts, h₅, h⟩ := bind_eq_some_iff.1 h
    obtain ⟨l1ToL2Msgs, h₆, h⟩ := bind_eq_some_iff.1 h
    obtain ⟨length, h₇, h⟩ := bind_eq_some_iff.1 h
    obtain rfl := some.inj h
    rw [Nat.zero_add] at h₂ h₃ h₄ h₅ h₆ h₇
    refine ⟨⟨noteHashes, nullifiers, publicDataWrites, l2ToL1Msgs, contracts, l1ToL2Msgs⟩, length,
      ⟨h₁, h₂, h₃, h₄, h₅, h₆⟩, h₇, ?_⟩
    simp only [offsetsOf, Counts.nullifiersAt, Counts.publicDataWritesAt, Counts.l2ToL1MsgsAt,
      Counts.contractsAt, Counts.l1ToL2MsgsAt, Counts.encryptedLogsAt, Nat.zero_add]
  · rintro ⟨c, length, ⟨h₁, h₂, h₃, h₄, h₅, h₆⟩, h₇, rfl⟩
    simp only [Counts.nullifiersAt, Counts.publicDataWritesAt, Counts.l2ToL1MsgsAt,
      Counts.contractsAt, Counts.l1ToL2MsgsAt, Counts.encryptedLogsAt] at h₁ h₂ h₃ h₄ h₅ h₆ h₇
    simp only [arrayOffsets, h₁, h₂, h₃, h₄, h₅, h₆, h₇, bind_eq_bind, bind_some, Nat.zero_add]
    rfl

theorem decodeLeaves_mono (hfront : body <+: body') {r : List BaseLeaf × ArrayOffsets}
    (h : decodeLeaves sha256 body = some r) :
    decodeLeaves sha256 body' = some r ∧ (r.1 ≠ [] → r.2.unencryptedLogs ≤ body.length) := by
  obtain ⟨offsets, hoffsets, h⟩ := bind_eq_some_iff.1 h
  obtain ⟨c, length, hread, hlength, rfl⟩ := arrayOffsets_eq_some.1 hoffsets
  obtain ⟨hleaves, hend⟩ := baseLeaves_mono hfront _ h
  refine ⟨bind_eq_some_iff.2 ⟨_, arrayOffsets_eq_some.2 ⟨c, length,
    hread.mono hfront, (read4_mono hfront hlength).1, rfl⟩, hleaves⟩, fun hne => ?_⟩
  refine hend (Nat.pos_of_ne_zero fun hzero => hne ?_)
  rw [hzero] at h
  exact (congrArg Prod.fst (some.inj h)).symm

end Offsets

end TxsDecoder

/-! ### The cross-chain messages -/

namespace MessagesDecoder

/-- A word of calldata; behind the body stands what the call goes on with. -/
def copyWord (after : ℕ → UInt8) (body : Bytes) (offset : ℕ) : Bytes :=
  (List.range 32).map fun i => (body[offset + i]?).getD (after (offset + i - body.length))

/-- `calldatacopy`, of a number of words. -/
def copyWords (after : ℕ → UInt8) (body : Bytes) (offset count : ℕ) : List Bytes :=
  (List.range count).map fun i => copyWord after body (offset + 0x20 * i)

/-- What `decode` returns. -/
structure Messages where
  inHash : Bytes32
  outHash : Bytes32
  l1ToL2Msgs : List Bytes
  l2ToL1Msgs : List Bytes
  deriving DecidableEq

/-- The messages in memory, once they are copied.  The array of 16 messages to L2 is followed by the
length of the array of messages to L1 and by its `count` elements: the second copy does not stop at
the end of its array. -/
def messagesOf (sha256 : Bytes → Bytes32) (memory : ℕ → Bytes) (count : ℕ)
    (l2ToL1Msgs l1ToL2Msgs : List Bytes) : Messages :=
  let words := List.replicate 16 (List.replicate 32 0) ++ BigEndian.write 32 count :: l2ToL1Msgs
  let words := l1ToL2Msgs ++ words.drop l1ToL2Msgs.length
  let l1ToL2Msgs := words.take 16
  let length := BigEndian.read (words.getD 16 [])
  let l2ToL1Msgs := (words.drop 17).take length ++
    (List.range (length - (words.length - 17))).map memory
  ⟨sha256 l1ToL2Msgs.flatten, sha256 l2ToL1Msgs.flatten, l1ToL2Msgs, l2ToL1Msgs⟩

def decode (sha256 : Bytes → Bytes32) (after : ℕ → UInt8) (memory : ℕ → Bytes) (body : Bytes) :
    Option Messages := do
  let offset := 0
  -- note hashes
  let count ← read4 body offset
  let offset := offset + (0x4 + count * 0x20)
  -- nullifiers
  let count ← read4 body offset
  let offset := offset + (0x4 + count * 0x20)
  -- public data writes
  let count ← read4 body offset
  let offset := offset + (0x4 + count * 0x40)
  -- messages from L2 to L1
  let l2ToL1Count ← read4 body offset
  let l2ToL1Msgs := copyWords after body (offset + 0x4) l2ToL1Count
  let offset := offset + (0x4 + l2ToL1Count * 0x20)
  -- contracts
  let count ← read4 body offset
  let offset := offset + (0x4 + count * 0x54)
  -- messages from L1 to L2
  let count ← read4 body offset
  let l1ToL2Msgs := copyWords after body (offset + 0x4) count
  return messagesOf sha256 memory l2ToL1Count l2ToL1Msgs l1ToL2Msgs

/-- A copy: the size of the array it goes to, where it starts in the body, and its length. -/
structure Copy where
  room : ℕ
  source : ℕ
  length : ℕ

/-- The copies the two decoders make: both copy the messages to L1, one the messages to L2. -/
def copies (c : Counts) : List Copy :=
  [⟨c.l2ToL1Msgs * 0x20, c.l2ToL1MsgsAt + 0x4, c.l2ToL1Msgs * 0x20⟩,
    ⟨16 * 0x20, c.l1ToL2MsgsAt + 0x4, c.l1ToL2Msgs * 0x20⟩]

def words (count : ℕ) (bytes : Bytes) : List Bytes :=
  (List.range count).map fun i => (bytes.drop (0x20 * i)).take 0x20

def coveredMessages (leaves : List TxsDecoder.BaseLeaf) : List Bytes :=
  leaves.flatMap fun leaf => words 2 leaf.l2ToL1Msgs

/-- **The messages are those of the body**: the messages to L1 are the ones the base leaves commit
to, the messages to L2 are the ones encoded in the body, padded with zeros, and no copy leaves its
array or the body. -/
structure Faithful (body : Bytes) (c : Counts) (messages : Messages)
    (leaves : List TxsDecoder.BaseLeaf) : Prop where
  covered : messages.l2ToL1Msgs = coveredMessages leaves
  encoded : ∃ bytes, slice body (c.l1ToL2MsgsAt + 0x4) (c.l1ToL2Msgs * 0x20) = some bytes ∧
    messages.l1ToL2Msgs =
      words c.l1ToL2Msgs bytes ++ List.replicate (16 - c.l1ToL2Msgs) (List.replicate 32 0)
  inBounds : ∀ copy ∈ copies c, copy.length ≤ copy.room ∧
    copy.source + copy.length ≤ body.length

section Lemmas

variable {sha256 : Bytes → Bytes32} {after : ℕ → UInt8} {memory : ℕ → Bytes} {body : Bytes}
  {c : Counts}

theorem decode_eq (h : c.ReadFrom body) : decode sha256 after memory body =
    some (messagesOf sha256 memory c.l2ToL1Msgs
      (copyWords after body (c.l2ToL1MsgsAt + 0x4) c.l2ToL1Msgs)
      (copyWords after body (c.l1ToL2MsgsAt + 0x4) c.l1ToL2Msgs)) := by
  obtain ⟨h₁, h₂, h₃, h₄, h₅, h₆⟩ := h
  simp only [Counts.nullifiersAt, Counts.publicDataWritesAt, Counts.l2ToL1MsgsAt,
    Counts.contractsAt, Counts.l1ToL2MsgsAt] at h₁ h₂ h₃ h₄ h₅ h₆ ⊢
  simp only [decode, h₁, h₂, h₃, h₄, h₅, h₆, bind_eq_bind, bind_some, Nat.zero_add]
  rfl

theorem ReadFrom.unique {c c' : Counts} (h : c.ReadFrom body) (h' : c'.ReadFrom body) : c = c' := by
  obtain ⟨a, b, d, e, f, g⟩ := c
  obtain ⟨a', b', d', e', f', g'⟩ := c'
  obtain rfl := some.inj (h.noteHashes_eq.symm.trans h'.noteHashes_eq)
  obtain rfl := some.inj (h.nullifiers_eq.symm.trans h'.nullifiers_eq)
  obtain rfl := some.inj (h.publicDataWrites_eq.symm.trans h'.publicDataWrites_eq)
  obtain rfl := some.inj (h.l2ToL1Msgs_eq.symm.trans h'.l2ToL1Msgs_eq)
  obtain rfl := some.inj (h.contracts_eq.symm.trans h'.contracts_eq)
  obtain rfl := some.inj (h.l1ToL2Msgs_eq.symm.trans h'.l1ToL2Msgs_eq)
  rfl

@[simp] theorem length_copyWords (offset count : ℕ) :
    (copyWords after body offset count).length = count := by
  rw [copyWords, length_map, length_range]

theorem copyWord_eq {offset : ℕ} (h : offset + 0x20 ≤ body.length) :
    copyWord after body offset = (body.drop offset).take 0x20 := by
  refine ext_getElem? fun i => ?_
  rw [copyWord, List.getElem?_map, List.getElem?_take]
  by_cases hi : i < 32
  · rw [List.getElem?_range hi, if_pos hi, List.getElem?_drop, map_some,
      List.getElem?_eq_getElem (by omega), getD_some]
  · rw [if_neg hi, List.getElem?_eq_none (by simpa using hi), map_none]

theorem copyWords_eq {offset count : ℕ} {bytes : Bytes}
    (h : slice body offset (count * 0x20) = some bytes) :
    copyWords after body offset count = words count bytes := by
  obtain ⟨hle, rfl⟩ := slice_eq_some.1 h
  refine map_congr_left fun i hi => ?_
  have hi := mem_range.1 hi
  rw [copyWord_eq (by omega), drop_take, drop_drop, take_take, Nat.min_eq_left (by omega)]

theorem copyWords_add (offset m n : ℕ) : copyWords after body offset (m + n) =
    copyWords after body offset m ++ copyWords after body (offset + 0x20 * m) n := by
  rw [copyWords, range_add, map_append, List.map_map]
  congr 1
  refine map_congr_left fun i _ => ?_
  rw [Function.comp_apply]
  congr 1
  ring

theorem coveredMessages_eq (n : ℕ) :
    ∀ {offsets : TxsDecoder.ArrayOffsets} {r : List TxsDecoder.BaseLeaf × TxsDecoder.ArrayOffsets},
      TxsDecoder.baseLeaves sha256 body n offsets = some r →
      coveredMessages r.1 = copyWords after body offsets.l2ToL1Msgs (2 * n) := by
  induction n with
  | zero =>
    intro offsets r h
    obtain rfl := some.inj h
    rfl
  | succ n ih =>
    intro offsets r h
    obtain ⟨⟨leaf, offsets₁⟩, hleaf, h⟩ := bind_eq_some_iff.1 h
    obtain ⟨⟨leaves, offsets₂⟩, hleaves, h⟩ := bind_eq_some_iff.1 h
    obtain rfl := some.inj h
    obtain ⟨-, -, -, -, -, hmsgs, -, -, -, hoffsets⟩ := TxsDecoder.baseLeaf_eq_some.1 hleaf
    have hrest := ih hleaves
    rw [hoffsets] at hrest
    have hfirst : copyWords after body offsets.l2ToL1Msgs 2 = words 2 leaf.l2ToL1Msgs :=
      copyWords_eq hmsgs
    rw [show 2 * (n + 1) = 2 + 2 * n by ring, copyWords_add, ← hrest, hfirst]
    rfl

theorem messagesOf_eq {count : ℕ} {l2ToL1Msgs l1ToL2Msgs : List Bytes} (hcount : count < 2 ^ 32)
    (hlength : l2ToL1Msgs.length = count) (hroom : l1ToL2Msgs.length ≤ 16) :
    (messagesOf sha256 memory count l2ToL1Msgs l1ToL2Msgs).l1ToL2Msgs =
        l1ToL2Msgs ++ List.replicate (16 - l1ToL2Msgs.length) (List.replicate 32 0) ∧
      (messagesOf sha256 memory count l2ToL1Msgs l1ToL2Msgs).l2ToL1Msgs = l2ToL1Msgs := by
  set front := l1ToL2Msgs ++
    List.replicate (16 - l1ToL2Msgs.length) (List.replicate 32 (0 : UInt8)) with hfront
  have hfrontLength : front.length = 16 := by
    rw [hfront, length_append, length_replicate]
    omega
  have hwords : l1ToL2Msgs ++ (List.replicate 16 (List.replicate 32 (0 : UInt8)) ++
      write 32 count :: l2ToL1Msgs).drop l1ToL2Msgs.length =
      front ++ write 32 count :: l2ToL1Msgs := by
    rw [drop_append_of_le_length (by rwa [length_replicate]), drop_replicate, ← append_assoc]
  have hread : BigEndian.read (write 32 count) = count := by
    rw [read_write, Nat.mod_eq_of_lt (hcount.trans (by norm_num))]
  have hget : (front ++ write 32 count :: l2ToL1Msgs).getD 16 [] =
      write 32 count := by
    rw [getD_eq_getElem?_getD, List.getElem?_append_right hfrontLength.le, hfrontLength,
      Nat.sub_self, List.getElem?_cons_zero, getD_some]
  have hdrop : (front ++ write 32 count :: l2ToL1Msgs).drop 17 = l2ToL1Msgs := by
    rw [show 17 = front.length + 1 by rw [hfrontLength], drop_length_add_append]
    rfl
  simp only [messagesOf, hwords, hget, hread, hdrop]
  refine ⟨take_left' hfrontLength, ?_⟩
  rw [take_of_length_le hlength.le, length_append, hfrontLength, length_cons,
    show count - (16 + (l2ToL1Msgs.length + 1) - 17) = 0 by omega, range_zero, map_nil, append_nil]

theorem read4_lt {offset n : ℕ} (h : read4 body offset = some n) : n < 2 ^ 32 := by
  obtain ⟨bytes, hslice, rfl⟩ := map_eq_some_iff.1 h
  have hlt := BigEndian.read_lt bytes
  rw [length_of_slice hslice] at hlt
  omega

end Lemmas

theorem decodeLeaves_of_noLeaves {sha256 : Bytes → Bytes32} {body : Bytes} {c : Counts}
    {length : ℕ} (h : c.ReadFrom body) (hlength : read4 body c.encryptedLogsAt = some length)
    (hnone : c.noteHashes / 64 = 0) :
    TxsDecoder.decodeLeaves sha256 body = some ([], TxsDecoder.offsetsOf c length) := by
  refine bind_eq_some_iff.2 ⟨_, TxsDecoder.arrayOffsets_eq_some.2 ⟨c, length, h, hlength, rfl⟩, ?_⟩
  simp only [hnone]
  rfl

/-- **When the messages are those that the leaves commit to**: exactly when the body has two
messages to L1 for each base leaf and at most 16 messages to L2. -/
theorem messages_faithful_iff (sha256 : Bytes → Bytes32) (after : ℕ → UInt8) (memory : ℕ → Bytes)
    (body : Bytes) (c : Counts) (hread : c.ReadFrom body) (messages : Messages)
    (hmessages : decode sha256 after memory body = some messages)
    (leaves : List TxsDecoder.BaseLeaf) (offsets : TxsDecoder.ArrayOffsets)
    (hleaves : TxsDecoder.decodeLeaves sha256 body = some (leaves, offsets)) :
    Faithful body c messages leaves ↔
      c.l2ToL1Msgs = 2 * (c.noteHashes / 64) ∧ c.l1ToL2Msgs ≤ 16 := by
  rw [decode_eq hread] at hmessages
  obtain rfl := Option.some.inj hmessages
  obtain ⟨offsets₀, hoffsets, hleaves⟩ := Option.bind_eq_some_iff.1 hleaves
  obtain ⟨c', length, hread', hlength, rfl⟩ := TxsDecoder.arrayOffsets_eq_some.1 hoffsets
  obtain rfl := ReadFrom.unique hread hread'
  have hcovered : coveredMessages leaves =
      copyWords after body (c.l2ToL1MsgsAt + 0x4) (2 * (c.noteHashes / 64)) :=
    coveredMessages_eq _ hleaves
  -- both sections are followed by a length that is read
  obtain ⟨-, hl2ToL1⟩ := read4_mono prefix_rfl hread.contracts_eq
  obtain ⟨-, hl1ToL2⟩ := read4_mono prefix_rfl hlength
  rw [Counts.contractsAt] at hl2ToL1
  rw [Counts.encryptedLogsAt] at hl1ToL2
  have hof : c.l1ToL2Msgs ≤ 16 → _ := fun hroom =>
    @messagesOf_eq sha256 memory c.l2ToL1Msgs
      (copyWords after body (c.l2ToL1MsgsAt + 0x4) c.l2ToL1Msgs)
      (copyWords after body (c.l1ToL2MsgsAt + 0x4) c.l1ToL2Msgs) (read4_lt hread.l2ToL1Msgs_eq)
      (length_copyWords _ _) (by rwa [length_copyWords])
  constructor
  · intro h
    have hroom : c.l1ToL2Msgs ≤ 16 := by
      have := (h.inBounds ⟨16 * 0x20, c.l1ToL2MsgsAt + 0x4, c.l1ToL2Msgs * 0x20⟩
        (by simp [copies])).1
      simp only at this
      omega
    have hlen := congrArg List.length ((hof hroom).2.symm.trans (h.covered.trans hcovered))
    rw [length_copyWords, length_copyWords] at hlen
    exact ⟨hlen, hroom⟩
  · rintro ⟨hcount, hroom⟩
    obtain ⟨hl1, hl2⟩ := hof hroom
    refine ⟨by rw [hl2, hcovered, hcount], ⟨_, slice_eq_some.2 ⟨by omega, rfl⟩, ?_⟩, ?_⟩
    · rw [hl1, length_copyWords, copyWords_eq (slice_eq_some.2 ⟨by omega, rfl⟩)]
    · intro copy hcopy
      simp only [copies, mem_cons, not_mem_nil, or_false] at hcopy
      rcases hcopy with rfl | rfl
      · exact ⟨le_rfl, by simp only; omega⟩
      · exact ⟨by simp only; omega, by simp only; omega⟩

/-- A body with one base leaf, which has two messages to L1, and with a message to L2. -/
def oneLeaf : Bytes :=
  [write 4 64, List.replicate 2048 1, write 4 64, List.replicate 2048 2, write 4 32,
    List.replicate 2048 3, write 4 2, List.replicate 32 7, List.replicate 32 8, write 4 1,
    List.replicate 84 4, write 4 1, List.replicate 32 9, write 4 4, write 4 0, write 4 4,
    write 4 0].flatten

theorem messages_faithful_oneLeaf : ∃ (messages : Messages) (leaves : List TxsDecoder.BaseLeaf),
    decode (fun _ => Vector.replicate 32 0) (fun _ => 0) (fun _ => []) oneLeaf = some messages ∧
      leaves.length = 1 ∧ Faithful oneLeaf ⟨64, 64, 32, 2, 1, 1⟩ messages leaves := by
  obtain ⟨h₁, h₂, h₃, h₄, h₅, h₆, hleaves⟩ : read4 oneLeaf 0 = some 64 ∧
      read4 oneLeaf 2052 = some 64 ∧ read4 oneLeaf 4104 = some 32 ∧
      read4 oneLeaf 6156 = some 2 ∧ read4 oneLeaf 6224 = some 1 ∧ read4 oneLeaf 6312 = some 1 ∧
      (TxsDecoder.decodeLeaves (fun _ => Vector.replicate 32 0) oneLeaf).map (·.1.length) =
        some 1 := by
    decide +kernel
  have hread : Counts.ReadFrom ⟨64, 64, 32, 2, 1, 1⟩ oneLeaf := ⟨h₁, h₂, h₃, h₄, h₅, h₆⟩
  obtain ⟨⟨leaves, offsets⟩, hleaves, hone⟩ := Option.map_eq_some_iff.1 hleaves
  exact ⟨_, leaves, decode_eq hread, hone, (messages_faithful_iff _ _ _ _ _ hread _
    (decode_eq hread) leaves offsets hleaves).2 (by decide)⟩

/-- A body without base leaves that has one message to L1, which no leaf commits to. -/
theorem not_messages_faithful :
    ¬∀ (body : Bytes) (c : Counts), c.ReadFrom body → ∀ (messages : Messages),
      decode (fun _ => Vector.replicate 32 0) (fun _ => 0) (fun _ => []) body = some messages →
      ∀ leaves offsets, TxsDecoder.decodeLeaves (fun _ => Vector.replicate 32 0) body =
        some (leaves, offsets) → Faithful body c messages leaves := by
  intro h
  have hread : Counts.ReadFrom ⟨0, 0, 0, 1, 0, 0⟩
      (List.replicate 15 0 ++ [1] ++ List.replicate 32 7 ++ List.replicate 12 0) :=
    ⟨by decide, by decide, by decide, by decide,
      by decide, by decide⟩
  have hfaithful := h _ _ hread _ (decode_eq hread) [] _
    (@decodeLeaves_of_noLeaves _ _ _ 0 hread (by decide) (by decide))
  have hlen := congrArg List.length hfaithful.covered
  revert hlen
  decide

end MessagesDecoder
