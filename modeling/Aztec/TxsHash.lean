/-
**The hash of the transactions, on L1 and in the circuits.**

The base rollup hashes the data of its transaction to two field elements of 128 bits, and the
rollups above it hash these pairwise.  `TxsDecoder` computes the same from the block body: when the
body is the data of the base rollups in the documented layout, the root is that of the circuits, and
a body that is cut short is rejected.  Bytes behind the last log are not read.
-/

import Aztec.BlockBody
import Aztec.Merkle
import Aztec.Recombination

open List hiding Vector
open Vector (length_toList replicate)

namespace TxsHash

open BlockBody TxsDecoder Merkle Kernel Noir BigEndian

/-! ### The circuits -/

section Circuit

/-- `U256::from_bytes32`, the four limbs of 64 bits. -/
def fromBytes32 (bytes : Bytes32) : Vector ℕ 4 :=
  Vector.ofFn fun i => read ((bytes.toList.drop (8 * i)).take 8)

def toU128Limbs (inner : Vector ℕ 4) : Vector Field 2 :=
  #v[inner.head * 2 ^ 64 + inner[1], inner[2] * 2 ^ 64 + inner[3]]

def limbs (bytes : Bytes32) : Vector Field 2 := toU128Limbs (fromBytes32 bytes)

variable (sha256 : Bytes → Bytes32) (pedersenHash : List Field → Field)

/-- `accumulate_sha256`, of the limbs of two hashes. -/
def accumulateSha256 (left right : Vector Field 2) : Vector Field 2 :=
  limbs (sha256 ((left.toList ++ right.toList).flatMap (write 16)))

def isEmptyContract (contract : NewContractData) : Bool :=
  contract.contractAddress = 0 && contract.portalContractAddress = 0 &&
    contract.contractClassId = 0

def hashContract (contract : NewContractData) : Field :=
  if isEmptyContract contract then 0
  else pedersenHash
    [contract.contractAddress, contract.portalContractAddress, contract.contractClassId]

/-- `calldata_hash_inputs`, which is filled segment by segment. -/
def calldataHashInputs (combined : CombinedData) : List Field :=
  combined.newNoteHashes.toList.map SideEffect.value ++
    combined.newNullifiers.toList.map SideEffectLinkedToNoteHash.value ++
    combined.publicDataUpdateRequests.toList.flatMap
      (fun request => [request.leafSlot, request.newValue]) ++
    combined.newL2ToL1Msgs.toList ++
    [hashContract pedersenHash combined.newContracts[0]] ++
    [combined.newContracts[0].contractAddress, combined.newContracts[0].portalContractAddress] ++
    combined.encryptedLogsHash.toList ++
    combined.unencryptedLogsHash.toList

def componentsComputeKernelCalldataHash (combined : CombinedData) : Vector Field 2 :=
  let inputs := calldataHashInputs pedersenHash combined
  limbs (sha256 ((inputs.take 197).flatMap (write 32) ++
    ((inputs.drop 197).take 4).flatMap (write 16)))

end Circuit

/-! ### The body -/

/-- The data of a base rollup, with the logs of its function calls. -/
structure TxData where
  combined : CombinedData
  encryptedLogs : List Bytes
  unencryptedLogs : List Bytes

section Body

/-- The logs of the function calls, each behind its length. -/
def functionLogs (logs : List Bytes) : Bytes :=
  logs.flatMap fun log => write 4 log.length ++ log

def kernelLogs (logs : List Bytes) : Bytes :=
  write 4 (functionLogs logs).length ++ functionLogs logs

/-- The accumulation of the hashes of the function calls. -/
def kernelLogsHash (sha256 : Bytes → Bytes32) (logs : List Bytes) : Bytes32 :=
  logs.foldl (fun hash log => sha256 (hash.toList ++ (sha256 log).toList)) (Vector.replicate 32 0)

namespace TxData

variable (tx : TxData)

def noteHashes : Bytes :=
  tx.combined.newNoteHashes.toList.flatMap fun noteHash => write 32 noteHash.value

def nullifiers : Bytes :=
  tx.combined.newNullifiers.toList.flatMap fun nullifier => write 32 nullifier.value

def publicData : Bytes :=
  tx.combined.publicDataUpdateRequests.toList.flatMap fun request =>
    write 32 request.leafSlot ++ write 32 request.newValue

def l2ToL1Msgs : Bytes := tx.combined.newL2ToL1Msgs.toList.flatMap (write 32)

def contracts (pedersenHash : List Field → Field) : Bytes :=
  write 32 (hashContract pedersenHash tx.combined.newContracts[0])

def contractData : Bytes :=
  write 32 tx.combined.newContracts[0].contractAddress ++
    write 20 tx.combined.newContracts[0].portalContractAddress

/-- The hashes of the logs are those of the kernel, and the portal is an address on L1. -/
structure WellFormed (sha256 : Bytes → Bytes32) : Prop where
  encryptedLogsHash_eq : tx.combined.encryptedLogsHash =
    limbs (kernelLogsHash sha256 tx.encryptedLogs)
  unencryptedLogsHash_eq : tx.combined.unencryptedLogsHash =
    limbs (kernelLogsHash sha256 tx.unencryptedLogs)
  portal_lt : tx.combined.newContracts[0].portalContractAddress < 2 ^ 160

end TxData

/-- The sections of a body, each behind its length, as the outline has them. -/
def sections (pedersenHash : List Field → Field) (txs : List TxData)
    (l1ToL2Msgs : List Bytes32) : List Bytes :=
  let encryptedLogs := txs.flatMap fun tx => kernelLogs tx.encryptedLogs
  let unencryptedLogs := txs.flatMap fun tx => kernelLogs tx.unencryptedLogs
  [write 4 (txs.length * 64), txs.flatMap TxData.noteHashes,
    write 4 (txs.length * 64), txs.flatMap TxData.nullifiers,
    write 4 (txs.length * 32), txs.flatMap TxData.publicData,
    write 4 (txs.length * 2), txs.flatMap TxData.l2ToL1Msgs,
    write 4 txs.length, txs.flatMap (TxData.contracts · pedersenHash),
    txs.flatMap TxData.contractData,
    write 4 l1ToL2Msgs.length, l1ToL2Msgs.flatMap Vector.toList,
    write 4 encryptedLogs.length, encryptedLogs,
    write 4 unencryptedLogs.length, unencryptedLogs]

def encodeBody (pedersenHash : List Field → Field) (txs : List TxData)
    (l1ToL2Msgs : List Bytes32) : Bytes :=
  (sections pedersenHash txs l1ToL2Msgs).flatten

/-- The lengths fit in the four bytes the layout has for them. -/
structure Encodable (txs : List TxData) (l1ToL2Msgs : List Bytes32) : Prop where
  noteHashes_lt : txs.length * 64 < 2 ^ 32
  l1ToL2Msgs_lt : l1ToL2Msgs.length < 2 ^ 32
  encryptedLogs_lt : (txs.flatMap fun tx => kernelLogs tx.encryptedLogs).length < 2 ^ 32
  unencryptedLogs_lt : (txs.flatMap fun tx => kernelLogs tx.unencryptedLogs).length < 2 ^ 32

def leafOf (sha256 : Bytes → Bytes32) (pedersenHash : List Field → Field) (tx : TxData) :
    BaseLeaf where
  noteHashes := tx.noteHashes
  nullifiers := tx.nullifiers
  publicData := tx.publicData
  l2ToL1Msgs := tx.l2ToL1Msgs
  contracts := tx.contracts pedersenHash
  aztecAddress := write 32 tx.combined.newContracts[0].contractAddress
  ethAddress := write 20 tx.combined.newContracts[0].portalContractAddress
  encryptedLogsHash := kernelLogsHash sha256 tx.encryptedLogs
  unencryptedLogsHash := kernelLogsHash sha256 tx.unencryptedLogs

end Body

/-! ### Limbs -/

section Limbs

theorem write_add (high low n : ℕ) : write (high + low) n =
    write high (n / 256 ^ low) ++ write low n := by
  induction low generalizing n with
  | zero => simp [write]
  | succ low ih =>
    rw [← Nat.add_assoc, write, ih, write, append_assoc, Nat.div_div_eq_div_mul, ← pow_succ']

theorem write_zero (size : ℕ) : write size 0 = List.replicate size 0 := by
  induction size with
  | zero => rfl
  | succ size ih =>
    rw [write, Nat.zero_div, ih, replicate_succ']
    rfl

theorem write_limbs {l : Bytes} (hl : l.length = 16) : write 16
    (read (l.take 8) * 2 ^ 64 + read ((l.drop 8).take 8)) = l := by
  have hlow : (l.drop 8).length = 8 := by rw [length_drop, hl]
  have hread := read_append (l.take 8) (l.drop 8)
  rw [hlow, take_append_drop, show (256 : ℕ) ^ 8 = 2 ^ 64 by norm_num] at hread
  rw [take_of_length_le hlow.le, ← hread, ← hl, write_read]

theorem flatMap_limbs (bytes : Bytes32) :
    (limbs bytes).toList.flatMap (write 16) = bytes.toList := by
  have hlen : bytes.toList.length = 32 := length_toList
  have hhigh := write_limbs (l := bytes.toList.take 16) (by rw [length_take, hlen]; rfl)
  have hlow := write_limbs (l := bytes.toList.drop 16) (by rw [length_drop, hlen])
  rw [take_take, drop_take, take_take, show min 8 16 = 8 from rfl,
    show min 8 (16 - 8) = 8 from rfl] at hhigh
  rw [drop_drop] at hlow
  have hlimbs : (limbs bytes).toList = [read (bytes.toList.take 8) * 2 ^ 64 +
          read ((bytes.toList.drop 8).take 8),
        read ((bytes.toList.drop 16).take 8) * 2 ^ 64 + read ((bytes.toList.drop 24).take 8)] := by
    simp [limbs, toU128Limbs, fromBytes32, Vector.head]
  rw [hlimbs, flatMap_cons, flatMap_singleton, hhigh, hlow, take_append_drop]

theorem accumulateSha256_limbs (sha256 : Bytes → Bytes32) (left right : Bytes32) :
    accumulateSha256 sha256 (limbs left) (limbs right) =
      limbs (sha256 (left.toList ++ right.toList)) := by
  rw [accumulateSha256, flatMap_append, flatMap_limbs, flatMap_limbs]

def fullFields (pedersenHash : List Field → Field) (combined : CombinedData) : List Field :=
  combined.newNoteHashes.toList.map SideEffect.value ++
    combined.newNullifiers.toList.map SideEffectLinkedToNoteHash.value ++
    combined.publicDataUpdateRequests.toList.flatMap
      (fun request => [request.leafSlot, request.newValue]) ++
    combined.newL2ToL1Msgs.toList ++
    [hashContract pedersenHash combined.newContracts[0]] ++
    [combined.newContracts[0].contractAddress, combined.newContracts[0].portalContractAddress]

theorem length_fullFields (pedersenHash : List Field → Field) (combined : CombinedData) :
    (fullFields pedersenHash combined).length = 197 := by
  have hrequests : (combined.publicDataUpdateRequests.toList.flatMap
      (fun request => [request.leafSlot, request.newValue])).length = 64 := by
    simp [length_flatMap]
  simp only [fullFields, length_append, length_map, length_toList, hrequests,
    length_cons, length_nil]

theorem componentsComputeKernelCalldataHash_eq (sha256 : Bytes → Bytes32)
    (pedersenHash : List Field → Field) (combined : CombinedData) :
    componentsComputeKernelCalldataHash sha256 pedersenHash combined =
      limbs (sha256 ((fullFields pedersenHash combined).flatMap (write 32) ++
        (combined.encryptedLogsHash.toList ++ combined.unencryptedLogsHash.toList).flatMap
          (write 16))) := by
  have hinputs : calldataHashInputs pedersenHash combined = fullFields pedersenHash combined ++
      (combined.encryptedLogsHash.toList ++ combined.unencryptedLogsHash.toList) := by
    rw [calldataHashInputs, fullFields, ← append_assoc]
  have hlogs : (combined.encryptedLogsHash.toList ++ combined.unencryptedLogsHash.toList).take 4 =
      combined.encryptedLogsHash.toList ++ combined.unencryptedLogsHash.toList :=
    take_of_length_le (by simp)
  have hlen := length_fullFields pedersenHash combined
  have htake : (calldataHashInputs pedersenHash combined).take 197 =
      fullFields pedersenHash combined := by
    rw [hinputs]
    exact take_left' hlen
  have hdrop : (calldataHashInputs pedersenHash combined).drop 197 =
      combined.encryptedLogsHash.toList ++ combined.unencryptedLogsHash.toList := by
    rw [hinputs]
    exact drop_left' hlen
  unfold componentsComputeKernelCalldataHash
  dsimp only
  rw [htake, hdrop, hlogs]

theorem limbs_toBytes {sha256 : Bytes → Bytes32} (pedersenHash : List Field → Field) {tx : TxData}
    (h : tx.WellFormed sha256) : limbs (sha256 (leafOf sha256 pedersenHash tx).toBytes) =
      componentsComputeKernelCalldataHash sha256 pedersenHash tx.combined := by
  have hportal : write 32 tx.combined.newContracts[0].portalContractAddress =
      List.replicate 12 (0 : UInt8) ++
        write 20 tx.combined.newContracts[0].portalContractAddress := by
    rw [show (32 : ℕ) = 12 + 20 by rfl, write_add, Nat.div_eq_of_lt, write_zero]
    exact h.portal_lt.trans_le (by norm_num)
  rw [componentsComputeKernelCalldataHash_eq, h.encryptedLogsHash_eq, h.unencryptedLogsHash_eq,
    flatMap_append, flatMap_limbs, flatMap_limbs, fullFields]
  refine congrArg (fun bytes => limbs (sha256 bytes)) ?_
  simp only [BaseLeaf.toBytes, leafOf, TxData.noteHashes, TxData.nullifiers, TxData.publicData,
    TxData.l2ToL1Msgs, TxData.contracts, flatMap_append, flatMap_map, flatMap_assoc,
    flatMap_cons, flatMap_nil, append_nil, hportal, append_assoc]

end Limbs

/-! ### The leaves of a body -/

section Leaves

variable {sha256 : Bytes → Bytes32} {pedersenHash : List Field → Field} {body : Bytes}

theorem stands_section (ss : List Bytes) {i : ℕ} {bytes : Bytes} (h : ss[i]? = some bytes) :
    Stands ss.flatten (ss.take i).flatten.length bytes := by
  obtain ⟨hi, rfl⟩ := List.getElem?_eq_some_iff.1 h
  refine ⟨(ss.take i).flatten, (ss.drop (i + 1)).flatten, ?_, rfl⟩
  rw [append_assoc, ← flatten_cons, ← drop_eq_getElem_cons hi, ← flatten_append, take_append_drop]

theorem logsLoop_of_stands (logs : List Bytes) :
    ∀ {turns offset : ℕ} {hash : Bytes32}, Stands body offset (functionLogs logs) →
      (functionLogs logs).length ≤ turns → (functionLogs logs).length < 2 ^ 32 →
      logsLoop sha256 body turns offset (functionLogs logs).length hash =
        some (logs.foldl (fun hash log => sha256 (hash.toList ++ (sha256 log).toList)) hash,
          offset + (functionLogs logs).length) := by
  induction logs with
  | nil =>
    intro turns offset hash _ _ _
    cases turns with
    | zero => rfl
    | succ turns => rfl
  | cons log logs ih =>
    intro turns offset hash hstands hturns hlt
    have hcons : functionLogs (log :: logs) = write 4 log.length ++ (log ++ functionLogs logs) := by
      rw [functionLogs, flatMap_cons, append_assoc]
      rfl
    have hlen : (functionLogs (log :: logs)).length =
        log.length + 4 + (functionLogs logs).length := by
      rw [hcons, length_append, length_append, length_write]
      omega
    obtain ⟨turns, rfl⟩ : ∃ t, turns = t + 1 := ⟨turns - 1, by omega⟩
    rw [hcons] at hstands
    have hlog := hstands.right
    rw [length_write] at hlog
    have hrest := hlog.right
    rw [hlen] at hturns hlt ⊢
    refine (logsLoop_succ_eq_some (by omega)).2 ⟨log.length, log, hstands.left.read4 (by omega),
      hlog.left.slice rfl, by omega, ?_⟩
    rw [Nat.add_sub_cancel_left, ih hrest (by omega) (by omega), foldl_cons]
    congr 2
    omega

theorem computeKernelLogsHash_of_stands {logs : List Bytes} {offset : ℕ}
    (h : Stands body offset (kernelLogs logs)) (hlt : (kernelLogs logs).length < 2 ^ 32) :
    computeKernelLogsHash sha256 offset body =
      some (kernelLogsHash sha256 logs, offset + (kernelLogs logs).length) := by
  have hrest := h.right
  rw [length_write] at hrest
  rw [kernelLogs, length_append, length_write] at hlt ⊢
  refine Option.bind_eq_some_iff.2 ⟨_, h.left.read4 (by omega), ?_⟩
  rw [logsLoop_of_stands logs hrest le_rfl (by omega), Nat.add_assoc]
  rfl

theorem length_noteHashes (tx : TxData) : tx.noteHashes.length = 2048 := by
  simp [TxData.noteHashes, length_flatMap]

theorem length_nullifiers (tx : TxData) : tx.nullifiers.length = 2048 := by
  simp [TxData.nullifiers, length_flatMap]

theorem length_publicData (tx : TxData) : tx.publicData.length = 2048 := by
  simp [TxData.publicData, length_flatMap]

theorem length_l2ToL1Msgs (tx : TxData) : tx.l2ToL1Msgs.length = 64 := by
  simp [TxData.l2ToL1Msgs, length_flatMap]

theorem length_contractData (tx : TxData) : tx.contractData.length = 52 := by
  simp [TxData.contractData]

structure Sections (pedersenHash : List Field → Field) (body : Bytes) (txs : List TxData)
    (offsets : ArrayOffsets) : Prop where
  noteHash : Stands body offsets.noteHash (txs.flatMap TxData.noteHashes)
  nullifier : Stands body offsets.nullifier (txs.flatMap TxData.nullifiers)
  publicData : Stands body offsets.publicData (txs.flatMap TxData.publicData)
  l2ToL1Msgs : Stands body offsets.l2ToL1Msgs (txs.flatMap TxData.l2ToL1Msgs)
  contracts : Stands body offsets.contracts (txs.flatMap (TxData.contracts · pedersenHash))
  contractData : Stands body offsets.contractData (txs.flatMap TxData.contractData)
  encryptedLogs : Stands body offsets.encryptedLogs
    (txs.flatMap fun tx => kernelLogs tx.encryptedLogs)
  unencryptedLogs : Stands body offsets.unencryptedLogs
    (txs.flatMap fun tx => kernelLogs tx.unencryptedLogs)

theorem baseLeaves_of_sections (txs : List TxData) :
    ∀ {offsets : ArrayOffsets}, Sections pedersenHash body txs offsets →
      (txs.flatMap fun tx => kernelLogs tx.encryptedLogs).length < 2 ^ 32 →
      (txs.flatMap fun tx => kernelLogs tx.unencryptedLogs).length < 2 ^ 32 →
      ∃ offsets', baseLeaves sha256 body txs.length offsets =
          some (txs.map (leafOf sha256 pedersenHash), offsets') ∧
        offsets'.unencryptedLogs = offsets.unencryptedLogs +
          (txs.flatMap fun tx => kernelLogs tx.unencryptedLogs).length := by
  induction txs with
  | nil =>
    intro offsets _ _ _
    exact ⟨offsets, rfl, rfl⟩
  | cons tx txs ih =>
    intro offsets h hencrypted hunencrypted
    simp only [flatMap_cons, length_append] at hencrypted hunencrypted
    obtain ⟨h₁, h₂, h₃, h₄, h₅, h₆, h₇, h₈⟩ := h
    simp only [flatMap_cons] at h₁ h₂ h₃ h₄ h₅ h₆ h₇ h₈
    have hleaf : baseLeaf sha256 body offsets = some (leafOf sha256 pedersenHash tx,
        ⟨offsets.noteHash + 2048, offsets.nullifier + 2048, offsets.publicData + 2048,
          offsets.l2ToL1Msgs + 64, offsets.contracts + 32, offsets.contractData + 52,
          offsets.encryptedLogs + (kernelLogs tx.encryptedLogs).length,
          offsets.unencryptedLogs + (kernelLogs tx.unencryptedLogs).length⟩) := by
      have hportal := h₆.left.right
      rw [length_write] at hportal
      exact baseLeaf_eq_some.2 ⟨computeKernelLogsHash_of_stands h₇.left (by omega),
        computeKernelLogsHash_of_stands h₈.left (by omega),
        h₁.left.slice (length_noteHashes tx), h₂.left.slice (length_nullifiers tx),
        h₃.left.slice (length_publicData tx), h₄.left.slice (length_l2ToL1Msgs tx),
        h₅.left.slice (length_write _ _),
        h₆.left.left.slice (length_write _ _),
        hportal.slice (length_write _ _), rfl⟩
    have hrest : Sections pedersenHash body txs
        ⟨offsets.noteHash + 2048, offsets.nullifier + 2048, offsets.publicData + 2048,
          offsets.l2ToL1Msgs + 64, offsets.contracts + 32, offsets.contractData + 52,
          offsets.encryptedLogs + (kernelLogs tx.encryptedLogs).length,
          offsets.unencryptedLogs + (kernelLogs tx.unencryptedLogs).length⟩ :=
      ⟨length_noteHashes tx ▸ h₁.right, length_nullifiers tx ▸ h₂.right,
        length_publicData tx ▸ h₃.right, length_l2ToL1Msgs tx ▸ h₄.right,
        length_write 32 _ ▸ h₅.right, length_contractData tx ▸ h₆.right, h₇.right,
        h₈.right⟩
    obtain ⟨offsets', hleaves, hend⟩ := ih hrest (by omega) (by omega)
    refine ⟨offsets', ?_, ?_⟩
    · exact Option.bind_eq_some_iff.2 ⟨_, hleaf, Option.bind_eq_some_iff.2 ⟨_, hleaves, rfl⟩⟩
    · rw [hend, flatMap_cons, length_append, Nat.add_assoc]

end Leaves

/-! ### The root -/

section Root

theorem node_map {α β : Type} {H : α → α → α} {H' : β → β → β} (φ : α → β)
    (hφ : ∀ a b, φ (H a b) = H' (φ a) (φ b)) (f : ℕ → α) :
    ∀ height index, φ (node H f height index) = node H' (fun i => φ (f i)) height index := by
  intro height
  induction height with
  | zero => intro index; rfl
  | succ height ih => intro index; rw [node_succ, node_succ, hφ, ih, ih]

variable {sha256 : Bytes → Bytes32}

def hashPair (sha256 : Bytes → Bytes32) (left right : Bytes32) : Bytes32 :=
  sha256 (left.toList ++ right.toList)

theorem treeDepth_eq {k : ℕ} (turns : ℕ) :
    ∀ {depth : ℕ}, depth ≤ k → k ≤ depth + turns → treeDepth (2 ^ k) turns depth = k := by
  induction turns with
  | zero => intro depth h₁ h₂; rw [treeDepth]; omega
  | succ turns ih =>
    intro depth h₁ h₂
    rw [treeDepth]
    split
    · next hlt => exact ih ((Nat.pow_lt_pow_iff_right one_lt_two).1 hlt) (by omega)
    · next hge =>
        have := (Nat.pow_le_pow_iff_right one_lt_two).1 (not_lt.1 hge)
        omega

theorem foldl_hashPairs (n : ℕ) (leafs : List Bytes32) (hlen : 2 * n ≤ leafs.length) :
    let leafs' := (List.range n).foldl (fun leafs j =>
      leafs.set j (sha256 ((leafs.getD (2 * j) (replicate 32 0)).toList ++
        (leafs.getD (2 * j + 1) (replicate 32 0)).toList))) leafs
    leafs'.length = leafs.length ∧ ∀ i, leafs'.getD i (replicate 32 0) =
      if i < n then hashPair sha256 (leafs.getD (2 * i) (replicate 32 0))
        (leafs.getD (2 * i + 1) (replicate 32 0))
      else leafs.getD i (replicate 32 0) := by
  induction n with
  | zero => simp
  | succ n ih =>
    obtain ⟨ihlen, ihget⟩ := ih (by omega)
    have hleft := ihget (2 * n)
    have hright := ihget (2 * n + 1)
    rw [if_neg (by omega)] at hleft hright
    simp only [range_succ, foldl_append, foldl_cons, foldl_nil, hleft, hright]
    refine ⟨by rw [length_set, ihlen], fun i => ?_⟩
    rw [getD_eq_getElem?_getD, List.getElem?_set, ihlen]
    by_cases hi : n = i
    · subst hi
      rw [if_pos rfl, if_pos (by omega), if_pos (by omega), Option.getD_some]
      rfl
    · rw [if_neg hi, ← getD_eq_getElem?_getD, ihget]
      by_cases hlt : i < n
      · rw [if_pos hlt, if_pos (by omega)]
      · rw [if_neg hlt, if_neg (by omega)]

theorem hashLevels_eq {f : ℕ → Bytes32} (depth : ℕ) :
    ∀ {height : ℕ} {leafs : List Bytes32}, 2 ^ depth ≤ leafs.length →
      (∀ i < 2 ^ depth, leafs.getD i (replicate 32 0) = node (hashPair sha256) f height i) →
      (hashLevels sha256 depth (2 ^ depth) leafs).getD 0 (replicate 32 0) =
        node (hashPair sha256) f (height + depth) 0 := by
  induction depth with
  | zero => intro height leafs _ h; exact h 0 Nat.one_pos
  | succ depth ih =>
    intro height leafs hlen h
    have hhalf : 2 ^ (depth + 1) / 2 = 2 ^ depth := by omega
    obtain ⟨hlen', hget⟩ := @foldl_hashPairs sha256 (2 ^ depth) leafs (by omega)
    rw [hashLevels, hashPairs, hhalf, ih (by omega) fun i hi => ?_]
    · rw [show height + 1 + depth = height + (depth + 1) by omega]
    · rw [hget, if_pos hi, h _ (by omega), h _ (by omega), node_succ]

theorem computeRoot_eq {k : ℕ} {leafs : List Bytes32} (hlen : leafs.length = 2 ^ k)
    (memory : ℕ → Bytes32) : computeRoot sha256 memory leafs =
      node (hashPair sha256) (fun i => leafs.getD i (replicate 32 0)) k 0 := by
  have hdepth : treeDepth (2 ^ k) (2 ^ k) 0 = k :=
    treeDepth_eq _ (Nat.zero_le k) (by rw [Nat.zero_add]; exact Nat.lt_two_pow_self.le)
  rw [computeRoot]
  simp only [hlen, hdepth, Nat.sub_self, range_zero, map_nil, append_nil]
  have hlevels : (hashLevels sha256 k (2 ^ k) leafs).getD 0 (replicate 32 0) =
      node (hashPair sha256) (fun i => leafs.getD i (replicate 32 0)) (0 + k) 0 :=
    hashLevels_eq k hlen.ge fun i _ => rfl
  rw [hlevels, Nat.zero_add]

end Root

/-! ### The hash of a body -/

section Hash

variable {sha256 : Bytes → Bytes32} {pedersenHash : List Field → Field} {txs : List TxData}
  {l1ToL2Msgs : List Bytes32}

theorem length_flatMap_eq {α : Type} {f : α → Bytes} {size : ℕ} (h : ∀ a, (f a).length = size)
    (l : List α) : (l.flatMap f).length = l.length * size := by
  simp [length_flatMap, h]

def countsOf (txs : List TxData) (l1ToL2Msgs : List Bytes32) : Counts :=
  ⟨txs.length * 64, txs.length * 64, txs.length * 32, txs.length * 2, txs.length,
    l1ToL2Msgs.length⟩

theorem stands_encodeBody {i offset : ℕ} {bytes : Bytes}
    (h : (sections pedersenHash txs l1ToL2Msgs)[i]? = some bytes)
    (hoffset : ((sections pedersenHash txs l1ToL2Msgs).take i).flatten.length = offset) :
    Stands (encodeBody pedersenHash txs l1ToL2Msgs) offset bytes :=
  hoffset ▸ stands_section _ h

structure SectionLengths (pedersenHash : List Field → Field) (txs : List TxData)
    (l1ToL2Msgs : List Bytes32) : Prop where
  noteHashes : (txs.flatMap TxData.noteHashes).length = txs.length * 2048
  nullifiers : (txs.flatMap TxData.nullifiers).length = txs.length * 2048
  publicData : (txs.flatMap TxData.publicData).length = txs.length * 2048
  l2ToL1Msgs : (txs.flatMap TxData.l2ToL1Msgs).length = txs.length * 64
  contracts : (txs.flatMap (TxData.contracts · pedersenHash)).length = txs.length * 32
  contractData : (txs.flatMap TxData.contractData).length = txs.length * 52
  l1ToL2Msgs : (l1ToL2Msgs.flatMap Vector.toList).length = l1ToL2Msgs.length * 32

theorem sectionLengths : SectionLengths pedersenHash txs l1ToL2Msgs where
  noteHashes := length_flatMap_eq length_noteHashes txs
  nullifiers := length_flatMap_eq length_nullifiers txs
  publicData := length_flatMap_eq length_publicData txs
  l2ToL1Msgs := length_flatMap_eq length_l2ToL1Msgs txs
  contracts := length_flatMap_eq (fun _ => length_write _ _) txs
  contractData := length_flatMap_eq length_contractData txs
  l1ToL2Msgs := length_flatMap_eq (fun _ => length_toList) l1ToL2Msgs

theorem readFrom_encodeBody (henc : Encodable txs l1ToL2Msgs) :
    (countsOf txs l1ToL2Msgs).ReadFrom (encodeBody pedersenHash txs l1ToL2Msgs) := by
  obtain ⟨h₁, h₂, h₃, h₄, h₅, h₆, -⟩ := @sectionLengths pedersenHash txs l1ToL2Msgs
  have hlt := henc.noteHashes_lt
  -- the offset of a length is that of the sections in front of it
  refine ⟨(stands_encodeBody (i := 0) rfl ?_).read4 (by omega),
    (stands_encodeBody (i := 2) rfl ?_).read4 (by omega),
    (stands_encodeBody (i := 4) rfl ?_).read4 (by omega),
    (stands_encodeBody (i := 6) rfl ?_).read4 (by omega),
    (stands_encodeBody (i := 8) rfl ?_).read4 (by omega),
    (stands_encodeBody (i := 11) rfl ?_).read4 henc.l1ToL2Msgs_lt⟩ <;>
  simp only [sections, take_succ_cons, take_zero, flatten_cons, flatten_nil,
    length_append, length_nil, length_write, h₁, h₂, h₃, h₄, h₅, h₆,
    Counts.nullifiersAt, Counts.publicDataWritesAt, Counts.l2ToL1MsgsAt, Counts.contractsAt,
    Counts.l1ToL2MsgsAt, countsOf] <;> ring

theorem length_take_encryptedLogs :
    ((sections pedersenHash txs l1ToL2Msgs).take 13).flatten.length =
      (countsOf txs l1ToL2Msgs).encryptedLogsAt := by
  obtain ⟨h₁, h₂, h₃, h₄, h₅, h₆, h₇⟩ := @sectionLengths pedersenHash txs l1ToL2Msgs
  simp only [sections, take_succ_cons, take_zero, flatten_cons, flatten_nil,
    length_append, length_nil, length_write, h₁, h₂, h₃, h₄, h₅, h₆, h₇,
    Counts.nullifiersAt, Counts.publicDataWritesAt, Counts.l2ToL1MsgsAt, Counts.contractsAt,
    Counts.l1ToL2MsgsAt, Counts.encryptedLogsAt, countsOf]
  ring

theorem read4_encryptedLogs (henc : Encodable txs l1ToL2Msgs) :
    read4 (encodeBody pedersenHash txs l1ToL2Msgs) (countsOf txs l1ToL2Msgs).encryptedLogsAt =
      some (txs.flatMap fun tx => kernelLogs tx.encryptedLogs).length :=
  (stands_encodeBody (i := 13) rfl length_take_encryptedLogs).read4 henc.encryptedLogs_lt

theorem stands_logs : Stands (encodeBody pedersenHash txs l1ToL2Msgs)
        ((countsOf txs l1ToL2Msgs).encryptedLogsAt + 4)
        (txs.flatMap fun tx => kernelLogs tx.encryptedLogs) ∧
      Stands (encodeBody pedersenHash txs l1ToL2Msgs)
        ((countsOf txs l1ToL2Msgs).encryptedLogsAt + 4 + 4 +
          (txs.flatMap fun tx => kernelLogs tx.encryptedLogs).length)
        (txs.flatMap fun tx => kernelLogs tx.unencryptedLogs) := by
  have hfront := @length_take_encryptedLogs pedersenHash txs l1ToL2Msgs
  refine ⟨stands_encodeBody (i := 14) rfl ?_, stands_encodeBody (i := 16) rfl ?_⟩
  · rw [take_add_one, flatten_append, length_append, hfront]
    simp [sections]
  · rw [show 16 = 13 + 3 by rfl, take_add, flatten_append, length_append, hfront]
    simp [sections]
    omega

theorem sections_encodeBody : Sections pedersenHash (encodeBody pedersenHash txs l1ToL2Msgs) txs
      (offsetsOf (countsOf txs l1ToL2Msgs)
        (txs.flatMap fun tx => kernelLogs tx.encryptedLogs).length) := by
  obtain ⟨h₁, h₂, h₃, h₄, h₅, -, -⟩ := @sectionLengths pedersenHash txs l1ToL2Msgs
  obtain ⟨hencrypted, hunencrypted⟩ := @stands_logs pedersenHash txs l1ToL2Msgs
  refine ⟨stands_encodeBody (i := 1) rfl ?_, stands_encodeBody (i := 3) rfl ?_,
    stands_encodeBody (i := 5) rfl ?_, stands_encodeBody (i := 7) rfl ?_,
    stands_encodeBody (i := 9) rfl ?_, stands_encodeBody (i := 10) rfl ?_, hencrypted,
    hunencrypted⟩ <;>
  simp only [sections, take_succ_cons, take_zero, flatten_cons, flatten_nil, length_append,
    length_nil, length_write, h₁, h₂, h₃, h₄, h₅, Counts.nullifiersAt, Counts.publicDataWritesAt,
    Counts.l2ToL1MsgsAt, Counts.contractsAt, countsOf, offsetsOf] <;> ring

theorem decodeLeaves_encodeBody (sha256 : Bytes → Bytes32) (henc : Encodable txs l1ToL2Msgs) :
    ∃ offsets, decodeLeaves sha256 (encodeBody pedersenHash txs l1ToL2Msgs) =
        some (txs.map (leafOf sha256 pedersenHash), offsets) ∧
      offsets.unencryptedLogs = (encodeBody pedersenHash txs l1ToL2Msgs).length := by
  obtain ⟨offsets, hleaves, hend⟩ := @baseLeaves_of_sections sha256 pedersenHash _ txs
    _ sections_encodeBody henc.encryptedLogs_lt henc.unencryptedLogs_lt
  refine ⟨offsets, ?_, ?_⟩
  · refine Option.bind_eq_some_iff.2 ⟨_, arrayOffsets_eq_some.2
      ⟨_, _, readFrom_encodeBody henc, read4_encryptedLogs henc, rfl⟩, ?_⟩
    have hcount : (countsOf txs l1ToL2Msgs).noteHashes / 64 = txs.length :=
      Nat.mul_div_cancel _ (by norm_num)
    simp only [hcount]
    exact hleaves
  · -- the unencrypted logs are the last section
    have hlast : (sections pedersenHash txs l1ToL2Msgs).flatten =
        ((sections pedersenHash txs l1ToL2Msgs).take 13).flatten ++
          ((sections pedersenHash txs l1ToL2Msgs).drop 13).flatten := by
      rw [← flatten_append, take_append_drop]
    rw [hend, encodeBody, hlast, length_append, length_take_encryptedLogs]
    simp only [sections, drop_succ_cons, drop_zero, flatten_cons, flatten_nil,
      length_append, length_nil, length_write, offsetsOf]
    omega

/-- **The hash of the transactions is that of the circuits**: over a power of two of base rollups,
the root that the decoder computes from the body is the root over their calldata hashes, and a body
that is cut short is rejected. -/
theorem decode_encodeBody (sha256 : Bytes → Bytes32) (pedersenHash : List Field → Field)
    (memory : ℕ → Bytes32) (k : ℕ) (txs : List TxData) (l1ToL2Msgs : List Bytes32)
    (hcount : txs.length = 2 ^ k) (htxs : ∀ tx ∈ txs, tx.WellFormed sha256)
    (henc : Encodable txs l1ToL2Msgs) :
    (∃ root, decode sha256 memory (encodeBody pedersenHash txs l1ToL2Msgs) = some root ∧
      limbs root = node (accumulateSha256 sha256)
        (fun i => (txs.map fun tx => componentsComputeKernelCalldataHash sha256 pedersenHash
          tx.combined).getD i (limbs (Vector.replicate 32 0))) k 0) ∧
      ∀ m < (encodeBody pedersenHash txs l1ToL2Msgs).length,
        decode sha256 memory ((encodeBody pedersenHash txs l1ToL2Msgs).take m) = none := by
  obtain ⟨offsets, hleaves, hend⟩ := @decodeLeaves_encodeBody pedersenHash _ _ sha256 henc
  have hhash : ∀ a b, limbs (hashPair sha256 a b) =
      accumulateSha256 sha256 (limbs a) (limbs b) :=
    fun a b => (accumulateSha256_limbs sha256 a b).symm
  refine ⟨⟨_, by rw [decode, hleaves, Option.map_some], ?_⟩, fun m hm => ?_⟩
  · dsimp only
    rw [computeRoot_eq (by rw [length_map, length_map, hcount]), node_map limbs hhash]
    have hmap : (txs.map fun tx =>
          componentsComputeKernelCalldataHash sha256 pedersenHash tx.combined) =
        ((txs.map (leafOf sha256 pedersenHash)).map fun leaf => sha256 leaf.toBytes).map limbs := by
      rw [List.map_map, List.map_map]
      exact map_congr_left fun tx htx => (limbs_toBytes pedersenHash (htxs tx htx)).symm
    rw [hmap]
    generalize (txs.map (leafOf sha256 pedersenHash)).map (fun leaf => sha256 leaf.toBytes) = hashes
    congr 1
    funext i
    rw [getD_eq_getElem?_getD, getD_eq_getElem?_getD, List.getElem?_map, Option.getD_map]
  · rw [decode, Option.map_eq_none_iff, ← Option.not_isSome_iff_eq_none]
    intro hsome
    obtain ⟨r, hr⟩ := Option.isSome_iff_exists.1 hsome
    -- the same leaves would be found in the body, whose last log ends behind the cut
    obtain ⟨hr', hle⟩ := decodeLeaves_mono (List.take_prefix m _) hr
    obtain rfl := Option.some.inj (hleaves.symm.trans hr')
    have hne : txs.map (leafOf sha256 pedersenHash) ≠ [] := by
      intro hnil
      have hzero := congrArg List.length hnil
      rw [length_map, hcount] at hzero
      exact absurd hzero (by positivity)
    have := hle hne
    rw [hend, length_take] at this
    omega

def emptyTx : TxData where
  combined :=
    { readRequests := Vector.replicate 128 ⟨0, 0⟩
      nullifierKeyValidationRequests := Vector.replicate 4 Empty.empty
      newNoteHashes := Vector.replicate 64 ⟨0, 0⟩
      newNullifiers := Vector.replicate 64 ⟨0, 0, 0⟩
      privateCallStack := Vector.replicate 8 Empty.empty
      publicCallStack := Vector.replicate 8 Empty.empty
      newL2ToL1Msgs := Vector.replicate 2 0
      encryptedLogsHash := #v[0, 0]
      unencryptedLogsHash := #v[0, 0]
      encryptedLogPreimagesLength := 0
      unencryptedLogPreimagesLength := 0
      newContracts := #v[⟨0, 0, 0⟩]
      publicDataUpdateRequests := Vector.replicate 32 ⟨0, 0⟩
      publicDataReads := Vector.replicate 32 ⟨0, 0⟩ }
  encryptedLogs := []
  unencryptedLogs := []

theorem limbs_zero : limbs (replicate 32 0) = #v[0, 0] := by decide

theorem wellFormed_emptyTx (sha256 : Bytes → Bytes32) : emptyTx.WellFormed sha256 where
  encryptedLogsHash_eq := limbs_zero.symm
  unencryptedLogsHash_eq := limbs_zero.symm
  portal_lt := by decide

theorem encodable_emptyTx : Encodable [emptyTx] [] := by
  constructor <;> decide

/-- A hash for the examples. -/
def byteSum (bytes : Bytes) : Bytes32 := Vector.replicate 32 (bytes.foldl (· + ·) 0)

/-- A base rollup with an entry of every kind and with logs. -/
def filledTx (v : ℕ) (logs : List Bytes) : TxData where
  combined :=
    { emptyTx.combined with
      newNoteHashes := emptyTx.combined.newNoteHashes.set! 0 ⟨v, 2⟩
      newNullifiers := emptyTx.combined.newNullifiers.set! 0 ⟨v + 1, 3, 4⟩
      newL2ToL1Msgs := Vector.replicate 2 (v + 2)
      encryptedLogsHash := limbs (kernelLogsHash byteSum logs)
      unencryptedLogsHash := limbs (kernelLogsHash byteSum logs.reverse)
      newContracts := Vector.replicate 1 ⟨v + 3, v + 4, v + 5⟩
      publicDataUpdateRequests := emptyTx.combined.publicDataUpdateRequests.set! 0 ⟨v, 7⟩ }
  encryptedLogs := logs
  unencryptedLogs := logs.reverse

def filledTxs : List TxData := [filledTx 10 [[1, 2], [3]], filledTx 20 [[4, 5, 6]]]

theorem wellFormed_filledTx {v : ℕ} (hv : v + 4 < 2 ^ 160) (logs : List Bytes) :
    (filledTx v logs).WellFormed byteSum :=
  ⟨rfl, rfl, hv⟩

theorem wellFormed_filledTxs : ∀ tx ∈ filledTxs, tx.WellFormed byteSum :=
  forall_mem_cons.2 ⟨wellFormed_filledTx (by decide) _,
    forall_mem_singleton.2 (wellFormed_filledTx (by decide) _)⟩

theorem encodable_filledTxs : Encodable filledTxs [Vector.replicate 32 9] := by
  constructor <;> decide

/-- The body of two base rollups, with a message from L1. -/
theorem decode_encodeBody_two :
    (∃ root, decode byteSum (fun _ => Vector.replicate 32 0)
        (encodeBody List.sum filledTxs [Vector.replicate 32 9]) = some root ∧
      limbs root = node (accumulateSha256 byteSum) (fun i => (filledTxs.map fun tx =>
        componentsComputeKernelCalldataHash byteSum List.sum tx.combined).getD i
          (limbs (Vector.replicate 32 0))) 1 0) ∧
      ∀ m < (encodeBody List.sum filledTxs [Vector.replicate 32 9]).length,
        decode byteSum (fun _ => Vector.replicate 32 0)
          ((encodeBody List.sum filledTxs [Vector.replicate 32 9]).take m) = none :=
  decode_encodeBody byteSum List.sum _ 1 filledTxs _ rfl wellFormed_filledTxs encodable_filledTxs

/-- Whatever the hash function, a byte behind the last log is not hashed. -/
theorem not_decode_append_ne :
    ¬∃ sha256 : Bytes → Bytes32, ∀ (memory : ℕ → Bytes32) (k : ℕ) (txs : List TxData)
      (l1ToL2Msgs : List Bytes32) (bytes : Bytes), txs.length = 2 ^ k →
      (∀ tx ∈ txs, tx.WellFormed sha256) → Encodable txs l1ToL2Msgs → bytes ≠ [] →
        decode sha256 memory (encodeBody List.sum txs l1ToL2Msgs ++ bytes) ≠
          decode sha256 memory (encodeBody List.sum txs l1ToL2Msgs) := by
  rintro ⟨sha256, h⟩
  obtain ⟨offsets, hleaves, -⟩ := @decodeLeaves_encodeBody List.sum _ _ sha256 encodable_emptyTx
  have hlonger := (decodeLeaves_mono (prefix_append _ [0]) hleaves).1
  refine h (fun _ => Vector.replicate 32 0) 0 [emptyTx] [] [0] rfl
    (fun _ htx => mem_singleton.1 htx ▸ wellFormed_emptyTx _) encodable_emptyTx (by simp) ?_
  rw [decode, decode, hlonger, hleaves]

end Hash

end TxsHash
