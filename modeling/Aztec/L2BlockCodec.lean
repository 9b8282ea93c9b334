/-
**A block on its way through L1.**

`processL2Block` sends the header of a block, the root of its archive and its body;
`getBlockFromCallData` puts the number of the block in the place of the archive's next index.
-/

import Aztec.BodyCodec
import Aztec.WorldStateRuns

open BlockBody BufferReader BigEndian WorldState WorldStateSynchronizer Option

namespace CircuitTypes

/-! ### The data -/

structure AppendOnlyTreeSnapshot where
  root : Fr
  nextAvailableLeafIndex : Fin (2 ^ 32)

namespace AppendOnlyTreeSnapshot

def toBuffer (s : AppendOnlyTreeSnapshot) : Bytes :=
  s.root.toList ++ write 4 s.nextAvailableLeafIndex

def fromBuffer : BufferReader AppendOnlyTreeSnapshot := do
  let root ← Fr.fromBuffer
  let n ← readNumber
  ofOption (if h : n < 2 ^ 32 then some ⟨root, n, h⟩ else none)

end AppendOnlyTreeSnapshot

structure ContentCommitment where
  txTreeHeight : Fr
  txsHash : Bytes32
  inHash : Bytes32
  outHash : Bytes32

/-- `StateReference`, with the fields of its `PartialStateReference`. -/
structure StateReference where
  l1ToL2MessageTree : AppendOnlyTreeSnapshot
  noteHashTree : AppendOnlyTreeSnapshot
  nullifierTree : AppendOnlyTreeSnapshot
  contractTree : AppendOnlyTreeSnapshot
  publicDataTree : AppendOnlyTreeSnapshot

structure GlobalVariables where
  chainId : Fr
  version : Fr
  blockNumber : Fr
  timestamp : Fr
  coinbase : EthAddress
  feeRecipient : Fr

structure Header where
  lastArchive : AppendOnlyTreeSnapshot
  contentCommitment : ContentCommitment
  state : StateReference
  globalVariables : GlobalVariables

def readTuple (n : ℕ) : BufferReader (Vector UInt8 n) := do
  let bytes ← readBytes n
  ofOption (tuple n bytes)

def ContentCommitment.toBuffer (c : ContentCommitment) : Bytes :=
  c.txTreeHeight.toList ++ (c.txsHash.toList ++ (c.inHash.toList ++ c.outHash.toList))

def ContentCommitment.fromBuffer : BufferReader ContentCommitment := do
  let txTreeHeight ← Fr.fromBuffer
  let txsHash ← readTuple 32
  let inHash ← readTuple 32
  let outHash ← readTuple 32
  pure ⟨txTreeHeight, txsHash, inHash, outHash⟩

def StateReference.toBuffer (s : StateReference) : Bytes :=
  s.l1ToL2MessageTree.toBuffer ++ (s.noteHashTree.toBuffer ++ (s.nullifierTree.toBuffer ++
    (s.contractTree.toBuffer ++ s.publicDataTree.toBuffer)))

def StateReference.fromBuffer : BufferReader StateReference := do
  let l1ToL2MessageTree ← AppendOnlyTreeSnapshot.fromBuffer
  let noteHashTree ← AppendOnlyTreeSnapshot.fromBuffer
  let nullifierTree ← AppendOnlyTreeSnapshot.fromBuffer
  let contractTree ← AppendOnlyTreeSnapshot.fromBuffer
  let publicDataTree ← AppendOnlyTreeSnapshot.fromBuffer
  pure ⟨l1ToL2MessageTree, noteHashTree, nullifierTree, contractTree, publicDataTree⟩

def GlobalVariables.toBuffer (g : GlobalVariables) : Bytes :=
  g.chainId.toList ++ (g.version.toList ++ (g.blockNumber.toList ++ (g.timestamp.toList ++
    (g.coinbase.toList ++ g.feeRecipient.toList))))

def GlobalVariables.fromBuffer : BufferReader GlobalVariables := do
  let chainId ← Fr.fromBuffer
  let version ← Fr.fromBuffer
  let blockNumber ← Fr.fromBuffer
  let timestamp ← Fr.fromBuffer
  let coinbase ← readTuple 20
  let feeRecipient ← Fr.fromBuffer
  pure ⟨chainId, version, blockNumber, timestamp, coinbase, feeRecipient⟩

def Header.toBuffer (h : Header) : Bytes :=
  h.lastArchive.toBuffer ++ (h.contentCommitment.toBuffer ++ (h.state.toBuffer ++
    h.globalVariables.toBuffer))

def Header.fromBuffer : BufferReader Header := do
  let lastArchive ← AppendOnlyTreeSnapshot.fromBuffer
  let contentCommitment ← ContentCommitment.fromBuffer
  let state ← StateReference.fromBuffer
  let globalVariables ← GlobalVariables.fromBuffer
  pure ⟨lastArchive, contentCommitment, state, globalVariables⟩

structure L2Block where
  archive : AppendOnlyTreeSnapshot
  header : Header
  body : Body

namespace L2Block

def number (block : L2Block) : ℕ := read block.header.globalVariables.blockNumber.toList

def fromBuffer : BufferReader L2Block := do
  let header ← Header.fromBuffer
  let archive ← AppendOnlyTreeSnapshot.fromBuffer
  let body ← Body.fromBuffer
  pure ⟨archive, header, body⟩

end L2Block

/-! ### The transaction -/

/-- `encodeFunctionData` and `decodeFunctionData`, over the ABI of the rollup. -/
structure Abi (Calldata : Type) where
  encode : String → List Bytes → Calldata
  decode : Calldata → Option (String × List Bytes)

variable {Calldata : Type} (abi : Abi Calldata)

/-- The calldata that `processL2Block` sends, with an empty proof. -/
def processL2Block (block : L2Block) : Option Calldata := do
  let encodedBody ← block.body.toBuffer
  pure (abi.encode "process" [block.header.toBuffer, block.archive.root.toList, encodedBody, []])

def getBlockFromCallData (data : Calldata) (l2BlockNum : ℕ) : Option L2Block := do
  let (functionName, args) ← abi.decode data
  if functionName ≠ "process" then none else
  match args with
  | headerHex :: archiveRootHex :: bodyHex :: _ => do
    let index ← numToUInt32BE l2BlockNum
    let (block, _) ← L2Block.fromBuffer (headerHex ++ (archiveRootHex ++ (index ++ bodyHex))) 0
    if block.number ≠ l2BlockNum then none else some block
  | _ => none

/-- The block comes back from the calldata that it is sent in. -/
def ReadBack (block : L2Block) (l2BlockNum : ℕ) : Prop :=
  ∀ data, processL2Block abi block = some data →
    getBlockFromCallData abi data l2BlockNum = some block

/-- The block is that of place `n` of a chain, from a genesis whose archive has its header. -/
structure BuiltAt {Buffer : Type} [DecidableEq Buffer] (H : Hashes Buffer) (genesis : World Buffer)
    (chain : List (WorldState.L2Block Buffer)) (block : L2Block) (n : ℕ) : Prop where
  genesis_size : genesis.archive.tree.size = 1
  synced : ∀ k b, chain[k]? = some b → (syncFromChain H b (ledger H genesis chain k)).2.isOk = true
  le_length : n ≤ chain.length
  number : block.number = n
  nextAvailableLeafIndex :
    block.archive.nextAvailableLeafIndex = (ledger H genesis chain n).archive.tree.size

/-! ### Reading the block back -/

theorem reads_readTuple {n : ℕ} (v : Vector UInt8 n) : Reads (readTuple n) v.toList v :=
  (reads_readBytes v.length_toList).andThen (reads_ofOption (tuple_toList v))

theorem reads_snapshot (s : AppendOnlyTreeSnapshot) :
    Reads AppendOnlyTreeSnapshot.fromBuffer s.toBuffer s := by
  have hlt := s.nextAvailableLeafIndex.isLt
  exact (reads_fr _).bind ((reads_readNumber hlt).andThen (reads_ofOption (dif_pos hlt)))

theorem reads_contentCommitment (c : ContentCommitment) :
    Reads ContentCommitment.fromBuffer c.toBuffer c := by
  refine (reads_fr _).bind ((reads_readTuple _).bind ((reads_readTuple _).bind ?_))
  exact (reads_readTuple _).andThen (Reads.pure c)

theorem reads_stateReference (s : StateReference) :
    Reads StateReference.fromBuffer s.toBuffer s := by
  refine (reads_snapshot _).bind ((reads_snapshot _).bind ((reads_snapshot _).bind ?_))
  exact (reads_snapshot _).bind ((reads_snapshot _).andThen (Reads.pure s))

theorem reads_globalVariables (g : GlobalVariables) :
    Reads GlobalVariables.fromBuffer g.toBuffer g := by
  refine (reads_fr _).bind ((reads_fr _).bind ((reads_fr _).bind ((reads_fr _).bind ?_)))
  exact (reads_readTuple _).bind ((reads_fr _).andThen (Reads.pure g))

theorem reads_header (h : Header) : Reads Header.fromBuffer h.toBuffer h := by
  refine (reads_snapshot _).bind ((reads_contentCommitment _).bind ?_)
  exact (reads_stateReference _).bind ((reads_globalVariables _).andThen (Reads.pure h))

variable {abi : Abi Calldata} {block rebuilt : L2Block} {encodedBody proof : Bytes}
  {data : Calldata} {n : ℕ}

theorem archive_of_getBlockFromCallData (block : L2Block) (hdata : abi.decode data = some ("process",
      [block.header.toBuffer, block.archive.root.toList, encodedBody, proof]))
    (h : getBlockFromCallData abi data n = some rebuilt) : rebuilt.header = block.header ∧
      rebuilt.archive.root = block.archive.root ∧ rebuilt.archive.nextAvailableLeafIndex = n := by
  simp only [getBlockFromCallData, hdata, bind_eq_bind, bind_some, ne_eq,
    not_true_eq_false, if_false] at h
  obtain ⟨index, hindex, h⟩ := bind_eq_some_iff.1 h
  obtain ⟨hlt, rfl⟩ := numToUInt32BE_eq_some.1 hindex
  obtain ⟨⟨b, i⟩, hb, h⟩ := bind_eq_some_iff.1 h
  obtain rfl : b = rebuilt := by
    split at h
    · cases h
    · exact some.inj h
  -- the bytes of the header, and of a snapshot with the number as its index
  have hstands : Stands (block.header.toBuffer ++ (block.archive.root.toList ++
      (write 4 n ++ encodedBody))) 0
      (block.header.toBuffer ++ AppendOnlyTreeSnapshot.toBuffer ⟨block.archive.root, n, hlt⟩) :=
    ⟨[], encodedBody, by simp [AppendOnlyTreeSnapshot.toBuffer], rfl⟩
  rw [L2Block.fromBuffer, bind_eq_of_eq_some (reads_header _ _ _ hstands.left),
    bind_eq_of_eq_some (reads_snapshot _ _ _ hstands.right)] at hb
  obtain ⟨⟨body, j⟩, -, hb⟩ := bind_eq_some_iff.1 hb
  obtain ⟨rfl, -⟩ := Prod.mk.inj (some.inj hb)
  exact ⟨rfl, rfl, rfl⟩

/-- **Only the index of the archive is lost**: the header, the root and the body come back. -/
theorem getBlockFromCallData_eq (hn : n < 2 ^ 32) (hnumber : block.number = n)
    (hend : block.body.EmptyAtEnd)
    (habi : ∀ args, abi.decode (abi.encode "process" args) = some ("process", args))
    (hsent : processL2Block abi block = some data) : getBlockFromCallData abi data n =
      some { block with archive := ⟨block.archive.root, n, hn⟩ } := by
  obtain ⟨encodedBody, hbody, hdata⟩ := bind_eq_some_iff.1 hsent
  obtain ⟨hfit, rfl⟩ := Body.toBuffer_eq_some.1 hbody
  obtain rfl := some.inj hdata
  have hreads : Reads L2Block.fromBuffer (block.header.toBuffer ++
      (AppendOnlyTreeSnapshot.toBuffer ⟨block.archive.root, n, hn⟩ ++ block.body.bytes))
      ⟨⟨block.archive.root, n, hn⟩, block.header, block.body⟩ :=
    (reads_header _).bind ((reads_snapshot _).bind
      ((Body.reads_fromBuffer hfit hend).andThen (Reads.pure _)))
  have hblock := hreads _ 0 ⟨[], [], by rw [List.nil_append, List.append_nil], rfl⟩
  rw [AppendOnlyTreeSnapshot.toBuffer, List.append_assoc] at hblock
  simp only [getBlockFromCallData, habi, bind_eq_bind, bind_some, ne_eq,
    not_true_eq_false, if_false, numToUInt32BE, if_pos hn, hblock]
  exact if_neg (not_not.2 hnumber)

/-- **No block of a chain is read back as it was built**: the archive has the header of the genesis
as its first leaf, and so one leaf more than the number of the block. -/
theorem not_readBack {Buffer : Type} [DecidableEq Buffer] {H : Hashes Buffer}
    {genesis : World Buffer} {chain : List (WorldState.L2Block Buffer)}
    (hbuilt : BuiltAt H genesis chain block n)
    (habi : ∀ args, abi.decode (abi.encode "process" args) = some ("process", args))
    (hsent : processL2Block abi block = some data) : ¬ ReadBack abi block n := by
  intro h
  obtain ⟨encodedBody, -, hdata⟩ := Option.bind_eq_some_iff.1 hsent
  obtain rfl := Option.some.inj hdata
  have hindex := (archive_of_getBlockFromCallData block (habi _) (h _ hsent)).2.2
  rw [hbuilt.nextAvailableLeafIndex, archive_size hbuilt.synced hbuilt.le_length,
    hbuilt.genesis_size] at hindex
  omega

def plainAbi : Abi (String × List Bytes) := ⟨Prod.mk, some⟩

open StopInCommit

def initialWorld : World ℕ :=
  commit (updateArchive hashes ⟨getStateReference genesis true, 0⟩ genesis).1

def emptySnapshot : AppendOnlyTreeSnapshot := ⟨Fr.zero, 0⟩

def firstBlock : L2Block where
  archive := ⟨Fr.zero, 2⟩
  header :=
    { lastArchive := ⟨Fr.zero, 1⟩
      contentCommitment := ⟨Fr.zero, Fr.zero, Fr.zero, Fr.zero⟩
      state := ⟨emptySnapshot, emptySnapshot, emptySnapshot, emptySnapshot, emptySnapshot⟩
      globalVariables :=
        ⟨Fr.zero, Fr.zero, Fr.zero.set 31 1, Fr.zero, Vector.replicate 20 0, Fr.zero⟩ }
  body := ⟨[], []⟩

theorem builtAt_firstBlock : BuiltAt hashes initialWorld [StopInCommit.block] firstBlock 1 where
  genesis_size := by decide
  synced k b hb := by
    obtain ⟨rfl, rfl⟩ := getElem_block hb
    decide
  le_length := le_rfl
  number := by decide
  nextAvailableLeafIndex := by decide

theorem not_readBack_firstBlock : ¬ ReadBack plainAbi firstBlock 1 :=
  not_readBack builtAt_firstBlock (fun _ => rfl) rfl

/-- **The first block comes back with another index.** -/
theorem not_readBack_chain : ¬ ∀ n block,
    BuiltAt hashes initialWorld [StopInCommit.block] block n → ReadBack plainAbi block n := by
  intro h
  have hread := h 1 firstBlock builtAt_firstBlock _ rfl
  have hindex := (archive_of_getBlockFromCallData firstBlock rfl hread).2.2
  exact absurd hindex (by decide)

/-- The block with the state after three insertions, and with the effects of a transaction that has
logs before those of an empty one. -/
def fullBlock : L2Block :=
  let root := Vector.replicate 32 9
  { archive := ⟨Vector.replicate 32 8, 2⟩
    header :=
      { firstBlock.header with
        lastArchive := ⟨root, 1⟩
        contentCommitment :=
          ⟨Fr.zero.set! 31 1, Vector.replicate 32 4, root, Vector.replicate 32 5⟩
        state := ⟨emptySnapshot, ⟨root, 128⟩, ⟨root, 256⟩, emptySnapshot, ⟨root, 64⟩⟩
        globalVariables :=
          { firstBlock.header.globalVariables with
            chainId := Fr.zero.set! 31 3, timestamp := root, coinbase := Vector.replicate 20 6 } }
    body := ⟨[Vector.replicate 32 5], [oneLogTxEffect, emptyTxEffect]⟩ }

theorem getBlockFromCallData_eq_fullBlock : ∃ data, processL2Block plainAbi fullBlock = some data ∧
    getBlockFromCallData plainAbi data 1 =
      some { fullBlock with archive := ⟨Vector.replicate 32 8, 1, by decide⟩ } := by
  have hfit : fullBlock.body.LengthsFit :=
    ⟨by decide, by decide, by decide, by decide⟩
  have hsent : processL2Block plainAbi fullBlock = some (plainAbi.encode "process"
      [fullBlock.header.toBuffer, fullBlock.archive.root.toList, fullBlock.body.bytes, []]) := by
    rw [processL2Block, Body.toBuffer_eq_some.2 ⟨hfit, rfl⟩]
    rfl
  exact ⟨_, hsent, getBlockFromCallData_eq (by decide) (by decide)
    ⟨[oneLogTxEffect], [emptyTxEffect], rfl,
      fun e he => List.mem_singleton.1 he ▸ by decide,
      fun e he => List.mem_singleton.1 he ▸ ⟨by decide, rfl, rfl⟩⟩ (fun _ => rfl) hsent⟩

end CircuitTypes
