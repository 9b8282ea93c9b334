/-
**Reading unencrypted logs page by page from the archiver stores.**

`getUnencryptedLogs` returns the logs that match a filter, at most a page of them, and says whether
the page was filled; a caller goes on by naming the last log of the page in `afterLog`.  The
archiver has two stores.  The memory store resets the positions in the transaction and in the block
after the first of each, so that `afterLog` is where the next page begins.  The LMDB store compares
the transaction index and the log index of `afterLog` in *every* block and transaction it visits,
and it reports a filled page when the range of blocks is empty.
-/

import Aztec.Paging

open List hiding after
open Option (mem_def some)

namespace LogPagination

open Paging

/-! ### Logs and filters -/

structure UnencryptedL2Log where
  contractAddress : ℕ
  selector : ℕ
  data : List ℕ
  deriving DecidableEq, Repr

structure LogId where
  blockNumber : ℕ
  txIndex : ℕ
  logIndex : ℕ
  deriving DecidableEq, Repr

structure ExtendedUnencryptedL2Log where
  id : LogId
  log : UnencryptedL2Log
  deriving DecidableEq, Repr

/-- A transaction of a block: its hash, and its logs function call by function call. -/
structure Tx where
  txHash : ℕ
  functionLogs : List (List UnencryptedL2Log)
  deriving DecidableEq, Repr

def Tx.unrollLogs (tx : Tx) : List UnencryptedL2Log := tx.functionLogs.flatten

abbrev Block := List Tx

def INITIAL_L2_BLOCK_NUM : ℕ := 1

structure LogFilter where
  txHash : Option ℕ
  fromBlock : Option ℤ
  toBlock : Option ℤ
  afterLog : Option LogId
  contractAddress : Option ℕ
  selector : Option ℕ
  deriving DecidableEq, Repr

open LogFilter

/-- The comparison with the contract address and the selector of a filter. -/
def LogFilter.accepts (filter : LogFilter) (log : UnencryptedL2Log) : Bool :=
  (match filter.contractAddress with
    | some contractAddress => log.contractAddress = contractAddress
    | none => true) &&
  (match filter.selector with
    | some selector => log.selector = selector
    | none => true)

/-- `GetUnencryptedLogsResponse`. -/
structure Response where
  logs : List ExtendedUnencryptedL2Log
  maxLogsHit : Bool
  deriving DecidableEq, Repr

def numbered (blocks : List Block) : List (Block × ℕ) := blocks.zipIdx INITIAL_L2_BLOCK_NUM

def extended (blockNumber txIndex : ℕ) (item : UnencryptedL2Log × ℕ) :
    ExtendedUnencryptedL2Log :=
  ⟨⟨blockNumber, txIndex, item.2⟩, item.1⟩

/-! ### The LMDB store -/

namespace LogStore

def accumulate (logsMaxPageSize : ℕ) (filter : LogFilter) (blockNumber txIndex : ℕ) :
    List ExtendedUnencryptedL2Log → List (UnencryptedL2Log × ℕ) →
      List ExtendedUnencryptedL2Log × Bool
  | results, [] => (results, false)
  | results, item :: rest =>
    if filter.accepts item.1 then
      let results := results ++ [extended blockNumber txIndex item]
      if logsMaxPageSize ≤ results.length then (results, true)
      else accumulate logsMaxPageSize filter blockNumber txIndex results rest
    else accumulate logsMaxPageSize filter blockNumber txIndex results rest

def firstLog (filter : LogFilter) : ℕ :=
  match filter.afterLog with
  | some afterLog => afterLog.logIndex + 1
  | none => 0

def firstTx (filter : LogFilter) : ℕ :=
  match filter.afterLog with
  | some afterLog => afterLog.txIndex
  | none => 0

def accumulateLogs (logsMaxPageSize : ℕ) (filter : LogFilter)
    (results : List ExtendedUnencryptedL2Log) (blockNumber txIndex : ℕ)
    (txLogs : List UnencryptedL2Log) : List ExtendedUnencryptedL2Log × Bool :=
  accumulate logsMaxPageSize filter blockNumber txIndex results
    (txLogs.zipIdx.drop (firstLog filter))

def overTxs (logsMaxPageSize : ℕ) (filter : LogFilter) (blockNumber : ℕ) :
    List ExtendedUnencryptedL2Log → List (Tx × ℕ) → List ExtendedUnencryptedL2Log × Bool
  | results, [] => (results, false)
  | results, (tx, txIndex) :: rest =>
    match accumulateLogs logsMaxPageSize filter results blockNumber txIndex tx.unrollLogs with
    | (results, true) => (results, true)
    | (results, false) => overTxs logsMaxPageSize filter blockNumber results rest

/-- The loop over the blocks, which `break loopOverBlocks` ends. -/
def overBlocks (logsMaxPageSize : ℕ) (filter : LogFilter) :
    List ExtendedUnencryptedL2Log → List (Block × ℕ) → List ExtendedUnencryptedL2Log × Bool
  | results, [] => (results, false)
  | results, (block, blockNumber) :: rest =>
    match overTxs logsMaxPageSize filter blockNumber results
      (block.zipIdx.drop (firstTx filter)) with
    | (results, true) => (results, true)
    | (results, false) => overBlocks logsMaxPageSize filter results rest

/-- The block numbers of a range of the key-value store: the end is exclusive, and a bound that is
zero counts as absent. -/
def inRange (start : ℤ) (stop : Option ℤ) (blockNumber : ℕ) : Bool :=
  (start = 0 || start ≤ blockNumber) &&
    match stop with
    | some stop => stop = 0 || (blockNumber : ℤ) < stop
    | none => true

/-- The first block number of `#filterUnencryptedLogsBetweenBlocks`. -/
def startBlock (filter : LogFilter) : ℤ :=
  match filter.afterLog with
  | some afterLog => afterLog.blockNumber
  | none => max (filter.fromBlock.getD INITIAL_L2_BLOCK_NUM) INITIAL_L2_BLOCK_NUM

def endsBefore (stop : Option ℤ) (start : ℤ) : Bool :=
  match stop with
  | some stop => stop < start
  | none => false

def filterUnencryptedLogsBetweenBlocks (logsMaxPageSize : ℕ) (blocks : List Block)
    (filter : LogFilter) : Response :=
  let start := startBlock filter
  if endsBefore filter.toBlock start then { logs := [], maxLogsHit := true }
  else
    let (logs, maxLogsHit) := overBlocks logsMaxPageSize filter []
      ((numbered blocks).filter fun block => inRange start filter.toBlock block.2)
    { logs := logs, maxLogsHit := maxLogsHit }

/-- `getL2TxLocation`: the place of the last transaction stored under the hash; a hash that is
zero is not indexed. -/
def getL2TxLocation (blocks : List Block) (txHash : ℕ) : Option (ℕ × ℕ) :=
  ((numbered blocks).flatMap fun block =>
    (block.1.zipIdx.filter fun tx => tx.1.txHash ≠ 0 ∧ tx.1.txHash = txHash).map
      fun tx => (block.2, tx.2)).getLast?

def filterUnencryptedLogsOfTx (logsMaxPageSize : ℕ) (blocks : List Block) (filter : LogFilter)
    (txHash : ℕ) : Response :=
  match getL2TxLocation blocks txHash with
  | none => { logs := [], maxLogsHit := false }
  | some (blockNumber, txIndex) =>
    let txLogs := ((blocks[blockNumber - INITIAL_L2_BLOCK_NUM]?.bind (·[txIndex]?)).map
      Tx.unrollLogs).getD []
    let (logs, maxLogsHit) :=
      accumulateLogs logsMaxPageSize filter [] blockNumber txIndex txLogs
    { logs := logs, maxLogsHit := maxLogsHit }

def getUnencryptedLogs (logsMaxPageSize : ℕ) (blocks : List Block) (filter : LogFilter) :
    Response :=
  match filter.afterLog, filter.txHash with
  | some _, _ => filterUnencryptedLogsBetweenBlocks logsMaxPageSize blocks filter
  | none, some txHash => filterUnencryptedLogsOfTx logsMaxPageSize blocks filter txHash
  | none, none => filterUnencryptedLogsBetweenBlocks logsMaxPageSize blocks filter

end LogStore

/-! ### The memory store -/

namespace Memory

def overLogs (maxLogs : ℕ) (filter : LogFilter) (hashOk : Bool) (blockNumber txIndex : ℕ) :
    List ExtendedUnencryptedL2Log → List (UnencryptedL2Log × ℕ) →
      List ExtendedUnencryptedL2Log × Bool
  | logs, [] => (logs, false)
  | logs, item :: rest =>
    if hashOk && filter.accepts item.1 then
      let logs := logs ++ [extended blockNumber txIndex item]
      if logs.length = maxLogs then (logs, true)
      else overLogs maxLogs filter hashOk blockNumber txIndex logs rest
    else overLogs maxLogs filter hashOk blockNumber txIndex logs rest

/-- The comparison with the transaction hash of a filter. -/
def hashAccepts (txHash : Option ℕ) (tx : Tx) : Bool :=
  match txHash with
  | some txHash => tx.txHash = txHash
  | none => true

/-- The loop over the transactions of a block.  The log index is reset after each of them, and it
is returned as the loop leaves it. -/
def overTxs (maxLogs : ℕ) (filter : LogFilter) (txHash : Option ℕ) (blockNumber : ℕ) :
    ℕ → List ExtendedUnencryptedL2Log → List (Tx × ℕ) →
      List ExtendedUnencryptedL2Log × Bool × ℕ
  | logIndexInTx, logs, [] => (logs, false, logIndexInTx)
  | logIndexInTx, logs, (tx, txIndexInBlock) :: rest =>
    match overLogs maxLogs filter (hashAccepts txHash tx) blockNumber txIndexInBlock logs
      (tx.unrollLogs.zipIdx.drop logIndexInTx) with
    | (logs, true) => (logs, true, 0)
    | (logs, false) => overTxs maxLogs filter txHash blockNumber 0 logs rest

/-- The loop over the blocks.  The transaction index is reset after each of them. -/
def overBlocks (maxLogs : ℕ) (filter : LogFilter) (txHash : Option ℕ) :
    ℕ → ℕ → List ExtendedUnencryptedL2Log → List (Block × ℕ) →
      List ExtendedUnencryptedL2Log × Bool
  | _, _, logs, [] => (logs, false)
  | txIndexInBlock, logIndexInTx, logs, (block, blockNumber) :: rest =>
    match overTxs maxLogs filter txHash blockNumber logIndexInTx logs
      (block.zipIdx.drop txIndexInBlock) with
    | (logs, true, _) => (logs, true)
    | (logs, false, logIndexInTx) => overBlocks maxLogs filter txHash 0 logIndexInTx logs rest

/-- Where the loops begin: the block index, the transaction index and the log index. -/
def startIndices (filter : LogFilter) : ℤ × ℕ × ℕ :=
  match filter.afterLog with
  | some afterLog =>
    match filter.fromBlock with
    | none => (afterLog.blockNumber - INITIAL_L2_BLOCK_NUM, afterLog.txIndex,
        afterLog.logIndex + 1)
    | some fromBlock =>
      if fromBlock ≤ afterLog.blockNumber then
        (afterLog.blockNumber - INITIAL_L2_BLOCK_NUM, afterLog.txIndex, afterLog.logIndex + 1)
      else (fromBlock - INITIAL_L2_BLOCK_NUM, 0, 0)
  | none =>
    match filter.fromBlock with
    | none => (0, 0, 0)
    | some fromBlock => (fromBlock - INITIAL_L2_BLOCK_NUM, 0, 0)

def toIndex (blocks : List Block) (filter : LogFilter) : ℤ :=
  match filter.toBlock with
  | some toBlock => min (toBlock - INITIAL_L2_BLOCK_NUM) blocks.length
  | none => min blocks.length blocks.length

def getUnencryptedLogs (maxLogs : ℕ) (blocks : List Block) (filter : LogFilter) : Response :=
  let txHash := if filter.afterLog.isSome then none else filter.txHash
  let (fromIndex, txIndexInBlock, logIndexInTx) := startIndices filter
  let fromBlockIndex := max fromIndex 0
  let toBlockIndex := toIndex blocks filter
  if (blocks.length : ℤ) < fromBlockIndex ∨ toBlockIndex < fromBlockIndex ∨ toBlockIndex ≤ 0 then
    { logs := [], maxLogsHit := false }
  else
    let (logs, maxLogsHit) := overBlocks maxLogs filter txHash txIndexInBlock logIndexInTx []
      (((numbered blocks).take toBlockIndex.toNat).drop fromBlockIndex.toNat)
    { logs := logs, maxLogsHit := maxLogsHit }

end Memory

/-! ### Reading all pages -/

/-- The filter of the next page: `afterLog` is the last log returned. -/
def LogFilter.after (filter : LogFilter) (logs : List ExtendedUnencryptedL2Log) : LogFilter :=
  match logs.getLast? with
  | some last => { filter with afterLog := some last.id }
  | none => filter

/-- Asking for the next page until a page was not filled. -/
def paginate (query : LogFilter → Response) :
    ℕ → LogFilter → Option (List (List ExtendedUnencryptedL2Log))
  | 0, _ => none
  | fuel + 1, filter =>
    let response := query filter
    if response.maxLogsHit then
      (paginate query fuel (filter.after response.logs)).map (response.logs :: ·)
    else some [response.logs]

def allLogs (blocks : List Block) : List ExtendedUnencryptedL2Log :=
  (numbered blocks).flatMap fun block => block.1.zipIdx.flatMap fun tx =>
    tx.1.unrollLogs.zipIdx.map (extended block.2 tx.2)

def LogFilter.covers (filter : LogFilter) (blockNumber : ℕ) : Bool :=
  (match filter.fromBlock with
    | some fromBlock => fromBlock ≤ blockNumber
    | none => true) &&
  (match filter.toBlock with
    | some toBlock => (blockNumber : ℤ) < toBlock
    | none => true)

def matching (blocks : List Block) (filter : LogFilter) : List ExtendedUnencryptedL2Log :=
  (allLogs blocks).filter fun e => filter.covers e.id.blockNumber && filter.accepts e.log

/-- Both stores come to the end, they return the same pages, and the pages contain every matching
log once, in order. -/
def PagesAreRight (pageSize : ℕ) (blocks : List Block) (filter : LogFilter) : Prop :=
  ∃ fuel pages, paginate (LogStore.getUnencryptedLogs pageSize blocks) fuel filter = some pages ∧
    paginate (Memory.getUnencryptedLogs pageSize blocks) fuel filter = some pages ∧
    pages.flatten = matching blocks filter

/-! ### The loops fill pages -/

/-- The logs of a transaction that a filter accepts, from a log index on. -/
def txEntries (filter : LogFilter) (blockNumber firstLog : ℕ) (tx : Tx × ℕ) :
    List ExtendedUnencryptedL2Log :=
  ((tx.1.unrollLogs.zipIdx.drop firstLog).filter fun item => filter.accepts item.1).map
    (extended blockNumber tx.2)

/-- The logs of a block that a filter accepts, from a transaction and, in each transaction, from a
log index on. -/
def blockEntries (filter : LogFilter) (firstTx firstLog : ℕ) (block : Block × ℕ) :
    List ExtendedUnencryptedL2Log :=
  (block.1.zipIdx.drop firstTx).flatMap (txEntries filter block.2 firstLog)

section Loops

variable {pageSize : ℕ} {filter : LogFilter}

namespace LogStore

theorem accumulate_eq (blockNumber txIndex : ℕ) (items : List (UnencryptedL2Log × ℕ)) :
    ∀ results, accumulate pageSize filter blockNumber txIndex results items = fill pageSize results
        ((items.filter fun item => filter.accepts item.1).map (extended blockNumber txIndex)) := by
  induction items with
  | nil => intro results; rfl
  | cons item items ih =>
    intro results
    cases h : filter.accepts item.1 with
    | true =>
      rw [filter_cons, if_pos h, map_cons, accumulate, if_pos h, fill, ← ih]
    | false =>
      have hne : ¬ filter.accepts item.1 = true := by rw [h]; exact Bool.false_ne_true
      rw [filter_cons, if_neg hne, accumulate, if_neg hne, ih]

theorem overTxs_eq (blockNumber : ℕ) (txs : List (Tx × ℕ)) : ∀ results,
    overTxs pageSize filter blockNumber results txs =
      fill pageSize results (txs.flatMap (txEntries filter blockNumber (firstLog filter))) := by
  induction txs with
  | nil => intro results; rfl
  | cons tx txs ih =>
    intro results
    obtain ⟨logs, hit, h⟩ : ∃ logs hit, fill pageSize results
        (txEntries filter blockNumber (firstLog filter) tx) = (logs, hit) := ⟨_, _, rfl⟩
    rw [overTxs, flatMap_cons, fill_append, h, accumulateLogs, accumulate_eq]
    rw [txEntries] at h
    rw [h]
    cases hit with
    | true => rfl
    | false => exact ih _

theorem overBlocks_eq (blocks : List (Block × ℕ)) : ∀ results,
    overBlocks pageSize filter results blocks = fill pageSize results
        (blocks.flatMap (blockEntries filter (firstTx filter) (firstLog filter))) := by
  induction blocks with
  | nil => intro results; rfl
  | cons block blocks ih =>
    intro results
    obtain ⟨logs, hit, h⟩ : ∃ logs hit, fill pageSize results
        (blockEntries filter (firstTx filter) (firstLog filter) block) = (logs, hit) :=
      ⟨_, _, rfl⟩
    rw [overBlocks, flatMap_cons, fill_append, h, overTxs_eq]
    rw [blockEntries] at h
    rw [h]
    cases hit with
    | true => rfl
    | false => exact ih _

end LogStore

namespace Memory

theorem overLogs_eq (blockNumber txIndex : ℕ) (items : List (UnencryptedL2Log × ℕ)) :
    ∀ logs, logs.length < pageSize → overLogs pageSize filter true blockNumber txIndex logs items =
        fill pageSize logs
          ((items.filter fun item => filter.accepts item.1).map (extended blockNumber txIndex)) := by
  induction items with
  | nil => intro logs _; rfl
  | cons item items ih =>
    intro logs hlt
    cases h : filter.accepts item.1 with
    | true =>
      have hiff : (logs ++ [extended blockNumber txIndex item]).length = pageSize ↔
          pageSize ≤ (logs ++ [extended blockNumber txIndex item]).length := by
        rw [length_append, length_singleton]
        omega
      rw [filter_cons, if_pos h, map_cons, overLogs, h, Bool.true_and, if_pos rfl, fill]
      by_cases hfull : pageSize ≤ (logs ++ [extended blockNumber txIndex item]).length
      · rw [if_pos hfull]
        exact if_pos (hiff.2 hfull)
      · rw [if_neg hfull, ← ih _ (not_le.1 hfull)]
        exact if_neg fun he => hfull (hiff.1 he)
    | false =>
      have hne : ¬ filter.accepts item.1 = true := by rw [h]; exact Bool.false_ne_true
      rw [filter_cons, if_neg hne, overLogs, Bool.true_and, if_neg hne, ih _ hlt]

theorem length_lt_of_fill {p : ℕ} {results items : List ExtendedUnencryptedL2Log}
    (hlt : results.length < p) (h : (fill p results items).2 = false) :
    (fill p results items).1.length < p := by
  rw [fill_eq p items results hlt] at h ⊢
  simp only [decide_eq_false_iff_not, not_le] at h
  rw [length_append, length_take]
  omega

/-- The logs visited when the first transaction begins at a log index and all others at their
beginning. -/
def visitTxs (filter : LogFilter) (blockNumber : ℕ) : ℕ → List (Tx × ℕ) →
    List ExtendedUnencryptedL2Log
  | _, [] => []
  | logIndexInTx, tx :: txs =>
    txEntries filter blockNumber logIndexInTx tx ++
      txs.flatMap (txEntries filter blockNumber 0)

theorem visitTxs_zero (filter : LogFilter) (blockNumber : ℕ) (txs : List (Tx × ℕ)) :
    visitTxs filter blockNumber 0 txs = txs.flatMap (txEntries filter blockNumber 0) := by
  cases txs with
  | nil => rfl
  | cons tx txs => rw [visitTxs, flatMap_cons]

theorem overTxs_eq (blockNumber : ℕ) (txs : List (Tx × ℕ)) : ∀ logIndexInTx logs,
    logs.length < pageSize → overTxs pageSize filter none blockNumber logIndexInTx logs txs =
        ((fill pageSize logs (visitTxs filter blockNumber logIndexInTx txs)).1,
          (fill pageSize logs (visitTxs filter blockNumber logIndexInTx txs)).2,
          if txs = [] then logIndexInTx else 0) := by
  induction txs with
  | nil => intro logIndexInTx logs _; rfl
  | cons tx txs ih =>
    intro logIndexInTx logs hlt
    have hroom := @length_lt_of_fill pageSize logs
      (txEntries filter blockNumber logIndexInTx tx) hlt
    obtain ⟨results, hit, h⟩ : ∃ results hit, fill pageSize logs
        (txEntries filter blockNumber logIndexInTx tx) = (results, hit) := ⟨_, _, rfl⟩
    rw [h] at hroom
    rw [overTxs, visitTxs, if_neg (cons_ne_nil _ _), fill_append, ← visitTxs_zero, h,
      hashAccepts, overLogs_eq _ _ _ _ hlt]
    rw [txEntries] at h
    rw [h]
    cases hit with
    | true => rfl
    | false =>
      refine (ih 0 results (hroom rfl)).trans ?_
      rw [ite_self]
      rfl

def visitBlocks (filter : LogFilter) (txIndexInBlock logIndexInTx : ℕ) : List (Block × ℕ) →
    List ExtendedUnencryptedL2Log
  | [] => []
  | block :: blocks =>
    visitTxs filter block.2 logIndexInTx (block.1.zipIdx.drop txIndexInBlock) ++
      blocks.flatMap (blockEntries filter 0 0)

theorem visitBlocks_zero (filter : LogFilter) (blocks : List (Block × ℕ)) :
    visitBlocks filter 0 0 blocks = blocks.flatMap (blockEntries filter 0 0) := by
  cases blocks with
  | nil => rfl
  | cons block blocks =>
    rw [visitBlocks, flatMap_cons, visitTxs_zero, blockEntries]

theorem overBlocks_eq (blocks : List (Block × ℕ)) : ∀ txIndexInBlock logIndexInTx logs,
    logs.length < pageSize →
    (∀ block ∈ blocks.head?, block.1.zipIdx.drop txIndexInBlock = [] → logIndexInTx = 0) →
      overBlocks pageSize filter none txIndexInBlock logIndexInTx logs blocks =
        fill pageSize logs (visitBlocks filter txIndexInBlock logIndexInTx blocks) := by
  induction blocks with
  | nil => intro _ _ logs _ _; rfl
  | cons block blocks ih =>
    intro txIndexInBlock logIndexInTx logs hlt hfirst
    have hreset : (if block.1.zipIdx.drop txIndexInBlock = [] then logIndexInTx else 0) = 0 := by
      split
      · exact hfirst block rfl ‹_›
      · rfl
    rw [overBlocks, visitBlocks, fill_append, ← visitBlocks_zero]
    rw [overTxs_eq _ _ _ _ hlt, hreset]
    have hroom := @length_lt_of_fill pageSize logs
      (visitTxs filter block.2 logIndexInTx (block.1.zipIdx.drop txIndexInBlock)) hlt
    obtain ⟨results, hit, h⟩ : ∃ results hit, fill pageSize logs
        (visitTxs filter block.2 logIndexInTx (block.1.zipIdx.drop txIndexInBlock)) =
          (results, hit) := ⟨_, _, rfl⟩
    rw [h] at hroom ⊢
    cases hit with
    | true => rfl
    | false => exact ih 0 0 results (hroom rfl) fun _ _ _ => rfl

end Memory

end Loops

/-! ### The logs of the store, in order -/

def LogId.Before (a b : LogId) : Prop :=
  a.blockNumber < b.blockNumber ∨ a.blockNumber = b.blockNumber ∧
    (a.txIndex < b.txIndex ∨ a.txIndex = b.txIndex ∧ a.logIndex < b.logIndex)

instance (a b : LogId) : Decidable (a.Before b) :=
  inferInstanceAs (Decidable (_ ∨ _ ∧ (_ ∨ _ ∧ _)))

abbrev IdBefore (a b : ExtendedUnencryptedL2Log) : Prop := a.id.Before b.id

theorem idBefore_irrefl (a : ExtendedUnencryptedL2Log) : ¬ IdBefore a a := by
  simp [IdBefore, LogId.Before]

theorem idBefore_asymm (a b : ExtendedUnencryptedL2Log) : IdBefore a b → ¬ IdBefore b a := by
  simp only [IdBefore, LogId.Before]
  omega

def logsOfTx (blockNumber : ℕ) (tx : Tx × ℕ) : List ExtendedUnencryptedL2Log :=
  tx.1.unrollLogs.zipIdx.map (extended blockNumber tx.2)

def logsOfBlock (block : Block × ℕ) : List ExtendedUnencryptedL2Log :=
  block.1.zipIdx.flatMap (logsOfTx block.2)

theorem allLogs_eq (blocks : List Block) :
    allLogs blocks = (numbered blocks).flatMap logsOfBlock := rfl

variable {e : ExtendedUnencryptedL2Log}

theorem id_of_mem_logsOfTx {blockNumber : ℕ} {tx : Tx × ℕ} (h : e ∈ logsOfTx blockNumber tx) :
    e.id.blockNumber = blockNumber ∧ e.id.txIndex = tx.2 ∧
      tx.1.unrollLogs[e.id.logIndex]? = some e.log := by
  obtain ⟨item, hitem, rfl⟩ := mem_map.1 h
  exact ⟨rfl, rfl, List.mem_zipIdx_iff_getElem?.1 hitem⟩

theorem id_of_mem_logsOfBlock {block : Block × ℕ} (h : e ∈ logsOfBlock block) :
    e.id.blockNumber = block.2 ∧ ∃ tx, block.1[e.id.txIndex]? = some tx ∧
      tx.unrollLogs[e.id.logIndex]? = some e.log := by
  obtain ⟨⟨tx, txIndex⟩, htx, he⟩ := mem_flatMap.1 h
  obtain ⟨hblock, hindex, hlog⟩ := id_of_mem_logsOfTx he
  simp only at hindex hlog
  subst hindex
  exact ⟨hblock, tx, List.mem_zipIdx_iff_getElem?.1 htx, hlog⟩

theorem id_of_mem_allLogs {blocks : List Block} (h : e ∈ allLogs blocks) :
    1 ≤ e.id.blockNumber ∧ ∃ block, blocks[e.id.blockNumber - 1]? = some block ∧
      ∃ tx, block[e.id.txIndex]? = some tx ∧ tx.unrollLogs[e.id.logIndex]? = some e.log := by
  obtain ⟨⟨block, blockNumber⟩, hblock, he⟩ := mem_flatMap.1 h
  obtain ⟨hnumber, tx, htx, hlog⟩ := id_of_mem_logsOfBlock he
  simp only at hnumber htx
  subst hnumber
  obtain ⟨hle, hget⟩ := List.mem_zipIdx_iff_le_and_getElem?_sub.1 hblock
  exact ⟨hle, block, hget, tx, htx, hlog⟩

theorem pairwise_allLogs (blocks : List Block) : (allLogs blocks).Pairwise IdBefore := by
  refine pairwise_flatMap.2 ⟨fun block _ => pairwise_flatMap.2 ⟨fun tx _ => ?_, ?_⟩, ?_⟩
  · refine pairwise_map.2 ((pairwise_zipIdx tx.1.unrollLogs 0).imp fun h => ?_)
    exact Or.inr ⟨rfl, Or.inr ⟨rfl, h⟩⟩
  · refine (pairwise_zipIdx block.1 0).imp fun {tx tx'} h e he e' he' => ?_
    obtain ⟨hb, ht, -⟩ := id_of_mem_logsOfTx he
    obtain ⟨hb', ht', -⟩ := id_of_mem_logsOfTx he'
    exact Or.inr ⟨hb.trans hb'.symm, Or.inl (by rw [ht, ht']; exact h)⟩
  · refine (pairwise_zipIdx blocks INITIAL_L2_BLOCK_NUM).imp fun {block block'} h e he e' he' => ?_
    exact Or.inl (by
      rw [(id_of_mem_logsOfBlock he).1, (id_of_mem_logsOfBlock he').1]
      exact h)

theorem blockEntries_eq (filter : LogFilter) (firstTx firstLog : ℕ) (block : Block × ℕ) :
    blockEntries filter firstTx firstLog block = (logsOfBlock block).filter fun e =>
        firstTx ≤ e.id.txIndex && firstLog ≤ e.id.logIndex && filter.accepts e.log := by
  rw [blockEntries, logsOfBlock, drop_zipIdx, flatMap_filter, filter_flatMap]
  refine flatMap_congr fun tx _ => ?_
  rw [txEntries, logsOfTx, drop_zipIdx, filter_map, filter_filter]
  by_cases h : firstTx ≤ tx.2
  · simp only [Nat.zero_add, h, decide_true, if_true]
    congr 1
    refine filter_congr fun item _ => ?_
    rw [Bool.and_comm]
    simp only [extended, Function.comp_apply, h, decide_true, Bool.true_and]
    rfl
  · simp only [Nat.zero_add, h, decide_false, Bool.false_eq_true, if_false]
    symm
    rw [map_eq_nil_iff, filter_eq_nil_iff]
    intro item _
    simp [extended, h]

theorem flatMap_blockEntries (filter : LogFilter) (firstTx firstLog : ℕ) (keep : ℕ → Bool)
    (blocks : List Block) : (((numbered blocks).filter fun block => keep block.2).flatMap
        (blockEntries filter firstTx firstLog)) =
      (allLogs blocks).filter fun e => keep e.id.blockNumber &&
        (firstTx ≤ e.id.txIndex && firstLog ≤ e.id.logIndex && filter.accepts e.log) := by
  rw [allLogs_eq, filter_flatMap, flatMap_filter]
  refine flatMap_congr fun block _ => ?_
  cases h : keep block.2 with
  | true =>
    rw [if_pos rfl, blockEntries_eq]
    refine filter_congr fun e he => ?_
    rw [(id_of_mem_logsOfBlock he).1, h, Bool.true_and]
  | false =>
    rw [if_neg Bool.false_ne_true]
    symm
    refine filter_eq_nil_iff.2 fun e he => ?_
    rw [(id_of_mem_logsOfBlock he).1, h, Bool.false_and]
    exact Bool.false_ne_true

theorem visitBlocks_after (filter : LogFilter) {blocks : List Block} {a : ExtendedUnencryptedL2Log}
    (ha : a ∈ allLogs blocks) : Memory.visitBlocks filter a.id.txIndex (a.id.logIndex + 1)
        ((numbered blocks).drop (a.id.blockNumber - 1)) =
      (allLogs blocks).filter fun e => a.id.Before e.id && filter.accepts e.log := by
  obtain ⟨hpos, block, hblock, tx, htx, hlog⟩ := id_of_mem_allLogs ha
  have hnumber : INITIAL_L2_BLOCK_NUM + (a.id.blockNumber - 1) = a.id.blockNumber :=
    Nat.add_sub_cancel' hpos
  have hsplit : ∃ before, allLogs blocks = before ++ a ::
      ((tx.unrollLogs.zipIdx.drop (a.id.logIndex + 1)).map
          (extended a.id.blockNumber a.id.txIndex) ++
        ((block.zipIdx.drop (a.id.txIndex + 1)).flatMap (logsOfTx a.id.blockNumber) ++
          ((numbered blocks).drop (a.id.blockNumber - 1 + 1)).flatMap logsOfBlock)) := by
    have ha' : extended a.id.blockNumber a.id.txIndex (a.log, a.id.logIndex) = a := rfl
    refine ⟨((numbered blocks).take (a.id.blockNumber - 1)).flatMap logsOfBlock ++
      ((block.zipIdx.take a.id.txIndex).flatMap (logsOfTx a.id.blockNumber) ++
        (tx.unrollLogs.zipIdx.take a.id.logIndex).map (extended a.id.blockNumber a.id.txIndex)), ?_⟩
    rw [allLogs_eq, numbered]
    conv_lhs => rw [zipIdx_split hblock, hnumber]
    rw [flatMap_append, flatMap_cons, logsOfBlock]
    conv_lhs => rw [zipIdx_split htx 0]
    rw [flatMap_append, flatMap_cons, logsOfTx]
    conv_lhs => rw [zipIdx_split hlog 0]
    simp only [map_append, map_cons, Nat.zero_add, ha', append_assoc, cons_append]
  obtain ⟨before, hsplit⟩ := hsplit
  have hsorted := pairwise_allLogs blocks
  rw [hsplit] at hsorted
  have hafter := filter_after_append idBefore_irrefl idBefore_asymm hsorted
  have hfilter : (allLogs blocks).filter (fun e => a.id.Before e.id && filter.accepts e.log) =
      ((allLogs blocks).filter (fun e => a.id.Before e.id)).filter
        fun e => filter.accepts e.log := by
    rw [filter_filter]
    exact filter_congr fun e _ => Bool.and_comm _ _
  rw [hfilter, hsplit, hafter, numbered, drop_zipIdx_cons hblock, Memory.visitBlocks,
    drop_zipIdx_cons htx, Memory.visitTxs, filter_append, filter_append, hnumber,
    append_assoc, Nat.zero_add]
  congr 1
  · rw [txEntries, filter_map]
    rfl
  congr 1
  · rw [filter_flatMap]
    refine flatMap_congr fun tx _ => ?_
    rw [txEntries, drop_zero, logsOfTx, filter_map]
    rfl
  · rw [filter_flatMap]
    refine flatMap_congr fun block _ => ?_
    rw [blockEntries_eq]
    exact filter_congr fun e _ => by simp

/-! ### What the stores return -/

section Pages

variable {pageSize : ℕ} {blocks : List Block} {filter : LogFilter}

def page (pageSize : ℕ) (items : List ExtendedUnencryptedL2Log) : Response :=
  { logs := items.take pageSize, maxLogsHit := pageSize ≤ items.length }

theorem allLogs_take (blocks : List Block) (n : ℕ) :
    allLogs (blocks.take n) = (allLogs blocks).filter fun e => e.id.blockNumber < 1 + n := by
  rw [allLogs_eq, numbered, take_zipIdx, flatMap_filter, allLogs_eq, filter_flatMap]
  refine flatMap_congr fun block _ => ?_
  by_cases h : block.2 < 1 + n
  · rw [if_pos (decide_eq_true (show block.2 < INITIAL_L2_BLOCK_NUM + n from h)), filter_eq_self.2]
    intro e he
    rw [(id_of_mem_logsOfBlock he).1, decide_eq_true_iff]
    exact h
  · rw [if_neg (show ¬ decide (block.2 < INITIAL_L2_BLOCK_NUM + n) = true from
      fun hdec => h (of_decide_eq_true hdec)), filter_eq_nil_iff.2]
    intro e he
    rw [(id_of_mem_logsOfBlock he).1, decide_eq_true_iff]
    exact h

variable {e a : ExtendedUnencryptedL2Log} {items : List ExtendedUnencryptedL2Log} {n : ℕ}

theorem blockNumber_le (h : e ∈ allLogs blocks) :
    1 ≤ e.id.blockNumber ∧ e.id.blockNumber ≤ blocks.length := by
  obtain ⟨hpos, block, hblock, -⟩ := id_of_mem_allLogs h
  have := (List.getElem?_eq_some_iff.1 hblock).1
  exact ⟨hpos, by omega⟩

namespace Memory

theorem getUnencryptedLogs_eq (hp : 1 ≤ pageSize) (hhash : filter.txHash = none)
    (hfirst : ∀ block ∈ (((numbered (blocks.take (toIndex blocks filter).toNat))).drop
        (max (startIndices filter).1 0).toNat).head?,
      block.1.zipIdx.drop (startIndices filter).2.1 = [] → (startIndices filter).2.2 = 0) :
    getUnencryptedLogs pageSize blocks filter =
      page pageSize (visitBlocks filter (startIndices filter).2.1 (startIndices filter).2.2
        ((numbered (blocks.take (toIndex blocks filter).toNat)).drop
          (max (startIndices filter).1 0).toNat)) := by
  have htake : (numbered blocks).take (toIndex blocks filter).toNat =
      numbered (blocks.take (toIndex blocks filter).toNat) := zipIdx_take _ _ _
  have hloops := @overBlocks_eq pageSize filter _ _ _ [] hp hfirst
  rw [fill_nil_eq hp] at hloops
  have htx : (if filter.afterLog.isSome then none else filter.txHash) = none := by
    rw [hhash, ite_self]
  unfold getUnencryptedLogs
  simp only [htx]
  by_cases hempty : (blocks.length : ℤ) < max (startIndices filter).1 0 ∨
      toIndex blocks filter < max (startIndices filter).1 0 ∨ toIndex blocks filter ≤ 0
  · rw [if_pos hempty]
    have hnil : (numbered (blocks.take (toIndex blocks filter).toNat)).drop
        (max (startIndices filter).1 0).toNat = [] := by
      refine drop_eq_nil_of_le ?_
      rw [numbered, length_zipIdx, length_take]
      omega
    rw [hnil, visitBlocks, page, take_nil, length_nil, decide_eq_false (Nat.not_le.2 hp)]
  · rw [if_neg hempty, htake, hloops]
    rfl

theorem lt_toIndex_iff {e : ExtendedUnencryptedL2Log} (he : e ∈ allLogs blocks) :
    e.id.blockNumber < 1 + (toIndex blocks filter).toNat ↔
      ∀ toBlock ∈ filter.toBlock, (e.id.blockNumber : ℤ) < toBlock := by
  have hb := blockNumber_le he
  unfold toIndex
  cases filter.toBlock with
  | none =>
    simp only [mem_def, reduceCtorEq, false_implies, implies_true, iff_true]
    omega
  | some toBlock =>
    simp only [mem_def, some.injEq, forall_eq', INITIAL_L2_BLOCK_NUM]
    omega

end Memory

/-! ### Where a page begins -/

/-- The filter of the page that begins at a position of the matching logs. -/
def LogFilter.atPosition (filter : LogFilter) (items : List ExtendedUnencryptedL2Log) (n : ℕ) :
    LogFilter :=
  { filter with afterLog := if n = 0 then none else items[n - 1]?.map ExtendedUnencryptedL2Log.id }

theorem LogFilter.atPosition_zero (hafter : filter.afterLog = none)
    (items : List ExtendedUnencryptedL2Log) : filter.atPosition items 0 = filter := by
  rw [atPosition, if_pos rfl, ← hafter]

theorem LogFilter.atPosition_succ (ha : items[n]? = some a) :
    filter.atPosition items (n + 1) = { filter with afterLog := some a.id } := by
  rw [atPosition, if_neg (Nat.succ_ne_zero n), Nat.add_sub_cancel, ha, Option.map_some]

theorem LogFilter.after_page (hp : 1 ≤ pageSize) (hn : n + pageSize ≤ items.length) :
    (filter.atPosition items n).after ((items.drop n).take pageSize) =
      filter.atPosition items (n + pageSize) := by
  have hlast : ((items.drop n).take pageSize).getLast? = items[n + pageSize - 1]? := by
    rw [List.getLast?_eq_getElem?, length_take, length_drop, Nat.min_eq_left (by omega),
      List.getElem?_take, if_pos (by omega), List.getElem?_drop, Nat.add_sub_assoc hp]
  have hlt : n + pageSize - 1 < items.length := by omega
  have hne : ¬ n + pageSize = 0 := by omega
  rw [after, hlast, List.getElem?_eq_getElem hlt]
  simp only [atPosition, if_neg hne, List.getElem?_eq_getElem hlt, Option.map_some]

theorem mem_matching : e ∈ matching blocks filter ↔
      e ∈ allLogs blocks ∧ filter.covers e.id.blockNumber = true ∧ filter.accepts e.log = true := by
  rw [matching, mem_filter, Bool.and_eq_true]

theorem covers_iff :
    filter.covers n = true ↔ (∀ fromBlock ∈ filter.fromBlock, fromBlock ≤ (n : ℤ)) ∧
      ∀ toBlock ∈ filter.toBlock, (n : ℤ) < toBlock := by
  unfold covers
  cases filter.fromBlock <;> cases filter.toBlock <;> simp

theorem drop_matching (ha : (matching blocks filter)[n]? = some a) :
    (matching blocks filter).drop (n + 1) = (allLogs blocks).filter fun e =>
        a.id.Before e.id && (filter.covers e.id.blockNumber && filter.accepts e.log) := by
  have hsorted : (matching blocks filter).Pairwise IdBefore := (pairwise_allLogs blocks).filter _
  rw [← filter_after_eq_drop idBefore_irrefl idBefore_asymm hsorted ha, matching, filter_filter]

theorem Memory.getUnencryptedLogs_atPosition (hp : 1 ≤ pageSize) (hhash : filter.txHash = none)
    (hafter : filter.afterLog = none) (hn : n ≤ (matching blocks filter).length) :
    Memory.getUnencryptedLogs pageSize blocks (filter.atPosition (matching blocks filter) n) =
      page pageSize ((matching blocks filter).drop n) := by
  cases n with
  | zero =>
    rw [atPosition_zero hafter, drop_zero]
    have hstart : startIndices filter =
        (filter.fromBlock.elim 0 (· - (INITIAL_L2_BLOCK_NUM : ℤ)), 0, 0) := by
      unfold startIndices
      rw [hafter]
      cases filter.fromBlock <;> rfl
    rw [Memory.getUnencryptedLogs_eq hp hhash (by rw [hstart]; exact fun _ _ _ => rfl), hstart,
      Memory.visitBlocks_zero, numbered, drop_zipIdx]
    congr 1
    refine (flatMap_blockEntries filter 0 0 (fun n => INITIAL_L2_BLOCK_NUM +
      (max (filter.fromBlock.elim 0 (· - (INITIAL_L2_BLOCK_NUM : ℤ))) 0).toNat ≤ n)
      (blocks.take (toIndex blocks filter).toNat)).trans ?_
    rw [allLogs_take, filter_filter, matching]
    refine filter_congr fun e he => ?_
    have hb := blockNumber_le he
    have hto := @Memory.lt_toIndex_iff blocks filter e he
    rw [Bool.eq_iff_iff]
    simp only [Bool.and_eq_true, decide_eq_true_eq, hto, covers_iff, Nat.zero_le, true_and,
      and_true]
    cases filter.fromBlock with
    | none =>
      simp only [Option.elim_none, mem_def, reduceCtorEq, false_implies, implies_true,
        true_and, INITIAL_L2_BLOCK_NUM]
      constructor
      · exact fun h => ⟨h.2, h.1.2⟩
      · exact fun h => ⟨⟨by omega, h.2⟩, h.1⟩
    | some fromBlock =>
      simp only [Option.elim_some, mem_def, some.injEq, forall_eq',
        INITIAL_L2_BLOCK_NUM]
      constructor
      · exact fun h => ⟨⟨by omega, h.2⟩, h.1.2⟩
      · exact fun h => ⟨⟨by omega, h.2⟩, h.1.2⟩
  | succ n =>
    obtain ⟨a, ha⟩ : ∃ a, (matching blocks filter)[n]? = some a :=
      ⟨_, List.getElem?_eq_getElem hn⟩
    obtain ⟨hmem, hcovers, -⟩ := mem_matching.1 (mem_of_getElem? ha)
    obtain ⟨hfrom, hto⟩ := covers_iff.1 hcovers
    have hb := blockNumber_le hmem
    rw [atPosition_succ ha]
    have hstart : startIndices { filter with afterLog := some a.id } =
        (a.id.blockNumber - (INITIAL_L2_BLOCK_NUM : ℤ), a.id.txIndex, a.id.logIndex + 1) := by
      unfold startIndices
      cases hfb : filter.fromBlock with
      | none => rfl
      | some fromBlock => exact if_pos (hfrom fromBlock hfb)
    have hindex : (max ((a.id.blockNumber : ℤ) - (INITIAL_L2_BLOCK_NUM : ℤ)) 0).toNat =
        a.id.blockNumber - 1 := by
      simp only [INITIAL_L2_BLOCK_NUM]
      omega
    have htake : a ∈ allLogs (blocks.take (toIndex blocks filter).toNat) := by
      rw [allLogs_take, mem_filter, decide_eq_true_eq]
      exact ⟨hmem, (Memory.lt_toIndex_iff hmem).2 hto⟩
    have heq : toIndex blocks { filter with afterLog := some a.id } = toIndex blocks filter := rfl
    obtain ⟨hpos, block, hblock, tx, htx, -⟩ := id_of_mem_allLogs htake
    have haccepts : ∀ log, accepts { filter with afterLog := some a.id } log =
        filter.accepts log := fun _ => rfl
    rw [@Memory.getUnencryptedLogs_eq pageSize blocks { filter with afterLog := some a.id } hp
      hhash, hstart, heq, hindex, visitBlocks_after _ htake, drop_matching ha]
    · congr 1
      rw [allLogs_take, filter_filter]
      refine filter_congr fun e he => ?_
      have hlt := @Memory.lt_toIndex_iff blocks filter e he
      rw [Bool.eq_iff_iff]
      simp only [Bool.and_eq_true, decide_eq_true_eq, hlt, covers_iff, haccepts]
      constructor
      · rintro ⟨⟨hbefore, haccepts⟩, hte⟩
        refine ⟨hbefore, ⟨fun fromBlock hf => (hfrom fromBlock hf).trans ?_, hte⟩, haccepts⟩
        simp only [LogId.Before] at hbefore
        omega
      · rintro ⟨hbefore, ⟨-, hte⟩, haccepts⟩
        exact ⟨⟨hbefore, haccepts⟩, hte⟩
    · rw [hstart, heq, hindex, numbered, drop_zipIdx_cons hblock]
      rintro _ ⟨⟩ hnil
      rw [drop_zipIdx_cons htx] at hnil
      exact absurd hnil (cons_ne_nil _ _)

/-- The log comes, in its transaction and in its block, after the place where a page ended. -/
def ComesAfter (a e : ExtendedUnencryptedL2Log) : Prop :=
  a.id.txIndex ≤ e.id.txIndex ∧ a.id.logIndex < e.id.logIndex

instance : DecidableRel ComesAfter := fun _ _ => inferInstanceAs (Decidable (_ ∧ _))

namespace LogStore

theorem inRange_iff {start : ℤ} {stop : Option ℤ} {n : ℕ} (hrange : endsBefore stop start = false)
    (hpos : 0 < start) : inRange start stop n = true ↔ start ≤ n ∧ ∀ s ∈ stop, (n : ℤ) < s := by
  have hne : start ≠ 0 := by omega
  unfold inRange
  unfold endsBefore at hrange
  cases stop with
  | none => simp [hne]
  | some s =>
    have hs : s ≠ 0 := by
      simp only [decide_eq_false_iff_not, not_lt] at hrange
      omega
    simp [hne, hs]

theorem startBlock_pos (hafter : filter.afterLog = none) : 0 < startBlock filter := by
  unfold startBlock
  rw [hafter]
  simp only [INITIAL_L2_BLOCK_NUM]
  omega

theorem startBlock_le_iff (hafter : filter.afterLog = none) {n : ℕ} (hn : 1 ≤ n) :
    startBlock filter ≤ n ↔ ∀ fromBlock ∈ filter.fromBlock, fromBlock ≤ (n : ℤ) := by
  unfold startBlock
  rw [hafter]
  simp only [INITIAL_L2_BLOCK_NUM]
  cases filter.fromBlock with
  | none => simpa using hn
  | some fromBlock => simp; omega

end LogStore

theorem LogStore.getUnencryptedLogs_first (hp : 1 ≤ pageSize) (hhash : filter.txHash = none)
    (hafter : filter.afterLog = none)
    (hrange : LogStore.endsBefore filter.toBlock (LogStore.startBlock filter) = false) :
    LogStore.getUnencryptedLogs pageSize blocks filter = page pageSize (matching blocks filter) := by
  have hquery : LogStore.getUnencryptedLogs pageSize blocks filter =
      LogStore.filterUnencryptedLogsBetweenBlocks pageSize blocks filter := by
    unfold LogStore.getUnencryptedLogs
    rw [hafter, hhash]
  rw [hquery, LogStore.filterUnencryptedLogsBetweenBlocks]
  simp only [hrange, Bool.false_eq_true, if_false, LogStore.overBlocks_eq, fill_nil_eq hp]
  rw [flatMap_blockEntries filter _ _ fun n => LogStore.inRange (LogStore.startBlock filter)
    filter.toBlock n, page]
  have hvisits : ∀ e ∈ allLogs blocks,
      (LogStore.inRange (LogStore.startBlock filter) filter.toBlock e.id.blockNumber &&
        (LogStore.firstTx filter ≤ e.id.txIndex && LogStore.firstLog filter ≤ e.id.logIndex &&
          filter.accepts e.log)) = (filter.covers e.id.blockNumber && filter.accepts e.log) := by
    intro e he
    have hb := blockNumber_le he
    have hfirst := LogStore.startBlock_le_iff hafter hb.1
    have htx : LogStore.firstTx filter = 0 := by rw [LogStore.firstTx, hafter]
    have hlog : LogStore.firstLog filter = 0 := by rw [LogStore.firstLog, hafter]
    rw [Bool.eq_iff_iff]
    simp only [Bool.and_eq_true, LogStore.inRange_iff hrange (LogStore.startBlock_pos hafter),
      covers_iff, hfirst, htx, hlog, Nat.zero_le, decide_true, true_and]
  rw [filter_congr hvisits]
  rfl

theorem LogStore.getUnencryptedLogs_later (hp : 1 ≤ pageSize)
    (ha : (matching blocks filter)[n]? = some a) :
    LogStore.getUnencryptedLogs pageSize blocks (filter.atPosition (matching blocks filter) (n + 1)) =
      page pageSize (((matching blocks filter).drop (n + 1)).filter fun e => ComesAfter a e) := by
  obtain ⟨hmem, hcovers, -⟩ := mem_matching.1 (mem_of_getElem? ha)
  obtain ⟨hfrom, hto⟩ := covers_iff.1 hcovers
  have hb := blockNumber_le hmem
  rw [atPosition_succ ha]
  have hrange : endsBefore filter.toBlock (a.id.blockNumber : ℤ) = false := by
    unfold endsBefore
    cases hstop : filter.toBlock with
    | none => rfl
    | some toBlock =>
      have := hto toBlock hstop
      simp only [decide_eq_false_iff_not, not_lt]
      omega
  have hpos : 0 < (a.id.blockNumber : ℤ) := by omega
  have hquery : getUnencryptedLogs pageSize blocks { filter with afterLog := some a.id } =
      filterUnencryptedLogsBetweenBlocks pageSize blocks
        { filter with afterLog := some a.id } := rfl
  have hstart : startBlock { filter with afterLog := some a.id } = a.id.blockNumber := rfl
  rw [hquery, filterUnencryptedLogsBetweenBlocks]
  simp only [hstart, hrange, Bool.false_eq_true, if_false, overBlocks_eq, fill_nil_eq hp]
  rw [flatMap_blockEntries _ _ _ fun n => inRange (a.id.blockNumber : ℤ) filter.toBlock n,
    drop_matching ha, filter_filter, page]
  have hvisits : ∀ e ∈ allLogs blocks,
      (inRange (a.id.blockNumber : ℤ) filter.toBlock e.id.blockNumber &&
        (firstTx { filter with afterLog := some a.id } ≤ e.id.txIndex &&
          firstLog { filter with afterLog := some a.id } ≤ e.id.logIndex &&
          accepts { filter with afterLog := some a.id } e.log)) =
      (decide (ComesAfter a e) &&
        (a.id.Before e.id && (filter.covers e.id.blockNumber && filter.accepts e.log))) := by
    intro e _
    have htx : firstTx { filter with afterLog := some a.id } = a.id.txIndex := rfl
    have hlog : firstLog { filter with afterLog := some a.id } = a.id.logIndex + 1 := rfl
    have haccepts : accepts { filter with afterLog := some a.id } e.log =
        filter.accepts e.log := rfl
    have hcomes : decide (ComesAfter a e) = true ↔
        a.id.txIndex ≤ e.id.txIndex ∧ a.id.logIndex < e.id.logIndex := decide_eq_true_iff
    have hid : decide (a.id.Before e.id) = true ↔ a.id.blockNumber < e.id.blockNumber ∨
        a.id.blockNumber = e.id.blockNumber ∧ (a.id.txIndex < e.id.txIndex ∨
          a.id.txIndex = e.id.txIndex ∧ a.id.logIndex < e.id.logIndex) := decide_eq_true_iff
    rw [Bool.eq_iff_iff, htx, hlog, haccepts]
    simp only [Bool.and_eq_true, hcomes, hid, decide_eq_true_eq, inRange_iff hrange hpos,
      covers_iff]
    constructor
    · rintro ⟨⟨hle, hte⟩, ⟨ht, hl⟩, hacc⟩
      refine ⟨⟨ht, hl⟩, by omega, ⟨fun fromBlock hf => (hfrom fromBlock hf).trans hle, hte⟩, hacc⟩
    · rintro ⟨⟨ht, hl⟩, hbefore, ⟨-, hte⟩, hacc⟩
      exact ⟨⟨by omega, hte⟩, ⟨ht, hl⟩, hacc⟩
  rw [filter_congr hvisits]

/-! ### All pages -/

theorem Memory.paginate_eq (hp : 1 ≤ pageSize) (hhash : filter.txHash = none)
    (hafter : filter.afterLog = none) : ∀ (fuel : ℕ) {n : ℕ}, n ≤ (matching blocks filter).length →
      paginate (Memory.getUnencryptedLogs pageSize blocks) fuel
          (filter.atPosition (matching blocks filter) n) =
        pagesOf pageSize fuel ((matching blocks filter).drop n) := by
  intro fuel
  induction fuel with
  | zero => intro n _; rfl
  | succ fuel ih =>
    intro n hn
    rw [paginate, Memory.getUnencryptedLogs_atPosition hp hhash hafter hn, pagesOf]
    simp only [page, decide_eq_true_eq]
    by_cases hle : pageSize ≤ ((matching blocks filter).drop n).length
    · have hn' : n + pageSize ≤ (matching blocks filter).length := by
        rw [length_drop] at hle
        omega
      rw [if_pos hle, if_pos hle, after_page hp hn', ih hn', drop_drop]
    · rw [if_neg hle, if_neg hle, take_of_length_le (by omega)]

/-- The logs of the page that begins at a position come after the place where the page before it
ended; the first page begins anywhere. -/
def BeginsRight (pageSize : ℕ) (items : List ExtendedUnencryptedL2Log) (n : ℕ) : Prop :=
  ∀ a, 1 ≤ n → items[n - 1]? = some a → ∀ e ∈ (items.drop n).take pageSize, ComesAfter a e

theorem resumable_drop (hp : 1 ≤ pageSize) (hle : n + pageSize ≤ items.length) :
    Resumable pageSize ComesAfter (items.drop n) ↔ BeginsRight pageSize items (n + pageSize) ∧
        Resumable pageSize ComesAfter (items.drop (n + pageSize)) := by
  have hlt : n + pageSize - 1 < items.length := by omega
  have ha : (items.drop n)[pageSize - 1]? = some items[n + pageSize - 1] := by
    rw [List.getElem?_drop, ← Nat.add_sub_assoc hp, List.getElem?_eq_getElem hlt]
  rw [resumable_iff hp ha, drop_drop, BeginsRight]
  refine and_congr_left fun _ => ⟨fun h a _ ha' e he => ?_, fun h e he => ?_⟩
  · rw [List.getElem?_eq_getElem hlt, some.injEq] at ha'
    exact ha' ▸ h e he
  · exact h _ (by omega) (List.getElem?_eq_getElem hlt) e he

/-- The range of the filter does not end before it begins. -/
def RangeOk (filter : LogFilter) : Prop :=
  LogStore.endsBefore filter.toBlock (LogStore.startBlock filter) = false

theorem LogStore.getUnencryptedLogs_atPosition (hp : 1 ≤ pageSize) (hhash : filter.txHash = none)
    (hafter : filter.afterLog = none) (hrange : RangeOk filter)
    (hn : n ≤ (matching blocks filter).length) :
    LogStore.getUnencryptedLogs pageSize blocks (filter.atPosition (matching blocks filter) n) =
        page pageSize ((matching blocks filter).drop n) ↔
      BeginsRight pageSize (matching blocks filter) n := by
  cases n with
  | zero =>
    rw [atPosition_zero hafter, getUnencryptedLogs_first hp hhash hafter hrange]
    exact ⟨fun _ a h => absurd h (by decide), fun _ => rfl⟩
  | succ n =>
    have ha := List.getElem?_eq_getElem hn
    rw [getUnencryptedLogs_later hp ha, page, page, Response.mk.injEq, take_filter_eq_iff,
      BeginsRight]
    constructor
    · rintro ⟨h, -⟩ a _ ha' e he
      rw [Nat.add_sub_cancel, ha, some.injEq] at ha'
      exact ha' ▸ of_decide_eq_true (h e he)
    · intro h
      have hall : ∀ e ∈ ((matching blocks filter).drop (n + 1)).take pageSize,
          decide (ComesAfter (matching blocks filter)[n] e) = true :=
        fun e he => decide_eq_true (h _ (by omega) ha e he)
      exact ⟨hall, by rw [decide_eq_decide, le_length_filter_iff hall]⟩

theorem paginate_ne_nil (query : LogFilter → Response) (fuel : ℕ) (filter : LogFilter) :
    paginate query fuel filter ≠ some [] := by
  cases fuel with
  | zero => simp [paginate]
  | succ fuel =>
    rw [paginate]
    split
    · simp
    · simp

section

variable (hp : 1 ≤ pageSize) (hhash : filter.txHash = none) (hafter : filter.afterLog = none)
  (hrange : RangeOk filter)
include hp hhash hafter hrange

theorem LogStore.paginate_eq : ∀ (fuel : ℕ) {n : ℕ},
    n ≤ (matching blocks filter).length → BeginsRight pageSize (matching blocks filter) n →
    Resumable pageSize ComesAfter ((matching blocks filter).drop n) →
      paginate (LogStore.getUnencryptedLogs pageSize blocks) fuel
          (filter.atPosition (matching blocks filter) n) =
        pagesOf pageSize fuel ((matching blocks filter).drop n) := by
  intro fuel
  induction fuel with
  | zero => intro n _ _ _; rfl
  | succ fuel ih =>
    intro n hn hbegins hresume
    rw [paginate, (getUnencryptedLogs_atPosition hp hhash hafter hrange hn).2 hbegins, pagesOf]
    simp only [page, decide_eq_true_eq]
    by_cases hle : pageSize ≤ ((matching blocks filter).drop n).length
    · have hn' : n + pageSize ≤ (matching blocks filter).length := by
        rw [length_drop] at hle
        omega
      obtain ⟨hbegins', hresume'⟩ := (resumable_drop hp hn').1 hresume
      rw [if_pos hle, if_pos hle, after_page hp hn', ih hn' hbegins' hresume', drop_drop]
    · rw [if_neg hle, if_neg hle, take_of_length_le (by omega)]

theorem LogStore.resumable_of_paginate : ∀ (fuel : ℕ) {n : ℕ} {pages},
    n ≤ (matching blocks filter).length →
    paginate (LogStore.getUnencryptedLogs pageSize blocks) fuel
        (filter.atPosition (matching blocks filter) n) = some pages →
    pagesOf pageSize fuel ((matching blocks filter).drop n) = some pages →
      BeginsRight pageSize (matching blocks filter) n ∧
        Resumable pageSize ComesAfter ((matching blocks filter).drop n) := by
  intro fuel
  induction fuel with
  | zero => intro n pages _ h _; simp [paginate] at h
  | succ fuel ih =>
    intro n pages hn h hpages
    have hiff := @getUnencryptedLogs_atPosition pageSize blocks filter n hp hhash hafter hrange hn
    rw [paginate] at h
    rw [pagesOf] at hpages
    cases hresponse : LogStore.getUnencryptedLogs pageSize blocks
        (filter.atPosition (matching blocks filter) n) with
    | mk logs hit =>
      rw [hresponse] at h hiff
      simp only at h
      by_cases hle : pageSize ≤ ((matching blocks filter).drop n).length
      · rw [if_pos hle, Option.map_eq_some_iff] at hpages
        obtain ⟨rest, hrest, rfl⟩ := hpages
        have hn' : n + pageSize ≤ (matching blocks filter).length := by
          rw [length_drop] at hle
          omega
        cases hit with
        | false =>
          simp only [Bool.false_eq_true, if_false, some.injEq, List.cons.injEq] at h
          exact absurd (h.2 ▸ hrest) pagesOf_ne_nil
        | true =>
          rw [if_pos rfl, Option.map_eq_some_iff] at h
          obtain ⟨rest', hrest', heq⟩ := h
          rw [List.cons.injEq] at heq
          obtain ⟨rfl, rfl⟩ := heq
          have hbegins := hiff.1 (by rw [page, decide_eq_true hle])
          rw [after_page hp hn'] at hrest'
          rw [drop_drop] at hrest
          have hnext := ih hn' hrest' hrest
          exact ⟨hbegins, (resumable_drop hp hn').2 hnext⟩
      · rw [if_neg hle, some.injEq] at hpages
        subst hpages
        refine ⟨?_, resumable_of_length_lt (by omega)⟩
        cases hit with
        | false =>
          simp only [Bool.false_eq_true, if_false, some.injEq, List.cons.injEq,
            and_true] at h
          subst h
          exact hiff.1 (by rw [page, decide_eq_false hle, take_of_length_le (by omega)])
        | true =>
          rw [if_pos rfl, Option.map_eq_some_iff] at h
          obtain ⟨rest', hrest', heq⟩ := h
          rw [List.cons.injEq] at heq
          exact absurd (heq.2 ▸ hrest') (paginate_ne_nil _ _ _)

end

theorem LogStore.paginate_of_not_rangeOk (hhash : filter.txHash = none)
    (hafter : filter.afterLog = none) (hrange : ¬ RangeOk filter) : ∀ fuel,
    paginate (LogStore.getUnencryptedLogs pageSize blocks) fuel filter = none := by
  have hquery : LogStore.getUnencryptedLogs pageSize blocks filter =
      { logs := [], maxLogsHit := true } := by
    unfold LogStore.getUnencryptedLogs
    rw [hafter, hhash]
    exact if_pos (by simpa [RangeOk] using hrange)
  intro fuel
  induction fuel with
  | zero => rfl
  | succ fuel ih =>
    rw [paginate, hquery]
    simp only [after, List.getLast?_nil, if_true, ih, Option.map_none]

/-- **The stores return the same pages, with every matching log once and in order, exactly when the
range of blocks does not end before it begins and the logs of every page after the first come, in
their transaction and in their block, after the place where the page before ended.** -/
theorem pagesAreRight_iff (pageSize : ℕ) (blocks : List Block) (filter : LogFilter)
    (hp : 1 ≤ pageSize) (hhash : filter.txHash = none) (hafter : filter.afterLog = none) :
    PagesAreRight pageSize blocks filter ↔
      RangeOk filter ∧ Resumable pageSize ComesAfter (matching blocks filter) := by
  have hzero := atPosition_zero hafter (matching blocks filter)
  have hmem := fun fuel =>
    @Memory.paginate_eq pageSize blocks filter hp hhash hafter fuel 0 (Nat.zero_le _)
  rw [hzero, drop_zero] at hmem
  constructor
  · rintro ⟨fuel, pages, hkv, hm, -⟩
    have hrange : RangeOk filter := by
      by_contra hrange
      rw [LogStore.paginate_of_not_rangeOk hhash hafter hrange] at hkv
      exact absurd hkv (by simp)
    rw [hmem] at hm
    have h := @LogStore.resumable_of_paginate pageSize blocks filter hp hhash hafter hrange fuel 0
      pages (Nat.zero_le _) (by rw [hzero]; exact hkv) hm
    exact ⟨hrange, h.2⟩
  · rintro ⟨hrange, hresume⟩
    obtain ⟨pages, hpages⟩ := exists_pagesOf hp _ (Nat.lt_succ_self (matching blocks filter).length)
    have hkv := @LogStore.paginate_eq pageSize blocks filter hp hhash hafter hrange
      (matching blocks filter).length.succ 0 (Nat.zero_le _) (fun a h => absurd h (by decide)) hresume
    rw [hzero, drop_zero, hpages] at hkv
    exact ⟨_, pages, hkv, (hmem _).trans hpages, flatten_pagesOf _ hpages⟩

end Pages

/-! ### Two logs in different transactions -/

namespace TwoTxs

def log : UnencryptedL2Log := ⟨7, 1, []⟩

def blocks : List Block := [[⟨1, [[log]]⟩, ⟨2, [[log]]⟩]]

def filter : LogFilter := ⟨none, none, none, none, none, none⟩

end TwoTxs

/-- In pages of two, both logs are on the first page. -/
theorem pagesAreRight_twoTxs : PagesAreRight 2 TwoTxs.blocks TwoTxs.filter := by
  refine (pagesAreRight_iff 2 TwoTxs.blocks TwoTxs.filter (by decide) rfl rfl).2 ⟨rfl, ?_⟩
  intro i j a e hdvd hlt hle ha he
  have hi : i < 2 := (List.getElem?_eq_some_iff.1 ha).1
  have hj : j < 2 := (List.getElem?_eq_some_iff.1 he).1
  omega

/-- **In pages of one, the LMDB store leaves out the second log**: its index in its transaction is
not above that of the first. -/
theorem not_pagesAreRight_in_general :
    ¬ ∀ (pageSize : ℕ) (blocks : List Block) (filter : LogFilter), 1 ≤ pageSize →
      filter.txHash = none → filter.afterLog = none → PagesAreRight pageSize blocks filter := by
  intro h
  obtain ⟨fuel, pages, hkv, -, hflat⟩ := h 1 TwoTxs.blocks TwoTxs.filter (by decide) rfl rfl
  have hquery : LogStore.getUnencryptedLogs 1 TwoTxs.blocks TwoTxs.filter =
      ⟨[⟨⟨1, 0, 0⟩, TwoTxs.log⟩], true⟩ := by decide
  have hnext : LogStore.getUnencryptedLogs 1 TwoTxs.blocks
      (TwoTxs.filter.after [⟨⟨1, 0, 0⟩, TwoTxs.log⟩]) = ⟨[], false⟩ := by decide
  have hmatching : matching TwoTxs.blocks TwoTxs.filter =
      [⟨⟨1, 0, 0⟩, TwoTxs.log⟩, ⟨⟨1, 1, 0⟩, TwoTxs.log⟩] := by decide
  cases fuel with
  | zero => simp [paginate] at hkv
  | succ fuel =>
    rw [paginate, hquery] at hkv
    cases fuel with
    | zero => simp [paginate] at hkv
    | succ fuel =>
      simp only [paginate, hnext, if_true, Bool.false_eq_true, if_false, Option.map_some,
        Option.some.injEq] at hkv
      subst hkv
      rw [hmatching] at hflat
      simp at hflat

end LogPagination
