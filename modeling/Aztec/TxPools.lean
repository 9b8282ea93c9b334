/-
**The two transaction pools.**

The memory pool is a map in the order of insertion.  The pool in LMDB has the same transactions, in
the order of the keys: the hexadecimal digits of their hashes, which sort like the hashes.
-/

import Aztec.InsertionMap

namespace TxPools

/-- The map `txs` in LMDB, in the order of its keys. -/
structure LmdbTxs (Buffer : Type) where
  entries : List (ℕ × Buffer)
  sorted : entries.Pairwise fun a b => a.1 < b.1

namespace LmdbTxs

variable {Buffer : Type}

def empty : LmdbTxs Buffer := ⟨[], .nil⟩

def toInsertionMap (txs : LmdbTxs Buffer) : InsertionMap ℕ Buffer :=
  ⟨txs.entries, List.pairwise_map.2 (txs.sorted.imp fun h => h.ne)⟩

def get (txs : LmdbTxs Buffer) (txHash : ℕ) : Option Buffer := txs.toInsertionMap.get txHash

def set (txs : LmdbTxs Buffer) (txHash : ℕ) (buffer : Buffer) : LmdbTxs Buffer where
  entries := txs.entries.filter (fun e => e.1 < txHash) ++
    (txHash, buffer) :: txs.entries.filter fun e => txHash < e.1
  sorted := by
    refine List.pairwise_append.2 ⟨txs.sorted.filter _, List.pairwise_cons.2
      ⟨fun e he => of_decide_eq_true (List.mem_filter.1 he).2, txs.sorted.filter _⟩, ?_⟩
    intro a ha b hb
    have hlow : a.1 < txHash := of_decide_eq_true (List.mem_filter.1 ha).2
    obtain rfl | hb := List.mem_cons.1 hb
    · exact hlow
    · exact hlow.trans (of_decide_eq_true (List.mem_filter.1 hb).2)

def delete (txs : LmdbTxs Buffer) (txHash : ℕ) : LmdbTxs Buffer :=
  ⟨txs.entries.filter fun e => e.1 ≠ txHash, txs.sorted.filter _⟩

theorem mem_set (txs : LmdbTxs Buffer) (txHash k : ℕ) (buffer b : Buffer) :
    (k, b) ∈ (txs.set txHash buffer).entries ↔
      if k = txHash then b = buffer else (k, b) ∈ txs.entries := by
  simp only [set, List.mem_append, List.mem_cons, List.mem_filter, decide_eq_true_eq, Prod.mk.injEq]
  rcases lt_trichotomy k txHash with h | rfl | h
  · simp [h, h.ne, h.not_gt]
  · simp
  · simp [h, h.ne', h.not_gt]

theorem mem_delete (txs : LmdbTxs Buffer) (txHash k : ℕ) (b : Buffer) :
    (k, b) ∈ (txs.delete txHash).entries ↔ k ≠ txHash ∧ (k, b) ∈ txs.entries := by
  simp only [delete, List.mem_filter, decide_eq_true_eq, and_comm]

end LmdbTxs

variable {Tx Buffer : Type} (getTxHash : Tx → ℕ) (toBuffer : Tx → Buffer) (fromBuffer : Buffer → Tx)

inductive Call (Tx : Type) where
  | addTxs (txs : List Tx)
  | deleteTxs (txHashes : List ℕ)

/-! ### `InMemoryTxPool` -/

namespace InMemoryTxPool

def call (txs : InsertionMap ℕ Tx) : Call Tx → InsertionMap ℕ Tx
  | .addTxs added => added.foldl (fun txs tx => txs.set (getTxHash tx) tx) txs
  | .deleteTxs txHashes => txHashes.foldl InsertionMap.delete txs

def hasTx (txs : InsertionMap ℕ Tx) (txHash : ℕ) : Bool := (txs.get txHash).isSome

def getAllTxs (txs : InsertionMap ℕ Tx) : List Tx := txs.entries.map Prod.snd

def getAllTxHashes (txs : InsertionMap ℕ Tx) : List ℕ := txs.entries.map Prod.fst

end InMemoryTxPool

/-! ### `AztecKVTxPool` -/

namespace AztecKVTxPool

def call (txs : LmdbTxs Buffer) : Call Tx → LmdbTxs Buffer
  | .addTxs added => added.foldl (fun txs tx => txs.set (getTxHash tx) (toBuffer tx)) txs
  | .deleteTxs txHashes => txHashes.foldl LmdbTxs.delete txs

def getTxByHash (txs : LmdbTxs Buffer) (txHash : ℕ) : Option Tx := (txs.get txHash).map fromBuffer

def hasTx (txs : LmdbTxs Buffer) (txHash : ℕ) : Bool := (txs.get txHash).isSome

def getAllTxs (txs : LmdbTxs Buffer) : List Tx := txs.entries.map fun e => fromBuffer e.2

def getAllTxHashes (txs : LmdbTxs Buffer) : List ℕ := txs.entries.map Prod.fst

end AztecKVTxPool

/-! ### The order of arrival -/

/-- The hashes of the transactions that are in the pool, in the order in which they were added. -/
def arrivals (txHashes : List ℕ) : Call Tx → List ℕ
  | .addTxs added =>
    added.foldl (fun l tx => if getTxHash tx ∈ l then l else l ++ [getTxHash tx]) txHashes
  | .deleteTxs deleted => deleted.foldl (fun l txHash => l.filter (· ≠ txHash)) txHashes

def inMemory (calls : List (Call Tx)) : InsertionMap ℕ Tx :=
  calls.foldl (InMemoryTxPool.call getTxHash) .empty

def inKV (calls : List (Call Tx)) : LmdbTxs Buffer :=
  calls.foldl (AztecKVTxPool.call getTxHash toBuffer) .empty

/-- The pools are the same ordered set: they answer alike, and list the transactions in the order of
their arrival. -/
structure Same (calls : List (Call Tx)) : Prop where
  getTxByHash : ∀ txHash, AztecKVTxPool.getTxByHash fromBuffer (inKV getTxHash toBuffer calls)
    txHash = (inMemory getTxHash calls).get txHash
  hasTx : ∀ txHash, AztecKVTxPool.hasTx (inKV getTxHash toBuffer calls) txHash =
    InMemoryTxPool.hasTx (inMemory getTxHash calls) txHash
  getAllTxHashes : AztecKVTxPool.getAllTxHashes (inKV getTxHash toBuffer calls) =
    InMemoryTxPool.getAllTxHashes (inMemory getTxHash calls)
  getAllTxs : AztecKVTxPool.getAllTxs fromBuffer (inKV getTxHash toBuffer calls) =
    InMemoryTxPool.getAllTxs (inMemory getTxHash calls)
  inOrder : (AztecKVTxPool.getAllTxs fromBuffer (inKV getTxHash toBuffer calls)).map getTxHash =
    calls.foldl (arrivals getTxHash) []

/-! ### The pools agree -/

/-- The pools have the same transactions, the memory pool in the order of arrival. -/
structure Agrees (mem : InsertionMap ℕ Tx) (kv : LmdbTxs Buffer) (arrived : List ℕ) : Prop where
  keys : mem.entries.map Prod.fst = arrived
  stored : ∀ txHash b, (txHash, b) ∈ kv.entries ↔
    ∃ tx, (txHash, tx) ∈ mem.entries ∧ toBuffer tx = b
  hashes : ∀ txHash tx, (txHash, tx) ∈ mem.entries → getTxHash tx = txHash

variable {getTxHash toBuffer fromBuffer} {mem : InsertionMap ℕ Tx} {kv : LmdbTxs Buffer}
  {arrived : List ℕ}

theorem mem_set (mem : InsertionMap ℕ Tx) (k j : ℕ) (tx added : Tx) :
    (j, tx) ∈ (mem.set k added).entries ↔ if j = k then added = tx else (j, tx) ∈ mem.entries := by
  rw [InsertionMap.mem_entries_iff, InsertionMap.get_set]
  split
  · rw [Option.some.injEq]
  · rw [InsertionMap.mem_entries_iff]

theorem mem_delete (mem : InsertionMap ℕ Tx) (k j : ℕ) (tx : Tx) :
    (j, tx) ∈ (mem.delete k).entries ↔ j ≠ k ∧ (j, tx) ∈ mem.entries := by
  simp only [InsertionMap.delete, List.mem_filter, decide_eq_true_eq, and_comm]

section

variable (h : Agrees getTxHash toBuffer mem kv arrived)
include h

theorem Agrees.set (tx : Tx) :
    Agrees getTxHash toBuffer (mem.set (getTxHash tx) tx) (kv.set (getTxHash tx) (toBuffer tx))
      (if getTxHash tx ∈ arrived then arrived else arrived ++ [getTxHash tx]) where
  keys := by
    rw [← h.keys]
    exact InsertionMap.keys_setEntries mem.entries _ tx
  stored txHash b := by
    simp only [LmdbTxs.mem_set, mem_set, h.stored]
    by_cases hk : txHash = getTxHash tx
    · simp [hk, eq_comm]
    · simp [hk]
  hashes txHash tx' hmem := by
    rw [mem_set] at hmem
    by_cases hk : txHash = getTxHash tx
    · rw [if_pos hk] at hmem
      rw [← hmem, hk]
    · rw [if_neg hk] at hmem
      exact h.hashes _ _ hmem

theorem Agrees.delete (txHash : ℕ) :
    Agrees getTxHash toBuffer (mem.delete txHash) (kv.delete txHash)
      (arrived.filter (· ≠ txHash)) where
  keys := by
    rw [← h.keys, InsertionMap.delete, List.filter_map]
    rfl
  stored k b := by
    simp only [LmdbTxs.mem_delete, mem_delete, h.stored, and_assoc, exists_and_left]
  hashes k tx hmem := h.hashes k tx ((mem_delete mem txHash k tx).1 hmem).2

theorem Agrees.call (c : Call Tx) : Agrees getTxHash toBuffer (InMemoryTxPool.call getTxHash mem c)
      (AztecKVTxPool.call getTxHash toBuffer kv c) (arrivals getTxHash arrived c) := by
  cases c with
  | addTxs added =>
    induction added generalizing mem kv arrived with
    | nil => exact h
    | cons tx added ih => exact ih (h.set tx)
  | deleteTxs deleted =>
    induction deleted generalizing mem kv arrived with
    | nil => exact h
    | cons txHash deleted ih => exact ih (h.delete txHash)

end

theorem agrees_foldl (calls : List (Call Tx)) (h : Agrees getTxHash toBuffer mem kv arrived) :
    Agrees getTxHash toBuffer (calls.foldl (InMemoryTxPool.call getTxHash) mem)
      (calls.foldl (AztecKVTxPool.call getTxHash toBuffer) kv)
      (calls.foldl (arrivals getTxHash) arrived) := by
  induction calls generalizing mem kv arrived with
  | nil => exact h
  | cons c calls ih => exact ih (h.call c)

theorem agrees_run (calls : List (Call Tx)) :
    Agrees getTxHash toBuffer (inMemory getTxHash calls) (inKV getTxHash toBuffer calls)
      (calls.foldl (arrivals getTxHash) []) :=
  agrees_foldl calls ⟨rfl, fun _ _ => by simp [LmdbTxs.empty, InsertionMap.empty], nofun⟩

theorem Agrees.get (h : Agrees getTxHash toBuffer mem kv arrived) (txHash : ℕ) :
    kv.get txHash = (mem.get txHash).map toBuffer := by
  refine Option.ext fun b => ?_
  rw [LmdbTxs.get, ← InsertionMap.mem_entries_iff, Option.map_eq_some_iff]
  simp only [← InsertionMap.mem_entries_iff]
  exact h.stored txHash b

theorem Agrees.entries_eq (h : Agrees getTxHash toBuffer mem kv arrived)
    (harrived : arrived.Pairwise (· < ·)) :
    kv.entries = mem.entries.map fun e => (e.1, toBuffer e.2) := by
  have hantisymm : Std.Antisymm fun a b : ℕ × Buffer => a.1 < b.1 :=
    ⟨fun _ _ hab hba => absurd hba hab.not_gt⟩
  have hirrefl : Std.Irrefl fun a b : ℕ × Buffer => a.1 < b.1 := ⟨fun _ => lt_irrefl _⟩
  rw [← h.keys, List.pairwise_map] at harrived
  refine kv.sorted.eq_of_mem_iff (List.pairwise_map.2 harrived) fun e => ?_
  rw [h.stored, List.mem_map]
  constructor
  · rintro ⟨tx, hmem, hbuffer⟩
    exact ⟨_, hmem, Prod.ext rfl hbuffer⟩
  · rintro ⟨e', hmem, rfl⟩
    exact ⟨_, hmem, rfl⟩

/-- **The pools are the same ordered set exactly when the transactions in them arrived in the order
of their hashes.** -/
theorem same_iff (hround : ∀ tx, fromBuffer (toBuffer tx) = tx) (calls : List (Call Tx)) :
    Same getTxHash toBuffer fromBuffer calls ↔
      (calls.foldl (arrivals getTxHash) []).Pairwise (· < ·) := by
  have hagrees : Agrees getTxHash toBuffer _ _ _ := agrees_run calls
  constructor
  · intro h
    have hkeys : (inKV getTxHash toBuffer calls).entries.map Prod.fst =
        (inMemory getTxHash calls).entries.map Prod.fst := h.getAllTxHashes
    rw [← hagrees.keys, ← hkeys, List.pairwise_map]
    exact (inKV getTxHash toBuffer calls).sorted
  · intro harrived
    have hentries := hagrees.entries_eq harrived
    have hall : AztecKVTxPool.getAllTxs fromBuffer (inKV getTxHash toBuffer calls) =
        InMemoryTxPool.getAllTxs (inMemory getTxHash calls) := by
      rw [AztecKVTxPool.getAllTxs, hentries, List.map_map]
      exact List.map_congr_left fun e _ => hround e.2
    refine ⟨fun txHash => ?_, fun txHash => ?_, ?_, hall, ?_⟩
    · rw [AztecKVTxPool.getTxByHash, hagrees.get, Option.map_map,
        show fromBuffer ∘ toBuffer = id from funext hround, Option.map_id, id]
    · rw [AztecKVTxPool.hasTx, hagrees.get, Option.isSome_map]
      rfl
    · rw [AztecKVTxPool.getAllTxHashes, hentries, List.map_map]
      rfl
    · rw [hall, ← hagrees.keys, InMemoryTxPool.getAllTxs, List.map_map]
      exact List.map_congr_left fun e hmem => hagrees.hashes e.1 e.2 hmem

theorem same_iff_two : Same id id id [.addTxs [1, 2]] ↔
    ([Call.addTxs [1, 2]].foldl (arrivals id) []).Pairwise (· < ·) :=
  same_iff (fun _ => rfl) _

/-- The transaction with the greater hash comes first. -/
theorem not_same : ¬Same id id id [.addTxs [2, 1]] :=
  fun h => absurd h.getAllTxHashes (by decide)

end TxPools
