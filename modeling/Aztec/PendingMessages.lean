/-
**The pending messages from L1 in the two stores of the archiver.**

Messages that were sent on L1 are pending until they are cancelled or confirmed, as often as they
were sent.  The database counts them in an index ordered by fee and key, beside a map of the
messages, and undoes a call that throws.  The memory store counts them in a map, sorts it by fee
when it is asked, skips the key zero when it removes messages, and keeps what a call has done before
it throws.
-/

import Aztec.InsertionMap
import Mathlib.Data.Multiset.AddSub
import Mathlib.Tactic

open List
open InsertionMap (copies copies_cons copies_nil get_delete get_set mem_entries_iff)

namespace PendingMessages

/-! ### Calls -/

/-- A message with its key, which messages from L1 have, its fee, and the rest of it. -/
structure L1ToL2Message where
  entryKey : Option ℕ
  fee : ℕ
  rest : ℕ
  deriving DecidableEq, Repr

inductive Call where
  | addPendingL1ToL2Messages (messages : List L1ToL2Message) (l1BlockNumber : ℕ)
  | cancelPendingL1ToL2Messages (keys : List ℕ) (l1BlockNumber : ℕ)
  | confirmL1ToL2Messages (keys : List ℕ)
  | getPendingL1ToL2MessageKeys (limit : ℕ)

inductive Output where
  | done (changed : Bool)
  | keys (keys : List ℕ)
  deriving DecidableEq, Repr

/-! ### The database -/

structure Message where
  message : L1ToL2Message
  fee : ℕ
  confirmed : Bool
  deriving DecidableEq, Repr

structure KvMessageStore where
  messages : InsertionMap ℕ Message
  pendingMessagesByFee : InsertionMap (ℕ × ℕ) ℕ
  lastL1BlockAddingMessages : ℕ
  lastL1BlockCancellingMessages : ℕ

open KvMessageStore

namespace KvMessageStore

def empty : KvMessageStore := ⟨.empty, .empty, 0, 0⟩

/-- `update` of the counter by 1. -/
def increment (counter : InsertionMap (ℕ × ℕ) ℕ) (key : ℕ × ℕ) : InsertionMap (ℕ × ℕ) ℕ :=
  counter.set key ((counter.get key).getD 0 + 1)

/-- `update` of the counter by -1. -/
def decrement (counter : InsertionMap (ℕ × ℕ) ℕ) (key : ℕ × ℕ) :
    Except String (InsertionMap (ℕ × ℕ) ℕ) :=
  match (counter.get key).getD 0 with
  | 0 => .error "Cannot update in counter below zero"
  | 1 => .ok (counter.delete key)
  | next + 2 => .ok (counter.set key (next + 1))

def addMessage (store : KvMessageStore) (message : L1ToL2Message) :
    Except String KvMessageStore :=
  match message.entryKey with
  | none => .error "Message does not have an entry key"
  | some key =>
    .ok { store with
      messages :=
        if (store.messages.get key).isSome then store.messages
        else store.messages.set key ⟨message, message.fee, false⟩
      pendingMessagesByFee := increment store.pendingMessagesByFee (message.fee, key) }

def addPendingMessages (messages : List L1ToL2Message) (l1BlockNumber : ℕ)
    (store : KvMessageStore) : Except String (KvMessageStore × Output) :=
  if store.lastL1BlockAddingMessages ≥ l1BlockNumber then .ok (store, .done false)
  else do
    let store ← messages.foldlM addMessage
      { store with lastL1BlockAddingMessages := l1BlockNumber }
    return (store, .done true)

def cancelMessage (store : KvMessageStore) (key : ℕ) : Except String KvMessageStore :=
  match store.messages.get key with
  | none => .error "Message not found"
  | some ctx => do
    let pending ← decrement store.pendingMessagesByFee (ctx.fee, key)
    return { store with pendingMessagesByFee := pending }

def cancelPendingMessages (keys : List ℕ) (l1BlockNumber : ℕ) (store : KvMessageStore) :
    Except String (KvMessageStore × Output) :=
  if store.lastL1BlockCancellingMessages ≥ l1BlockNumber then .ok (store, .done false)
  else do
    let store ← keys.foldlM cancelMessage
      { store with lastL1BlockCancellingMessages := l1BlockNumber }
    return (store, .done true)

def confirmMessage (store : KvMessageStore) (key : ℕ) : Except String KvMessageStore :=
  match store.messages.get key with
  | none => .error "Message not found"
  | some ctx => do
    let pending ← decrement store.pendingMessagesByFee (ctx.fee, key)
    return { store with
      messages := store.messages.set key { ctx with confirmed := true }
      pendingMessagesByFee := pending }

def confirmPendingMessages (keys : List ℕ) (store : KvMessageStore) :
    Except String (KvMessageStore × Output) := do
  let store ← keys.foldlM confirmMessage store
  return (store, .done true)

/-- The order of the index, read backwards: by fee, then by key. -/
def FeeKeyGe (a b : (ℕ × ℕ) × ℕ) : Prop := b.1.1 < a.1.1 ∨ b.1.1 = a.1.1 ∧ b.1.2 ≤ a.1.2

instance : DecidableRel FeeKeyGe := fun a b => by unfold FeeKeyGe; infer_instance

/-- The loop of `getPendingMessageKeysByFee`: all copies of a key are put in the list before its
length is compared with the limit. -/
def collect (limit : ℕ) : List (ℕ × ℕ) → List ℕ → List ℕ
  | [], messageKeys => messageKeys
  | (key, count) :: rest, messageKeys =>
    let messageKeys := messageKeys ++ List.replicate count key
    if messageKeys.length ≥ limit then messageKeys else collect limit rest messageKeys

def entriesByFee (store : KvMessageStore) : List (ℕ × ℕ) :=
  (store.pendingMessagesByFee.entries.insertionSort FeeKeyGe).map fun e => (e.1.2, e.2)

def getPendingMessageKeysByFee (limit : ℕ) (store : KvMessageStore) : List ℕ :=
  collect limit store.entriesByFee []

/-- `transaction`: a change that throws is undone. -/
def transaction (change : KvMessageStore → Except String (KvMessageStore × Output))
    (store : KvMessageStore) : KvMessageStore × Except String Output :=
  match change store with
  | .ok (store, output) => (store, .ok output)
  | .error message => (store, .error message)

def run (store : KvMessageStore) : Call → KvMessageStore × Except String Output
  | .addPendingL1ToL2Messages messages block => transaction (addPendingMessages messages block) store
  | .cancelPendingL1ToL2Messages keys block => transaction (cancelPendingMessages keys block) store
  | .confirmL1ToL2Messages keys => transaction (confirmPendingMessages keys) store
  | .getPendingL1ToL2MessageKeys limit =>
    (store, .ok (.keys (store.getPendingMessageKeysByFee limit)))

end KvMessageStore

/-! ### The memory store -/

/-- `L1ToL2MessageAndCount`; the message is missing where an unknown key was confirmed. -/
structure MessageAndCount where
  message : Option L1ToL2Message
  count : ℕ
  deriving DecidableEq, Repr

/-- What of `MemoryArchiverStore` the calls use. -/
structure MemoryStore where
  pendingL1ToL2Messages : InsertionMap ℕ MessageAndCount
  confirmedL1ToL2Messages : InsertionMap ℕ MessageAndCount
  lastL1BlockAddedMessages : ℕ
  lastL1BlockCancelledMessages : ℕ

namespace MemoryStore

def empty : MemoryStore := ⟨.empty, .empty, 0, 0⟩

def addMessage (store : InsertionMap ℕ MessageAndCount) (key : ℕ)
    (message : Option L1ToL2Message) : InsertionMap ℕ MessageAndCount :=
  match store.get key with
  | some msgAndCount => store.set key { msgAndCount with count := msgAndCount.count + 1 }
  | none => store.set key ⟨message, 1⟩

def removeMessage (store : InsertionMap ℕ MessageAndCount) (key : ℕ) :
    Except String (InsertionMap ℕ MessageAndCount) :=
  if key = 0 then .ok store
  else
    match store.get key with
    | none => .error "Unable to remove message"
    | some msgAndCount =>
      if msgAndCount.count > 1 then
        .ok (store.set key { msgAndCount with count := msgAndCount.count - 1 })
      else .ok (store.delete key)

/-- A loop over a batch, which stops at the first item that throws and leaves the store as it is
then. -/
def forEach {α : Type} (body : MemoryStore → α → MemoryStore × Except String Unit) :
    List α → MemoryStore → MemoryStore × Except String Output
  | [], store => (store, .ok (.done true))
  | item :: items, store =>
    match body store item with
    | (store, .ok _) => forEach body items store
    | (store, .error message) => (store, .error message)

def addOne (store : MemoryStore) (message : L1ToL2Message) : MemoryStore × Except String Unit :=
  match message.entryKey with
  | none => (store, .error "Cannot read properties of undefined")
  | some key =>
    ({ store with
        pendingL1ToL2Messages := addMessage store.pendingL1ToL2Messages key (some message) },
      .ok ())

/-- One key of `cancelPendingL1ToL2Messages`. -/
def cancelOne (store : MemoryStore) (key : ℕ) : MemoryStore × Except String Unit :=
  match removeMessage store.pendingL1ToL2Messages key with
  | .error message => (store, .error message)
  | .ok pending => ({ store with pendingL1ToL2Messages := pending }, .ok ())

/-- One key of `confirmL1ToL2Messages`. -/
def confirmOne (store : MemoryStore) (key : ℕ) : MemoryStore × Except String Unit :=
  let message := (store.pendingL1ToL2Messages.get key).bind MessageAndCount.message
  cancelOne { store with
    confirmedL1ToL2Messages := addMessage store.confirmedL1ToL2Messages key message } key

def fee (e : ℕ × MessageAndCount) : ℕ := (e.2.message.map L1ToL2Message.fee).getD 0

def FeeGe (a b : ℕ × MessageAndCount) : Prop := fee b ≤ fee a

instance : DecidableRel FeeGe := fun a b => by unfold FeeGe; infer_instance

/-- The inner loop of `getMessageKeys`, which ends the function when the list is full. -/
def pushCopies (limit key : ℕ) : ℕ → List ℕ → List ℕ ⊕ List ℕ
  | 0, messages => .inr messages
  | count + 1, messages =>
    let messages := messages ++ [key]
    if messages.length = limit then .inl messages else pushCopies limit key count messages

/-- The outer loop of `getMessageKeys`. -/
def collect (limit : ℕ) : List (ℕ × ℕ) → List ℕ → List ℕ
  | [], messages => messages
  | (key, count) :: rest, messages =>
    match pushCopies limit key count messages with
    | .inl messages => messages
    | .inr messages => collect limit rest messages

/-- The keys of the pending messages from the highest fee on, with their counts. -/
def entriesByFee (store : MemoryStore) : List (ℕ × ℕ) :=
  (store.pendingL1ToL2Messages.entries.insertionSort FeeGe).map fun e =>
    ((e.2.message.bind L1ToL2Message.entryKey).getD 0, e.2.count)

def getMessageKeys (limit : ℕ) (store : MemoryStore) : List ℕ :=
  if limit < 1 then [] else collect limit store.entriesByFee []

def run (store : MemoryStore) : Call → MemoryStore × Except String Output
  | .addPendingL1ToL2Messages messages block =>
    if block ≤ store.lastL1BlockAddedMessages then (store, .ok (.done false))
    else forEach addOne messages { store with lastL1BlockAddedMessages := block }
  | .cancelPendingL1ToL2Messages keys block =>
    if block ≤ store.lastL1BlockCancelledMessages then (store, .ok (.done false))
    else forEach cancelOne keys { store with lastL1BlockCancelledMessages := block }
  | .confirmL1ToL2Messages keys => forEach confirmOne keys store
  | .getPendingL1ToL2MessageKeys limit => (store, .ok (.keys (store.getMessageKeys limit)))

end MemoryStore

/-! ### What the calls are for -/

/-- The keys that are pending, as often as they were added and not removed, and the blocks of the
last batches. -/
structure Accounting where
  pending : Multiset ℕ
  lastAdded : ℕ
  lastCancelled : ℕ

namespace Accounting

def empty : Accounting := ⟨0, 0, 0⟩

/-- The accounting after a call.  Batches of blocks that are not new are ignored. -/
def next (a : Accounting) : Call → Accounting
  | .addPendingL1ToL2Messages messages block =>
    if block ≤ a.lastAdded then a
    else
      { a with
        pending := a.pending + (messages.filterMap L1ToL2Message.entryKey : List ℕ)
        lastAdded := block }
  | .cancelPendingL1ToL2Messages keys block =>
    if block ≤ a.lastCancelled then a
    else { a with pending := a.pending - (keys : Multiset ℕ), lastCancelled := block }
  | .confirmL1ToL2Messages keys => { a with pending := a.pending - (keys : Multiset ℕ) }
  | .getPendingL1ToL2MessageKeys _ => a

end Accounting

/-- The right keys up to a limit: as many as there are, from the highest fee on, none more often
than it is pending, and none left out that has a higher fee than one of them. -/
structure KeysRight (feeOf : ℕ → ℕ) (pending : Multiset ℕ) (limit : ℕ) (keys : List ℕ) : Prop where
  length_eq : keys.length = min limit (Multiset.card pending)
  sorted : keys.Pairwise fun k later => feeOf later ≤ feeOf k
  count_le : ∀ k, keys.count k ≤ pending.count k
  left_out : ∀ k, keys.count k < pending.count k → ∀ k' ∈ keys, feeOf k ≤ feeOf k'

def OutputRight (feeOf : ℕ → ℕ) (a : Accounting) : Call → Output → Prop
  | .addPendingL1ToL2Messages _ block, output => output = .done (decide (a.lastAdded < block))
  | .cancelPendingL1ToL2Messages _ block, output =>
    output = .done (decide (a.lastCancelled < block))
  | .confirmL1ToL2Messages _, output => output = .done true
  | .getPendingL1ToL2MessageKeys limit, output =>
    ∃ keys, output = .keys keys ∧ KeysRight feeOf a.pending limit keys

/-- Along a sequence of calls both stores return the same, and what they should; a call that throws
leaves both as they are. -/
def StoresAgree (feeOf : ℕ → ℕ) : Accounting → KvMessageStore → MemoryStore → List Call → Prop
  | _, _, _, [] => True
  | a, kv, mem, call :: calls =>
    (kv.run call).2 = (mem.run call).2 ∧
      (∀ output, (mem.run call).2 = .ok output → OutputRight feeOf a call output) ∧
      (∀ message, (mem.run call).2 = .error message →
        (kv.run call).1 = kv ∧ (mem.run call).1 = mem) ∧
      StoresAgree feeOf (if (mem.run call).2.isOk then a.next call else a) (kv.run call).1
        (mem.run call).1 calls

/-- Messages of the same fee were first added in the decreasing order of their keys. -/
def TiesInOrder (mem : MemoryStore) : Prop :=
  mem.pendingL1ToL2Messages.entries.Pairwise fun e later =>
    MemoryStore.fee later = MemoryStore.fee e → later.1 ≤ e.1

/-- The limit does not cut through the copies of a message. -/
def CutsBetween (mem : MemoryStore) (limit : ℕ) : Prop :=
  (InsertionMap.copies mem.entriesByFee).length ≤ limit ∨
    ∃ before after, mem.entriesByFee = before ++ after ∧
      (InsertionMap.copies before).length = limit

/-- The condition on a call: added messages have keys that determine their fees, removed keys are
not zero and are pending as often as they are removed, and lists are asked for with a limit that
cuts between messages when no fees tie against the order of the keys. -/
def CallOk (feeOf : ℕ → ℕ) (a : Accounting) (mem : MemoryStore) : Call → Prop
  | .addPendingL1ToL2Messages messages block =>
    block ≤ a.lastAdded ∨ ∀ m ∈ messages, ∃ key, m.entryKey = some key ∧ m.fee = feeOf key
  | .cancelPendingL1ToL2Messages keys block =>
    block ≤ a.lastCancelled ∨ 0 ∉ keys ∧ (keys : Multiset ℕ) ≤ a.pending
  | .confirmL1ToL2Messages keys => 0 ∉ keys ∧ (keys : Multiset ℕ) ≤ a.pending
  | .getPendingL1ToL2MessageKeys limit => 1 ≤ limit ∧ TiesInOrder mem ∧ CutsBetween mem limit

def CallsOk (feeOf : ℕ → ℕ) : Accounting → MemoryStore → List Call → Prop
  | _, _, [] => True
  | a, mem, call :: calls =>
    CallOk feeOf a mem call ∧ CallsOk feeOf (a.next call) (mem.run call).1 calls

/-! ### The stores and the accounting -/

/-- Both stores hold the pending keys with their counts. -/
structure Holds (feeOf : ℕ → ℕ) (pending : Multiset ℕ) (kv : KvMessageStore) (mem : MemoryStore) :
    Prop where
  messages_fee : ∀ key ctx, kv.messages.get key = some ctx → ctx.fee = feeOf key
  messages_some : ∀ key ∈ pending, ∃ ctx, kv.messages.get key = some ctx
  counter : ∀ fee key, kv.pendingMessagesByFee.get (fee, key) =
    if fee = feeOf key ∧ key ∈ pending then some (pending.count key) else none
  memory_some : ∀ key ∈ pending, ∃ m, mem.pendingL1ToL2Messages.get key =
    some ⟨some m, pending.count key⟩ ∧ m.entryKey = some key ∧ m.fee = feeOf key
  memory_none : ∀ key, key ∉ pending → mem.pendingL1ToL2Messages.get key = none

section Steps

variable {feeOf : ℕ → ℕ} {pending : Multiset ℕ} {kv : KvMessageStore} {mem : MemoryStore}

variable {key : ℕ}

section

variable (h : Holds feeOf pending kv mem)
include h

theorem Holds.add {m : L1ToL2Message} (hkey : m.entryKey = some key) (hfee : m.fee = feeOf key) :
    ∃ kv' mem', kv.addMessage m = .ok kv' ∧ mem.addOne m = (mem', .ok ()) ∧
      Holds feeOf (key ::ₘ pending) kv' mem' ∧
      kv'.lastL1BlockAddingMessages = kv.lastL1BlockAddingMessages ∧
      kv'.lastL1BlockCancellingMessages = kv.lastL1BlockCancellingMessages ∧
      mem'.lastL1BlockAddedMessages = mem.lastL1BlockAddedMessages ∧
      mem'.lastL1BlockCancelledMessages = mem.lastL1BlockCancelledMessages := by
  simp only [addMessage, MemoryStore.addOne, hkey]
  refine ⟨_, _, rfl, rfl, ?_, rfl, rfl, rfl, rfl⟩
  constructor
  · intro k ctx hctx
    dsimp only at hctx
    split at hctx
    · exact h.messages_fee k ctx hctx
    · rw [get_set] at hctx
      split at hctx
      · next hk =>
          obtain rfl := Option.some.inj hctx
          rw [hfee, hk]
      · exact h.messages_fee k ctx hctx
  · intro k hk
    dsimp only
    split
    · next hsome =>
        rcases Multiset.mem_cons.1 hk with rfl | hk
        · exact Option.isSome_iff_exists.1 hsome
        · exact h.messages_some k hk
    · rw [get_set]
      split
      · exact ⟨_, rfl⟩
      · next hne => exact h.messages_some k ((Multiset.mem_cons.1 hk).resolve_left hne)
  · intro fee k
    dsimp only [increment]
    rw [get_set, h.counter, h.counter, hfee]
    by_cases hk : k = key
    · subst hk
      by_cases hf : fee = feeOf k
      · subst hf
        by_cases hmem : k ∈ pending
        · simp [hmem]
        · simp [hmem]
      · simp [hf]
    · simp [hk, Multiset.count_cons_of_ne hk]
  · intro k hk
    dsimp only [MemoryStore.addMessage]
    by_cases hmem : key ∈ pending
    · obtain ⟨m', hget, hkey', hfee'⟩ := h.memory_some key hmem
      rw [hget]
      dsimp only
      rw [get_set]
      split
      · next he =>
          subst he
          exact ⟨m', by rw [Multiset.count_cons_self], hkey', hfee'⟩
      · next hne =>
          rw [Multiset.count_cons_of_ne hne]
          exact h.memory_some k ((Multiset.mem_cons.1 hk).resolve_left hne)
    · rw [h.memory_none key hmem]
      dsimp only
      rw [get_set]
      split
      · next he =>
          subst he
          refine ⟨m, ?_, hkey, hfee⟩
          rw [Multiset.count_cons_self, Multiset.count_eq_zero_of_notMem hmem]
      · next hne =>
          rw [Multiset.count_cons_of_ne hne]
          exact h.memory_some k ((Multiset.mem_cons.1 hk).resolve_left hne)
  · intro k hk
    rw [Multiset.mem_cons, not_or] at hk
    dsimp only [MemoryStore.addMessage]
    split
    · rw [get_set, if_neg hk.1, h.memory_none k hk.2]
    · rw [get_set, if_neg hk.1, h.memory_none k hk.2]

theorem Holds.decrement (hmem : key ∈ pending) :
    ∃ counter, KvMessageStore.decrement kv.pendingMessagesByFee (feeOf key, key) = .ok counter ∧
      ∀ fee k, counter.get (fee, k) =
        if fee = feeOf k ∧ k ∈ pending.erase key then some ((pending.erase key).count k)
        else none := by
  have hpos := Multiset.count_pos.2 hmem
  have hcount := h.counter (feeOf key) key
  rw [if_pos ⟨rfl, hmem⟩] at hcount
  have hother : ∀ fee k, (fee, k) ≠ (feeOf key, key) → kv.pendingMessagesByFee.get (fee, k) =
        if fee = feeOf k ∧ k ∈ pending.erase key then some ((pending.erase key).count k)
        else none := by
    intro fee k hne
    rw [h.counter]
    by_cases hk : k = key
    · subst hk
      have hf : fee ≠ feeOf k := fun hf => hne (by rw [hf])
      simp [hf]
    · simp only [Multiset.mem_erase_of_ne hk, Multiset.count_erase_of_ne hk]
  unfold KvMessageStore.decrement
  rw [hcount, Option.getD_some]
  match hc : pending.count key, hpos with
  | 1, _ =>
    refine ⟨_, rfl, fun fee k => ?_⟩
    rw [get_delete]
    by_cases hk : (fee, k) = (feeOf key, key)
    · obtain ⟨rfl, rfl⟩ := Prod.mk.inj hk
      have hnot : k ∉ pending.erase k := by
        rw [← Multiset.count_eq_zero, Multiset.count_erase_self, hc]
      simp [hnot]
    · rw [if_neg hk]
      exact hother fee k hk
  | n + 2, _ =>
    refine ⟨_, rfl, fun fee k => ?_⟩
    rw [get_set]
    by_cases hk : (fee, k) = (feeOf key, key)
    · obtain ⟨rfl, rfl⟩ := Prod.mk.inj hk
      have herase : (pending.erase k).count k = n + 1 := by
        rw [Multiset.count_erase_self, hc]
        rfl
      have hmem' : k ∈ pending.erase k := Multiset.count_pos.1 (by omega)
      simp [hmem', herase]
    · rw [if_neg hk]
      exact hother fee k hk

theorem Holds.removeMessage (hzero : key ≠ 0) (hmem : key ∈ pending) :
    ∃ map, MemoryStore.removeMessage mem.pendingL1ToL2Messages key = .ok map ∧
      (∀ k ∈ pending.erase key, ∃ m, map.get k = some ⟨some m, (pending.erase key).count k⟩ ∧
        m.entryKey = some k ∧ m.fee = feeOf k) ∧ ∀ k, k ∉ pending.erase key → map.get k = none := by
  have hpos := Multiset.count_pos.2 hmem
  obtain ⟨m, hget, hkey, hfee⟩ := h.memory_some key hmem
  have hother : ∀ k, k ≠ key → k ∈ pending.erase key → ∃ m,
      mem.pendingL1ToL2Messages.get k = some ⟨some m, (pending.erase key).count k⟩ ∧
        m.entryKey = some k ∧ m.fee = feeOf k := by
    intro k hk hin
    rw [Multiset.mem_erase_of_ne hk] at hin
    rw [Multiset.count_erase_of_ne hk]
    exact h.memory_some k hin
  simp only [MemoryStore.removeMessage, if_neg hzero, hget]
  by_cases hone : pending.count key > 1
  · rw [if_pos hone]
    have hin : key ∈ pending.erase key := by
      rw [← Multiset.count_pos, Multiset.count_erase_self]
      omega
    refine ⟨_, rfl, fun k hk => ?_, fun k hk => ?_⟩
    · rw [get_set]
      split
      · next he =>
          subst he
          exact ⟨m, by rw [Multiset.count_erase_self], hkey, hfee⟩
      · next hne => exact hother k hne hk
    · have hne : k ≠ key := fun he => hk (he ▸ hin)
      rw [Multiset.mem_erase_of_ne hne] at hk
      rw [get_set, if_neg hne, h.memory_none k hk]
  · rw [if_neg hone]
    have hout : key ∉ pending.erase key := by
      rw [← Multiset.count_eq_zero, Multiset.count_erase_self]
      omega
    refine ⟨_, rfl, fun k hk => ?_, fun k hk => ?_⟩
    · have hne : k ≠ key := fun he => hout (he ▸ hk)
      rw [get_delete, if_neg hne]
      exact hother k hne hk
    · rw [get_delete]
      split
      · rfl
      · next hne =>
          rw [Multiset.mem_erase_of_ne hne] at hk
          exact h.memory_none k hk

end

/-- The block numbers of two stores are those of two others. -/
structure SameBlocks (kv kv' : KvMessageStore) (mem mem' : MemoryStore) : Prop where
  adding_eq : kv'.lastL1BlockAddingMessages = kv.lastL1BlockAddingMessages
  cancelling_eq : kv'.lastL1BlockCancellingMessages = kv.lastL1BlockCancellingMessages
  added_eq : mem'.lastL1BlockAddedMessages = mem.lastL1BlockAddedMessages
  cancelled_eq : mem'.lastL1BlockCancelledMessages = mem.lastL1BlockCancelledMessages

theorem SameBlocks.trans {kv kv' kv'' : KvMessageStore} {mem mem' mem'' : MemoryStore}
    (h : SameBlocks kv kv' mem mem') (h' : SameBlocks kv' kv'' mem' mem'') :
    SameBlocks kv kv'' mem mem'' :=
  ⟨h'.1.trans h.1, h'.2.trans h.2, h'.3.trans h.3, h'.4.trans h.4⟩

section

variable (h : Holds feeOf pending kv mem) (hzero : key ≠ 0) (hmem : key ∈ pending)
include h hzero hmem

theorem Holds.cancel :
    ∃ kv' mem', kv.cancelMessage key = .ok kv' ∧ mem.cancelOne key = (mem', .ok ()) ∧
      Holds feeOf (pending.erase key) kv' mem' ∧ SameBlocks kv kv' mem mem' := by
  obtain ⟨ctx, hctx⟩ := h.messages_some key hmem
  have hfee := h.messages_fee key ctx hctx
  obtain ⟨counter, hdec, hcounter⟩ := h.decrement hmem
  obtain ⟨map, hremove, hsome, hnone⟩ := h.removeMessage hzero hmem
  simp only [cancelMessage, MemoryStore.cancelOne, hctx, hfee, hdec, hremove]
  exact ⟨_, _, rfl, rfl,
    ⟨h.messages_fee, fun k hk => h.messages_some k (Multiset.mem_of_mem_erase hk), hcounter,
      hsome, hnone⟩, rfl, rfl, rfl, rfl⟩

theorem Holds.confirm :
    ∃ kv' mem', kv.confirmMessage key = .ok kv' ∧ mem.confirmOne key = (mem', .ok ()) ∧
      Holds feeOf (pending.erase key) kv' mem' ∧ SameBlocks kv kv' mem mem' := by
  obtain ⟨ctx, hctx⟩ := h.messages_some key hmem
  have hfee := h.messages_fee key ctx hctx
  obtain ⟨counter, hdec, hcounter⟩ := h.decrement hmem
  obtain ⟨map, hremove, hsome, hnone⟩ := h.removeMessage hzero hmem
  simp only [confirmMessage, MemoryStore.confirmOne, MemoryStore.cancelOne, hctx,
    hfee, hdec, hremove]
  refine ⟨_, _, rfl, rfl, ⟨fun k c hc => ?_, fun k hk => ?_, hcounter, hsome, hnone⟩, rfl, rfl, rfl,
    rfl⟩
  · rw [get_set] at hc
    split at hc
    · next he =>
        obtain rfl := Option.some.inj hc
        rw [he]
    · exact h.messages_fee k c hc
  · rw [get_set]
    split
    · exact ⟨_, rfl⟩
    · exact h.messages_some k (Multiset.mem_of_mem_erase hk)

end

theorem Holds.removeBatch {removeKv : KvMessageStore → ℕ → Except String KvMessageStore}
    {removeMem : MemoryStore → ℕ → MemoryStore × Except String Unit}
    (hone : ∀ {pending : Multiset ℕ} {kv : KvMessageStore} {mem : MemoryStore} {key : ℕ},
      Holds feeOf pending kv mem → key ≠ 0 → key ∈ pending →
      ∃ kv' mem', removeKv kv key = .ok kv' ∧ removeMem mem key = (mem', .ok ()) ∧
        Holds feeOf (pending.erase key) kv' mem' ∧ SameBlocks kv kv' mem mem') (keys : List ℕ) :
    ∀ {pending : Multiset ℕ} {kv : KvMessageStore} {mem : MemoryStore},
      Holds feeOf pending kv mem → 0 ∉ keys → (keys : Multiset ℕ) ≤ pending →
      ∃ kv' mem', keys.foldlM removeKv kv = .ok kv' ∧
        MemoryStore.forEach removeMem keys mem = (mem', .ok (.done true)) ∧
        Holds feeOf (pending - (keys : Multiset ℕ)) kv' mem' ∧ SameBlocks kv kv' mem mem' := by
  induction keys with
  | nil =>
    intro pending kv mem h _ _
    exact ⟨kv, mem, rfl, rfl, by simpa using h, rfl, rfl, rfl, rfl⟩
  | cons key keys ih =>
    intro pending kv mem h hzero hle
    rw [mem_cons, not_or] at hzero
    rw [← Multiset.cons_coe] at hle
    have hmem : key ∈ pending := Multiset.mem_of_le hle (Multiset.mem_cons_self _ _)
    have hle' : (keys : Multiset ℕ) ≤ pending.erase key := by
      have := Multiset.erase_le_erase key hle
      rwa [Multiset.erase_cons_head] at this
    obtain ⟨kv₁, mem₁, hkv, hm, h₁, hblocks⟩ := hone h (Ne.symm hzero.1) hmem
    obtain ⟨kv₂, mem₂, hkv', hm', h₂, hblocks'⟩ := ih h₁ hzero.2 hle'
    refine ⟨kv₂, mem₂, ?_, ?_, ?_, hblocks.trans hblocks'⟩
    · rw [foldlM_cons, hkv]
      exact hkv'
    · rw [MemoryStore.forEach, hm]
      exact hm'
    · rw [← Multiset.cons_coe, Multiset.sub_cons]
      exact h₂

theorem Holds.addBatch (messages : List L1ToL2Message) :
    ∀ {pending : Multiset ℕ} {kv : KvMessageStore} {mem : MemoryStore}, Holds feeOf pending kv mem →
      (∀ m ∈ messages, ∃ key, m.entryKey = some key ∧ m.fee = feeOf key) →
      ∃ kv' mem', messages.foldlM addMessage kv = .ok kv' ∧
        MemoryStore.forEach MemoryStore.addOne messages mem = (mem', .ok (.done true)) ∧
        Holds feeOf (pending + (messages.filterMap L1ToL2Message.entryKey : List ℕ)) kv' mem' ∧
        SameBlocks kv kv' mem mem' := by
  induction messages with
  | nil =>
    intro pending kv mem h _
    exact ⟨kv, mem, rfl, rfl, by simpa using h, rfl, rfl, rfl, rfl⟩
  | cons m messages ih =>
    intro pending kv mem h hall
    obtain ⟨key, hkey, hfee⟩ := hall m mem_cons_self
    obtain ⟨kv₁, mem₁, hkv, hm, h₁, hblocks⟩ := h.add hkey hfee
    obtain ⟨kv₂, mem₂, hkv', hm', h₂, hblocks'⟩ :=
      ih h₁ fun m hm => hall m (mem_cons_of_mem _ hm)
    refine ⟨kv₂, mem₂, ?_, ?_, ?_, SameBlocks.trans ⟨hblocks.1, hblocks.2.1, hblocks.2.2.1,
      hblocks.2.2.2⟩ hblocks'⟩
    · rw [foldlM_cons, hkv]
      exact hkv'
    · rw [MemoryStore.forEach, hm]
      exact hm'
    · rw [filterMap_cons, hkey]
      rw [Multiset.cons_add] at h₂
      rw [← Multiset.cons_coe, Multiset.add_cons]
      exact h₂

end Steps

/-! ### Lists of pending keys -/

/-- The entries of a list are the pending keys, each once and with its count. -/
structure Lists (pending : Multiset ℕ) (entries : List (ℕ × ℕ)) : Prop where
  nodup : (entries.map Prod.fst).Nodup
  mem_iff : ∀ k c, (k, c) ∈ entries ↔ k ∈ pending ∧ c = pending.count k

/-- From the highest fee on, and with the same fee from the greatest key on. -/
def ByFee (feeOf : ℕ → ℕ) (a b : ℕ × ℕ) : Prop :=
  feeOf b.1 < feeOf a.1 ∨ feeOf b.1 = feeOf a.1 ∧ b.1 ≤ a.1

section Listing

variable {feeOf : ℕ → ℕ} {pending : Multiset ℕ} {entries : List (ℕ × ℕ)}

section

variable (h : Lists pending entries)
include h

theorem Lists.coe_copies : (copies entries : Multiset ℕ) = pending := by
  refine Multiset.ext.2 fun k => ?_
  rw [Multiset.coe_count]
  by_cases hk : k ∈ pending
  · exact InsertionMap.count_copies h.nodup ((h.mem_iff _ _).2 ⟨hk, rfl⟩)
  · rw [Multiset.count_eq_zero_of_notMem hk, count_eq_zero]
    intro hmem
    obtain ⟨c, hc⟩ := InsertionMap.mem_copies hmem
    exact hk ((h.mem_iff k c).1 hc).1

theorem Lists.length_copies : (copies entries).length = Multiset.card pending := by
  rw [← h.coe_copies, Multiset.coe_card]

theorem Lists.entries_nodup : entries.Nodup :=
  List.Nodup.of_map Prod.fst h.nodup

theorem Lists.unique {entries' : List (ℕ × ℕ)} (h' : Lists pending entries')
    (hs : entries.Pairwise (ByFee feeOf)) (hs' : entries'.Pairwise (ByFee feeOf)) :
    entries = entries' := by
  have hperm : entries.Perm entries' := by
    refine (perm_ext_iff_of_nodup h.entries_nodup h'.entries_nodup).2 fun e => ?_
    exact (h.mem_iff e.1 e.2).trans (h'.mem_iff e.1 e.2).symm
  refine hperm.eq_of_pairwise (fun a b ha hb hab hba => ?_) hs hs'
  have hkey : a.1 = b.1 := by
    unfold ByFee at hab hba
    omega
  have hca := ((h.mem_iff a.1 a.2).1 ha).2
  have hcb := ((h'.mem_iff b.1 b.2).1 hb).2
  exact Prod.ext hkey (by rw [hca, hcb, hkey])

theorem Lists.keysRight (hs : entries.Pairwise (ByFee feeOf)) (limit : ℕ) :
    KeysRight feeOf pending limit ((copies entries).take limit) := by
  have hsorted : (copies entries).Pairwise fun k later => feeOf later ≤ feeOf k := by
    unfold copies
    rw [pairwise_flatMap]
    refine ⟨fun e _ => pairwise_replicate.2 (Or.inr le_rfl), hs.imp fun hab x hx y hy => ?_⟩
    rw [(mem_replicate.1 hx).2, (mem_replicate.1 hy).2]
    unfold ByFee at hab
    omega
  have hcount : ∀ k, (copies entries).count k = pending.count k := by
    intro k
    rw [← Multiset.coe_count, h.coe_copies]
  refine ⟨?_, hsorted.sublist (take_sublist _ _), fun k => ?_, fun k hk k' hk' => ?_⟩
  · rw [length_take, h.length_copies]
  · rw [← hcount]
    exact (take_sublist _ _).count_le k
  · -- a copy that is left out comes after those that are taken
    rw [← hcount, ← take_append_drop limit (copies entries), count_append] at hk
    have hdrop : k ∈ (copies entries).drop limit := by
      refine count_pos_iff.1 ?_
      rw [take_append_drop] at hk
      omega
    rw [← take_append_drop limit (copies entries), pairwise_append] at hsorted
    exact hsorted.2.2 k' hk' k hdrop

end

theorem pushCopies_eq {limit key : ℕ} (count : ℕ) : ∀ {messages : List ℕ}, messages.length < limit →
      MemoryStore.pushCopies limit key count messages =
        if messages.length + count < limit then .inr (messages ++ List.replicate count key)
        else .inl ((messages ++ List.replicate count key).take limit) := by
  induction count with
  | zero =>
    intro messages hlt
    rw [MemoryStore.pushCopies, if_pos (by omega)]
    simp
  | succ count ih =>
    intro messages hlt
    have happend : messages ++ List.replicate (count + 1) key =
        (messages ++ [key]) ++ List.replicate count key := by
      rw [replicate_succ, append_assoc, singleton_append]
    have hlen : (messages ++ [key]).length = messages.length + 1 := by simp
    rw [MemoryStore.pushCopies, happend]
    by_cases hfull : (messages ++ [key]).length = limit
    · rw [if_pos hfull, if_neg (by omega), take_append_of_le_length (by omega),
        take_of_length_le (by omega)]
    · rw [if_neg hfull, ih (by omega), hlen]
      congr 1
      exact propext ⟨fun h => by omega, fun h => by omega⟩

theorem memory_collect (limit : ℕ) (entries : List (ℕ × ℕ)) :
    ∀ {messages : List ℕ}, messages.length < limit → MemoryStore.collect limit entries messages =
        (messages ++ copies entries).take limit := by
  induction entries with
  | nil =>
    intro messages hlt
    rw [MemoryStore.collect, copies_nil, append_nil, take_of_length_le hlt.le]
  | cons e entries ih =>
    intro messages hlt
    rw [MemoryStore.collect, pushCopies_eq _ hlt, copies_cons, ← append_assoc]
    have hlen : (messages ++ List.replicate e.2 e.1).length = messages.length + e.2 := by simp
    by_cases hroom : messages.length + e.2 < limit
    · rw [if_pos hroom]
      exact ih (by omega)
    · rw [if_neg hroom]
      exact (take_append_of_le_length (by omega)).symm

theorem kv_collect (limit : ℕ) (entries : List (ℕ × ℕ)) :
    ∀ {messages : List ℕ}, messages.length < limit →
      (messages.length + (copies entries).length ≤ limit ∨
        ∃ before after, entries = before ++ after ∧
          messages.length + (copies before).length = limit) →
      collect limit entries messages = (messages ++ copies entries).take limit := by
  induction entries with
  | nil =>
    intro messages hlt _
    rw [collect, copies_nil, append_nil, take_of_length_le hlt.le]
  | cons e entries ih =>
    intro messages hlt hcut
    obtain ⟨key, count⟩ := e
    rw [collect, copies_cons, ← append_assoc]
    have hlen : (messages ++ List.replicate count key).length = messages.length + count := by simp
    have hcut' : (messages ++ List.replicate count key).length + (copies entries).length ≤ limit ∨
        ∃ before after, entries = before ++ after ∧ (messages ++ List.replicate count key).length +
            (copies before).length = limit := by
      rcases hcut with hall | ⟨before, after, heq, hbefore⟩
      · rw [copies_cons, length_append, length_replicate] at hall
        exact Or.inl (by omega)
      · cases before with
        | nil =>
          rw [copies_nil, length_nil] at hbefore
          omega
        | cons e' before =>
          rw [cons_append, List.cons.injEq] at heq
          obtain ⟨rfl, rfl⟩ := heq
          rw [copies_cons, length_append, length_replicate] at hbefore
          exact Or.inr ⟨before, after, rfl, by omega⟩
    by_cases hfull : (messages ++ List.replicate count key).length ≥ limit
    · rw [if_pos hfull]
      have hexact : (messages ++ List.replicate count key).length = limit := by
        rcases hcut' with hall | ⟨before, -, -, hbefore⟩
        · omega
        · omega
      rw [take_append_of_le_length hexact.ge, take_of_length_le hexact.le]
    · rw [if_neg hfull]
      exact ih (by omega) hcut'

end Listing

section Get

variable {feeOf : ℕ → ℕ} {pending : Multiset ℕ} {kv : KvMessageStore} {mem : MemoryStore}

section

variable (h : Holds feeOf pending kv mem)
include h

theorem Holds.kv_lists :
    Lists pending kv.entriesByFee ∧ kv.entriesByFee.Pairwise (ByFee feeOf) := by
  have hmem : ∀ e, e ∈ kv.pendingMessagesByFee.entries.insertionSort FeeKeyGe ↔
      e.1.1 = feeOf e.1.2 ∧ e.1.2 ∈ pending ∧ e.2 = pending.count e.1.2 := by
    rintro ⟨⟨fee, key⟩, count⟩
    rw [mem_insertionSort, mem_entries_iff, h.counter]
    split
    · next hif => simp [hif, eq_comm]
    · next hif =>
        simp only [reduceCtorEq, false_iff]
        exact fun hall => hif ⟨hall.1, hall.2.1⟩
  have hsorted : (kv.pendingMessagesByFee.entries.insertionSort FeeKeyGe).Pairwise FeeKeyGe := by
    have htotal : Std.Total FeeKeyGe :=
      ⟨fun a b => by unfold FeeKeyGe; omega⟩
    have htrans : IsTrans _ FeeKeyGe :=
      ⟨fun a b c hab hbc => by unfold FeeKeyGe at *; omega⟩
    exact pairwise_insertionSort _ _
  have hnodup : (kv.pendingMessagesByFee.entries.insertionSort FeeKeyGe).Nodup :=
    (perm_insertionSort _ _).nodup_iff.2 (List.Nodup.of_map Prod.fst kv.pendingMessagesByFee.nodup)
  refine ⟨⟨?_, fun k c => ?_⟩, ?_⟩
  · rw [entriesByFee, List.map_map]
    refine List.Nodup.map_on (fun a ha b hb hab => ?_) hnodup
    obtain ⟨ha₁, -, ha₂⟩ := (hmem a).1 ha
    obtain ⟨hb₁, -, hb₂⟩ := (hmem b).1 hb
    have hkey : a.1.2 = b.1.2 := hab
    exact Prod.ext (Prod.ext (by rw [ha₁, hb₁, hkey]) hkey) (by rw [ha₂, hb₂, hkey])
  · rw [entriesByFee, mem_map]
    constructor
    · rintro ⟨e, he, heq⟩
      obtain ⟨-, hk, hc⟩ := (hmem e).1 he
      obtain ⟨rfl, rfl⟩ := Prod.mk.inj heq
      exact ⟨hk, hc⟩
    · rintro ⟨hk, rfl⟩
      exact ⟨((feeOf k, k), pending.count k), (hmem _).2 ⟨rfl, hk, rfl⟩, rfl⟩
  · rw [entriesByFee, pairwise_map]
    refine hsorted.imp_of_mem fun ha hb hab => ?_
    obtain ⟨ha₁, -⟩ := (hmem _).1 ha
    obtain ⟨hb₁, -⟩ := (hmem _).1 hb
    unfold FeeKeyGe at hab
    rw [ha₁, hb₁] at hab
    exact hab

theorem Holds.mem_lists (hties : TiesInOrder mem) :
    Lists pending mem.entriesByFee ∧ mem.entriesByFee.Pairwise (ByFee feeOf) := by
  have hentry : ∀ e ∈ mem.pendingL1ToL2Messages.entries,
      e.1 ∈ pending ∧ e.2.count = pending.count e.1 ∧
        (e.2.message.bind L1ToL2Message.entryKey).getD 0 = e.1 ∧ MemoryStore.fee e = feeOf e.1 := by
    rintro ⟨key, value⟩ he
    rw [mem_entries_iff] at he
    by_cases hk : key ∈ pending
    · obtain ⟨m, hget, hkey, hfee⟩ := h.memory_some key hk
      rw [he, Option.some.injEq] at hget
      subst hget
      exact ⟨hk, rfl, by simp [hkey], by simp [MemoryStore.fee, hfee]⟩
    · rw [h.memory_none key hk] at he
      exact absurd he (Option.some_ne_none _).symm
  -- the sort by fee alone is a sort by fee and key
  let ge : ℕ × MessageAndCount → ℕ × MessageAndCount → Prop := fun a b =>
    MemoryStore.fee b < MemoryStore.fee a ∨ MemoryStore.fee b = MemoryStore.fee a ∧ b.1 ≤ a.1
  have hdec : DecidableRel ge := fun a b => by
    change Decidable (_ ∨ _)
    infer_instance
  have hsort : mem.pendingL1ToL2Messages.entries.insertionSort MemoryStore.FeeGe =
      mem.pendingL1ToL2Messages.entries.insertionSort ge := by
    refine InsertionMap.insertionSort_congr _ _ (hties.imp fun {a b} htie => ?_)
    change MemoryStore.fee b ≤ MemoryStore.fee a ↔ _ ∨ _
    rw [le_iff_lt_or_eq]
    exact or_congr_right ⟨fun heq => ⟨heq, htie heq⟩, And.left⟩
  have hsorted : (mem.pendingL1ToL2Messages.entries.insertionSort ge).Pairwise ge := by
    have htotal : Std.Total ge := ⟨fun a b => by simp only [ge]; omega⟩
    have htrans : IsTrans _ ge := ⟨fun a b c hab hbc => by simp only [ge] at *; omega⟩
    exact pairwise_insertionSort _ _
  have hperm := perm_insertionSort ge mem.pendingL1ToL2Messages.entries
  have hmap : mem.entriesByFee =
      (mem.pendingL1ToL2Messages.entries.insertionSort ge).map fun e => (e.1, e.2.count) := by
    rw [MemoryStore.entriesByFee, hsort]
    refine map_congr_left fun e he => ?_
    rw [(hentry e (hperm.mem_iff.1 he)).2.2.1]
  rw [hmap]
  refine ⟨⟨?_, fun k c => ?_⟩, ?_⟩
  · rw [List.map_map]
    exact ((hperm.map Prod.fst).nodup_iff).2 mem.pendingL1ToL2Messages.nodup
  · rw [mem_map]
    constructor
    · rintro ⟨e, he, heq⟩
      obtain ⟨hk, hc, -⟩ := hentry e (hperm.mem_iff.1 he)
      obtain ⟨rfl, rfl⟩ := Prod.mk.inj heq
      exact ⟨hk, hc⟩
    · rintro ⟨hk, rfl⟩
      obtain ⟨m, hget, -⟩ := h.memory_some k hk
      exact ⟨_, hperm.mem_iff.2 (mem_entries_iff.2 hget), rfl⟩
  · rw [pairwise_map]
    refine hsorted.imp_of_mem fun ha hb hab => ?_
    have hfa := (hentry _ (hperm.mem_iff.1 ha)).2.2.2
    have hfb := (hentry _ (hperm.mem_iff.1 hb)).2.2.2
    simp only [ge, hfa, hfb] at hab
    exact hab

theorem Holds.get {limit : ℕ} (hlimit : 1 ≤ limit) (hties : TiesInOrder mem)
    (hcut : CutsBetween mem limit) :
    kv.getPendingMessageKeysByFee limit = mem.getMessageKeys limit ∧
      KeysRight feeOf pending limit (mem.getMessageKeys limit) := by
  obtain ⟨hkv, hkvSorted⟩ := h.kv_lists
  obtain ⟨hmem, hmemSorted⟩ := h.mem_lists hties
  have hsame := hkv.unique hmem hkvSorted hmemSorted
  have hmemory : mem.getMessageKeys limit = (copies mem.entriesByFee).take limit := by
    rw [MemoryStore.getMessageKeys, if_neg (by omega),
      memory_collect limit _ (by simpa using Nat.lt_of_lt_of_le Nat.zero_lt_one hlimit), nil_append]
  have hdatabase : kv.getPendingMessageKeysByFee limit = (copies mem.entriesByFee).take limit := by
    rw [getPendingMessageKeysByFee, hsame,
      kv_collect limit _ (by simpa using Nat.lt_of_lt_of_le Nat.zero_lt_one hlimit)
        (by simpa [CutsBetween] using hcut),
      nil_append]
  exact ⟨hdatabase.trans hmemory.symm, hmemory ▸ hmem.keysRight hmemSorted limit⟩

end

end Get

/-! ### Sequences of calls -/

structure Relates (feeOf : ℕ → ℕ) (a : Accounting) (kv : KvMessageStore) (mem : MemoryStore) :
    Prop where
  holds : Holds feeOf a.pending kv mem
  adding_eq : kv.lastL1BlockAddingMessages = a.lastAdded
  cancelling_eq : kv.lastL1BlockCancellingMessages = a.lastCancelled
  added_eq : mem.lastL1BlockAddedMessages = a.lastAdded
  cancelled_eq : mem.lastL1BlockCancelledMessages = a.lastCancelled

theorem relates_empty (feeOf : ℕ → ℕ) : Relates feeOf .empty .empty .empty := by
  refine ⟨⟨fun key ctx h => ?_, fun key h => ?_, fun fee key => ?_, fun key h => ?_, fun key _ => rfl⟩,
    rfl, rfl, rfl, rfl⟩
  · cases h
  · exact absurd h (Multiset.notMem_zero key)
  · simp [Accounting.empty, empty]
  · exact absurd h (Multiset.notMem_zero key)

section Runs

variable {feeOf : ℕ → ℕ} {a : Accounting} {kv : KvMessageStore} {mem : MemoryStore}

theorem holds_of_blocks {pending : Multiset ℕ} (h : Holds feeOf pending kv mem)
    (adding cancelling added cancelled : ℕ) : Holds feeOf pending { kv with
        lastL1BlockAddingMessages := adding
        lastL1BlockCancellingMessages := cancelling }
      { mem with
        lastL1BlockAddedMessages := added
        lastL1BlockCancelledMessages := cancelled } :=
  ⟨h.1, h.2, h.3, h.4, h.5⟩

/-- **A call that meets the condition** returns the same in both stores and what it should, and
leaves what the accounting says. -/
theorem Relates.call (h : Relates feeOf a kv mem) {call : Call} (hcall : CallOk feeOf a mem call) :
    ∃ output, (kv.run call).2 = .ok output ∧ (mem.run call).2 = .ok output ∧
      OutputRight feeOf a call output ∧
      Relates feeOf (a.next call) (kv.run call).1 (mem.run call).1 := by
  cases call with
  | addPendingL1ToL2Messages messages block =>
    by_cases hstale : block ≤ a.lastAdded
    · simp only [run, transaction, addPendingMessages,
        MemoryStore.run, Accounting.next, h.adding_eq, h.added_eq, ge_iff_le, hstale, if_true]
      exact ⟨_, rfl, rfl, by simp [OutputRight, hstale], h⟩
    · obtain ⟨kv', mem', hkv, hmem, hholds, hblocks⟩ := Holds.addBatch messages
        (holds_of_blocks h.holds block kv.lastL1BlockCancellingMessages block
          mem.lastL1BlockCancelledMessages) (hcall.resolve_left hstale)
      simp only [run, transaction, addPendingMessages, MemoryStore.run, Accounting.next,
        h.adding_eq, h.added_eq, ge_iff_le, hstale, if_false, hmem, hkv]
      refine ⟨.done true, rfl, rfl, by simpa [OutputRight] using hstale, hholds, hblocks.1,
        hblocks.2.trans h.cancelling_eq, hblocks.3, hblocks.4.trans h.cancelled_eq⟩
  | cancelPendingL1ToL2Messages keys block =>
    by_cases hstale : block ≤ a.lastCancelled
    · simp only [run, transaction, cancelPendingMessages, MemoryStore.run, Accounting.next,
        h.cancelling_eq, h.cancelled_eq, ge_iff_le, hstale, if_true]
      exact ⟨_, rfl, rfl, by simp [OutputRight, hstale], h⟩
    · obtain ⟨hzero, hle⟩ := hcall.resolve_left hstale
      obtain ⟨kv', mem', hkv, hmem, hholds, hblocks⟩ := Holds.removeBatch
        (fun h hzero hmem => h.cancel hzero hmem) keys
        (holds_of_blocks h.holds kv.lastL1BlockAddingMessages block mem.lastL1BlockAddedMessages
          block) hzero hle
      simp only [run, transaction, cancelPendingMessages, MemoryStore.run, Accounting.next,
        h.cancelling_eq, h.cancelled_eq, ge_iff_le, hstale, if_false, hmem, hkv]
      refine ⟨.done true, rfl, rfl, by simpa [OutputRight] using hstale, hholds,
        hblocks.1.trans h.adding_eq, hblocks.2, hblocks.3.trans h.added_eq, hblocks.4⟩
  | confirmL1ToL2Messages keys =>
    obtain ⟨hzero, hle⟩ := hcall
    obtain ⟨kv', mem', hkv, hmem, hholds, hblocks⟩ :=
      Holds.removeBatch (fun h hzero hmem => h.confirm hzero hmem) keys h.holds hzero hle
    simp only [run, transaction,
      confirmPendingMessages, MemoryStore.run, Accounting.next, hmem, hkv]
    exact ⟨.done true, rfl, rfl, rfl, hholds, hblocks.1.trans h.adding_eq,
      hblocks.2.trans h.cancelling_eq, hblocks.3.trans h.added_eq,
      hblocks.4.trans h.cancelled_eq⟩
  | getPendingL1ToL2MessageKeys limit =>
    obtain ⟨hlimit, hties, hcut⟩ := hcall
    obtain ⟨hsame, hright⟩ := h.holds.get hlimit hties hcut
    exact ⟨_, by rw [run, hsame], rfl, ⟨_, rfl, hright⟩, h⟩

theorem Relates.run (calls : List Call) :
    ∀ {a : Accounting} {kv : KvMessageStore} {mem : MemoryStore}, Relates feeOf a kv mem →
      CallsOk feeOf a mem calls → StoresAgree feeOf a kv mem calls := by
  induction calls with
  | nil => intro _ _ _ _ _; trivial
  | cons call calls ih =>
    intro a kv mem h hcalls
    obtain ⟨hcall, hrest⟩ := hcalls
    obtain ⟨output, hkv, hmem, hright, hnext⟩ := h.call hcall
    refine ⟨hkv.trans hmem.symm, fun output' he => ?_, fun message he => ?_, ?_⟩
    · rw [hmem, Except.ok.injEq] at he
      exact he ▸ hright
    · rw [hmem] at he
      cases he
    · rw [hmem]
      exact ih hnext hrest

/-- **The two stores agree along every sequence of calls that meet the condition**, and both return
what they should. -/
theorem stores_agree (feeOf : ℕ → ℕ) (calls : List Call)
    (h : CallsOk feeOf .empty .empty calls) : StoresAgree feeOf .empty .empty .empty calls :=
  (relates_empty feeOf).run calls h

end Runs

def messageOf (key : ℕ) : L1ToL2Message := ⟨some key, key, 0⟩

/-- Two messages are added, one of them twice; one copy is confirmed, and two keys are asked for. -/
theorem stores_agree_twoMessages : StoresAgree id .empty .empty .empty
      [.addPendingL1ToL2Messages [messageOf 7, messageOf 9, messageOf 7] 1,
        .confirmL1ToL2Messages [7], .getPendingL1ToL2MessageKeys 2] := by
  refine stores_agree id _ ⟨Or.inr ?_, ⟨by decide, by decide⟩, ⟨by decide, ?_, ?_⟩, trivial⟩
  · intro m hm
    simp only [mem_cons, not_mem_nil, or_false] at hm
    rcases hm with rfl | rfl | rfl
    · exact ⟨7, rfl, rfl⟩
    · exact ⟨9, rfl, rfl⟩
    · exact ⟨7, rfl, rfl⟩
  · unfold TiesInOrder
    decide
  · exact Or.inl (by decide)

/-- A call that the claim is about: the keys of added messages determine their fees, and lists are
asked for with a limit of at least one. -/
def WellFormed (feeOf : ℕ → ℕ) : Call → Prop
  | .addPendingL1ToL2Messages messages _ =>
    ∀ m ∈ messages, ∃ key, m.entryKey = some key ∧ m.fee = feeOf key
  | .cancelPendingL1ToL2Messages _ _ | .confirmL1ToL2Messages _ => True
  | .getPendingL1ToL2MessageKeys limit => 1 ≤ limit

/-- **The stores do not agree in general**: asked for one key when a message has been sent twice,
the database returns its key twice. -/
theorem not_stores_agree :
    ¬ ∀ (feeOf : ℕ → ℕ) (calls : List Call), (∀ call ∈ calls, WellFormed feeOf call) →
      StoresAgree feeOf .empty .empty .empty calls := by
  intro h
  have hagree := h id [.addPendingL1ToL2Messages [messageOf 7, messageOf 7] 1,
    .getPendingL1ToL2MessageKeys 1] (by
      intro call hcall
      simp only [mem_cons, not_mem_nil, or_false] at hcall
      rcases hcall with rfl | rfl
      · intro m hm
        simp only [mem_cons, not_mem_nil, or_false, or_self] at hm
        exact ⟨7, by rw [hm]; rfl, by rw [hm]; rfl⟩
      · exact le_refl 1)
  obtain ⟨-, -, -, hget, -⟩ := hagree
  revert hget
  decide

end PendingMessages
