/-
**The message inbox on L1: solvency, and consumption at most once.**

The inbox takes messages with a fee, lets the rollup consume them before their deadline and their
sender cancel them after it, and pays the fees out on request.  Its entries are a multiset: the
same message may be sent many times.

Execution is a run of *actions*: the calls of the contract, the transactions and calls of other
contracts around them, and the passing of time.  Whatever happens while a frame is open is undone
when the frame fails, and paying out fees opens a frame, in which the receiver may call the
contract again.

Unsigned integers, addresses and 32 byte words are natural numbers; overflow is checked or
truncated where the source does so.
-/

import Aztec.Failing
import Aztec.Transactions

open Failing Transactions Function

/-! ### Data structures and errors -/

namespace Inbox

structure Entry where
  fee : ℕ
  count : ℕ
  version : ℕ
  deadline : ℕ
  deriving DecidableEq, Repr

structure L1Actor where
  actor : ℕ
  chainId : ℕ
  deriving DecidableEq, Repr

structure L2Actor where
  actor : ℕ
  version : ℕ
  deriving DecidableEq, Repr

structure L1ToL2Msg where
  sender : L1Actor
  recipient : L2Actor
  content : ℕ
  secretHash : ℕ
  deadline : ℕ
  fee : ℕ
  deriving DecidableEq, Repr

/-- The reasons for a revert; `panic` is that of a checked operation. -/
inductive Revert where
  | deadlineBeforeNow
  | notPastDeadline
  | pastDeadline
  | invalidVersion (entry rollup : ℕ)
  | feeTooHigh
  | failedToWithdrawFees
  | unauthorized
  | nothingToConsume (entryKey : ℕ)
  | incompatibleEntryArguments (entryKey storedFee feePassed storedVersion versionPassed
      storedDeadline deadlinePassed : ℕ)
  | actorTooLarge (actor : ℕ)
  | contentTooLarge (content : ℕ)
  | secretHashTooLarge (secretHash : ℕ)
  | rollupNotRegistered (rollup : ℕ)
  | rollupAlreadyRegistered (rollup : ℕ)
  | panic
  deriving DecidableEq, Repr

def P : ℕ := 21888242871839275222246405745257275088548364400416034343698204186575808495617

def maxFieldValue : ℕ := P - 1

/-- A conditional `revert`. -/
def revertIf (c : Prop) [Decidable c] (reason : Revert) : Except Revert Unit :=
  if c then .error reason else .ok ()

@[simp] theorem revertIf_eq_ok {c : Prop} [Decidable c] {reason : Revert} {u : Unit} :
    revertIf c reason = .ok u ↔ ¬ c := by
  unfold revertIf
  split <;> simp_all

/-- A checked addition of unsigned integers of `bits` bits. -/
def checkedAdd (bits a b : ℕ) : Except Revert ℕ :=
  if a + b < 2 ^ bits then .ok (a + b) else .error .panic

@[simp] theorem checkedAdd_eq_ok {bits a b c : ℕ} :
    checkedAdd bits a b = .ok c ↔ a + b < 2 ^ bits ∧ a + b = c := by
  unfold checkedAdd
  split <;> simp_all

end Inbox

/-! ### The message box -/

namespace MessageBox

open Inbox

/-- A mapping from entry keys; what has not been written is zero. -/
abbrev Entries := ℕ → Entry

def insert (self : Entries) (entryKey fee version deadline : ℕ) : Except Revert Entries := do
  let entry := self entryKey
  revertIf ((entry.fee ≠ 0 ∧ entry.fee ≠ fee) ∨ (entry.deadline ≠ 0 ∧ entry.deadline ≠ deadline) ∨
      (entry.version ≠ 0 ∧ entry.version ≠ version))
    (.incompatibleEntryArguments entryKey entry.fee fee entry.version version entry.deadline
      deadline)
  let count ← checkedAdd 32 entry.count 1
  return Function.update self entryKey ⟨fee, count, version, deadline⟩

def consume (self : Entries) (entryKey : ℕ) : Except Revert Entries := do
  let entry := self entryKey
  revertIf (entry.count = 0) (.nothingToConsume entryKey)
  return Function.update self entryKey { entry with count := entry.count - 1 }

def get (self : Entries) (entryKey : ℕ) : Except Revert Entry := do
  let entry := self entryKey
  revertIf (entry.count = 0) (.nothingToConsume entryKey)
  return entry

def due (entry : Entry) : ℕ := entry.count * entry.fee

variable {self self' : Entries} {entryKey fee version deadline : ℕ}

theorem insert_eq_ok (h : insert self entryKey fee version deadline = .ok self') :
    self' = update self entryKey ⟨fee, (self entryKey).count + 1, version, deadline⟩ := by
  simp only [insert, bind_eq_ok, revertIf_eq_ok, checkedAdd_eq_ok, pure_eq_ok] at h
  obtain ⟨-, -, count, ⟨-, rfl⟩, rfl⟩ := h
  rfl

theorem consume_eq_ok (h : consume self entryKey = .ok self') :
    (self entryKey).count ≠ 0 ∧ self' = update self entryKey
      { self entryKey with count := (self entryKey).count - 1 } := by
  simp only [consume, bind_eq_ok, revertIf_eq_ok, pure_eq_ok] at h
  obtain ⟨-, hcount, rfl⟩ := h
  exact ⟨hcount, rfl⟩

theorem get_eq_ok {entry : Entry} (h : get self entryKey = .ok entry) : self entryKey = entry := by
  simp only [get, bind_eq_ok, revertIf_eq_ok, pure_eq_ok] at h
  obtain ⟨-, -, rfl⟩ := h
  rfl

end MessageBox

/-! ### The registry -/

namespace Inbox

/-- `Registry`: the mapping from rollups to versions. -/
structure Registry where
  numberOfVersions : ℕ
  rollupToVersion : ℕ → ℕ

namespace Registry

def upgrade (self : Registry) (rollup : ℕ) : Except Revert Registry := do
  revertIf (0 < self.rollupToVersion rollup) (.rollupAlreadyRegistered rollup)
  let numberOfVersions ← checkedAdd 256 self.numberOfVersions 1
  return ⟨numberOfVersions, Function.update self.rollupToVersion rollup self.numberOfVersions⟩

/-- The registry after its constructor, which inserts a dead rollup at version 0. -/
def deployed : Registry := ⟨1, fun _ => 0⟩

def getVersionFor (self : Registry) (rollup : ℕ) : Except Revert ℕ := do
  let version := self.rollupToVersion rollup
  revertIf (version = 0) (.rollupNotRegistered rollup)
  return version

end Registry

/-! ### The contract -/

/-- What happened to a message in a call that took effect, with the time of the call. -/
inductive Happening where
  | sent (message : L1ToL2Msg)
  | consumed (entryKey time : ℕ)
  | cancelled (entryKey time : ℕ)
  deriving DecidableEq, Repr

/-- The state: the ether and the storage of the contract, the registry, and a record of what
happened to messages, which the contract does not keep. -/
structure World where
  balance : ℕ
  entries : MessageBox.Entries
  feesAccrued : ℕ → ℕ
  registry : Registry
  happened : List Happening

/-- The state after the deployment of the contract, which may have been sent ether before. -/
def deployed (balance : ℕ) : World :=
  { balance := balance, entries := fun _ => ⟨0, 0, 0, 0⟩, feesAccrued := fun _ => 0,
    registry := Registry.deployed, happened := [] }

section Contract

variable (computeEntryKey : L1ToL2Msg → ℕ) (chainId timestamp : ℕ) (w : World) (msgSender : ℕ)

def sendL2Message (msgValue : ℕ) (recipient : L2Actor) (deadline content secretHash : ℕ) :
    Except Revert World := do
  revertIf (recipient.actor > maxFieldValue) (.actorTooLarge recipient.actor)
  revertIf (deadline ≤ timestamp) .deadlineBeforeNow
  revertIf (content > maxFieldValue) (.contentTooLarge content)
  revertIf (secretHash > maxFieldValue) (.secretHashTooLarge secretHash)
  revertIf (msgValue > 2 ^ 64 - 1) .feeTooHigh
  let message : L1ToL2Msg :=
    { sender := ⟨msgSender, chainId⟩, recipient := recipient, content := content,
      secretHash := secretHash, deadline := deadline, fee := msgValue }
  let entries ← MessageBox.insert w.entries (computeEntryKey message) msgValue
    (recipient.version % 2 ^ 32) deadline
  return { w with
    balance := w.balance + msgValue, entries := entries,
    happened := w.happened ++ [.sent message] }

def cancelL2Message (message : L1ToL2Msg) (feeCollector : ℕ) : Except Revert World := do
  revertIf (msgSender ≠ message.sender.actor) .unauthorized
  revertIf (timestamp ≤ message.deadline) .notPastDeadline
  let entryKey := computeEntryKey message
  let entries ← MessageBox.consume w.entries entryKey
  let fees ← checkedAdd 256 (w.feesAccrued feeCollector) message.fee
  return { w with
    entries := entries, feesAccrued := Function.update w.feesAccrued feeCollector fees,
    happened := w.happened ++ [.cancelled entryKey timestamp] }

/-- A turn of the loop of `batchConsume`, on the entries, the fees they brought, and the record. -/
def consumeKey (expectedVersion : ℕ) (s : MessageBox.Entries × ℕ × List Happening)
    (entryKey : ℕ) : Except Revert (MessageBox.Entries × ℕ × List Happening) := do
  if entryKey = 0 then return s
  let entry ← MessageBox.get s.1 entryKey
  revertIf (entry.version ≠ expectedVersion) (.invalidVersion entry.version expectedVersion)
  revertIf (timestamp > entry.deadline) .pastDeadline
  let entries ← MessageBox.consume s.1 entryKey
  let totalFee ← checkedAdd 256 s.2.1 entry.fee
  return (entries, totalFee, s.2.2 ++ [.consumed entryKey timestamp])

def batchConsume (entryKeys : List ℕ) (feeCollector : ℕ) : Except Revert World := do
  let version ← w.registry.getVersionFor msgSender
  let (entries, totalFee, happened) ← entryKeys.foldlM
    (consumeKey timestamp (version % 2 ^ 32)) (w.entries, 0, w.happened)
  if totalFee > 0 then
    let fees ← checkedAdd 256 (w.feesAccrued feeCollector) totalFee
    return { w with
      entries := entries, feesAccrued := Function.update w.feesAccrued feeCollector fees,
      happened := happened }
  return { w with entries := entries, happened := happened }

/-- `withdrawFees` up to the call of the receiver: the accrued fees are set to zero and sent.  The
call fails at once, and with it the withdrawal, when the contract has not enough ether. -/
def beginWithdrawFees : Except Revert World := do
  let balance := w.feesAccrued msgSender
  revertIf (w.balance < balance) .failedToWithdrawFees
  return { w with
    balance := w.balance - balance, feesAccrued := Function.update w.feesAccrued msgSender 0 }

end Contract

/-! ### Runs -/

/-- What can happen.  A frame is a transaction or a call of another contract, in which any number
of calls of this contract are made; `withdrawFees` opens the frame of the receiver.  Closing a
frame keeps what happened in it or, on a failure, undoes it: a receiver that fails makes
`withdrawFees` revert. -/
inductive Action where
  | sendL2Message (msgSender msgValue : ℕ) (recipient : L2Actor)
      (deadline content secretHash : ℕ)
  | cancelL2Message (msgSender : ℕ) (message : L1ToL2Msg) (feeCollector : ℕ)
  | batchConsume (msgSender : ℕ) (entryKeys : List ℕ) (feeCollector : ℕ)
  | withdrawFees (msgSender : ℕ)
  | upgrade (rollup : ℕ)
  | enter
  | leave (success : Bool)
  | wait (timestamp : ℕ)
  deriving DecidableEq, Repr

/-- The time, and the state with the frames that are open. -/
structure Machine where
  timestamp : ℕ
  worlds : Framed World

/-- A call of the contract takes effect or, when it reverts, does not. -/
def Machine.call (m : Machine) (result : Except Revert World) : Machine :=
  match result with
  | .ok w => { m with worlds := m.worlds.update w }
  | .error _ => m

section Run

variable (computeEntryKey : L1ToL2Msg → ℕ) (chainId : ℕ)

/-- One action.  Time passes between transactions only, and forward. -/
def step (m : Machine) : Action → Machine
  | .sendL2Message msgSender msgValue recipient deadline content secretHash =>
    m.call (sendL2Message computeEntryKey chainId m.timestamp m.worlds.current msgSender
      msgValue recipient deadline content secretHash)
  | .cancelL2Message msgSender message feeCollector =>
    m.call (cancelL2Message computeEntryKey m.timestamp m.worlds.current msgSender message
      feeCollector)
  | .batchConsume msgSender entryKeys feeCollector =>
    m.call (batchConsume m.timestamp m.worlds.current msgSender entryKeys feeCollector)
  | .withdrawFees msgSender =>
    match beginWithdrawFees m.worlds.current msgSender with
    | .ok w => { m with worlds := m.worlds.enter w }
    | .error _ => m
  | .upgrade rollup =>
    m.call ((m.worlds.current.registry.upgrade rollup).map fun registry =>
      { m.worlds.current with registry := registry })
  | .enter => { m with worlds := m.worlds.enter m.worlds.current }
  | .leave success => { m with worlds := m.worlds.leave success }
  | .wait timestamp =>
    if m.worlds.saved = [] ∧ m.timestamp ≤ timestamp then { m with timestamp := timestamp } else m

def run (m : Machine) (actions : List Action) : Machine :=
  actions.foldl (step computeEntryKey chainId) m

end Run

/-! ### The invariant -/

/-- The entry an occurrence was taken from, for consumptions and cancellations. -/
def Happening.takenFrom : Happening → Option ℕ
  | .sent _ => none
  | .consumed entryKey _ => some entryKey
  | .cancelled entryKey _ => some entryKey

def takenCount (happened : List Happening) (entryKey : ℕ) : ℕ :=
  happened.countP fun h => h.takenFrom = some entryKey

theorem takenCount_concat (happened : List Happening) (event : Happening) (k : ℕ) :
    takenCount (happened ++ [event]) k =
      takenCount happened k + if event.takenFrom = some k then 1 else 0 := by
  simp [takenCount, List.countP_append, List.countP_singleton]

section Invariant

variable (computeEntryKey : L1ToL2Msg → ℕ)

/-- No consumption after the deadline of the message, no cancellation at or before it. -/
def Timely : Happening → Prop
  | .sent _ => True
  | .consumed entryKey time => ∀ m, computeEntryKey m = entryKey → time ≤ m.deadline
  | .cancelled entryKey time => ∀ m, computeEntryKey m = entryKey → m.deadline < time

/-- **The invariant**, for a reserve of ether that need not be the whole balance: it covers the
accrued fees and the fees of the entries, an entry in use is that of a message, and its count is
the number of occurrences sent and not yet taken. -/
structure Good (reserve : ℕ) (entries : MessageBox.Entries) (feesAccrued : ℕ → ℕ)
    (happened : List Happening) : Prop where
  covers : Covers reserve feesAccrued fun k => MessageBox.due (entries k)
  entry_of : ∀ k, (entries k).count ≠ 0 → ∃ m, computeEntryKey m = k ∧
    (entries k).fee = m.fee ∧ (entries k).deadline = m.deadline
  count_eq : ∀ m, happened.count (.sent m) =
    (entries (computeEntryKey m)).count + takenCount happened (computeEntryKey m)
  timely : ∀ h ∈ happened, Timely computeEntryKey h

variable {computeEntryKey} {reserve : ℕ} {entries entries' : MessageBox.Entries}
  {feesAccrued : ℕ → ℕ} {happened : List Happening}

theorem due_update (entries : MessageBox.Entries) (k : ℕ) (e : Entry) :
    (fun k' => MessageBox.due (update entries k e k')) =
      update (fun k' => MessageBox.due (entries k')) k (MessageBox.due e) := by
  funext k'
  rcases eq_or_ne k' k with rfl | hne
  · simp
  · simp [hne]

section

variable (h : Good computeEntryKey reserve entries feesAccrued happened)
include h

theorem Good.entry_eq (hinj : computeEntryKey.Injective) {m : L1ToL2Msg}
    (hcount : (entries (computeEntryKey m)).count ≠ 0) : (entries (computeEntryKey m)).fee = m.fee ∧
      (entries (computeEntryKey m)).deadline = m.deadline := by
  obtain ⟨m', hm', hfee, hdeadline⟩ := h.entry_of _ hcount
  rw [← hinj hm']
  rw [← hm'] at hfee hdeadline
  exact ⟨hfee, hdeadline⟩

theorem Good.insert (hinj : computeEntryKey.Injective) (m : L1ToL2Msg) {version : ℕ}
    (hins : MessageBox.insert entries (computeEntryKey m) m.fee version m.deadline = .ok entries') :
    Good computeEntryKey (reserve + m.fee) entries' feesAccrued (happened ++ [.sent m]) := by
  rw [MessageBox.insert_eq_ok hins]
  refine ⟨?_, ?_, ?_, ?_⟩
  · rw [due_update]
    refine h.covers.update_right _ ?_
    by_cases hcount : (entries (computeEntryKey m)).count = 0
    · simp [MessageBox.due, hcount]
    · simp only [MessageBox.due, (h.entry_eq hinj hcount).1, Nat.add_mul, one_mul]
      omega
  · intro k hk
    rcases eq_or_ne k (computeEntryKey m) with rfl | hne
    · exact ⟨m, rfl, by simp, by simp⟩
    · simp only [update_of_ne hne] at hk ⊢
      exact h.entry_of k hk
  · intro m'
    have hcount := h.count_eq m'
    rw [takenCount_concat, List.count_append, List.count_singleton]
    rcases eq_or_ne m' m with rfl | hne
    · simp only [beq_self_eq_true, if_true, update_self, Happening.takenFrom,
        reduceCtorEq, if_false]
      omega
    · have hsent : Happening.sent m ≠ Happening.sent m' := fun he => hne (by injection he.symm)
      simp only [beq_iff_eq, if_neg hsent, update_of_ne (hinj.ne hne),
        Happening.takenFrom, reduceCtorEq, if_false]
      omega
  · refine List.forall_mem_append.2 ⟨h.timely, ?_⟩
    simp [Timely]

theorem Good.take {k : ℕ} {event : Happening} (hevent : event.takenFrom = some k)
    (htimely : Timely computeEntryKey event) (hcons : MessageBox.consume entries k = .ok entries') :
    (entries k).fee ≤ reserve ∧
      Good computeEntryKey (reserve - (entries k).fee) entries' feesAccrued
        (happened ++ [event]) := by
  obtain ⟨hcount, rfl⟩ := MessageBox.consume_eq_ok hcons
  obtain ⟨c, hc⟩ := Nat.exists_eq_succ_of_ne_zero hcount
  have hdue : MessageBox.due (entries k) = c * (entries k).fee + (entries k).fee := by
    rw [MessageBox.due, hc, Nat.succ_mul]
  have hle := h.covers.right_le k
  rw [hdue] at hle
  refine ⟨by omega, ?_, ?_, ?_, ?_⟩
  · rw [due_update]
    refine h.covers.update_right k ?_
    simp only [MessageBox.due, hc, Nat.succ_sub_one, Nat.succ_mul]
    omega
  · intro k' hk'
    rcases eq_or_ne k' k with rfl | hne
    · simpa using h.entry_of k' hcount
    · simp only [update_of_ne hne] at hk' ⊢
      exact h.entry_of k' hk'
  · intro m
    have hsent : event ≠ .sent m := by
      rintro rfl
      simp [Happening.takenFrom] at hevent
    have hcount_eq := h.count_eq m
    simp only [takenCount_concat, hevent, Option.some.injEq, List.count_append,
      List.count_singleton, beq_iff_eq, if_neg hsent]
    rcases eq_or_ne k (computeEntryKey m) with rfl | hne
    · simp only [update_self, if_true]
      omega
    · simp only [update_of_ne hne.symm, if_neg hne]
      omega
  · refine List.forall_mem_append.2 ⟨h.timely, ?_⟩
    simpa using htimely

theorem Good.accrue (account amount : ℕ) : Good computeEntryKey (reserve + amount) entries
      (update feesAccrued account (feesAccrued account + amount)) happened :=
  { h with covers := h.covers.update_left account (by omega) }

theorem Good.payOut (account : ℕ) : Good computeEntryKey (reserve - feesAccrued account) entries
      (update feesAccrued account 0) happened := by
  have := h.covers.left_le account
  exact { h with covers := h.covers.update_left account (by omega) }

end

/-! ### The entry points keep the invariant -/

variable (computeEntryKey) in
/-- The invariant of a state: the whole balance is the reserve. -/
def GoodWorld (w : World) : Prop :=
  Good computeEntryKey w.balance w.entries w.feesAccrued w.happened

variable {chainId timestamp : ℕ} {w w' : World} {msgSender : ℕ}

theorem goodWorld_deployed (balance : ℕ) : GoodWorld computeEntryKey (deployed balance) := by
  refine ⟨?_, ?_, ?_, ?_⟩
  · simpa [deployed, MessageBox.due] using covers_zero (α := ℕ) (β := ℕ) balance
  · simp [deployed]
  · simp [deployed, takenCount]
  · simp [deployed]

theorem goodWorld_sendL2Message (hinj : computeEntryKey.Injective)
    (h : GoodWorld computeEntryKey w) {msgValue : ℕ} {recipient : L2Actor}
    {deadline content secretHash : ℕ}
    (hcall : sendL2Message computeEntryKey chainId timestamp w msgSender msgValue recipient deadline
      content secretHash = .ok w') : GoodWorld computeEntryKey w' := by
  simp only [sendL2Message, bind_eq_ok, pure_eq_ok] at hcall
  obtain ⟨-, -, -, -, -, -, -, -, -, -, entries, hins, rfl⟩ := hcall
  exact h.insert hinj _ hins

variable {feeCollector : ℕ} {m : Machine}

section

variable (hinj : computeEntryKey.Injective)
include hinj

theorem goodWorld_cancelL2Message (h : GoodWorld computeEntryKey w) {message : L1ToL2Msg}
    (hcall : cancelL2Message computeEntryKey timestamp w msgSender message feeCollector = .ok w') :
    GoodWorld computeEntryKey w' := by
  simp only [cancelL2Message, bind_eq_ok, revertIf_eq_ok, checkedAdd_eq_ok, pure_eq_ok,
    Nat.not_le] at hcall
  obtain ⟨-, -, -, hpast, entries, hcons, fees, ⟨-, rfl⟩, rfl⟩ := hcall
  have hfee := (h.entry_eq hinj (MessageBox.consume_eq_ok hcons).1).1
  have htimely : Timely computeEntryKey (.cancelled (computeEntryKey message) timestamp) :=
    fun m hm => hinj hm ▸ hpast
  obtain ⟨hle, htake⟩ := h.take rfl htimely hcons
  rw [hfee] at hle htake
  have := htake.accrue feeCollector message.fee
  rwa [Nat.sub_add_cancel hle] at this

theorem good_consumeKey {expectedVersion entryKey : ℕ}
    {s s' : MessageBox.Entries × ℕ × List Happening}
    (h : s.2.1 ≤ reserve ∧ Good computeEntryKey (reserve - s.2.1) s.1 feesAccrued s.2.2)
    (hcall : consumeKey timestamp expectedVersion s entryKey = .ok s') :
    s'.2.1 ≤ reserve ∧ Good computeEntryKey (reserve - s'.2.1) s'.1 feesAccrued s'.2.2 := by
  unfold consumeKey at hcall
  split at hcall
  · simp only [pure_eq_ok] at hcall
    exact hcall ▸ h
  · simp only [bind_eq_ok, revertIf_eq_ok, checkedAdd_eq_ok, pure_eq_ok, Nat.not_lt, not_not] at hcall
    obtain ⟨entry, hget, -, -, -, hle, entries, hcons, totalFee, ⟨-, rfl⟩, rfl⟩ := hcall
    obtain rfl := MessageBox.get_eq_ok hget
    have hcount := (MessageBox.consume_eq_ok hcons).1
    have htimely : Timely computeEntryKey (.consumed entryKey timestamp) := by
      rintro m rfl
      exact (h.2.entry_eq hinj hcount).2 ▸ hle
    obtain ⟨hfee, htake⟩ := h.2.take rfl htimely hcons
    have hfits : s.2.1 + (s.1 entryKey).fee ≤ reserve := by have := h.1; omega
    exact ⟨hfits, by rwa [Nat.sub_sub] at htake⟩

theorem goodWorld_batchConsume (h : GoodWorld computeEntryKey w) {entryKeys : List ℕ}
    (hcall : batchConsume timestamp w msgSender entryKeys feeCollector = .ok w') :
    GoodWorld computeEntryKey w' := by
  simp only [batchConsume, bind_eq_ok] at hcall
  obtain ⟨version, -, ⟨entries, totalFee, happened⟩, hloop, hcall⟩ := hcall
  have hstart : 0 ≤ w.balance ∧
      Good computeEntryKey (w.balance - 0) w.entries w.feesAccrued w.happened :=
    ⟨Nat.zero_le _, h⟩
  -- the loop takes what it collects out of the reserve
  obtain ⟨hle, hgood⟩ : totalFee ≤ w.balance ∧
      Good computeEntryKey (w.balance - totalFee) entries w.feesAccrued happened :=
    foldlM_preserves (fun (s : MessageBox.Entries × ℕ × List Happening) => s.2.1 ≤ w.balance ∧
        Good computeEntryKey (w.balance - s.2.1) s.1 w.feesAccrued s.2.2)
      (fun _ _ _ hs hstep => good_consumeKey hinj hs hstep) hstart hloop
  split at hcall
  · simp only [bind_eq_ok, checkedAdd_eq_ok, pure_eq_ok] at hcall
    obtain ⟨fees, ⟨-, rfl⟩, rfl⟩ := hcall
    have := hgood.accrue feeCollector totalFee
    rwa [Nat.sub_add_cancel hle] at this
  · next hzero =>
    have hzero : totalFee = 0 := Nat.eq_zero_of_not_pos hzero
    simp only [pure_eq_ok] at hcall
    subst hcall
    rwa [hzero, Nat.sub_zero] at hgood

end

theorem goodWorld_beginWithdrawFees (h : GoodWorld computeEntryKey w)
    (hcall : beginWithdrawFees w msgSender = .ok w') : GoodWorld computeEntryKey w' := by
  simp only [beginWithdrawFees, bind_eq_ok, pure_eq_ok] at hcall
  obtain ⟨-, -, rfl⟩ := hcall
  exact h.payOut msgSender

theorem beginWithdrawFees_isOk (h : GoodWorld computeEntryKey w) (msgSender : ℕ) :
    ∃ w', beginWithdrawFees w msgSender = .ok w' := by
  have hle := h.covers.left_le msgSender
  refine ⟨_, bind_eq_ok.2 ⟨(), revertIf_eq_ok.2 (by omega), rfl⟩⟩

/-! ### Runs keep the invariant -/

theorem all_call {result : Except Revert World} (h : m.worlds.All (GoodWorld computeEntryKey))
    (hcall : ∀ w, result = .ok w → GoodWorld computeEntryKey w) :
    (m.call result).worlds.All (GoodWorld computeEntryKey) := by
  cases result with
  | ok w => exact h.update (hcall w rfl)
  | error reason => exact h

theorem step_good (hinj : computeEntryKey.Injective) (h : m.worlds.All (GoodWorld computeEntryKey))
    (action : Action) :
    (step computeEntryKey chainId m action).worlds.All (GoodWorld computeEntryKey) := by
  cases action with
  | sendL2Message msgSender msgValue recipient deadline content secretHash =>
    exact all_call h fun w hw => goodWorld_sendL2Message hinj h.current hw
  | cancelL2Message msgSender message feeCollector =>
    exact all_call h fun w hw => goodWorld_cancelL2Message hinj h.current hw
  | batchConsume msgSender entryKeys feeCollector =>
    exact all_call h fun w hw => goodWorld_batchConsume hinj h.current hw
  | withdrawFees msgSender =>
    obtain ⟨w, hw⟩ := beginWithdrawFees_isOk h.current msgSender
    simp only [step, hw]
    exact h.enter (goodWorld_beginWithdrawFees h.current hw)
  | upgrade rollup =>
    refine all_call h fun w hw => ?_
    cases hup : m.worlds.current.registry.upgrade rollup with
    | error reason => simp [hup, Except.map] at hw
    | ok registry =>
      simp only [hup, Except.map, Except.ok.injEq] at hw
      exact hw ▸ h.current
  | enter => exact h.enter h.current
  | leave success => exact h.leave success
  | wait timestamp =>
    simp only [step]
    split
    · exact h
    · exact h

/-- **The invariant holds in every state of every run**, and in every state that an open frame
would go back to. -/
theorem run_good (hinj : computeEntryKey.Injective) (actions : List Action) :
    ∀ {m : Machine}, m.worlds.All (GoodWorld computeEntryKey) →
      (run computeEntryKey chainId m actions).worlds.All (GoodWorld computeEntryKey) := by
  induction actions with
  | nil => exact id
  | cons action actions ih =>
    intro m h
    exact ih (step_good hinj h action)

end Invariant

/-- **Solvency and consumption at most once.**  After any run of actions from the deployment of
the contract, its ether covers all accrued fees together with the fees of all entries; and every
message has been consumed or cancelled at most as often as it was sent, consumed by its deadline
only and cancelled after it only. -/
theorem solvent_and_consumed_once {computeEntryKey : L1ToL2Msg → ℕ}
    (hinj : computeEntryKey.Injective) (chainId timestamp balance : ℕ) (actions : List Action) :
    let w := (run computeEntryKey chainId ⟨timestamp, deployed balance, []⟩ actions).worlds.current
    (∀ (accounts entryKeys : Finset ℕ),
        ∑ a ∈ accounts, w.feesAccrued a +
          ∑ k ∈ entryKeys, (w.entries k).count * (w.entries k).fee ≤ w.balance) ∧
      ∀ message : L1ToL2Msg,
        takenCount w.happened (computeEntryKey message) ≤ w.happened.count (.sent message) ∧
        (∀ time, .consumed (computeEntryKey message) time ∈ w.happened →
          time ≤ message.deadline) ∧
        ∀ time, .cancelled (computeEntryKey message) time ∈ w.happened →
          message.deadline < time := by
  intro w
  have h : GoodWorld computeEntryKey w :=
    (run_good hinj actions ⟨goodWorld_deployed balance, by simp⟩).current
  refine ⟨h.covers, fun message => ⟨?_, ?_, ?_⟩⟩
  · rw [h.count_eq message]
    exact Nat.le_add_left _ _
  · intro time hmem
    exact h.timely _ hmem message rfl
  · intro time hmem
    exact h.timely _ hmem message rfl

/-- A key computed by pairing the fields of the message. -/
def pairingKey (m : L1ToL2Msg) : ℕ :=
  Nat.pair (Nat.pair m.sender.actor m.sender.chainId) (Nat.pair
    (Nat.pair m.recipient.actor m.recipient.version)
    (Nat.pair (Nat.pair m.content m.secretHash) (Nat.pair m.deadline m.fee)))

theorem pairingKey_injective : pairingKey.Injective := by
  rintro ⟨⟨_, _⟩, ⟨_, _⟩, _, _, _, _⟩ ⟨⟨_, _⟩, ⟨_, _⟩, _, _, _, _⟩ h
  simp only [pairingKey, Nat.pair_eq_pair] at h
  simp [h]

/-- A run in which a message is sent twice, cancelled once, and the fee withdrawn by a receiver
that tries to withdraw it again. -/
theorem solvent_after_withdrawal :
    let w := (run pairingKey 1 ⟨0, deployed 0, []⟩
      [.sendL2Message 7 5 ⟨1, 1⟩ 10 2 3, .sendL2Message 7 5 ⟨1, 1⟩ 10 2 3, .wait 11,
        .cancelL2Message 7 ⟨⟨7, 1⟩, ⟨1, 1⟩, 2, 3, 10, 5⟩ 8, .withdrawFees 8, .withdrawFees 8,
        .leave true, .leave true]).worlds.current
    ∀ (accounts entryKeys : Finset ℕ),
      ∑ a ∈ accounts, w.feesAccrued a +
        ∑ k ∈ entryKeys, (w.entries k).count * (w.entries k).fee ≤ w.balance :=
  (solvent_and_consumed_once pairingKey_injective 1 0 0 _).1

end Inbox
