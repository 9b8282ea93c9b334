/-
**Public storage across nested public calls.**

A public call reads and writes storage through a collector of its own, which caches the values it
has read and written in front of the write caches that all calls share.  At the end the reads and
updates that the collectors of all calls hold are put in the order of their counters.
-/

import Aztec.NoirArrays
import Aztec.SequentialLog
import Mathlib.Data.List.AList

open List Option

namespace PublicStorage

open Noir SequentialLog

/-! ### The shared caches -/

/-- `WorldStatePublicDB`.  The tree is given by the values of the leaves that are present. -/
structure WorldStatePublicDB (Leaf : Type) where
  commitedWriteCache : Leaf → Option Field
  uncommitedWriteCache : Leaf → Option Field
  tree : Leaf → Option Field

namespace WorldStatePublicDB

variable {Leaf : Type} [DecidableEq Leaf]

def storageRead (db : WorldStatePublicDB Leaf) (leafSlot : Leaf) : Field :=
  match db.uncommitedWriteCache leafSlot with
  | some uncommited => uncommited
  | none =>
    match db.commitedWriteCache leafSlot with
    | some commited => commited
    | none => (db.tree leafSlot).getD 0

def storageWrite (db : WorldStatePublicDB Leaf) (leafSlot : Leaf) (newValue : Field) :
    WorldStatePublicDB Leaf :=
  { db with uncommitedWriteCache := Function.update db.uncommitedWriteCache leafSlot newValue }

def commit (db : WorldStatePublicDB Leaf) : WorldStatePublicDB Leaf :=
  { db with
    commitedWriteCache := fun leafSlot =>
      (db.uncommitedWriteCache leafSlot).or (db.commitedWriteCache leafSlot)
    uncommitedWriteCache := fun _ => none }

def rollback (db : WorldStatePublicDB Leaf) : WorldStatePublicDB Leaf :=
  { db with uncommitedWriteCache := fun _ => none }

theorem storageRead_storageWrite (db : WorldStatePublicDB Leaf) (leafSlot : Leaf)
    (newValue : Field) : (db.storageWrite leafSlot newValue).storageRead =
      Function.update db.storageRead leafSlot newValue := by
  funext other
  by_cases h : other = leafSlot
  · simp [storageRead, storageWrite, h]
  · simp [storageRead, storageWrite, Function.update_of_ne h]

omit [DecidableEq Leaf] in
@[simp] theorem storageRead_commit (db : WorldStatePublicDB Leaf) :
    db.commit.storageRead = db.storageRead := by
  funext leafSlot
  cases h : db.uncommitedWriteCache leafSlot <;> simp [storageRead, commit, h]

end WorldStatePublicDB

/-! ### The caches of a call -/

/-- The value of a slot that was read or written, and the counter of the action. -/
structure Entry where
  value : Field
  sideEffectCounter : ℕ
  deriving DecidableEq

/-- `ContractStorageActionsCollector`.  The order of the entries of a map plays no role, since they
are sorted by their counters in the end. -/
structure ContractStorageActionsCollector where
  address : Field
  contractStorageReads : AList fun _ : Field => Entry
  contractStorageUpdateRequests : AList fun _ : Field => Entry

variable {Leaf : Type} [DecidableEq Leaf] (leafSlot : Field → Field → Leaf)

namespace ContractStorageActionsCollector

def new (address : Field) : ContractStorageActionsCollector := ⟨address, ∅, ∅⟩

/-- What the collector holds for a slot: its own update, or its own read. -/
def cached (c : ContractStorageActionsCollector) (slot : Field) : Option Entry :=
  (c.contractStorageUpdateRequests.lookup slot).or (c.contractStorageReads.lookup slot)

def read (c : ContractStorageActionsCollector) (db : WorldStatePublicDB Leaf) (slot : Field)
    (sideEffectCounter : ℕ) : Field × ContractStorageActionsCollector :=
  match c.contractStorageUpdateRequests.lookup slot with
  | some updateRequest => (updateRequest.value, c)
  | none =>
    match c.contractStorageReads.lookup slot with
    | some read => (read.value, c)
    | none =>
      let value := db.storageRead (leafSlot c.address slot)
      (value, { c with
        contractStorageReads := c.contractStorageReads.insert slot ⟨value, sideEffectCounter⟩ })

def write (c : ContractStorageActionsCollector) (slot newValue : Field) (sideEffectCounter : ℕ) :
    ContractStorageActionsCollector :=
  let updateRequests :=
    c.contractStorageUpdateRequests.insert slot ⟨newValue, sideEffectCounter⟩
  match c.contractStorageUpdateRequests.lookup slot with
  | some _ => { c with contractStorageUpdateRequests := updateRequests }
  | none =>
    match c.contractStorageReads.lookup slot with
    | some _ =>
      { c with
        contractStorageReads := c.contractStorageReads.erase slot
        contractStorageUpdateRequests := updateRequests }
    | none => { c with contractStorageUpdateRequests := updateRequests }

end ContractStorageActionsCollector

/-! ### Calls -/

/-- The storage actions of `PublicExecutionResult`, as `collect` returns them. -/
inductive PublicExecutionResult where
  | mk (storageContractAddress : Field) (contractStorageReads : List (Sigma fun _ : Field => Entry))
      (contractStorageUpdateRequests : List (Sigma fun _ : Field => Entry))
      (nestedExecutions : List PublicExecutionResult)

structure PublicExecutionContext where
  contractAddress : Field
  storageActions : ContractStorageActionsCollector
  nestedExecutions : List PublicExecutionResult

/-- The result of a call, with what its collector holds. -/
def PublicExecutionContext.executionResult (context : PublicExecutionContext) :
    PublicExecutionResult :=
  .mk context.storageActions.address context.storageActions.contractStorageReads.entries
    context.storageActions.contractStorageUpdateRequests.entries context.nestedExecutions

/-- The calls that are being executed, the innermost one first, with what they share. -/
structure State (Leaf : Type) where
  stateDb : WorldStatePublicDB Leaf
  sideEffectCounter : ℕ
  callStack : List PublicExecutionContext
  result : Option PublicExecutionResult

/-- What a call does: a turn of `storageRead` or of `storageWrite`, a nested call, its end. -/
inductive Op where
  | storageRead (storageSlot : Field)
  | storageWrite (storageSlot newValue : Field)
  | callPublicFunction (targetContractAddress : Field) (isDelegateCall : Bool)
  | finish
  deriving DecidableEq

def readAction (address : Field) (entry : Sigma fun _ : Field => Entry) : Action Leaf Field :=
  ⟨false, leafSlot address entry.1, entry.2.value, entry.2.sideEffectCounter⟩

/-- An update request as it is siloed for the kernel. -/
def writeAction (address : Field) (entry : Sigma fun _ : Field => Entry) : Action Leaf Field :=
  ⟨true, leafSlot address entry.1, entry.2.value, entry.2.sideEffectCounter⟩

/-- A step of the innermost call, with the read or the write that it makes. -/
def step (s : State Leaf) (op : Op) : State Leaf × Option (Action Leaf Field) :=
  match s.callStack with
  | [] => (s, none)
  | context :: callers =>
    let actions := context.storageActions
    match op with
    | .storageRead storageSlot =>
      let (value, actions') := actions.read leafSlot s.stateDb storageSlot s.sideEffectCounter
      ({ s with
          sideEffectCounter := s.sideEffectCounter + 1
          callStack := { context with storageActions := actions' } :: callers },
        some ⟨false, leafSlot actions.address storageSlot, value, s.sideEffectCounter⟩)
    | .storageWrite storageSlot newValue =>
      let actions' := actions.write storageSlot newValue s.sideEffectCounter
      ({ s with
          stateDb := s.stateDb.storageWrite (leafSlot actions.address storageSlot) newValue
          sideEffectCounter := s.sideEffectCounter + 1
          callStack := { context with storageActions := actions' } :: callers },
        some ⟨true, leafSlot actions.address storageSlot, newValue, s.sideEffectCounter⟩)
    | .callPublicFunction targetContractAddress isDelegateCall =>
      -- a delegate call uses the storage of the contract of its caller
      let storageContractAddress :=
        if isDelegateCall then context.contractAddress else targetContractAddress
      ({ s with
          callStack :=
            ⟨targetContractAddress, .new storageContractAddress, []⟩ :: context :: callers },
        none)
    | .finish =>
      match callers with
      | [] => ({ s with callStack := [], result := some context.executionResult }, none)
      | caller :: callers =>
        ({ s with
            callStack :=
              { caller with
                nestedExecutions := caller.nestedExecutions ++ [context.executionResult] } ::
                callers },
          none)

/-! ### The collected actions -/

section Collect

variable (own : Field → List (Sigma fun _ : Field => Entry) →
  List (Sigma fun _ : Field => Entry) → List (Action Leaf Field))

mutual

/-- The actions of a call and of all nested ones, in the order of their counters. -/
def collectActions : PublicExecutionResult → List (Action Leaf Field)
  | .mk address reads updateRequests nested =>
    sort (own address reads updateRequests ++ collectNested nested)

def collectNested : List PublicExecutionResult → List (Action Leaf Field)
  | [] => []
  | result :: results => collectActions result ++ collectNested results

end

omit [DecidableEq Leaf] in
theorem collectNested_append (results results' : List PublicExecutionResult) :
    collectNested own (results ++ results') =
      collectNested own results ++ collectNested own results' := by
  induction results with
  | nil => simp [collectNested]
  | cons result results ih => simp [collectNested, ih]

end Collect

def collectPublicDataReads : PublicExecutionResult → List (Action Leaf Field) :=
  collectActions fun address reads _ => reads.map (readAction leafSlot address)

def collectPublicDataUpdateRequests : PublicExecutionResult → List (Action Leaf Field) :=
  collectActions fun address _ updateRequests => updateRequests.map (writeAction leafSlot address)

/-- The reads and the update requests, in the order of their counters. -/
def collected (result : PublicExecutionResult) : List (Action Leaf Field) :=
  sort (collectPublicDataReads leafSlot result ++ collectPublicDataUpdateRequests leafSlot result)

def ownActions (address : Field) (reads updateRequests : List (Sigma fun _ : Field => Entry)) :
    List (Action Leaf Field) :=
  reads.map (readAction leafSlot address) ++ updateRequests.map (writeAction leafSlot address)

def ContractStorageActionsCollector.collect (c : ContractStorageActionsCollector) :
    List (Action Leaf Field) :=
  ownActions leafSlot c.address c.contractStorageReads.entries
    c.contractStorageUpdateRequests.entries

/-- The actions that the calls of a state hold, the open ones and those that are done. -/
def heldActions (s : State Leaf) : List (Action Leaf Field) :=
  s.callStack.flatMap (fun context => context.storageActions.collect leafSlot ++
      collectNested (ownActions leafSlot) context.nestedExecutions) ++
    collectNested (ownActions leafSlot) s.result.toList

/-- The actions that the calls of a state hold, in the order of their counters. -/
def records (s : State Leaf) : List (Action Leaf Field) := sort (heldActions leafSlot s)

section CollectPerm

omit [DecidableEq Leaf]

variable {leafSlot}

theorem append_append_perm {α : Type} (a b c d : List α) :
    ((a ++ b) ++ (c ++ d)).Perm ((a ++ c) ++ (b ++ d)) := by
  simp only [append_assoc]
  refine List.Perm.append_left a ?_
  rw [← append_assoc, ← append_assoc]
  exact List.Perm.append_right d perm_append_comm

mutual

theorem collectActions_perm : ∀ result : PublicExecutionResult,
    (collectPublicDataReads leafSlot result ++
      collectPublicDataUpdateRequests leafSlot result).Perm
        (collectActions (ownActions leafSlot) result)
  | .mk address reads updateRequests nested => by
    refine (List.Perm.append (sort_perm _) (sort_perm _)).trans ?_
    refine (append_append_perm ..).trans (List.Perm.trans ?_ (sort_perm _).symm)
    exact (collectNested_perm nested).append_left _

theorem collectNested_perm : ∀ results : List PublicExecutionResult,
    (collectNested (fun address reads _ => reads.map (readAction leafSlot address)) results ++
      collectNested (fun address _ updateRequests =>
        updateRequests.map (writeAction leafSlot address)) results).Perm
        (collectNested (ownActions leafSlot) results)
  | [] => List.Perm.refl _
  | result :: results =>
    (append_append_perm ..).trans
      ((collectActions_perm result).append (collectNested_perm results))

end

end CollectPerm

/-! ### Runs -/

/-- A run: where it began, its state, and all reads and writes made so far. -/
structure Run (Leaf : Type) where
  initial : WorldStatePublicDB Leaf
  state : State Leaf
  history : List (Action Leaf Field)

/-- `PublicExecutor.simulate`, before the first step. -/
def simulate (stateDb : WorldStatePublicDB Leaf) (contractAddress storageContractAddress : Field) :
    Run Leaf where
  initial := stateDb
  state := ⟨stateDb, 0, [⟨contractAddress, .new storageContractAddress, []⟩], none⟩
  history := []

def Run.next (r : Run Leaf) (op : Op) : Run Leaf :=
  { r with
    state := (step leafSlot r.state op).1
    history := r.history ++ (step leafSlot r.state op).2.toList }

def Run.steps (r : Run Leaf) (ops : List Op) : Run Leaf := ops.foldl (Run.next leafSlot) r

/-- **Public storage is sequentially consistent**: every read had the value of the latest write
before it, and the collected actions replay to reads of the same values and to the storage that the
calls have left. -/
structure Consistent (r : Run Leaf) : Prop where
  reads : Sequential r.initial.storageRead r.history
  replayed_reads : Sequential r.initial.storageRead (records leafSlot r.state)
  replayed_storage : latest r.initial.storageRead (records leafSlot r.state) =
    latest r.initial.storageRead r.history
  storage : r.state.stateDb.storageRead = latest r.initial.storageRead r.history
  collected_eq : ∀ result, r.state.result = some result →
    collected leafSlot result = records leafSlot r.state

/-- **No call interferes with what the current one has cached**: when it reads a slot that it has
cached, no other call has written the slot to another value since; when it writes a slot that it has
written before, no recorded read saw the earlier write, or the earlier write changed nothing. -/
def StepOk (r : Run Leaf) : Op → Prop
  | .storageRead storageSlot =>
    ∀ context callers, r.state.callStack = context :: callers →
      ∀ entry, context.storageActions.cached storageSlot = some entry →
      ∀ a, lastWrite? r.history (leafSlot context.storageActions.address storageSlot) = some a →
        entry.sideEffectCounter < a.counter → a.value = entry.value
  | .storageWrite storageSlot _ =>
    ∀ context callers, r.state.callStack = context :: callers →
      ∀ entry, context.storageActions.contractStorageUpdateRequests.lookup storageSlot =
          some entry →
      ∀ before after, records leafSlot r.state =
          before ++ writeAction leafSlot context.storageActions.address ⟨storageSlot, entry⟩ ::
            after →
        latest r.initial.storageRead before
            (leafSlot context.storageActions.address storageSlot) = entry.value ∨
          Unseen (leafSlot context.storageActions.address storageSlot) after
  | .callPublicFunction _ _ | .finish => True

def RunOk : Run Leaf → List Op → Prop
  | _, [] => True
  | r, op :: ops => StepOk leafSlot r op ∧ RunOk (r.next leafSlot op) ops

/-! ### What a collector holds -/

section Collector

variable {m : AList fun _ : Field => Entry} {slot : Field} {entry : Entry}

theorem entries_perm_of_lookup (h : m.lookup slot = some entry) :
    m.entries.Perm (⟨slot, entry⟩ :: (m.erase slot).entries) := by
  have hmem : ⟨slot, entry⟩ ∈ m.entries := AList.mem_lookup_iff.1 h
  obtain ⟨other, before, after, -, hsplit, herase⟩ :=
    exists_of_kerase (mem_keys_of_mem hmem)
  have hother : other = entry := by
    have hlookup := AList.mem_lookup_iff.2 (hsplit ▸ mem_append_right before
      mem_cons_self : ⟨slot, other⟩ ∈ m.entries)
    exact some.inj (hlookup.symm.trans h)
  subst hother
  change m.entries.Perm (⟨slot, other⟩ :: List.kerase slot m.entries)
  rw [herase, hsplit]
  exact perm_middle

theorem insert_entries_of_none (h : m.lookup slot = none) :
    (m.insert slot entry).entries = ⟨slot, entry⟩ :: m.entries := by
  change ⟨slot, entry⟩ :: List.kerase slot m.entries = _
  rw [kerase_of_notMem_keys (AList.lookup_eq_none.1 h)]

namespace ContractStorageActionsCollector

omit [DecidableEq Leaf]

variable {c : ContractStorageActionsCollector}

theorem mem_collect_of_cached (h : c.cached slot = some entry) :
    ∃ isWrite, (⟨isWrite, leafSlot c.address slot, entry.value, entry.sideEffectCounter⟩ :
      Action Leaf Field) ∈ c.collect leafSlot := by
  rcases or_eq_some_iff.1 h with hupdate | ⟨-, hread⟩
  · exact ⟨true, mem_append_right _ (mem_map_of_mem (AList.mem_lookup_iff.1 hupdate))⟩
  · exact ⟨false, mem_append_left _ (mem_map_of_mem (AList.mem_lookup_iff.1 hread))⟩

theorem read_cached {db : WorldStatePublicDB Leaf} {counter : ℕ} (h : c.cached slot = some entry) :
    c.read leafSlot db slot counter = (entry.value, c) := by
  unfold cached at h
  unfold read
  cases hupdate : c.contractStorageUpdateRequests.lookup slot with
  | some update => simp_all
  | none => simp_all

theorem read_uncached (db : WorldStatePublicDB Leaf) (counter : ℕ) (h : c.cached slot = none) :
    ∃ c', c.read leafSlot db slot counter = (db.storageRead (leafSlot c.address slot), c') ∧
      (c'.collect leafSlot).Perm (⟨false, leafSlot c.address slot,
        db.storageRead (leafSlot c.address slot), counter⟩ :: c.collect leafSlot) := by
  obtain ⟨hupdate, hread⟩ := or_eq_none_iff.1 h
  refine ⟨{ c with
    contractStorageReads := c.contractStorageReads.insert slot
      ⟨db.storageRead (leafSlot c.address slot), counter⟩ },
    by simp only [read, hupdate, hread], ?_⟩
  simp only [collect, ownActions, insert_entries_of_none hread, map_cons, cons_append]
  exact List.Perm.refl _

theorem write_perm (slot newValue : Field) (counter : ℕ) :
    (∃ entry rest, c.contractStorageUpdateRequests.lookup slot = some entry ∧
      (c.collect leafSlot).Perm (writeAction leafSlot c.address ⟨slot, entry⟩ :: rest) ∧
      ((c.write slot newValue counter).collect leafSlot).Perm
        (⟨true, leafSlot c.address slot, newValue, counter⟩ :: rest)) ∨ (∃ entry rest,
      (c.collect leafSlot).Perm (readAction leafSlot c.address ⟨slot, entry⟩ :: rest) ∧
      ((c.write slot newValue counter).collect leafSlot).Perm
        (⟨true, leafSlot c.address slot, newValue, counter⟩ :: rest)) ∨
    ((c.write slot newValue counter).collect leafSlot).Perm
      (⟨true, leafSlot c.address slot, newValue, counter⟩ :: c.collect leafSlot) := by
  cases hupdate : c.contractStorageUpdateRequests.lookup slot with
  | some update =>
    refine Or.inl ⟨update, (c.contractStorageReads.entries.map (readAction leafSlot c.address)) ++
      ((c.contractStorageUpdateRequests.erase slot).entries.map
        (writeAction leafSlot c.address)), rfl, ?_, ?_⟩
    · refine List.Perm.trans (List.Perm.append_left _
        ((entries_perm_of_lookup hupdate).map _)) ?_
      exact perm_middle
    · simp only [write, hupdate]
      exact perm_middle
  | none =>
    cases hread : c.contractStorageReads.lookup slot with
    | some read =>
      refine Or.inr (Or.inl ⟨read,
        (c.contractStorageReads.erase slot).entries.map (readAction leafSlot c.address) ++
          c.contractStorageUpdateRequests.entries.map (writeAction leafSlot c.address), ?_, ?_⟩)
      · exact ((entries_perm_of_lookup hread).map _).append_right _
      · simp only [write, hupdate, hread, collect, ownActions, insert_entries_of_none hupdate]
        exact perm_middle
    | none =>
      refine Or.inr (Or.inr ?_)
      simp only [write, hupdate, hread, collect, ownActions, insert_entries_of_none hupdate]
      exact perm_middle

end ContractStorageActionsCollector

end Collector

/-! ### The invariant -/

section Invariant

variable {leafSlot} {r : Run Leaf} {s : State Leaf} {context : PublicExecutionContext}
  {callers : List PublicExecutionContext}

/-- What is held besides the collector of the innermost call. -/
def otherActions (leafSlot : Field → Field → Leaf) (context : PublicExecutionContext)
    (callers : List PublicExecutionContext) (result : Option PublicExecutionResult) :
    List (Action Leaf Field) :=
  collectNested (ownActions leafSlot) context.nestedExecutions ++
    (callers.flatMap (fun context => context.storageActions.collect leafSlot ++
      collectNested (ownActions leafSlot) context.nestedExecutions) ++
    collectNested (ownActions leafSlot) result.toList)

omit [DecidableEq Leaf] in
theorem heldActions_eq (leafSlot : Field → Field → Leaf) (h : s.callStack = context :: callers) :
    heldActions leafSlot s = context.storageActions.collect leafSlot ++
        otherActions leafSlot context callers s.result := by
  simp [heldActions, otherActions, h]

/-- The history and the records are in the order of the counters, what is held has happened, and
the result is there only at the end. -/
structure Invariant (leafSlot : Field → Field → Leaf) (r : Run Leaf) : Prop
    extends Consistent leafSlot r where
  history_sorted : r.history.Pairwise fun a b => a.counter < b.counter
  history_lt : ∀ a ∈ r.history, a.counter < r.state.sideEffectCounter
  held_subset : ∀ a ∈ heldActions leafSlot r.state, a ∈ r.history
  records_sorted : (records leafSlot r.state).Pairwise fun a b => a.counter < b.counter
  result_none : r.state.callStack ≠ [] → r.state.result = none

theorem Invariant.start (stateDb : WorldStatePublicDB Leaf)
    (contractAddress storageContractAddress : Field) :
    Invariant leafSlot (simulate stateDb contractAddress storageContractAddress) where
  reads := trivial
  replayed_reads := trivial
  replayed_storage := rfl
  storage := rfl
  collected_eq := nofun
  history_sorted := List.Pairwise.nil
  history_lt := nofun
  held_subset := nofun
  records_sorted := List.Pairwise.nil
  result_none := fun _ => rfl

theorem Invariant.held_lt (h : Invariant leafSlot r) :
    ∀ a ∈ heldActions leafSlot r.state, a.counter < r.state.sideEffectCounter :=
  fun a ha => h.history_lt a (h.held_subset a ha)

theorem Invariant.history_concat (h : Invariant leafSlot r) {a : Action Leaf Field}
    (ha : a.counter = r.state.sideEffectCounter) :
    (r.history ++ [a]).Pairwise (fun a b => a.counter < b.counter) ∧
      ∀ b ∈ r.history ++ [a], b.counter < r.state.sideEffectCounter + 1 := by
  constructor
  · refine pairwise_append.2
      ⟨h.history_sorted, pairwise_singleton _ _, fun b hb a' ha' => ?_⟩
    rw [mem_singleton.1 ha', ha]
    exact h.history_lt b hb
  · intro b hb
    rcases mem_append.1 hb with hb | hb
    · exact (h.history_lt b hb).trans (Nat.lt_succ_self _)
    · rw [mem_singleton.1 hb, ha]
      exact Nat.lt_succ_self _

theorem Invariant.of_perm (h : Invariant leafSlot r) {s : State Leaf}
    (hdb : s.stateDb = r.state.stateDb) (hcounter : s.sideEffectCounter = r.state.sideEffectCounter)
    (hheld : (heldActions leafSlot s).Perm (heldActions leafSlot r.state))
    (hresult : s.callStack ≠ [] → s.result = none) (hcollected : ∀ result, s.result = some result →
      (collectActions (ownActions leafSlot) result).Perm (heldActions leafSlot s)) :
    Invariant leafSlot { r with state := s } := by
  have hrecords : records leafSlot s = records leafSlot r.state :=
    sort_eq (hheld.trans (sort_perm _).symm) h.records_sorted
  refine
    { reads := h.reads
      replayed_reads := hrecords ▸ h.replayed_reads
      replayed_storage := hrecords ▸ h.replayed_storage
      storage := (congrArg _ hdb).trans h.storage
      collected_eq := fun result hr => ?_
      history_sorted := h.history_sorted
      history_lt := hcounter ▸ h.history_lt
      held_subset := fun a ha => h.held_subset a (hheld.subset ha)
      records_sorted := hrecords ▸ h.records_sorted
      result_none := hresult }
  exact sort_eq ((collectActions_perm result).trans
    ((hcollected result hr).trans (sort_perm _).symm)) (hrecords ▸ h.records_sorted)

section NewAction

variable (h : Invariant leafSlot r) (hstack : r.state.callStack = context :: callers)
  {c : ContractStorageActionsCollector} {stateDb : WorldStatePublicDB Leaf}
  {a : Action Leaf Field} {s : State Leaf}
  (hs : s = ⟨stateDb, r.state.sideEffectCounter + 1,
    { context with storageActions := c } :: callers, r.state.result⟩)
  (ha : a.counter = r.state.sideEffectCounter)
  (hdb : stateDb.storageRead = applyAction r.state.stateDb.storageRead a)
include h hstack hs ha hdb

section

variable (hread : a.isWrite = false → a.value = latest r.initial.storageRead r.history a.location)
include hread

theorem Invariant.of_action (hheld : ∀ b ∈ heldActions leafSlot s, b ∈ heldActions leafSlot r.state ∨ b = a)
    (hsorted : (records leafSlot s).Pairwise fun a b => a.counter < b.counter)
    (hreplay : Sequential r.initial.storageRead (records leafSlot s))
    (hlatest : latest r.initial.storageRead (records leafSlot s) =
      applyAction (latest r.initial.storageRead (records leafSlot r.state)) a) :
    Invariant leafSlot ⟨r.initial, s, r.history ++ [a]⟩ := by
  have hresult : r.state.result = none := h.result_none (by simp [hstack])
  have hhistory : latest r.initial.storageRead (r.history ++ [a]) =
      applyAction (latest r.initial.storageRead r.history) a := by
    rw [latest_append, latest_cons, latest_nil]
  refine
    { reads := (sequential_concat ..).2 ⟨h.reads, hread⟩
      replayed_reads := hreplay
      replayed_storage := ?_
      storage := ?_
      collected_eq := fun result hr => ?_
      history_sorted := (h.history_concat ha).1
      history_lt := fun b hb => ?_
      held_subset := fun b hb => ?_
      records_sorted := hsorted
      result_none := fun _ => ?_ }
  · rw [hlatest, hhistory, h.replayed_storage]
  · rw [hhistory, hs, hdb, h.storage]
  · rw [hs, hresult] at hr
    cases hr
  · rw [hs]
    exact (h.history_concat ha).2 b hb
  · rcases hheld b hb with hb | rfl
    · exact mem_append_left _ (h.held_subset b hb)
    · exact mem_append_right _ (mem_singleton.2 rfl)
  · rw [hs, hresult]

theorem Invariant.concat (hperm : (c.collect leafSlot).Perm (a :: context.storageActions.collect leafSlot)) :
    Invariant leafSlot ⟨r.initial, s, r.history ++ [a]⟩ := by
  have hheld : (heldActions leafSlot s).Perm (a :: heldActions leafSlot r.state) := by
    rw [hs, heldActions_eq leafSlot rfl, heldActions_eq leafSlot hstack]
    exact hperm.append_right _
  obtain ⟨heq, hsorted⟩ := sort_concat hheld h.records_sorted fun b hb => by
    rw [ha]
    exact h.held_lt b hb
  have hrecords : records leafSlot s = records leafSlot r.state ++ [a] := heq
  refine h.of_action hstack hs ha hdb hread (fun b hb => ?_) hsorted ?_ ?_
  · exact (mem_cons.1 (hheld.subset hb)).symm
  · refine hrecords ▸ (sequential_concat ..).2 ⟨h.replayed_reads, fun hr => ?_⟩
    rw [hread hr, ← h.replayed_storage]
  · rw [hrecords, latest_append, latest_cons, latest_nil]

end

theorem Invariant.replace {old : Action Leaf Field} {rest : List (Action Leaf Field)}
    (hwrite : a.isWrite = true)
    (hperm : (context.storageActions.collect leafSlot).Perm (old :: rest))
    (hperm' : (c.collect leafSlot).Perm (a :: rest))
    (hdrop : ∀ before after, records leafSlot r.state = before ++ old :: after →
      Sequential r.initial.storageRead (before ++ after ++ [a]) ∧
        latest r.initial.storageRead (before ++ after ++ [a]) =
          applyAction (latest r.initial.storageRead (before ++ old :: after)) a) :
    Invariant leafSlot ⟨r.initial, s, r.history ++ [a]⟩ := by
  have hheld : (heldActions leafSlot r.state).Perm
      (old :: (rest ++ otherActions leafSlot context callers r.state.result)) := by
    rw [heldActions_eq leafSlot hstack]
    exact hperm.append_right _
  have hheld' : (heldActions leafSlot s).Perm
      (a :: (rest ++ otherActions leafSlot context callers r.state.result)) := by
    rw [hs, heldActions_eq leafSlot rfl]
    exact hperm'.append_right _
  obtain ⟨before, after, hsplit, heq, hsorted⟩ := sort_replace hheld hheld' h.records_sorted
    fun b hb => by
      rw [ha]
      exact h.held_lt b hb
  have hrecords : records leafSlot s = before ++ after ++ [a] := heq
  have hrecords' : records leafSlot r.state = before ++ old :: after := hsplit
  obtain ⟨hseq, hlatest⟩ := hdrop before after hsplit
  refine h.of_action hstack hs ha hdb (fun hr => by simp [hwrite] at hr) (fun b hb => ?_) hsorted
    (hrecords ▸ hseq) ?_
  · rcases mem_cons.1 (hheld'.subset hb) with rfl | hb
    · exact Or.inr rfl
    · exact Or.inl (hheld.symm.subset (mem_cons_of_mem old hb))
  · rw [hrecords, hrecords', hlatest]

end NewAction

/-! ### Steps and runs -/

theorem Invariant.read (h : Invariant leafSlot r) {storageSlot : Field}
    (hok : StepOk leafSlot r (.storageRead storageSlot)) :
    Invariant leafSlot (r.next leafSlot (.storageRead storageSlot)) := by
  cases hstack : r.state.callStack with
  | nil => simpa [Run.next, step, hstack] using h
  | cons context callers =>
    cases hcached : context.storageActions.cached storageSlot with
    | none =>
      obtain ⟨c, hread, hperm⟩ := ContractStorageActionsCollector.read_uncached leafSlot
        r.state.stateDb r.state.sideEffectCounter hcached
      have hnext : r.next leafSlot (.storageRead storageSlot) =
          ⟨r.initial, ⟨r.state.stateDb, r.state.sideEffectCounter + 1,
            { context with storageActions := c } :: callers, r.state.result⟩,
            r.history ++ [⟨false, leafSlot context.storageActions.address storageSlot,
              r.state.stateDb.storageRead
                (leafSlot context.storageActions.address storageSlot),
              r.state.sideEffectCounter⟩]⟩ := by
        simp only [Run.next, step, hstack, hread, toList_some]
      rw [hnext]
      exact h.concat hstack rfl rfl rfl (fun _ => congrFun h.storage _) hperm
    | some entry =>
      have hnext : r.next leafSlot (.storageRead storageSlot) =
          ⟨r.initial, ⟨r.state.stateDb, r.state.sideEffectCounter + 1,
            context :: callers, r.state.result⟩,
            r.history ++ [⟨false, leafSlot context.storageActions.address storageSlot,
              entry.value, r.state.sideEffectCounter⟩]⟩ := by
        simp only [Run.next, step, hstack,
          ContractStorageActionsCollector.read_cached leafSlot hcached, toList_some]
      rw [hnext]
      -- the cached entry is in the history, and nobody has overwritten it since
      obtain ⟨isWrite, hmem⟩ := ContractStorageActionsCollector.mem_collect_of_cached leafSlot
        hcached
      have hvalue := latest_eq_of_mem h.reads h.history_sorted
        (h.held_subset _ (heldActions_eq leafSlot hstack ▸ mem_append_left _ hmem))
        (hok context callers hstack entry hcached)
      have hheld : heldActions leafSlot ⟨r.state.stateDb, r.state.sideEffectCounter + 1,
          context :: callers, r.state.result⟩ = heldActions leafSlot r.state := by
        rw [heldActions_eq leafSlot rfl, heldActions_eq leafSlot hstack]
      have hrecords : records leafSlot ⟨r.state.stateDb, r.state.sideEffectCounter + 1,
          context :: callers, r.state.result⟩ = records leafSlot r.state := congrArg sort hheld
      exact h.of_action hstack rfl rfl rfl (fun _ => hvalue.symm)
        (fun b hb => Or.inl (hheld ▸ hb)) (hrecords.symm ▸ h.records_sorted)
        (hrecords.symm ▸ h.replayed_reads) (congrArg _ hrecords)

theorem Invariant.write (h : Invariant leafSlot r) {storageSlot newValue : Field}
    (hok : StepOk leafSlot r (.storageWrite storageSlot newValue)) :
    Invariant leafSlot (r.next leafSlot (.storageWrite storageSlot newValue)) := by
  cases hstack : r.state.callStack with
  | nil => simpa [Run.next, step, hstack] using h
  | cons context callers =>
    have hnext : r.next leafSlot (.storageWrite storageSlot newValue) =
        ⟨r.initial, ⟨r.state.stateDb.storageWrite
          (leafSlot context.storageActions.address storageSlot) newValue,
          r.state.sideEffectCounter + 1,
          { context with
            storageActions := context.storageActions.write storageSlot newValue
              r.state.sideEffectCounter } :: callers, r.state.result⟩,
          r.history ++ [⟨true, leafSlot context.storageActions.address storageSlot, newValue,
            r.state.sideEffectCounter⟩]⟩ := by
      simp only [Run.next, step, hstack, toList_some]
    rw [hnext]
    have hdb := r.state.stateDb.storageRead_storageWrite
      (leafSlot context.storageActions.address storageSlot) newValue
    rcases context.storageActions.write_perm leafSlot storageSlot newValue
      r.state.sideEffectCounter with
      ⟨entry, rest, hupdate, hperm, hperm'⟩ | ⟨entry, rest, hperm, hperm'⟩ | hperm
    · refine h.replace hstack rfl rfl hdb rfl hperm hperm' fun before after hsplit => ?_
      exact sequential_replace rfl rfl rfl (hsplit ▸ h.replayed_reads)
        (hok context callers hstack entry hupdate before after hsplit)
    · refine h.replace hstack rfl rfl hdb rfl hperm hperm' fun before after hsplit => ?_
      obtain ⟨hseq, hlatest⟩ := sequential_remove_read rfl (hsplit ▸ h.replayed_reads)
      refine ⟨(sequential_concat ..).2 ⟨hseq, nofun⟩, ?_⟩
      rw [latest_append, hlatest]
      rfl
    · exact h.concat hstack rfl rfl hdb nofun hperm

theorem Invariant.call (h : Invariant leafSlot r) (targetContractAddress : Field)
    (isDelegateCall : Bool) :
    Invariant leafSlot (r.next leafSlot (.callPublicFunction targetContractAddress isDelegateCall))
    := by
  cases hstack : r.state.callStack with
  | nil => simpa [Run.next, step, hstack] using h
  | cons context callers =>
    have hresult : r.state.result = none := h.result_none (by simp [hstack])
    simp only [Run.next, step, hstack, toList_none, append_nil]
    refine h.of_perm rfl rfl ?_ (fun _ => hresult) fun result hr => ?_
    · refine List.Perm.of_eq ?_
      rw [heldActions_eq leafSlot rfl, heldActions_eq leafSlot hstack]
      simp [otherActions, ContractStorageActionsCollector.new,
        ContractStorageActionsCollector.collect, ownActions, collectNested]
    · rw [hresult] at hr
      cases hr

omit [DecidableEq Leaf] in
theorem collectActions_result (leafSlot : Field → Field → Leaf) (context : PublicExecutionContext) :
    (collectActions (ownActions leafSlot) context.executionResult).Perm
      (context.storageActions.collect leafSlot ++
        collectNested (ownActions leafSlot) context.nestedExecutions) :=
  sort_perm _

theorem Invariant.finish (h : Invariant leafSlot r) :
    Invariant leafSlot (r.next leafSlot .finish) := by
  cases hstack : r.state.callStack with
  | nil => simpa [Run.next, step, hstack] using h
  | cons context callers =>
    have hresult : r.state.result = none := h.result_none (by simp [hstack])
    have hheld := heldActions_eq leafSlot hstack
    cases callers with
    | nil =>
      simp only [Run.next, step, hstack, toList_none, append_nil]
      have hdone : (collectActions (ownActions leafSlot) context.executionResult).Perm
          (heldActions leafSlot r.state) := by
        rw [hheld, hresult]
        simpa [otherActions, collectNested] using collectActions_result leafSlot context
      have hheld' : heldActions leafSlot
          { r.state with callStack := [], result := some context.executionResult } =
          collectActions (ownActions leafSlot) context.executionResult := by
        simp [heldActions, collectNested]
      refine h.of_perm rfl rfl (hheld' ▸ hdone) (fun hne => absurd rfl hne) fun res hr => ?_
      obtain rfl := some.inj hr
      exact List.Perm.of_eq hheld'.symm
    | cons caller callers =>
      simp only [Run.next, step, hstack, toList_none, append_nil]
      refine h.of_perm rfl rfl ?_ (fun _ => hresult) fun result hr => ?_
      · rw [heldActions_eq leafSlot rfl, heldActions_eq leafSlot hstack]
        simp only [otherActions, collectNested_append, collectNested, append_nil,
          flatMap_cons]
        refine perm_iff_count.2 fun a => ?_
        have hcount := (collectActions_result leafSlot context).count_eq a
        simp only [count_append] at hcount ⊢
        omega
      · rw [hresult] at hr
        cases hr

theorem Invariant.next (h : Invariant leafSlot r) {op : Op} (hok : StepOk leafSlot r op) :
    Invariant leafSlot (r.next leafSlot op) := by
  cases op with
  | storageRead storageSlot => exact h.read hok
  | storageWrite storageSlot newValue => exact h.write hok
  | callPublicFunction targetContractAddress isDelegateCall =>
    exact h.call targetContractAddress isDelegateCall
  | finish => exact h.finish

theorem Invariant.steps (h : Invariant leafSlot r) {ops : List Op} (hok : RunOk leafSlot r ops) :
    Invariant leafSlot (r.steps leafSlot ops) := by
  induction ops generalizing r with
  | nil => exact h
  | cons op ops ih => exact ih (h.next hok.1) hok.2

end Invariant

/-- **Without interference public storage is sequentially consistent**, in every state of every
run. -/
theorem run_consistent (stateDb : WorldStatePublicDB Leaf)
    (contractAddress storageContractAddress : Field) (ops : List Op)
    (hok : RunOk leafSlot (simulate stateDb contractAddress storageContractAddress) ops) :
    Consistent leafSlot
      ((simulate stateDb contractAddress storageContractAddress).steps leafSlot ops) :=
  ((Invariant.start stateDb contractAddress storageContractAddress).steps hok).toConsistent

/-! ### A contract that calls itself -/

namespace Reentrant

/-- An empty database, with the leaf slots told by the address and the slot. -/
def start : Run (ℕ × ℕ) := simulate ⟨fun _ => none, fun _ => none, fun _ => none⟩ 1 1

/-- The nested call reads the slot that its caller has written. -/
def nestedRead : List Op :=
  [.storageWrite 5 1, .callPublicFunction 1 false, .storageRead 5, .finish, .storageRead 5, .finish]

/-- The nested call writes the slot that its caller has read. -/
def nestedWrite : List Op :=
  [.storageRead 5, .callPublicFunction 1 false, .storageWrite 5 9, .finish, .storageRead 5, .finish]

theorem runOk_nestedRead : RunOk Prod.mk start nestedRead := by
  refine ⟨?_, trivial, ?_, trivial, ?_, trivial, trivial⟩
  · intro context callers hstack entry hentry
    cases hstack
    cases hentry
  · intro context callers hstack entry hentry
    cases hstack
    cases hentry
  · intro context callers hstack entry hentry a ha hlt
    cases hstack
    cases hentry
    cases ha
    exact absurd hlt (lt_irrefl _)

end Reentrant

open Reentrant in
/-- A caller that has written a slot, and a nested call that reads it. -/
theorem run_consistent_nestedRead : Consistent Prod.mk (start.steps Prod.mk nestedRead) :=
  run_consistent Prod.mk _ 1 1 nestedRead runOk_nestedRead

-- a write that a nested call has read is not recorded, and its read does not replay
open Reentrant in
example : ¬ Sequential start.initial.storageRead (records Prod.mk (start.steps Prod.mk
    [.storageWrite 5 1, .callPublicFunction 1 false, .storageRead 5, .finish, .storageWrite 5 2,
      .finish]).state) := by decide

open Reentrant in
/-- **Nested calls break the consistency in general**: a caller reads the value that it has cached,
after a nested call has written the slot. -/
theorem not_run_consistent :
    ¬ ∀ (leafSlot : Field → Field → ℕ × ℕ) (stateDb : WorldStatePublicDB (ℕ × ℕ))
      (contractAddress storageContractAddress : Field) (ops : List Op), Consistent leafSlot
        ((simulate stateDb contractAddress storageContractAddress).steps leafSlot ops) := by
  intro h
  have hreads := (h Prod.mk ⟨fun _ => none, fun _ => none, fun _ => none⟩ 1 1 nestedWrite).reads
  exact absurd hreads (by decide)

end PublicStorage
