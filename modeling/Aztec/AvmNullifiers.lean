/-
**Nullifiers of the AVM across nested calls.**

The journal of a call keeps the nullifiers the call emits in a cache.  Whether a nullifier exists
is looked up in the call's own cache, then in its caller's, and then in the host state; a nullifier
that exists cannot be emitted.  When a nested call is accepted its storage writes, its trace and its
substate are merged into its caller's journal, its nullifiers are not.
-/

import Aztec.AvmStorage

open List

namespace Avm

open KeyedMerge

/-! ### The classes -/

structure NullifierCache where
  cachePerContract : ContractMap Unit

namespace NullifierCache

/-- `exists`. -/
def contains (self : NullifierCache) (storageAddress nullifier : Fr) : Bool :=
  ((self.cachePerContract.lookup storageAddress).bind fun nullifiersForContract =>
    nullifiersForContract.lookup nullifier).isSome

def append (self : NullifierCache) (storageAddress nullifier : Fr) :
    Except String NullifierCache :=
  let nullifiersForContract := (self.cachePerContract.lookup storageAddress).getD ∅
  if (nullifiersForContract.lookup nullifier).isSome then
    .error s!"Nullifier {nullifier} at contract {storageAddress} already exists in cache."
  else
    .ok ⟨self.cachePerContract.insert storageAddress (nullifiersForContract.insert nullifier ())⟩

@[simp] theorem contains_empty (storageAddress nullifier : Fr) :
    contains ⟨∅⟩ storageAddress nullifier = false := rfl

theorem append_of_not_contains {self : NullifierCache} {storageAddress nullifier : Fr}
    (h : self.contains storageAddress nullifier = false) :
    ∃ cache, self.append storageAddress nullifier = .ok cache ∧ ∀ a n, cache.contains a n =
        ((decide (storageAddress = a) && decide (nullifier = n)) || self.contains a n) := by
  have hnone : (((self.cachePerContract.lookup storageAddress).getD ∅).lookup nullifier).isSome =
      false := by
    rw [contains] at h
    cases hc : self.cachePerContract.lookup storageAddress with
    | none => rfl
    | some nullifiersForContract => rwa [hc] at h
  refine ⟨_, by rw [append, if_neg (by simp [hnone])], fun a n => ?_⟩
  simp only [contains, lookup_insert_if]
  rcases eq_or_ne storageAddress a with rfl | hne
  · rw [if_pos rfl, Option.bind_some, lookup_insert_if]
    rcases eq_or_ne nullifier n with rfl | hne
    · simp
    · rw [if_neg hne.symm]
      cases self.cachePerContract.lookup storageAddress with
      | none => simp [hne]
      | some nullifiersForContract => simp [hne]
  · simp [hne, hne.symm]

end NullifierCache

structure HostStorage where
  storageRead : Fr → Fr → Option Fr
  getNullifierIndex : Fr → Option ℕ
  getBytecode : Fr → ℕ → Option (List UInt8)

/-- The class `Nullifiers`: the call's own cache, its caller's, and the host. -/
structure Nullifiers where
  cache : NullifierCache
  parentCache : Option NullifierCache
  hostNullifiers : Fr → Option ℕ

namespace Nullifiers

variable (siloNullifier : Fr → Fr → Fr)

/-- `checkExists`: whether the nullifier exists, whether it was found in a cache, and its index. -/
def checkExists (self : Nullifiers) (storageAddress nullifier : Fr) : Bool × Bool × Fr :=
  let existsAsPending := self.cache.contains storageAddress nullifier ||
    self.parentCache.any fun cache => cache.contains storageAddress nullifier
  let leafIndex := if existsAsPending then none
    else self.hostNullifiers (siloNullifier storageAddress nullifier)
  (existsAsPending || leafIndex.isSome, existsAsPending, leafIndex.getD 0)

def append (self : Nullifiers) (storageAddress nullifier : Fr) : Except String Nullifiers :=
  if (self.checkExists siloNullifier storageAddress nullifier).1 then
    .error s!"Nullifier {nullifier} at contract {storageAddress} already exists in parent cache or host."
  else
    (self.cache.append storageAddress nullifier).map fun cache => { self with cache := cache }

theorem checkExists_eq_false {self : Nullifiers} {storageAddress nullifier : Fr} :
    (self.checkExists siloNullifier storageAddress nullifier).1 = false ↔
      self.cache.contains storageAddress nullifier = false ∧
        (∀ cache ∈ self.parentCache, cache.contains storageAddress nullifier = false) ∧
          self.hostNullifiers (siloNullifier storageAddress nullifier) = none := by
  simp only [checkExists, Bool.or_eq_false_iff, Option.any_eq_false_iff_get, Option.isSome_eq_false_iff]
  cases hc : self.cache.contains storageAddress nullifier with
  | true => simp
  | false =>
    cases hp : self.parentCache with
    | none => simp
    | some cache =>
      cases hc' : cache.contains storageAddress nullifier with
      | true => simp [hc']
      | false => simp [hc']

end Nullifiers

namespace WorldStateAccessTrace

def traceNewNoteHash (self : WorldStateAccessTrace) (noteHash : Fr) : WorldStateAccessTrace :=
  { self with
    newNoteHashes := self.newNoteHashes ++ [noteHash]
    accessCounter := self.accessCounter + 1 }

def traceNewNullifier (self : WorldStateAccessTrace) (nullifier : Fr) : WorldStateAccessTrace :=
  { self with
    newNullifiers := self.newNullifiers ++ [nullifier]
    accessCounter := self.accessCounter + 1 }

end WorldStateAccessTrace

structure StateManager extends AvmPersistableStateManager where
  nullifiers : NullifierCache

namespace StateManager

def new (parent : Option StateManager) : StateManager :=
  { AvmPersistableStateManager.new (parent.map toAvmPersistableStateManager) with
    nullifiers := ⟨∅⟩ }

def fork (self : StateManager) : StateManager := new (some self)

def writeStorage (self : StateManager) (storageAddress slot value : Fr) : StateManager :=
  { self with
    toAvmPersistableStateManager :=
      self.toAvmPersistableStateManager.writeStorage storageAddress slot value }

def readStorage (host : HostStorage) (parent : Option StateManager) (self : StateManager)
    (storageAddress slot : Fr) : Fr × StateManager :=
  let publicStorage : PublicStorage := ⟨self.cache, parent.map fun m => m.cache, host.storageRead⟩
  let value := (publicStorage.read storageAddress slot).2
  (value, { self with trace := self.trace.tracePublicStorageRead storageAddress slot value })

def writeNoteHash (self : StateManager) (noteHash : Fr) : StateManager :=
  { self with trace := self.trace.traceNewNoteHash noteHash }

def nullifiersOf (host : HostStorage) (parent : Option StateManager) (self : StateManager) :
    Nullifiers :=
  ⟨self.nullifiers, parent.map nullifiers, host.getNullifierIndex⟩

def checkNullifierExists (siloNullifier : Fr → Fr → Fr) (host : HostStorage)
    (parent : Option StateManager) (self : StateManager) (storageAddress nullifier : Fr) : Bool :=
  ((self.nullifiersOf host parent).checkExists siloNullifier storageAddress nullifier).1

def writeNullifier (siloNullifier : Fr → Fr → Fr) (host : HostStorage)
    (parent : Option StateManager) (self : StateManager) (storageAddress nullifier : Fr) :
    Except String StateManager :=
  ((self.nullifiersOf host parent).append siloNullifier storageAddress nullifier).map fun nullifiers =>
    { self with
      nullifiers := nullifiers.cache
      trace := self.trace.traceNewNullifier nullifier }

def writeL1Message (self : StateManager) (message : List (Option Fr)) : StateManager :=
  { self with newL1Messages := self.newL1Messages ++ [message] }

def writeLog (self : StateManager) (log : List (Option Fr)) : StateManager :=
  { self with newLogs := self.newLogs ++ [log] }

def acceptNestedCallState (self nestedJournal : StateManager) : StateManager :=
  { self with
    toAvmPersistableStateManager := self.toAvmPersistableStateManager.acceptNestedCallState
      nestedJournal.toAvmPersistableStateManager }

def rejectNestedCallState (self nestedJournal : StateManager) : StateManager :=
  { self with
    toAvmPersistableStateManager := self.toAvmPersistableStateManager.rejectNestedCallState
      nestedJournal.toAvmPersistableStateManager }

/-- **A nullifier is written exactly when neither cache nor the host has it**, and the call's own
cache then has it as well. -/
theorem writeNullifier_cases (siloNullifier : Fr → Fr → Fr) (host : HostStorage)
    (parent : Option StateManager) (self : StateManager) (storageAddress nullifier : Fr) :
    (self.checkNullifierExists siloNullifier host parent storageAddress nullifier = true ∧
        ∃ msg, self.writeNullifier siloNullifier host parent storageAddress nullifier = .error msg) ∨
      (self.checkNullifierExists siloNullifier host parent storageAddress nullifier = false ∧
        ∃ self', self.writeNullifier siloNullifier host parent storageAddress nullifier = .ok self' ∧
          ∀ a n, self'.nullifiers.contains a n =
            ((decide (storageAddress = a) && decide (nullifier = n)) ||
              self.nullifiers.contains a n)) := by
  simp only [checkNullifierExists, writeNullifier, Nullifiers.append]
  cases hexists : ((self.nullifiersOf host parent).checkExists siloNullifier storageAddress
      nullifier).1 with
  | true => exact .inl ⟨rfl, _, rfl⟩
  | false =>
    have hown := (Nullifiers.checkExists_eq_false siloNullifier).1 hexists
    obtain ⟨cache, hcache, hcontains⟩ := NullifierCache.append_of_not_contains hown.1
    refine .inr ⟨rfl, { self with
      nullifiers := cache
      trace := self.trace.traceNewNullifier nullifier }, ?_, hcontains⟩
    simp [hcache, Except.map]

end StateManager

/-! ### The path of calls -/

namespace Journal

variable (siloNullifier : Fr → Fr → Fr) (host : HostStorage)

/-- The managers of the calls that have not finished, the innermost first. -/
abbrev Path := List StateManager

/-- A call of the journal.  Instructions are those of the innermost call. -/
inductive Event where
  | fork
  | writeStorage (storageAddress slot value : Fr)
  | readStorage (storageAddress slot : Fr)
  | writeNoteHash (noteHash : Fr)
  | checkNullifierExists (storageAddress nullifier : Fr)
  | writeNullifier (storageAddress nullifier : Fr)
  | writeL1Message (message : List (Option Fr))
  | writeLog (log : List (Option Fr))
  | acceptNestedCallState
  | rejectNestedCallState
  deriving DecidableEq, Repr

/-- `writeNullifier` of the innermost call. -/
def writeNullifier (path : Path) (storageAddress nullifier : Fr) : Except String Path :=
  match path with
  | [] => .error "no call"
  | m :: callers =>
    (m.writeNullifier siloNullifier host callers.head? storageAddress nullifier).map fun m =>
      m :: callers

/-- One event.  A write of a nullifier that throws leaves the journal as it is. -/
def step (path : Path) : Event → Path
  | .fork =>
    match path with
    | [] => []
    | m :: callers => m.fork :: m :: callers
  | .writeStorage storageAddress slot value =>
    path.modifyHead fun m => m.writeStorage storageAddress slot value
  | .readStorage storageAddress slot =>
    path.modifyHead fun m => (m.readStorage host path[1]? storageAddress slot).2
  | .writeNoteHash noteHash => path.modifyHead fun m => m.writeNoteHash noteHash
  | .checkNullifierExists _ _ => path
  | .writeNullifier storageAddress nullifier =>
    match writeNullifier siloNullifier host path storageAddress nullifier with
    | .ok path => path
    | .error _ => path
  | .writeL1Message message => path.modifyHead fun m => m.writeL1Message message
  | .writeLog log => path.modifyHead fun m => m.writeLog log
  | .acceptNestedCallState =>
    match path with
    | nested :: m :: callers => m.acceptNestedCallState nested :: callers
    | _ => path
  | .rejectNestedCallState =>
    match path with
    | nested :: m :: callers => m.rejectNestedCallState nested :: callers
    | _ => path

/-! ### The pending nullifiers -/

/-- A nullifier that was emitted, and whether that was in a nested call. -/
structure Emission where
  storageAddress : Fr
  nullifier : Fr
  nested : Bool
  deriving DecidableEq, Repr

def Emission.IsOf (e : Emission) (storageAddress nullifier : Fr) : Prop :=
  e.storageAddress = storageAddress ∧ e.nullifier = nullifier

/-- The pending emissions of the calls on the path after an event: each call's own and those of
the finished nested calls it accepted. -/
def record (path : Path) (logs : List (List Emission)) : Event → List (List Emission)
  | .fork =>
    match logs with
    | [] => []
    | log :: callers => [] :: log :: callers
  | .writeNullifier storageAddress nullifier =>
    match writeNullifier siloNullifier host path storageAddress nullifier with
    | .ok _ => logs.modifyHead fun log => log ++ [⟨storageAddress, nullifier, false⟩]
    | .error _ => logs
  | .acceptNestedCallState =>
    match logs with
    | nested :: log :: callers =>
      (log ++ nested.map fun e => { e with nested := true }) :: callers
    | _ => logs
  | .rejectNestedCallState =>
    match logs with
    | _ :: log :: callers => log :: callers
    | _ => logs
  | _ => logs

/-- A run from the outermost call, with the pending emissions. -/
def run (events : List Event) : Path × List (List Emission) :=
  events.foldl
    (fun s event =>
      (step siloNullifier host s.1 event, record siloNullifier host s.1 s.2 event))
    ([.new none], [[]])

/-- **The nullifier is not yet present** for the address: not in the host state, and not among the
pending emissions of the call and its callers. -/
def Fresh (logs : List (List Emission)) (storageAddress nullifier : Fr) : Prop :=
  host.getNullifierIndex (siloNullifier storageAddress nullifier) = none ∧
    ∀ log ∈ logs, ∀ e ∈ log, ¬e.IsOf storageAddress nullifier

/-- If the nullifier is present for the address, it is so in the host state, or because the call
itself or its direct caller has emitted it, not in a nested call. -/
def FoundIfPending (logs : List (List Emission)) (storageAddress nullifier : Fr) : Prop :=
  Fresh siloNullifier host logs storageAddress nullifier ∨
    host.getNullifierIndex (siloNullifier storageAddress nullifier) ≠ none ∨
      ∃ log ∈ logs.take 2, ∃ e ∈ log, e.IsOf storageAddress nullifier ∧ e.nested = false

/-! ### The caches -/

/-- The cache of a call holds what the call has emitted itself. -/
def Cached (m : StateManager) (log : List Emission) : Prop :=
  ∀ a n, m.nullifiers.contains a n = true ↔ ∃ e ∈ log, e.IsOf a n ∧ e.nested = false

theorem cached_new (parent : Option StateManager) : Cached (.new parent) [] := by
  intro a n
  simp [StateManager.new]

variable {m : StateManager} {log : List Emission} {storageAddress nullifier : Fr} {path : Path}
  {logs : List (List Emission)}

theorem Cached.emit {m m' : StateManager} {log : List Emission} (h : Cached m log)
    {storageAddress nullifier : Fr} (hm : ∀ a n, m'.nullifiers.contains a n =
      ((decide (storageAddress = a) && decide (nullifier = n)) || m.nullifiers.contains a n)) :
    Cached m' (log ++ [⟨storageAddress, nullifier, false⟩]) := by
  intro a n
  rw [hm, Bool.or_eq_true, h a n]
  simp only [Bool.and_eq_true, decide_eq_true_eq, mem_append, mem_singleton]
  constructor
  · rintro (⟨rfl, rfl⟩ | ⟨e, he, hof⟩)
    · exact ⟨_, .inr rfl, ⟨rfl, rfl⟩, rfl⟩
    · exact ⟨e, .inl he, hof⟩
  · rintro ⟨e, he | rfl, hof⟩
    · exact .inr ⟨e, he, hof⟩
    · exact .inl ⟨hof.1.1, hof.1.2⟩

theorem Cached.accept {nested : List Emission} (h : Cached m log) (nestedJournal : StateManager) :
    Cached (m.acceptNestedCallState nestedJournal)
      (log ++ nested.map fun e => { e with nested := true }) := by
  intro a n
  refine (h a n).trans ⟨?_, ?_⟩
  · rintro ⟨e, he, hof⟩
    exact ⟨e, mem_append_left _ he, hof⟩
  · rintro ⟨e, he, hof⟩
    rcases mem_append.1 he with he | he
    · exact ⟨e, he, hof⟩
    · obtain ⟨e', -, rfl⟩ := mem_map.1 he
      exact absurd hof.2 (by simp)

variable {siloNullifier host}

theorem forall₂_modifyHead {f : StateManager → StateManager}
    (hf : ∀ m, (f m).nullifiers = m.nullifiers) (h : List.Forall₂ Cached path logs) :
    List.Forall₂ Cached (path.modifyHead f) logs := by
  cases h with
  | nil => exact .nil
  | cons hm hrest => exact .cons (fun a n => by rw [hf]; exact hm a n) hrest

theorem step_cached (h : List.Forall₂ Cached path logs) (event : Event) :
    List.Forall₂ Cached (step siloNullifier host path event)
      (record siloNullifier host path logs event) := by
  cases event with
  | fork =>
    cases h with
    | nil => exact .nil
    | cons hm hrest => exact .cons (cached_new _) (.cons hm hrest)
  | writeStorage storageAddress slot value => exact forall₂_modifyHead (fun _ => rfl) h
  | readStorage storageAddress slot => exact forall₂_modifyHead (fun _ => rfl) h
  | writeNoteHash noteHash => exact forall₂_modifyHead (fun _ => rfl) h
  | checkNullifierExists storageAddress nullifier => exact h
  | writeNullifier storageAddress nullifier =>
    cases h with
    | nil => exact .nil
    | @cons m log callers logs hm hrest =>
      rcases m.writeNullifier_cases siloNullifier host callers.head? storageAddress nullifier with
        ⟨-, msg, herror⟩ | ⟨-, m', hok, hcontains⟩
      · simp only [step, record, writeNullifier, herror, Except.map]
        exact .cons hm hrest
      · simp only [step, record, writeNullifier, hok, Except.map]
        exact .cons (hm.emit hcontains) hrest
  | writeL1Message message => exact forall₂_modifyHead (fun _ => rfl) h
  | writeLog log => exact forall₂_modifyHead (fun _ => rfl) h
  | acceptNestedCallState =>
    cases h with
    | nil => exact .nil
    | cons hnested hrest =>
      cases hrest with
      | nil => exact .cons hnested .nil
      | cons hm hrest => exact .cons (hm.accept _) hrest
  | rejectNestedCallState =>
    cases h with
    | nil => exact .nil
    | cons hnested hrest =>
      cases hrest with
      | nil => exact .cons hnested .nil
      | cons hm hrest => exact .cons hm hrest

theorem run_append (events : List Event) (event : Event) :
    run siloNullifier host (events ++ [event]) =
      (step siloNullifier host (run siloNullifier host events).1 event,
        record siloNullifier host (run siloNullifier host events).1
          (run siloNullifier host events).2 event) := by
  rw [run, foldl_append]
  rfl

theorem run_cached (events : List Event) :
    List.Forall₂ Cached (run siloNullifier host events).1 (run siloNullifier host events).2 := by
  induction events using reverseRecOn with
  | nil => exact .cons (cached_new none) .nil
  | append_singleton events event ih =>
    rw [run_append]
    exact step_cached ih event

theorem writeNullifier_ok_iff (h : List.Forall₂ Cached path logs) (hne : path ≠ [])
    (storageAddress nullifier : Fr) :
    (∃ path', writeNullifier siloNullifier host path storageAddress nullifier = .ok path') ↔
      host.getNullifierIndex (siloNullifier storageAddress nullifier) = none ∧
        ¬∃ emitted ∈ logs.take 2, ∃ e ∈ emitted,
          e.IsOf storageAddress nullifier ∧ e.nested = false := by
  cases h with
  | nil => exact absurd rfl hne
  | @cons m log callers logs hm hrest =>
    have hfound : m.checkNullifierExists siloNullifier host callers.head? storageAddress
        nullifier = false ↔ host.getNullifierIndex (siloNullifier storageAddress nullifier) = none ∧
            ¬∃ emitted ∈ (log :: logs).take 2, ∃ e ∈ emitted,
              e.IsOf storageAddress nullifier ∧ e.nested = false := by
      have hown := hm storageAddress nullifier
      rw [StateManager.checkNullifierExists, Nullifiers.checkExists_eq_false,
        StateManager.nullifiersOf, ← Bool.not_eq_true (m.nullifiers.contains _ _), hown]
      cases hrest with
      | nil => simp [and_comm]
      | cons hparent _ =>
        have hparent := hparent storageAddress nullifier
        simp only [head?_cons, Option.map_some, Option.mem_some_iff, forall_eq',
          ← Bool.not_eq_true, hparent]
        simp only [take_succ_cons, take_zero, mem_cons, not_mem_nil,
          or_false, exists_eq_or_imp, exists_eq_left, not_or]
        tauto
    rw [← hfound]
    rcases m.writeNullifier_cases siloNullifier host callers.head? storageAddress nullifier with
      ⟨htrue, msg, herror⟩ | ⟨hfalse, m', hok, -⟩
    · simp [writeNullifier, herror, htrue, Except.map]
    · simp [writeNullifier, hok, hfalse, Except.map]

theorem run_ne_nil (events : List Event) : (run siloNullifier host events).1 ≠ [] := by
  induction events using reverseRecOn with
  | nil => simp [run]
  | append_singleton events event ih =>
    rw [run_append]
    obtain ⟨m, callers, hpath⟩ := exists_cons_of_ne_nil ih
    rw [hpath]
    cases event with
    | writeNullifier storageAddress nullifier =>
      simp only [step, writeNullifier]
      cases m.writeNullifier siloNullifier host callers.head? storageAddress nullifier with
      | error msg => simp [Except.map]
      | ok m' => simp [Except.map]
    | acceptNestedCallState =>
      cases callers with
      | nil => simp [step]
      | cons m' callers => simp [step]
    | rejectNestedCallState =>
      cases callers with
      | nil => simp [step]
      | cons m' callers => simp [step]
    | _ => simp [step]

/-! ### Emitting once -/

def Emission.key (e : Emission) : Fr × Fr := (e.storageAddress, e.nullifier)

def pending (logs : List (List Emission)) : List (Fr × Fr) :=
  logs.flatten.map Emission.key

theorem notMem_pending_of_fresh (h : Fresh siloNullifier host logs storageAddress nullifier) :
    (storageAddress, nullifier) ∉ pending logs := by
  intro hmem
  obtain ⟨e, he, hkey⟩ := mem_map.1 hmem
  obtain ⟨log, hlog, he⟩ := mem_flatten.1 he
  exact h.2 log hlog e he (Prod.mk.inj hkey)

theorem record_nodup {path : Path} {logs : List (List Emission)} (event : Event)
    (hfresh : ∀ a n, event = .writeNullifier a n →
      (∃ path', writeNullifier siloNullifier host path a n = .ok path') →
        Fresh siloNullifier host logs a n)
    (h : (pending logs).Nodup) : (pending (record siloNullifier host path logs event)).Nodup := by
  cases event with
  | fork =>
    cases logs with
    | nil => exact h
    | cons log callers => exact h
  | writeNullifier storageAddress nullifier =>
    simp only [record]
    cases hwrite : writeNullifier siloNullifier host path storageAddress nullifier with
    | error msg => exact h
    | ok path' =>
      have hnot := notMem_pending_of_fresh (hfresh _ _ rfl ⟨path', hwrite⟩)
      cases logs with
      | nil => exact h
      | cons log callers =>
        have hperm : (pending ((log ++ [⟨storageAddress, nullifier, false⟩]) :: callers)).Perm
            ((storageAddress, nullifier) :: pending (log :: callers)) := by
          simp only [pending, flatten_cons, map_append, map_cons, append_assoc, singleton_append]
          exact perm_middle
        exact hperm.nodup_iff.2 (nodup_cons.2 ⟨hnot, h⟩)
  | acceptNestedCallState =>
    rcases logs with - | ⟨nested, - | ⟨log, callers⟩⟩
    · exact h
    · exact h
    · have hkeys : pending ((log ++ nested.map fun e => { e with nested := true }) :: callers) =
          log.map Emission.key ++ (nested.map Emission.key ++ pending callers) := by
        simp only [pending, flatten_cons, map_append, map_map, append_assoc]
        rfl
      have hperm : (pending (nested :: log :: callers)).Perm
          (log.map Emission.key ++ (nested.map Emission.key ++ pending callers)) := by
        simp only [pending, flatten_cons, map_append]
        rw [← append_assoc, ← append_assoc]
        exact perm_append_comm.append_right _
      simp only [record, hkeys]
      exact hperm.nodup_iff.1 h
  | rejectNestedCallState =>
    rcases logs with - | ⟨nested, - | ⟨log, callers⟩⟩
    · exact h
    · exact h
    · simp only [pending, flatten_cons, map_append] at h
      simpa [pending, record] using (nodup_append.1 h).2.1
  | _ => exact h

/-- **When a nullifier can only be emitted once.**  After any run, a nullifier that can be written
is one not yet present if and only if a nullifier that is present is one the journal looks for: in
the host state, or among those the call itself and its direct caller have emitted outside of nested
calls.  In a run all of whose writes are so, the pending nullifiers of the transaction, those of
the call, of its callers and of the accepted nested calls, are pairwise distinct for each address. -/
theorem writeNullifier_fresh_iff (siloNullifier : Fr → Fr → Fr) (host : HostStorage)
    (events : List Event) : (∀ storageAddress nullifier,
      ((∃ path', writeNullifier siloNullifier host (run siloNullifier host events).1 storageAddress
          nullifier = .ok path') →
        Fresh siloNullifier host (run siloNullifier host events).2 storageAddress nullifier) ↔
      FoundIfPending siloNullifier host (run siloNullifier host events).2 storageAddress
        nullifier) ∧ ((∀ earlier storageAddress nullifier later,
      events = earlier ++ .writeNullifier storageAddress nullifier :: later →
        FoundIfPending siloNullifier host (run siloNullifier host earlier).2 storageAddress
          nullifier) → (pending (run siloNullifier host events).2).Nodup) := by
  have hiff : ∀ events storageAddress nullifier,
      ((∃ path', writeNullifier siloNullifier host (run siloNullifier host events).1 storageAddress
          nullifier = .ok path') →
        Fresh siloNullifier host (run siloNullifier host events).2 storageAddress nullifier) ↔
      FoundIfPending siloNullifier host (run siloNullifier host events).2 storageAddress
        nullifier := by
    intro events storageAddress nullifier
    rw [writeNullifier_ok_iff (run_cached events) (run_ne_nil events), FoundIfPending, imp_iff_or_not,
      not_and_or, not_not]
  refine ⟨hiff events, fun hfound => ?_⟩
  induction events using List.reverseRecOn with
  | nil => simp [run, pending]
  | append_singleton events event ih =>
    rw [run_append]
    refine record_nodup event ?_ (ih fun earlier a n later heq => ?_)
    · rintro a n rfl hok
      exact (hiff events a n).2 (hfound events a n [] rfl) hok
    · exact hfound earlier a n (later ++ [event]) (by simp [heq])

/-- **Nullifiers can be emitted twice**: after a nested call that has emitted one is accepted, its
caller can emit it again. -/
theorem not_writeNullifier_fresh :
    ¬∀ (siloNullifier : Fr → Fr → Fr) (host : HostStorage) (events : List Event)
      (storageAddress nullifier : Fr),
      ((∃ path', writeNullifier siloNullifier host (run siloNullifier host events).1 storageAddress
          nullifier = .ok path') →
        Fresh siloNullifier host (run siloNullifier host events).2 storageAddress nullifier) ∧
      (pending (run siloNullifier host events).2).Nodup := by
  intro h
  have hnodup := (h (fun a n => a + n) ⟨fun _ _ => none, fun _ => none, fun _ _ => none⟩
    [.fork, .writeNullifier 1 2, .acceptNestedCallState, .writeNullifier 1 2] 1 2).2
  revert hnodup
  decide

end Journal

end Avm
