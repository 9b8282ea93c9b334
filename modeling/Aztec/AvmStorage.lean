/-
**Public storage of the AVM across nested calls.**

A call of the AVM keeps its writes to public storage in a cache of its own.  A nested call gets a
new cache, and when it finishes its cache is merged into that of its caller or dropped.  A read
looks into the call's own cache, then into its caller's, and then asks the host.

Calls run one inside the other, and while a call runs its callers wait for it.  The state is
therefore the path of the calls that have not finished, the innermost first; writes are those of
the innermost call, and reads may be asked of any call on the path.  Merging hands over inner maps
of the finished call without copying them; this is not visible, since nothing refers to a finished
call any more.
-/

import Mathlib.Data.List.AList
import Mathlib.Tactic

open List

/-! ### Merging maps -/

namespace KeyedMerge

variable {κ α β : Type} [DecidableEq κ]

/-- Goes through the entries of `incoming` and sets each of its keys in `target` to a combination
of the incoming value and the value there, if any. -/
def mergeInto (combine : α → Option β → β) (incoming : AList fun _ : κ => α)
    (target : AList fun _ : κ => β) : AList fun _ : κ => β :=
  incoming.foldl (fun m k v => m.insert k (combine v (m.lookup k))) target

theorem lookup_insert_if (m : AList fun _ : κ => β) (k k' : κ) (b : β) :
    (m.insert k b).lookup k' = if k' = k then some b else m.lookup k' := by
  split
  · next h =>
    subst h
    exact AList.lookup_insert m
  · next h => exact AList.lookup_insert_ne h

theorem lookup_mergeInto (combine : α → Option β → β) (incoming : AList fun _ : κ => α)
    (target : AList fun _ : κ => β) (k : κ) :
    (mergeInto combine incoming target).lookup k =
      match incoming.lookup k with
      | none => target.lookup k
      | some v => some (combine v (target.lookup k)) := by
  obtain ⟨entries, hnodup⟩ := incoming
  induction entries generalizing target with
  | nil => rfl
  | cons e entries ih =>
    obtain ⟨k', v⟩ := e
    obtain ⟨hnot, hnodup'⟩ := nodupKeys_cons.1 hnodup
    have hstep : mergeInto combine ⟨⟨k', v⟩ :: entries, hnodup⟩ target =
        mergeInto combine ⟨entries, hnodup'⟩ (target.insert k' (combine v (target.lookup k'))) :=
      rfl
    rw [hstep, ih _ hnodup', lookup_insert_if]
    rcases eq_or_ne k k' with rfl | hne
    · have hnone : AList.lookup k ⟨entries, hnodup'⟩ = none := dlookup_eq_none.2 hnot
      have hsome : AList.lookup k ⟨⟨k, v⟩ :: entries, hnodup⟩ = some v := dlookup_cons_eq _ _ _
      simp [hnone, hsome]
    · have hskip : AList.lookup k ⟨⟨k', v⟩ :: entries, hnodup⟩ =
          AList.lookup k ⟨entries, hnodup'⟩ := by
        change dlookup k (⟨k', v⟩ :: entries) = dlookup k entries
        exact dlookup_cons_ne _ _ hne
      simp [hskip, hne]

end KeyedMerge

namespace Avm

open KeyedMerge

/-! ### The journal of one call -/

abbrev Fr := ℕ

/-- A map from contract addresses and keys, `Map<bigint, Map<bigint, T>>`. -/
abbrev ContractMap (T : Type) := AList fun _ : ℕ => AList fun _ : ℕ => T

/-- Merging contract by contract: a contract the target does not have is taken as it is, and the
keys of any other are combined one by one. -/
def mergeContracts {T : Type} (combine : T → Option T → T) (incoming target : ContractMap T) :
    ContractMap T :=
  mergeInto (fun incomingAtContract targetAtContract =>
    match targetAtContract with
    | none => incomingAtContract
    | some targetAtContract => mergeInto combine incomingAtContract targetAtContract)
    incoming target

structure PublicStorageCache where
  cachePerContract : ContractMap Fr

namespace PublicStorageCache

def read (self : PublicStorageCache) (storageAddress slot : Fr) : Option Fr :=
  (self.cachePerContract.lookup storageAddress).bind fun cacheAtContract =>
    cacheAtContract.lookup slot

def write (self : PublicStorageCache) (storageAddress slot value : Fr) : PublicStorageCache :=
  let cacheAtContract := (self.cachePerContract.lookup storageAddress).getD ∅
  ⟨self.cachePerContract.insert storageAddress (cacheAtContract.insert slot value)⟩

def acceptAndMerge (self incoming : PublicStorageCache) : PublicStorageCache :=
  ⟨mergeContracts (fun value _ => value) incoming.cachePerContract self.cachePerContract⟩

@[simp] theorem read_empty (storageAddress slot : Fr) : read ⟨∅⟩ storageAddress slot = none := rfl

theorem read_write (self : PublicStorageCache) (storageAddress slot value a s : Fr) :
    (self.write storageAddress slot value).read a s =
      if storageAddress = a ∧ slot = s then some value else self.read a s := by
  simp only [read, write, lookup_insert_if]
  rcases eq_or_ne storageAddress a with rfl | hne
  · rw [if_pos rfl, Option.bind_some, lookup_insert_if]
    rcases eq_or_ne slot s with rfl | hne
    · simp
    · rw [if_neg hne.symm, if_neg (fun h => hne h.2)]
      cases self.cachePerContract.lookup storageAddress with
      | none => rfl
      | some cacheAtContract => rfl
  · simp [hne, hne.symm]

theorem read_acceptAndMerge (self incoming : PublicStorageCache) (a s : Fr) :
    (self.acceptAndMerge incoming).read a s = (incoming.read a s).or (self.read a s) := by
  simp only [read, acceptAndMerge, mergeContracts, lookup_mergeInto]
  cases hi : incoming.cachePerContract.lookup a with
  | none => simp
  | some incomingAtContract =>
    cases ht : self.cachePerContract.lookup a with
    | none => simp
    | some targetAtContract =>
      simp only [Option.bind_some, lookup_mergeInto]
      cases incomingAtContract.lookup s with
      | none => simp
      | some value => simp

end PublicStorageCache

/-- The class `PublicStorage`: the call's own cache, its caller's, and the host. -/
structure PublicStorage where
  cache : PublicStorageCache
  parentCache : Option PublicStorageCache
  hostPublicStorage : Fr → Fr → Option Fr

/-- `PublicStorage.read`: whether the slot has ever been written to, and its value or zero. -/
def PublicStorage.read (self : PublicStorage) (storageAddress slot : Fr) : Bool × Fr :=
  let value := self.cache.read storageAddress slot
  let value := value.or (self.parentCache.bind fun cache => cache.read storageAddress slot)
  let value := value.or (self.hostPublicStorage storageAddress slot)
  (value.isSome, value.getD 0)

structure WorldStateAccessTrace where
  accessCounter : ℕ
  publicStorageReads : ContractMap (List Fr)
  publicStorageWrites : ContractMap (List Fr)
  newNoteHashes : List Fr
  newNullifiers : List Fr

namespace WorldStateAccessTrace

def new (parentTrace : Option WorldStateAccessTrace) : WorldStateAccessTrace :=
  ⟨(parentTrace.map accessCounter).getD 0, ∅, ∅, [], []⟩

def journalUpdate (map : ContractMap (List Fr)) (contractAddress key value : Fr) :
    ContractMap (List Fr) :=
  let contractMap := (map.lookup contractAddress).getD ∅
  let accessArray := (contractMap.lookup key).getD []
  map.insert contractAddress (contractMap.insert key (accessArray ++ [value]))

def tracePublicStorageRead (self : WorldStateAccessTrace) (storageAddress slot value : Fr) :
    WorldStateAccessTrace :=
  { self with
    publicStorageReads := journalUpdate self.publicStorageReads storageAddress slot value
    accessCounter := self.accessCounter + 1 }

def tracePublicStorageWrite (self : WorldStateAccessTrace) (storageAddress slot value : Fr) :
    WorldStateAccessTrace :=
  { self with
    publicStorageWrites := journalUpdate self.publicStorageWrites storageAddress slot value
    accessCounter := self.accessCounter + 1 }

def mergeContractJournalMaps (hostMap childMap : ContractMap (List Fr)) : ContractMap (List Fr) :=
  mergeContracts (fun value readArr => readArr.getD [] ++ value) childMap hostMap

def acceptAndMerge (self incomingTrace : WorldStateAccessTrace) : WorldStateAccessTrace :=
  { publicStorageReads :=
      mergeContractJournalMaps self.publicStorageReads incomingTrace.publicStorageReads
    publicStorageWrites :=
      mergeContractJournalMaps self.publicStorageWrites incomingTrace.publicStorageWrites
    newNoteHashes := self.newNoteHashes ++ incomingTrace.newNoteHashes
    newNullifiers := self.newNullifiers ++ incomingTrace.newNullifiers
    accessCounter := incomingTrace.accessCounter }

end WorldStateAccessTrace

/-- The class `AvmPersistableStateManager`, without its nullifiers.  The caches of its callers are
those of the managers after it on the path.  A message or a log is an array, which may have holes. -/
structure AvmPersistableStateManager where
  cache : PublicStorageCache
  trace : WorldStateAccessTrace
  newL1Messages : List (List (Option Fr))
  newLogs : List (List (Option Fr))

namespace AvmPersistableStateManager

def new (parent : Option AvmPersistableStateManager) : AvmPersistableStateManager :=
  ⟨⟨∅⟩, .new (parent.map trace), [], []⟩

def fork (self : AvmPersistableStateManager) : AvmPersistableStateManager := new (some self)

def writeStorage (self : AvmPersistableStateManager) (storageAddress slot value : Fr) :
    AvmPersistableStateManager :=
  { self with
    cache := self.cache.write storageAddress slot value
    trace := self.trace.tracePublicStorageWrite storageAddress slot value }

def acceptNestedCallState (self nestedJournal : AvmPersistableStateManager) :
    AvmPersistableStateManager :=
  { cache := self.cache.acceptAndMerge nestedJournal.cache
    trace := self.trace.acceptAndMerge nestedJournal.trace
    newL1Messages := self.newL1Messages ++ nestedJournal.newL1Messages
    newLogs := self.newLogs ++ nestedJournal.newLogs }

def rejectNestedCallState (self nestedJournal : AvmPersistableStateManager) :
    AvmPersistableStateManager :=
  { self with trace := self.trace.acceptAndMerge nestedJournal.trace }

end AvmPersistableStateManager

/-! ### The path of calls -/

/-- The managers of the calls that have not finished, the innermost first. -/
abbrev Path := List AvmPersistableStateManager

/-- The public storage of the call `depth` calls outwards from the innermost one. -/
def publicStorage (host : Fr → Fr → Option Fr) (path : Path) (depth : ℕ) : Option PublicStorage :=
  path[depth]?.map fun m => ⟨m.cache, path[depth + 1]?.map fun parent => parent.cache, host⟩

/-- The value `readStorage` returns to that call. -/
def readStorage (host : Fr → Fr → Option Fr) (path : Path) (depth : ℕ) (storageAddress slot : Fr) :
    Option Fr :=
  (publicStorage host path depth).map fun storage => (storage.read storageAddress slot).2

inductive Event where
  | fork
  | writeStorage (storageAddress slot value : Fr)
  | readStorage (depth : ℕ) (storageAddress slot : Fr)
  | acceptNestedCallState
  | rejectNestedCallState
  deriving DecidableEq, Repr

/-- One event.  A read leaves its trace in the manager it was asked of. -/
def step (host : Fr → Fr → Option Fr) (path : Path) : Event → Path
  | .fork =>
    match path with
    | [] => []
    | m :: callers => m.fork :: m :: callers
  | .writeStorage storageAddress slot value =>
    match path with
    | [] => []
    | m :: callers => m.writeStorage storageAddress slot value :: callers
  | .readStorage depth storageAddress slot =>
    match readStorage host path depth storageAddress slot with
    | none => path
    | some value => path.modify depth fun m =>
      { m with trace := m.trace.tracePublicStorageRead storageAddress slot value }
  | .acceptNestedCallState =>
    match path with
    | nested :: m :: callers => m.acceptNestedCallState nested :: callers
    | _ => path
  | .rejectNestedCallState =>
    match path with
    | nested :: m :: callers => m.rejectNestedCallState nested :: callers
    | _ => path

def run (host : Fr → Fr → Option Fr) (events : List Event) : Path :=
  events.foldl (step host) [.new none]

/-! ### What reads are meant to return -/

structure Write where
  storageAddress : Fr
  slot : Fr
  value : Fr
  deriving DecidableEq, Repr

def latest (log : List Write) (storageAddress slot : Fr) : Option Fr :=
  log.foldl
    (fun latest w =>
      if w.storageAddress = storageAddress ∧ w.slot = slot then some w.value else latest)
    none

/-- One event, on the logs of the calls on the path: each call's own writes and those of the
finished nested calls it accepted, in the order in which they were made. -/
def specStep (logs : List (List Write)) : Event → List (List Write)
  | .fork =>
    match logs with
    | [] => []
    | log :: callers => [] :: log :: callers
  | .writeStorage storageAddress slot value =>
    match logs with
    | [] => []
    | log :: callers => (log ++ [⟨storageAddress, slot, value⟩]) :: callers
  | .readStorage _ _ _ => logs
  | .acceptNestedCallState =>
    match logs with
    | nested :: log :: callers => (log ++ nested) :: callers
    | _ => logs
  | .rejectNestedCallState =>
    match logs with
    | _ :: log :: callers => log :: callers
    | _ => logs

def specRun (events : List Event) : List (List Write) := events.foldl specStep [[]]

/-- The value of the most recent write among those of the call and of its callers, or else the
host's value, or zero. -/
def specRead (host : Fr → Fr → Option Fr) (logs : List (List Write)) (depth : ℕ)
    (storageAddress slot : Fr) : Fr :=
  ((latest (logs.drop depth).reverse.flatten storageAddress slot).or
    (host storageAddress slot)).getD 0

/-! ### Logs -/

theorem latest_foldl (log : List Write) (a s : Fr) : ∀ old : Option Fr, log.foldl
        (fun latest w => if w.storageAddress = a ∧ w.slot = s then some w.value else latest) old =
      (latest log a s).or old := by
  induction log using reverseRecOn with
  | nil => intro old; rfl
  | append_singleton log w ih =>
    intro old
    simp only [latest, foldl_append, foldl_cons, foldl_nil] at ih ⊢
    split
    · rfl
    · exact ih old

theorem latest_append (log later : List Write) (a s : Fr) :
    latest (log ++ later) a s = (latest later a s).or (latest log a s) := by
  conv_lhs => rw [latest, foldl_append]
  exact latest_foldl later a s _

theorem latest_singleton (w : Write) (a s : Fr) :
    latest [w] a s = if w.storageAddress = a ∧ w.slot = s then some w.value else none := rfl

theorem latest_flatten (logs : List (List Write)) (a s : Fr) :
    latest logs.reverse.flatten a s = logs.findSome? fun log => latest log a s := by
  induction logs with
  | nil => rfl
  | cons log logs ih =>
    rw [reverse_cons, flatten_append, flatten_singleton, latest_append, ih, findSome?_cons]
    cases latest log a s with
    | none => rfl
    | some value => rfl

/-! ### The invariant -/

def Logged (m : AvmPersistableStateManager) (log : List Write) : Prop :=
  ∀ a s, m.cache.read a s = latest log a s

theorem logged_new (parent : Option AvmPersistableStateManager) :
    Logged (.new parent) [] := fun _ _ => rfl

variable {m : AvmPersistableStateManager} {log : List Write} {path : Path}
  {logs : List (List Write)}

theorem Logged.writeStorage (h : Logged m log) (storageAddress slot value : Fr) :
    Logged (m.writeStorage storageAddress slot value) (log ++ [⟨storageAddress, slot, value⟩]) := by
  intro a s
  rw [AvmPersistableStateManager.writeStorage, PublicStorageCache.read_write, latest_append,
    latest_singleton, h a s]
  split
  · rfl
  · rfl

theorem Logged.acceptNestedCallState {nested : AvmPersistableStateManager} {nestedLog : List Write}
    (h : Logged m log) (hnested : Logged nested nestedLog) :
    Logged (m.acceptNestedCallState nested) (log ++ nestedLog) := by
  intro a s
  rw [AvmPersistableStateManager.acceptNestedCallState, PublicStorageCache.read_acceptAndMerge,
    latest_append, h a s, hnested a s]

variable {host : Fr → Fr → Option Fr}

theorem forall₂_modify {f : AvmPersistableStateManager → AvmPersistableStateManager}
    (hf : ∀ m, (f m).cache = m.cache) (h : List.Forall₂ Logged path logs) :
    ∀ depth, List.Forall₂ Logged (path.modify depth f) logs := by
  induction h with
  | nil =>
    intro depth
    cases depth with
    | zero => exact .nil
    | succ depth => exact .nil
  | @cons m log path logs hm hrest ih =>
    intro depth
    cases depth with
    | zero => exact .cons (fun a s => by rw [hf]; exact hm a s) hrest
    | succ depth => exact .cons hm (ih depth)

theorem step_logged (h : List.Forall₂ Logged path logs) (event : Event) :
    List.Forall₂ Logged (step host path event) (specStep logs event) := by
  cases event with
  | fork =>
    cases h with
    | nil => exact .nil
    | cons hm hrest => exact .cons (logged_new _) (.cons hm hrest)
  | writeStorage storageAddress slot value =>
    cases h with
    | nil => exact .nil
    | cons hm hrest => exact .cons (hm.writeStorage storageAddress slot value) hrest
  | readStorage depth storageAddress slot =>
    simp only [step, specStep]
    split
    · exact h
    · next value _ =>
      exact forall₂_modify (f := fun m =>
        { m with trace := m.trace.tracePublicStorageRead storageAddress slot value })
        (fun _ => rfl) h depth
  | acceptNestedCallState =>
    cases h with
    | nil => exact .nil
    | cons hnested hrest =>
      cases hrest with
      | nil => exact .cons hnested .nil
      | cons hm hrest => exact .cons (hm.acceptNestedCallState hnested) hrest
  | rejectNestedCallState =>
    cases h with
    | nil => exact .nil
    | cons hnested hrest =>
      cases hrest with
      | nil => exact .cons hnested .nil
      | cons hm hrest => exact .cons hm hrest

theorem run_logged (events : List Event) :
    List.Forall₂ Logged (run host events) (specRun events) := by
  suffices ∀ {path : Path} {logs : List (List Write)}, List.Forall₂ Logged path logs →
      List.Forall₂ Logged (events.foldl (step host) path) (events.foldl specStep logs) from
    this (.cons (logged_new none) .nil)
  induction events with
  | nil => exact id
  | cons event events ih => exact fun h => ih (step_logged h event)

/-! ### Reads -/

/-- A slot is within reach of a call: the call itself or its caller has it in the cache, or no
caller further out has, or the first of them that has it holds what the host would answer. -/
def WithinReach (host : Fr → Fr → Option Fr) (path : Path) (depth : ℕ)
    (storageAddress slot : Fr) : Prop :=
  (∃ m ∈ (path.drop depth).take 2, m.cache.read storageAddress slot ≠ none) ∨
    ∀ value, ((path.drop (depth + 2)).findSome? fun m => m.cache.read storageAddress slot) =
      some value → value = (host storageAddress slot).getD 0

theorem findSome?_eq_latest (h : List.Forall₂ Logged path logs) (a s : Fr) :
    (path.findSome? fun m => m.cache.read a s) = logs.findSome? fun log => latest log a s := by
  induction h with
  | nil => rfl
  | cons hm _ ih => rw [findSome?_cons, findSome?_cons, hm a s, ih]

theorem read_eq_iff (own parent further host : Option Fr) :
    ((own.or parent).or host).getD 0 = (((own.or parent).or further).or host).getD 0 ↔
      own.or parent ≠ none ∨ ∀ value, further = some value → value = host.getD 0 := by
  cases own.or parent with
  | some value => simp
  | none =>
    cases further with
    | none => simp
    | some value => simp [eq_comm]

/-- **A read is right exactly when the slot is within reach.**  For every run and every call on
the path it leads to, `readStorage` returns the value of the most recent write among the call's
own, its callers', and those of the nested calls accepted into them (the writes of rejected calls
have left the logs), or else the host's value or zero, if and only if no caller further out than
the call's own caller is alone in having written another value. -/
theorem readStorage_eq_specRead_iff (host : Fr → Fr → Option Fr) (events : List Event)
    {depth : ℕ} (hdepth : depth < (run host events).length) (storageAddress slot : Fr) :
    readStorage host (run host events) depth storageAddress slot =
        some (specRead host (specRun events) depth storageAddress slot) ↔
      WithinReach host (run host events) depth storageAddress slot := by
  have hlogged : List.Forall₂ Logged ((run host events).drop depth) _ :=
    List.forall₂_drop depth (run_logged events)
  have hparent : (run host events)[depth + 1]? = ((run host events).drop (depth + 1)).head? :=
    List.head?_drop.symm
  have hfurther : (run host events).drop (depth + 2) = ((run host events).drop (depth + 1)).drop 1 := by
    rw [List.drop_drop]
  rw [specRead, latest_flatten, ← findSome?_eq_latest hlogged, WithinReach, readStorage,
    publicStorage, List.getElem?_eq_getElem hdepth, hparent, hfurther,
    List.drop_eq_getElem_cons hdepth]
  generalize (run host events)[depth] = m
  cases (run host events).drop (depth + 1) with
  | nil => simp [PublicStorage.read]
  | cons parent further =>
    have hiff := read_eq_iff (m.cache.read storageAddress slot)
      (parent.cache.read storageAddress slot)
      (further.findSome? fun m => m.cache.read storageAddress slot) (host storageAddress slot)
    have hspec : ((m :: parent :: further).findSome? fun m => m.cache.read storageAddress slot) =
        ((m.cache.read storageAddress slot).or (parent.cache.read storageAddress slot)).or
          (further.findSome? fun m => m.cache.read storageAddress slot) := by
      simp only [List.findSome?_cons]
      cases m.cache.read storageAddress slot with
      | some value => rfl
      | none => cases parent.cache.read storageAddress slot <;> rfl
    have hreach : (∃ m' ∈ (m :: parent :: further).take 2,
        m'.cache.read storageAddress slot ≠ none) ↔
        (m.cache.read storageAddress slot).or (parent.cache.read storageAddress slot) ≠ none := by
      simp [Option.or_eq_none_iff, imp_iff_not_or]
    rw [hspec, hreach]
    simpa [PublicStorage.read] using hiff

/-- A call sees what its caller's caller has written, when its caller has written the slot too. -/
theorem readStorage_own_caller : readStorage (fun _ _ => none) (run (fun _ _ => none)
          [.writeStorage 1 2 3, .fork, .writeStorage 1 2 4, .fork]) 0 1 2 =
      some (specRead (fun _ _ => none)
        (specRun [.writeStorage 1 2 3, .fork, .writeStorage 1 2 4, .fork]) 0 1 2) :=
  (readStorage_eq_specRead_iff (fun _ _ => none)
    [.writeStorage 1 2 3, .fork, .writeStorage 1 2 4, .fork] (by decide) 1 2).2
    (.inl (by decide))

/-- **Reads are not right in general**: a call two levels below one that has written a slot reads
zero. -/
theorem not_readStorage_eq_specRead :
    ¬ ∀ (host : Fr → Fr → Option Fr) (events : List Event) (depth : ℕ) (storageAddress slot : Fr),
      depth < (run host events).length →
        readStorage host (run host events) depth storageAddress slot =
          some (specRead host (specRun events) depth storageAddress slot) := by
  intro h
  have := h (fun _ _ => none) [.writeStorage 1 2 3, .fork, .fork] 0 1 2 (by decide)
  revert this
  decide

end Avm
