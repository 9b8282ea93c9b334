/-
**The public processor.**

The public processor runs the public phases of one transaction after the other.  The phases share
the write caches of the public state and a cache of new contracts.  Each phase commits its writes
when it is done; a failure is answered with the rollback of the phase in which it happened.
-/

import Aztec.PublicKernelPhases
import Aztec.PublicStorage
import Mathlib.Data.List.Induction

open List

namespace PublicProcessor

open Kernel Noir PublicStorage

/-! ### The environment -/

/-- What the processor uses.  `processEnqueuedPublicCalls` reads storage and contracts, and returns
what it has written, also when it throws. -/
structure Env (Tx Output Log Leaf Contract : Type) where
  kernelOutput : Tx → Output
  needsSetup : Output → Bool
  needsAppLogic : Output → Bool
  needsTeardown : Output → Bool
  newContracts : Tx → List (Field × Contract)
  getExtendedContractData : Field → Option Contract
  processEnqueuedPublicCalls : Phase → Tx → Output → (Leaf → Field) → (Field → Option Contract) →
    (Leaf → Option Field) × Except String (Output × List Log)

variable {Tx Output Log Leaf Contract : Type} (env : Env Tx Output Log Leaf Contract)

/-! ### The shared state -/

/-- The public state and the cache of `ContractsDataSourcePublicDB`. -/
structure Shared (Leaf Contract : Type) where
  publicStateDB : WorldStatePublicDB Leaf
  cache : Field → Option Contract

def Shared.getContract (s : Shared Leaf Contract) (address : Field) : Option Contract :=
  (s.cache address).or (env.getExtendedContractData address)

/-- The contracts of a transaction are set, or deleted, one after the other. -/
def updateCache (value : Contract → Option Contract) (contracts : List (Field × Contract))
    (cache : Field → Option Contract) : Field → Option Contract :=
  contracts.foldl (fun cache contract =>
    if contract.1 = 0 then cache else Function.update cache contract.1 (value contract.2)) cache

def addNewContracts (s : Shared Leaf Contract) (tx : Tx) : Shared Leaf Contract :=
  { s with cache := updateCache some (env.newContracts tx) s.cache }

def removeNewContracts (s : Shared Leaf Contract) (tx : Tx) : Shared Leaf Contract :=
  { s with cache := updateCache (fun _ => none) (env.newContracts tx) s.cache }

def writeAll (db : WorldStatePublicDB Leaf) (writes : Leaf → Option Field) :
    WorldStatePublicDB Leaf :=
  { db with
    uncommitedWriteCache := fun leafSlot =>
      (writes leafSlot).or (db.uncommitedWriteCache leafSlot) }

/-! ### Phases -/

/-- App logic adds the new contracts before it executes its calls. -/
def entered (phase : Phase) (s : Shared Leaf Contract) (tx : Tx) : Shared Leaf Contract :=
  if phase = .appLogic then addNewContracts env s tx else s

def handle (phase : Phase) (s : Shared Leaf Contract) (tx : Tx) (output : Output) :
    Shared Leaf Contract × (Leaf → Option Field) × Except String (Output × List Log) :=
  let s := entered env phase s tx
  let (writes, result) := env.processEnqueuedPublicCalls phase tx output
    s.publicStateDB.storageRead (s.getContract env)
  let db := writeAll s.publicStateDB writes
  match result with
  | .error err => ({ s with publicStateDB := db }, writes, .error err)
  | .ok result => ({ s with publicStateDB := db.commit }, writes, .ok result)

def rollback (phase : Phase) (s : Shared Leaf Contract) (tx : Tx) : Shared Leaf Contract :=
  let s := if phase = .appLogic then removeNewContracts env s tx else s
  { s with publicStateDB := s.publicStateDB.rollback }

def phaseFromTx (output : Output) : Option Phase :=
  if env.needsSetup output then some .setup
  else if env.needsAppLogic output then some .appLogic
  else if env.needsTeardown output then some .teardown
  else none

/-- The text of `PhaseDidNotChangeError`. -/
def phaseDidNotChange (phase : String) : String :=
  "Tried to advance the phase from [" ++ phase ++ "] when the circuit still needs [" ++ phase ++ "]"

def phaseFromOutput (output : Output) (currentPhase : Phase) : Except String (Option Phase) :=
  if env.needsSetup output then .error "Cannot transition to setup phase"
  else if env.needsAppLogic output then
    if currentPhase = .appLogic then .error (phaseDidNotChange "app-logic")
    else .ok (some .appLogic)
  else if env.needsTeardown output then
    if currentPhase = .teardown then .error (phaseDidNotChange "teardown")
    else .ok (some .teardown)
  else .ok none

/-- How a transaction went: the shared state after it, its output and its logs or its error, the
phases that were completed with what they wrote, and the phase that was rolled back. -/
structure Outcome (Output Log Leaf Contract : Type) where
  shared : Shared Leaf Contract
  result : Except String (Output × List Log)
  completed : List (Phase × (Leaf → Option Field))
  rolledBack : Option Phase

def runPhases (tx : Tx) : ℕ → Phase → Shared Leaf Contract → Output → List Log →
    Outcome Output Log Leaf Contract
  | 0, phase, s, _, _ => ⟨rollback env phase s tx, .error "", [], some phase⟩
  | turns + 1, phase, s, output, logs =>
    match handle env phase s tx output with
    | (s, _, .error err) => ⟨rollback env phase s tx, .error err, [], some phase⟩
    | (s, writes, .ok (output, newLogs)) =>
      match phaseFromOutput env output phase with
      | .error err => ⟨rollback env phase s tx, .error err, [(phase, writes)], some phase⟩
      | .ok none => ⟨s, .ok (output, logs ++ newLogs), [(phase, writes)], none⟩
      | .ok (some next) =>
        let outcome := runPhases tx turns next s output (logs ++ newLogs)
        { outcome with completed := (phase, writes) :: outcome.completed }

def processTx (s : Shared Leaf Contract) (tx : Tx) : Outcome Output Log Leaf Contract :=
  match phaseFromTx env (env.kernelOutput tx) with
  | none => ⟨s, .ok (env.kernelOutput tx, []), [], none⟩
  | some phase => runPhases env tx 3 phase s (env.kernelOutput tx) []

/-- `PublicProcessor.process`: the processed and the failed transactions. -/
def process (s : Shared Leaf Contract) : List Tx → Shared Leaf Contract ×
    List (Tx × Output × List Log) × List (Tx × String)
  | [] => (s, [], [])
  | tx :: txs =>
    let outcome := processTx env s tx
    let (s, result, failed) := process outcome.shared txs
    match outcome.result with
    | .ok processed => (s, (tx, processed) :: result, failed)
    | .error err => (s, result, (tx, err) :: failed)

/-! ### States that look the same -/

/-- **No later transaction can tell the states apart**: they show the same storage and the same
contracts, and nothing is left uncommitted. -/
structure Same (s s' : Shared Leaf Contract) : Prop where
  storage : s.publicStateDB.storageRead = s'.publicStateDB.storageRead
  contracts : s.getContract env = s'.getContract env
  clean : s.publicStateDB.uncommitedWriteCache = fun _ => none
  clean' : s'.publicStateDB.uncommitedWriteCache = fun _ => none

section Storage

variable (db : WorldStatePublicDB Leaf) (writes : Leaf → Option Field)

theorem storageRead_writeAll : (writeAll db writes).storageRead = fun leafSlot =>
      (writes leafSlot).getD (db.storageRead leafSlot) := by
  funext leafSlot
  cases h : writes leafSlot <;> simp [WorldStatePublicDB.storageRead, writeAll, h]

theorem storageRead_rollback (h : db.uncommitedWriteCache = fun _ => none) :
    (writeAll db writes).rollback.storageRead = db.storageRead := by
  funext leafSlot
  simp [WorldStatePublicDB.storageRead, WorldStatePublicDB.rollback, writeAll, h]

end Storage

variable {env}

theorem getContract_updateCache {value : Contract → Option Contract}
    (contracts : List (Field × Contract)) {cache cache' : Field → Option Contract}
    {source : Field → Option Contract}
    (h : ∀ address, (cache address).or (source address) = (cache' address).or (source address))
    (address : Field) : (updateCache value contracts cache address).or (source address) =
      (updateCache value contracts cache' address).or (source address) := by
  induction contracts generalizing cache cache' with
  | nil => exact h address
  | cons contract contracts ih =>
    refine ih fun other => ?_
    by_cases hzero : contract.1 = 0
    · simpa [hzero] using h other
    · by_cases hother : other = contract.1
      · simp [hzero, hother]
      · simp [hzero, Function.update_of_ne hother, h other]

variable {s s' : Shared Leaf Contract}

section

variable (h : Same env s s')
include h

theorem Same.addNewContracts (tx : Tx) :
    Same env (addNewContracts env s tx) (addNewContracts env s' tx) :=
  { h with
    contracts := funext
      (getContract_updateCache (env.newContracts tx) fun other => congrFun h.contracts other) }

theorem Same.removeNewContracts (tx : Tx) :
    Same env (removeNewContracts env s tx) (removeNewContracts env s' tx) :=
  { h with
    contracts := funext
      (@getContract_updateCache Contract (fun _ => none) (env.newContracts tx) s.cache s'.cache _
        fun other => congrFun h.contracts other) }

theorem Same.rollback (phase : Phase) (tx : Tx) (writes : Leaf → Option Field) : Same env
      (rollback env phase { s with publicStateDB := writeAll s.publicStateDB writes } tx)
      (rollback env phase { s' with publicStateDB := writeAll s'.publicStateDB writes } tx) := by
  have hstorage : (writeAll s.publicStateDB writes).rollback.storageRead =
      (writeAll s'.publicStateDB writes).rollback.storageRead := by
    rw [storageRead_rollback _ _ h.clean, storageRead_rollback _ _ h.clean', h.storage]
  by_cases hphase : phase = .appLogic
  · simp only [PublicProcessor.rollback, if_pos hphase]
    exact ⟨hstorage, (h.removeNewContracts tx).contracts, rfl, rfl⟩
  · simp only [PublicProcessor.rollback, if_neg hphase]
    exact ⟨hstorage, h.contracts, rfl, rfl⟩

theorem Same.commit (writes : Leaf → Option Field) :
    Same env { s with publicStateDB := (writeAll s.publicStateDB writes).commit }
      { s' with publicStateDB := (writeAll s'.publicStateDB writes).commit } where
  storage := by
    simp only [WorldStatePublicDB.storageRead_commit, storageRead_writeAll, h.storage]
  contracts := h.contracts
  clean := rfl
  clean' := rfl

theorem Same.entered (phase : Phase) (tx : Tx) :
    Same env (entered env phase s tx) (entered env phase s' tx) := by
  unfold PublicProcessor.entered
  split
  · exact h.addNewContracts tx
  · exact h

end

section

variable {phase : Phase} {tx : Tx} {output : Output} {writes : Leaf → Option Field}

theorem handle_error {err : String} (h : env.processEnqueuedPublicCalls phase tx output
      (entered env phase s tx).publicStateDB.storageRead
      ((entered env phase s tx).getContract env) = (writes, .error err)) :
    handle env phase s tx output = ({ entered env phase s tx with
          publicStateDB := writeAll (entered env phase s tx).publicStateDB writes },
        writes, .error err) := by
  simp only [handle, h]

theorem handle_ok {result : Output × List Log} (h : env.processEnqueuedPublicCalls phase tx output
      (entered env phase s tx).publicStateDB.storageRead
      ((entered env phase s tx).getContract env) = (writes, .ok result)) :
    handle env phase s tx output = ({ entered env phase s tx with
          publicStateDB := (writeAll (entered env phase s tx).publicStateDB writes).commit },
        writes, .ok result) := by
  simp only [handle, h]

end

theorem handle_same (h : Same env s s') (phase : Phase) (tx : Tx) (output : Output) :
    (handle env phase s tx output).2 = (handle env phase s' tx output).2 ∧
      Same env (rollback env phase (handle env phase s tx output).1 tx)
        (rollback env phase (handle env phase s' tx output).1 tx) ∧
      ∀ writes result, (handle env phase s tx output).2 = (writes, .ok result) →
        Same env (handle env phase s tx output).1 (handle env phase s' tx output).1 := by
  have hentered := h.entered phase tx
  rcases hcalls : env.processEnqueuedPublicCalls phase tx output
    (entered env phase s tx).publicStateDB.storageRead ((entered env phase s tx).getContract env)
    with ⟨writes, err | result⟩
  · have hcalls' := hcalls
    rw [hentered.storage, hentered.contracts] at hcalls'
    rw [handle_error hcalls, handle_error hcalls']
    exact ⟨rfl, hentered.rollback phase tx writes, nofun⟩
  · have hcalls' := hcalls
    rw [hentered.storage, hentered.contracts] at hcalls'
    rw [handle_ok hcalls, handle_ok hcalls']
    have hcommit := hentered.commit writes
    refine ⟨rfl, ?_, fun _ _ _ => hcommit⟩
    have hrollback := hcommit.rollback phase tx fun _ => none
    simpa [writeAll] using hrollback

theorem runPhases_same (tx : Tx) (turns : ℕ) (phase : Phase) (h : Same env s s') (output : Output)
    (logs : List Log) : (runPhases env tx turns phase s output logs).result =
        (runPhases env tx turns phase s' output logs).result ∧
      (runPhases env tx turns phase s output logs).completed =
        (runPhases env tx turns phase s' output logs).completed ∧
      (runPhases env tx turns phase s output logs).rolledBack =
        (runPhases env tx turns phase s' output logs).rolledBack ∧
      Same env (runPhases env tx turns phase s output logs).shared
        (runPhases env tx turns phase s' output logs).shared := by
  induction turns generalizing s s' phase output logs with
  | zero =>
    have hrollback := h.rollback phase tx fun _ => none
    refine ⟨rfl, rfl, rfl, ?_⟩
    simpa [writeAll, runPhases] using hrollback
  | succ turns ih =>
    obtain ⟨hresult, hrollback, hok⟩ := handle_same h phase tx output
    unfold runPhases
    generalize hx : handle env phase s tx output = x at hresult hrollback hok ⊢
    generalize hy : handle env phase s' tx output = y at hresult hrollback hok ⊢
    obtain ⟨s₁, writes, err | ⟨output', newLogs⟩⟩ := x
    · obtain ⟨s₂, _⟩ := y
      subst hresult
      exact ⟨rfl, rfl, rfl, hrollback⟩
    · obtain ⟨s₂, _⟩ := y
      subst hresult
      have hsame := hok writes _ rfl
      simp only
      cases hnext : phaseFromOutput env output' phase with
      | error err => exact ⟨rfl, rfl, rfl, hrollback⟩
      | ok next =>
        cases next with
        | none => exact ⟨rfl, rfl, rfl, hsame⟩
        | some next =>
          obtain ⟨h₁, h₂, h₃, h₄⟩ := ih next hsame output' (logs ++ newLogs)
          exact ⟨h₁, congrArg (cons (phase, writes)) h₂, h₃, h₄⟩

theorem processTx_same (h : Same env s s') (tx : Tx) :
    (processTx env s tx).result = (processTx env s' tx).result ∧
      (processTx env s tx).completed = (processTx env s' tx).completed ∧
      (processTx env s tx).rolledBack = (processTx env s' tx).rolledBack ∧
      Same env (processTx env s tx).shared (processTx env s' tx).shared := by
  unfold processTx
  cases phaseFromTx env (env.kernelOutput tx) with
  | none => exact ⟨rfl, rfl, rfl, h⟩
  | some phase => exact runPhases_same tx 3 phase h _ _

theorem process_same (h : Same env s s') (txs : List Tx) :
    (process env s txs).2 = (process env s' txs).2 ∧
      Same env (process env s txs).1 (process env s' txs).1 := by
  induction txs generalizing s s' with
  | nil => exact ⟨rfl, h⟩
  | cons tx txs ih =>
    obtain ⟨hresult, -, -, hshared⟩ := processTx_same h tx
    obtain ⟨hrest, hsame⟩ := ih hshared
    unfold process
    simp only [← hresult, ← hrest]
    cases (processTx env s tx).result with
    | ok processed => exact ⟨rfl, hsame⟩
    | error err => exact ⟨rfl, hsame⟩

theorem Same.refl (h : s.publicStateDB.uncommitedWriteCache = fun _ => none) : Same env s s :=
  ⟨rfl, rfl, h, h⟩

theorem process_append (s : Shared Leaf Contract) (before after : List Tx) :
    (process env s (before ++ after)).2 =
      ((process env s before).2.1 ++ (process env (process env s before).1 after).2.1,
        (process env s before).2.2 ++ (process env (process env s before).1 after).2.2) ∧
      (process env s (before ++ after)).1 = (process env (process env s before).1 after).1 := by
  induction before generalizing s with
  | nil => exact ⟨rfl, rfl⟩
  | cons tx before ih =>
    obtain ⟨hresult, hshared⟩ := ih (processTx env s tx).shared
    rw [cons_append]
    simp only [process, hresult, hshared]
    cases (processTx env s tx).result with
    | ok processed => exact ⟨rfl, rfl⟩
    | error err => exact ⟨rfl, rfl⟩

/-! ### Transactions that leave nothing -/

/-- **A transaction leaves nothing**: its completed phases wrote only values that storage had, as it
is when it fails in its first phase; a rollback of app logic does not delete contracts of earlier
transactions; and contracts that are not removed were there before. -/
structure LeavesNothing (env : Env Tx Output Log Leaf Contract) (s : Shared Leaf Contract)
    (outcome : Outcome Output Log Leaf Contract) (contracts : List (Field × Contract)) : Prop where
  writes : ∀ step ∈ outcome.completed, ∀ leafSlot value, step.2 leafSlot = some value →
    s.publicStateDB.storageRead leafSlot = value
  removed : outcome.rolledBack = some .appLogic →
    ∀ contract ∈ contracts, contract.1 ≠ 0 → s.cache contract.1 = none
  added : outcome.rolledBack ≠ some .appLogic →
    Phase.appLogic ∈ outcome.completed.map Prod.fst →
    ∀ contract ∈ contracts, contract.1 ≠ 0 → s.getContract env contract.1 = some contract.2

section Cache

variable {value : Contract → Option Contract} {contracts : List (Field × Contract)}
  {cache : Field → Option Contract} {address : Field}

theorem updateCache_cases (contracts : List (Field × Contract)) (cache : Field → Option Contract)
    (address : Field) : ((∀ contract ∈ contracts, contract.1 ≠ 0 → contract.1 ≠ address) ∧
        updateCache value contracts cache address = cache address) ∨
      ∃ contract ∈ contracts, contract.1 ≠ 0 ∧ contract.1 = address ∧
        updateCache value contracts cache address = value contract.2 := by
  induction contracts using reverseRecOn with
  | nil => exact Or.inl ⟨nofun, rfl⟩
  | append_singleton contracts last ih =>
    have hlast : updateCache value (contracts ++ [last]) cache =
        if last.1 = 0 then updateCache value contracts cache
        else Function.update (updateCache value contracts cache) last.1 (value last.2) :=
      foldl_append
    by_cases hchange : last.1 ≠ 0 ∧ last.1 = address
    · refine Or.inr ⟨last, by simp, hchange.1, hchange.2, ?_⟩
      rw [hlast, if_neg hchange.1, hchange.2, Function.update_self]
    · have heq : updateCache value (contracts ++ [last]) cache address =
          updateCache value contracts cache address := by
        rw [hlast]
        split
        · rfl
        · next hzero =>
            exact Function.update_of_ne (fun h => hchange ⟨hzero, h.symm⟩) ..
      rw [heq]
      refine ih.imp (fun h => ⟨fun contract hmem hzero => ?_, h.2⟩)
        fun ⟨contract, hmem, hrest⟩ => ⟨contract, mem_append_left _ hmem, hrest⟩
      rcases mem_append.1 hmem with hmem | hmem
      · exact h.1 contract hmem hzero
      · obtain rfl := mem_singleton.1 hmem
        exact fun haddress => hchange ⟨hzero, haddress⟩

/-- The cache is what it was before a transaction, or shows contracts that the transaction added. -/
def CacheFrom (contracts : List (Field × Contract)) (start : Field → Option Contract)
    (added : Prop) (cache : Field → Option Contract) : Prop :=
  ∀ address, cache address = start address ∨
    added ∧ ∃ contract ∈ contracts, contract.1 ≠ 0 ∧ contract.1 = address ∧
      cache address = some contract.2

variable {start : Field → Option Contract} {added : Prop}

theorem CacheFrom.add (h : CacheFrom contracts start added cache) {added' : Prop}
    (hadded : added') : CacheFrom contracts start added' (updateCache some contracts cache) := by
  intro address
  rcases updateCache_cases contracts cache address with ⟨-, heq⟩ | ⟨contract, hmem, hzero, hrest⟩
  · rw [heq]
    exact (h address).imp_right fun hshown => ⟨hadded, hshown.2⟩
  · exact Or.inr ⟨hadded, contract, hmem, hzero, hrest⟩

theorem CacheFrom.remove (h : CacheFrom contracts start added cache)
    (hnone : ∀ contract ∈ contracts, contract.1 ≠ 0 → start contract.1 = none) :
    updateCache (fun _ => none) contracts cache = start := by
  funext address
  rcases updateCache_cases contracts cache address with
    ⟨hne, heq⟩ | ⟨contract, hmem, hzero, rfl, heq⟩
  · rw [heq]
    refine (h address).resolve_right fun ⟨_, contract, hmem, hzero, haddress, _⟩ => ?_
    exact hne contract hmem hzero haddress
  · rw [heq, hnone contract hmem hzero]

end Cache

section Leaves

variable {s₀ : Shared Leaf Contract} {added : Prop} {tx : Tx}

section

variable (h : CacheFrom (env.newContracts tx) s₀.cache added s.cache)
include h

theorem CacheFrom.entered (phase : Phase) : CacheFrom (env.newContracts tx) s₀.cache (added ∨ phase = .appLogic)
      (entered env phase s tx).cache := by
  unfold PublicProcessor.entered
  split
  · next hphase => exact h.add (Or.inr hphase)
  · exact fun address => (h address).imp_right fun hshown => ⟨Or.inl hshown.1, hshown.2⟩

theorem CacheFrom.getContract (hadded : added → ∀ contract ∈ env.newContracts tx, contract.1 ≠ 0 →
      s₀.getContract env contract.1 = some contract.2) :
    s₀.getContract env = s.getContract env := by
  funext address
  rcases h address with heq | ⟨hshown, contract, hmem, hzero, rfl, heq⟩
  · simp only [Shared.getContract, heq]
  · rw [hadded hshown contract hmem hzero, Shared.getContract, heq, Option.some_or]

end

theorem rollback_same_start {phase : Phase}
    (hclean₀ : s₀.publicStateDB.uncommitedWriteCache = fun _ => none)
    (hstorage : s₀.publicStateDB.storageRead = s.publicStateDB.rollback.storageRead)
    (hcache : CacheFrom (env.newContracts tx) s₀.cache added s.cache)
    (hremoved : phase = .appLogic →
      ∀ contract ∈ env.newContracts tx, contract.1 ≠ 0 → s₀.cache contract.1 = none)
    (hadded : phase ≠ .appLogic → added → ∀ contract ∈ env.newContracts tx, contract.1 ≠ 0 →
      s₀.getContract env contract.1 = some contract.2) : Same env s₀ (rollback env phase s tx) := by
  unfold PublicProcessor.rollback
  split
  · next hphase =>
      have hcache₀ := hcache.remove (hremoved hphase)
      refine ⟨hstorage, funext fun address => ?_, hclean₀, rfl⟩
      simp only [Shared.getContract, PublicProcessor.removeNewContracts, hcache₀]
  · next hphase => exact ⟨hstorage, hcache.getContract (hadded hphase), hclean₀, rfl⟩

theorem entered_publicStateDB (phase : Phase) :
    (entered env phase s tx).publicStateDB = s.publicStateDB := by
  unfold entered
  split <;> rfl

theorem storageRead_writeAll_of_quiet {db : WorldStatePublicDB Leaf} {writes : Leaf → Option Field}
    (hwrites : ∀ leafSlot value, writes leafSlot = some value → db.storageRead leafSlot = value) :
    (writeAll db writes).storageRead = db.storageRead := by
  rw [storageRead_writeAll]
  funext leafSlot
  cases h : writes leafSlot with
  | none => rfl
  | some value => exact (hwrites leafSlot value h).symm

theorem runPhases_same_start (turns : ℕ) (phase : Phase) (output : Output) (logs : List Log)
    (hstorage : s₀.publicStateDB.storageRead = s.publicStateDB.storageRead)
    (hclean₀ : s₀.publicStateDB.uncommitedWriteCache = fun _ => none)
    (hclean : s.publicStateDB.uncommitedWriteCache = fun _ => none)
    (hcache : CacheFrom (env.newContracts tx) s₀.cache added s.cache)
    (hwrites : ∀ step ∈ (runPhases env tx turns phase s output logs).completed,
      ∀ leafSlot value, step.2 leafSlot = some value →
        s₀.publicStateDB.storageRead leafSlot = value)
    (hremoved : (runPhases env tx turns phase s output logs).rolledBack = some .appLogic →
      ∀ contract ∈ env.newContracts tx, contract.1 ≠ 0 → s₀.cache contract.1 = none)
    (hadded : (runPhases env tx turns phase s output logs).rolledBack ≠ some .appLogic →
      (added ∨ Phase.appLogic ∈
        (runPhases env tx turns phase s output logs).completed.map Prod.fst) →
      ∀ contract ∈ env.newContracts tx, contract.1 ≠ 0 →
        s₀.getContract env contract.1 = some contract.2) :
    Same env s₀ (runPhases env tx turns phase s output logs).shared := by
  induction turns generalizing s phase output logs added with
  | zero =>
    refine rollback_same_start hclean₀ ?_ hcache (fun h => hremoved (congrArg some h))
      fun hne hshown => hadded (fun h => hne (Option.some.inj h)) (Or.inl hshown)
    rw [hstorage]
    simpa [writeAll] using (storageRead_rollback s.publicStateDB (fun _ => none) hclean).symm
  | succ turns ih =>
    have hdb : (entered env phase s tx).publicStateDB = s.publicStateDB :=
      entered_publicStateDB phase
    have hentered := hcache.entered phase
    rcases hcalls : env.processEnqueuedPublicCalls phase tx output
      (entered env phase s tx).publicStateDB.storageRead
      ((entered env phase s tx).getContract env) with ⟨writes, err | ⟨output', newLogs⟩⟩
    · -- the phase throws, and nothing of it was committed
      simp only [runPhases, handle_error hcalls] at hremoved hadded ⊢
      refine rollback_same_start hclean₀ ?_ hentered (fun h => hremoved (congrArg some h))
        fun hne hshown => hadded (fun h => hne (Option.some.inj h))
          (Or.inl (hshown.resolve_right hne))
      rw [hdb, storageRead_rollback _ _ hclean, hstorage]
    · simp only [runPhases, handle_ok hcalls] at hwrites hremoved hadded ⊢
      -- the writes of the phase are of values that are there
      have hquiet : (∀ leafSlot value, writes leafSlot = some value →
          s₀.publicStateDB.storageRead leafSlot = value) →
          s₀.publicStateDB.storageRead =
            (writeAll (entered env phase s tx).publicStateDB writes).commit.storageRead := by
        intro h
        rw [WorldStatePublicDB.storageRead_commit, hdb, storageRead_writeAll_of_quiet, hstorage]
        rwa [← hstorage]
      cases hnext : phaseFromOutput env output' phase with
      | error err =>
        simp only [hnext] at hwrites hremoved hadded ⊢
        refine rollback_same_start hclean₀ ?_ hentered (fun h => hremoved (congrArg some h))
          fun hne hshown => hadded (fun h => hne (Option.some.inj h))
            (Or.inl (hshown.resolve_right hne))
        rw [hquiet (hwrites (phase, writes) mem_cons_self)]
        rfl
      | ok next =>
        cases next with
        | none =>
          simp only [hnext] at hwrites hremoved hadded ⊢
          refine ⟨hquiet (hwrites (phase, writes) mem_cons_self),
            hentered.getContract fun hshown => hadded nofun ?_, hclean₀, rfl⟩
          exact hshown.imp id fun hphase => by simp [hphase]
        | some next =>
          simp only [hnext] at hwrites hremoved hadded ⊢
          refine ih next output' (logs ++ newLogs)
            (hquiet (hwrites (phase, writes) mem_cons_self)) rfl hentered
            (fun step hstep => hwrites step (mem_cons_of_mem _ hstep)) hremoved
            fun hne hshown => hadded hne ?_
          rw [map_cons, mem_cons]
          rcases hshown with (hshown | hphase) | hmem
          · exact Or.inl hshown
          · exact Or.inr (Or.inl hphase.symm)
          · exact Or.inr (Or.inr hmem)

end Leaves

theorem processTx_same_start (tx : Tx)
    (hclean : s.publicStateDB.uncommitedWriteCache = fun _ => none)
    (h : LeavesNothing env s (processTx env s tx) (env.newContracts tx)) :
    Same env s (processTx env s tx).shared := by
  have hcache : CacheFrom (env.newContracts tx) s.cache False s.cache := fun _ => Or.inl rfl
  unfold processTx at h ⊢
  cases hphase : phaseFromTx env (env.kernelOutput tx) with
  | none => exact Same.refl hclean
  | some phase =>
    rw [hphase] at h
    exact runPhases_same_start 3 phase _ _ rfl hclean hclean hcache h.writes h.removed
      fun hne hmem => h.added hne (hmem.resolve_left id)

/-! ### Leaving a transaction out -/

theorem clean_process (hclean : s.publicStateDB.uncommitedWriteCache = fun _ => none)
    (txs : List Tx) : (process env s txs).1.publicStateDB.uncommitedWriteCache = fun _ => none :=
  (process_same (Same.refl hclean) txs).2.clean

/-- **A failed transaction that leaves nothing can be left out**: the others are processed, or fail,
as they do without it. -/
theorem process_without (env : Env Tx Output Log Leaf Contract) (s : Shared Leaf Contract)
    (before : List Tx) (tx : Tx) (after : List Tx) {err : String}
    (hclean : s.publicStateDB.uncommitedWriteCache = fun _ => none)
    (hfailed : (processTx env (process env s before).1 tx).result = .error err)
    (h : LeavesNothing env (process env s before).1
      (processTx env (process env s before).1 tx) (env.newContracts tx)) :
    (process env s (before ++ tx :: after)).2.1 = (process env s (before ++ after)).2.1 ∧
      ∃ failed failed',
        (process env s (before ++ tx :: after)).2.2 = failed ++ (tx, err) :: failed' ∧
        (process env s (before ++ after)).2.2 = failed ++ failed' := by
  have hsame := processTx_same_start tx (clean_process hclean before) h
  obtain ⟨hafter, -⟩ := process_same hsame after
  rw [(process_append s before (tx :: after)).1, (process_append s before after).1, hafter]
  have hcons : (process env (process env s before).1 (tx :: after)).2 =
      ((process env (processTx env (process env s before).1 tx).shared after).2.1,
        (tx, err) ::
          (process env (processTx env (process env s before).1 tx).shared after).2.2) := by
    simp only [process, hfailed]
  rw [hcons]
  exact ⟨rfl, _, _, rfl, rfl⟩

/-! ### Three transactions -/

namespace ThreeTxs

/-- Transaction 0 sets slot 1 in setup and throws in app logic; transaction 2 sets slot 1 and throws
in app logic, its first phase; the others log slot 1. -/
def threeTxs : Env ℕ (Bool × Bool × Bool) Field ℕ ℕ where
  kernelOutput tx := (tx = 0, true, false)
  needsSetup output := output.1
  needsAppLogic output := output.2.1
  needsTeardown output := output.2.2
  newContracts _ := []
  getExtendedContractData _ := none
  processEnqueuedPublicCalls phase tx _ storage _ :=
    match phase, tx with
    | .setup, 0 => (Function.update (fun _ => none) 1 (some 5), .ok ((false, true, false), []))
    | .appLogic, 0 => (fun _ => none, .error "reverted")
    | .appLogic, 2 => (Function.update (fun _ => none) 1 (some 7), .error "reverted")
    | _, _ => (fun _ => none, .ok ((false, false, false), [storage 1]))

def start : Shared ℕ ℕ := ⟨⟨fun _ => none, fun _ => none, fun _ => none⟩, fun _ => none⟩

end ThreeTxs

open ThreeTxs in
/-- A transaction that throws in its first phase, before one that reads what it wrote. -/
theorem process_without_firstPhase :
    (process threeTxs start ([] ++ 2 :: [1])).2.1 = (process threeTxs start ([] ++ [1])).2.1 ∧
      ∃ failed failed',
        (process threeTxs start ([] ++ 2 :: [1])).2.2 = failed ++ (2, "reverted") :: failed' ∧
        (process threeTxs start ([] ++ [1])).2.2 = failed ++ failed' :=
  process_without threeTxs start [] 2 [1] rfl rfl ⟨nofun, nofun, nofun⟩

open ThreeTxs in
/-- **A failed transaction leaves a trace in general**: what it committed in setup is seen by the
next one. -/
theorem not_process_without :
    ¬ ∀ (env : Env ℕ (Bool × Bool × Bool) Field ℕ ℕ) (s : Shared ℕ ℕ) (before : List ℕ) (tx : ℕ)
      (after : List ℕ) (err : String), s.publicStateDB.uncommitedWriteCache = (fun _ => none) →
      (processTx env (process env s before).1 tx).result = .error err →
      (process env s (before ++ tx :: after)).2.1 = (process env s (before ++ after)).2.1 := by
  intro h
  have hlogs := congrArg (List.map fun processed => processed.2.2)
    (h threeTxs start [] 0 [1] "reverted" rfl rfl)
  exact absurd hlogs (by decide)

end PublicProcessor
