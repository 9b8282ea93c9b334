/-
**The assembly of a block.**

The sequencer takes the valid transactions of the pool, runs the public processor over them, and
takes the valid ones of the processed transactions once more before it builds the block.
-/

import Aztec.PublicProcessor

open List

namespace BlockAssembly

open Kernel Noir PublicStorage PublicProcessor

/-! ### Valid transactions -/

/-- What the sequencer looks at in a transaction, processed or not. -/
structure TxData where
  chainId : Field
  endNonRevertibleNullifiers : List SideEffectLinkedToNoteHash
  endNullifiers : List SideEffectLinkedToNoteHash

def TxData.newNullifiers (data : TxData) : List SideEffectLinkedToNoteHash :=
  (data.endNonRevertibleNullifiers.filter fun n => !decide (n = Empty.empty)) ++
    data.endNullifiers.filter fun n => !decide (n = Empty.empty)

def TxData.values (data : TxData) : List Field :=
  data.newNullifiers.map SideEffectLinkedToNoteHash.value

structure Limits where
  chainId : Field
  maxTxsPerBlock : ℕ
  /-- whether a nullifier is in the nullifier tree -/
  inTree : Field → Bool

def isTxDoubleSpend (limits : Limits) (data : TxData) : Bool :=
  !decide data.values.Nodup || data.values.any limits.inTree

def isTxDoubleSpendSameBlock (data : TxData) (thisBlockNullifiers : List Field) : Bool :=
  data.values.any fun value => decide (value ∈ thisBlockNullifiers)

/-- The number of the valid transactions so far, and their nullifiers. -/
structure Taken where
  count : ℕ
  thisBlockNullifiers : List Field

/-- A turn of the loop of `takeValidTxs`: a transaction is rejected, or it is taken. -/
def accept (limits : Limits) (taken : Taken) (data : TxData) : Option Taken :=
  -- the loop ends after a transaction with which the limit is reached
  if taken.count ≠ 0 ∧ limits.maxTxsPerBlock ≤ taken.count then none
  else if data.chainId ≠ limits.chainId then none
  else if isTxDoubleSpend limits data then none
  else if isTxDoubleSpendSameBlock data taken.thisBlockNullifiers then none
  else some
    { count := taken.count + 1
      thisBlockNullifiers := taken.thisBlockNullifiers ++
        data.endNullifiers.map SideEffectLinkedToNoteHash.value ++
        data.endNonRevertibleNullifiers.map SideEffectLinkedToNoteHash.value }

section Take

variable {T : Type} (limits : Limits) (data : T → TxData)

/-- The loop of `Sequencer.takeValidTxs`. -/
def takeFrom : Taken → List T → List T
  | _, [] => []
  | taken, tx :: txs =>
    match accept limits taken (data tx) with
    | some taken => tx :: takeFrom taken txs
    | none => takeFrom taken txs

def takeValidTxs (txs : List T) : List T := takeFrom limits data ⟨0, []⟩ txs

variable {limits data}

theorem accept_eq_some {taken taken' : Taken} {data : TxData}
    (h : accept limits taken data = some taken') :
    data.values.Nodup ∧ (∀ value ∈ data.values, limits.inTree value = false) ∧
      (∀ value ∈ data.values, value ∉ taken.thisBlockNullifiers) ∧
      (∀ value ∈ taken.thisBlockNullifiers, value ∈ taken'.thisBlockNullifiers) ∧
      ∀ value ∈ data.values, value ∈ taken'.thisBlockNullifiers := by
  unfold accept at h
  split at h
  · cases h
  · split at h
    · cases h
    · split at h
      · cases h
      · next hdouble =>
          split at h
          · cases h
          · next hblock =>
              obtain rfl := Option.some.inj h
              simp only [isTxDoubleSpend, Bool.or_eq_true, not_or, Bool.not_eq_true,
                Bool.not_eq_false', decide_eq_true_eq, any_eq_false] at hdouble
              refine ⟨hdouble.1, fun value hvalue => by simpa using hdouble.2 value hvalue,
                fun value hvalue hmem => hblock ?_, fun value hvalue => by simp [hvalue],
                fun value hvalue => ?_⟩
              · exact any_eq_true.2 ⟨value, hvalue, decide_eq_true hmem⟩
              · obtain ⟨nullifier, hmem, rfl⟩ := mem_map.1 hvalue
                rcases mem_append.1 hmem with hmem | hmem
                · exact mem_append_right _ (mem_map_of_mem (mem_filter.1 hmem).1)
                · exact mem_append_left _ (mem_append_right _
                    (mem_map_of_mem (mem_filter.1 hmem).1))

theorem nullifiers_takeFrom (taken : Taken) (txs : List T) :
    ((takeFrom limits data taken txs).flatMap fun tx => (data tx).values).Nodup ∧
      ∀ value ∈ (takeFrom limits data taken txs).flatMap fun tx => (data tx).values,
        limits.inTree value = false ∧ value ∉ taken.thisBlockNullifiers := by
  induction txs generalizing taken with
  | nil => exact ⟨nodup_nil, nofun⟩
  | cons tx txs ih =>
    unfold takeFrom
    cases haccept : accept limits taken (data tx) with
    | none => exact ih taken
    | some taken' =>
      obtain ⟨hnodup, htree, hblock, hkept, hadded⟩ := accept_eq_some haccept
      obtain ⟨hrest, hnew⟩ := ih taken'
      simp only [flatMap_cons]
      constructor
      · refine nodup_append.2 ⟨hnodup, hrest, fun value hvalue other hother heq => ?_⟩
        exact (hnew other hother).2 (heq ▸ hadded value hvalue)
      · intro value hvalue
        rcases mem_append.1 hvalue with hvalue | hvalue
        · exact ⟨htree value hvalue, hblock value hvalue⟩
        · exact ⟨(hnew value hvalue).1, fun hmem => (hnew value hvalue).2 (hkept value hmem)⟩

theorem nullifiers_takeValidTxs (txs : List T) :
    ((takeValidTxs limits data txs).flatMap fun tx => (data tx).values).Nodup ∧
      ∀ value ∈ (takeValidTxs limits data txs).flatMap fun tx => (data tx).values,
        limits.inTree value = false :=
  ⟨(nullifiers_takeFrom _ txs).1,
    fun value hvalue => ((nullifiers_takeFrom _ txs).2 value hvalue).1⟩

end Take

/-! ### The pipeline -/

section Work

variable {Tx Output Log Leaf Contract : Type} (env : Env Tx Output Log Leaf Contract)
  (limits : Limits) (txData : Tx → TxData) (processedData : Tx × Output × List Log → TxData)

/-- A public processor that was just created has nothing in its caches. -/
def fresh (tree : Leaf → Option Field) : Shared Leaf Contract :=
  ⟨⟨fun _ => none, fun _ => none, tree⟩, fun _ => none⟩

/-- The transactions that `Sequencer.work` passes to `buildBlock`. -/
def work (tree : Leaf → Option Field) (pendingTxs : List Tx) : List (Tx × Output × List Log) :=
  takeValidTxs limits processedData
    (process env (fresh tree) (takeValidTxs limits txData pendingTxs)).2.1

/-- **A block is a serial execution of its own transactions**: executing just these one after the
other from the state before the block fails for none, and gives the same outputs and logs; and their
nullifiers are different from each other and from those in the tree. -/
structure Serial (tree : Leaf → Option Field) (block : List (Tx × Output × List Log)) : Prop where
  effects : (process env (fresh tree) (block.map Prod.fst)).2 = (block, [])
  nullifiers_nodup : (block.flatMap fun tx => (processedData tx).values).Nodup
  nullifiers_absent : ∀ value ∈ block.flatMap fun tx => (processedData tx).values,
    limits.inTree value = false

/-- **Transactions that do not come into the block leave nothing**, whether they failed or are not
valid any more after they were processed. -/
def DroppedLeaveNothing : Shared Leaf Contract → Taken → List Tx → Prop
  | _, _, [] => True
  | s, taken, tx :: txs =>
    match (processTx env s tx).result with
    | .error _ =>
      LeavesNothing env s (processTx env s tx) (env.newContracts tx) ∧
        DroppedLeaveNothing (processTx env s tx).shared taken txs
    | .ok result =>
      match accept limits taken (processedData (tx, result)) with
      | some taken => DroppedLeaveNothing (processTx env s tx).shared taken txs
      | none =>
        LeavesNothing env s (processTx env s tx) (env.newContracts tx) ∧
          DroppedLeaveNothing (processTx env s tx).shared taken txs

variable {env limits txData processedData}

theorem same_trans {s s' s'' : Shared Leaf Contract} (h : Same env s s') (h' : Same env s' s'') :
    Same env s s'' :=
  ⟨h.storage.trans h'.storage, h.contracts.trans h'.contracts, h.clean, h'.clean'⟩

theorem process_takeFrom {s s' : Shared Leaf Contract} (h : Same env s' s) (taken : Taken)
    (txs : List Tx) (hdropped : DroppedLeaveNothing env limits processedData s taken txs) :
    (process env s' ((takeFrom limits processedData taken (process env s txs).2.1).map
      Prod.fst)).2 = (takeFrom limits processedData taken (process env s txs).2.1, []) := by
  induction txs generalizing s s' taken with
  | nil => rfl
  | cons tx txs ih =>
    unfold DroppedLeaveNothing at hdropped
    cases hresult : (processTx env s tx).result with
    | error err =>
      simp only [hresult] at hdropped
      simp only [process, hresult]
      exact ih (same_trans h (processTx_same_start tx h.clean' hdropped.1)) taken hdropped.2
    | ok result =>
      simp only [hresult] at hdropped
      simp only [process, hresult, takeFrom]
      cases haccept : accept limits taken (processedData (tx, result)) with
      | none =>
        simp only [haccept] at hdropped
        exact ih (same_trans h (processTx_same_start tx h.clean' hdropped.1)) taken hdropped.2
      | some taken' =>
        simp only [haccept] at hdropped
        obtain ⟨hsame, -, -, hshared⟩ := processTx_same h tx
        have hrest := ih hshared taken' hdropped
        simp only [map_cons, process, hsame, hresult, hrest]

/-- **The block is a serial execution of its own transactions** when the dropped ones leave
nothing. -/
theorem serial_of_dropped (env : Env Tx Output Log Leaf Contract) (limits : Limits)
    (txData : Tx → TxData) (processedData : Tx × Output × List Log → TxData)
    (tree : Leaf → Option Field) (pendingTxs : List Tx)
    (hdropped : DroppedLeaveNothing env limits processedData (fresh tree) ⟨0, []⟩
      (takeValidTxs limits txData pendingTxs)) : Serial env limits processedData tree
      (work env limits txData processedData tree pendingTxs) where
  effects := process_takeFrom (Same.refl rfl) ⟨0, []⟩ _ hdropped
  nullifiers_nodup := (nullifiers_takeValidTxs _).1
  nullifiers_absent := (nullifiers_takeValidTxs _).2

end Work

/-! ### Two transactions -/

namespace TwoPending

def twoPending : Env ℕ (Bool × Bool × Bool) Field ℕ ℕ where
  kernelOutput _ := (false, true, false)
  needsSetup output := output.1
  needsAppLogic output := output.2.1
  needsTeardown output := output.2.2
  newContracts _ := []
  getExtendedContractData _ := none
  processEnqueuedPublicCalls _ tx _ storage _ :=
    (if tx = 0 then Function.update (fun _ => none) 1 (some 5) else fun _ => none,
      .ok ((false, false, false), [storage 1]))

def limits : Limits := ⟨1, 32, fun value => decide (value = 9)⟩

/-- No transaction emits nullifiers in its private part. -/
def txData (_ : ℕ) : TxData := ⟨1, [], []⟩

/-- The given transaction emits nullifier 9 in its public part. -/
def emits (tx : ℕ) (processed : ℕ × (Bool × Bool × Bool) × List Field) : TxData :=
  ⟨1, [], if processed.1 = tx then [⟨9, 0, 1⟩] else []⟩

end TwoPending

open TwoPending in
/-- The transaction that is dropped has written nothing. -/
theorem serial_twoPending : Serial twoPending limits (emits 1) (fun _ => none)
      (work twoPending limits txData (emits 1) (fun _ => none) [0, 1]) :=
  serial_of_dropped twoPending limits txData (emits 1) (fun _ => none) [0, 1]
    ⟨⟨fun step hstep leafSlot value hvalue => (by
      obtain rfl := List.mem_singleton.1 hstep
      cases hvalue), nofun, nofun⟩, trivial⟩

open TwoPending in
/-- **The block is not a serial execution of its own transactions in general**: the one that is
dropped after its execution has written a slot that the other has read. -/
theorem not_serial :
    ¬ ∀ (env : Env ℕ (Bool × Bool × Bool) Field ℕ ℕ) (limits : Limits) (txData : ℕ → TxData)
      (processedData : ℕ × (Bool × Bool × Bool) × List Field → TxData) (tree : ℕ → Option Field)
      (pendingTxs : List ℕ), Serial env limits processedData tree
        (work env limits txData processedData tree pendingTxs) := by
  intro h
  have heffects := (h twoPending limits txData (emits 0) (fun _ => none) [0, 1]).effects
  exact absurd (congrArg (fun result => result.1.map fun tx => tx.2.2) heffects)
    (by decide)

end BlockAssembly
