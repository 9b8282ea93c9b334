/-
**Nested calls that leave no effect.**

What a call adds to the state is kept in its journal: cached storage writes and nullifiers, messages
and logs, and the traces of writes, note hashes and nullifiers.  Inside a static frame nothing is
ever added to it, however deep the calls below it are nested.
-/

import Aztec.AvmInterpreter

namespace Avm

/-! ### The effects in a journal -/

structure Effects where
  cache : PublicStorageCache
  nullifiers : NullifierCache
  newL1Messages : List (List (Slot Fr))
  newLogs : List (List (Slot Fr))
  publicStorageWrites : ContractMap (List Fr)
  newNoteHashes : List Fr
  newNullifiers : List Fr

def Effects.none : Effects := ⟨⟨∅⟩, ⟨∅⟩, [], [], ∅, [], []⟩

def StateManager.effects (self : StateManager) : Effects where
  cache := self.cache
  nullifiers := self.nullifiers
  newL1Messages := self.newL1Messages
  newLogs := self.newLogs
  publicStorageWrites := self.trace.publicStorageWrites
  newNoteHashes := self.trace.newNoteHashes
  newNullifiers := self.trace.newNullifiers

@[simp] theorem effects_fork (self : StateManager) : self.fork.effects = .none := rfl

section

variable {self nestedJournal : StateManager} (h : nestedJournal.effects = .none)
include h

theorem effects_acceptNestedCallState :
    (self.acceptNestedCallState nestedJournal).effects = self.effects := by
  obtain ⟨hcache, -, hmessages, hlogs, hwrites, hnoteHashes, hnullifiers⟩ :=
    (Effects.mk.injEq ..).mp h
  simp only [StateManager.effects, StateManager.acceptNestedCallState,
    AvmPersistableStateManager.acceptNestedCallState, WorldStateAccessTrace.acceptAndMerge,
    hcache, hmessages, hlogs, hwrites, hnoteHashes, hnullifiers, List.append_nil]
  rfl

theorem effects_rejectNestedCallState :
    (self.rejectNestedCallState nestedJournal).effects = self.effects := by
  obtain ⟨-, -, -, -, hwrites, hnoteHashes, hnullifiers⟩ := (Effects.mk.injEq ..).mp h
  simp only [StateManager.effects, StateManager.rejectNestedCallState,
    AvmPersistableStateManager.rejectNestedCallState, WorldStateAccessTrace.acceptAndMerge,
    hwrites, hnoteHashes, hnullifiers, List.append_nil]
  rfl

end

/-! ### Relations between the contexts of a frame -/

/-- A relation that does not speak of the machine state. -/
class IgnoresMachine (R : Context → Context → Prop) : Prop extends Std.Refl R, IsTrans Context R where
  machine : ∀ context machineState, R context { context with machineState := machineState }

def SameEnvironment (context context' : Context) : Prop :=
  context'.environment = context.environment

/-- The environment does not change, and in a static frame no effect is added. -/
def NoEffectIfStatic (context context' : Context) : Prop :=
  context'.environment = context.environment ∧
    (context.environment.isStaticCall = true →
      context'.persistableState.effects = context.persistableState.effects)

instance : IgnoresMachine SameEnvironment where
  refl _ := rfl
  trans _ _ _ h h' := h'.trans h
  machine _ _ := rfl

instance : IgnoresMachine NoEffectIfStatic where
  refl _ := ⟨rfl, fun _ => rfl⟩
  trans _ _ _ h h' := ⟨h'.1.trans h.1, fun hs => (h'.2 (h.1 ▸ hs)).trans (h.2 hs)⟩
  machine _ _ := ⟨rfl, fun _ => rfl⟩

open Stateful

section Machine

variable {R : Context → Context → Prop} [IgnoresMachine R] {α : Type}

theorem keeps_getMemory : Keeps R getMemory := .bind .get fun _ => .pure _

theorem keeps_readMemory (method : TaggedMemory → Except Err α) : Keeps R (readMemory method) :=
  .bind keeps_getMemory fun _ => .liftExcept _

theorem keeps_modifyMachine (f : MachineState → MachineState) : Keeps R (modifyMachine f) :=
  .modify fun context => IgnoresMachine.machine context _

theorem keeps_writeMemory (method : TaggedMemory → Except Err TaggedMemory) :
    Keeps R (writeMemory method) :=
  .bind (keeps_readMemory _) fun _ => keeps_modifyMachine _

theorem keeps_incrementPc : Keeps R incrementPc := keeps_modifyMachine _

theorem keeps_setPc (pc : ℕ) : Keeps R (setPc pc) := keeps_modifyMachine _

theorem keeps_compute (compute : TaggedMemory → Except Err α)
    (store : α → TaggedMemory → Except Err TaggedMemory) :
    Keeps R (do
      let a ← readMemory compute
      writeMemory (store a)
      incrementPc) :=
  .bind (keeps_readMemory _) fun _ => .bind (keeps_writeMemory _) fun _ => keeps_incrementPc

end Machine

theorem keeps_assertNotStatic_bind {α : Type} {m : Unit → Exec α}
    (h : Keeps SameEnvironment (m ())) : Keeps NoEffectIfStatic (assertNotStatic >>= m) := by
  intro context r context' heq
  rcases bind_eq_some.1 heq with ⟨e, hcheck, -⟩ | ⟨⟨⟩, mid, hcheck, hm⟩
  · have hkeep : Keeps NoEffectIfStatic assertNotStatic := by
      refine .bind .get fun c => ?_
      split
      · exact .throw _
      · exact .pure _
    exact hkeep _ _ _ hcheck
  · cases hs : context.environment.isStaticCall with
    | true =>
      simp only [assertNotStatic, bind_apply, get_apply, hs, if_true, throw_apply] at hcheck
      cases hcheck
    | false =>
      simp only [assertNotStatic, bind_apply, get_apply, hs, Bool.false_eq_true, if_false,
        pure_apply] at hcheck
      cases hcheck
      exact ⟨h _ _ _ hm, fun hstatic => by rw [hs] at hstatic; cases hstatic⟩

theorem keeps_get_modifyJournal {α : Type} {f : Context → StateManager} {rest : Context → Exec α}
    (hf : ∀ c, (f c).effects = c.persistableState.effects)
    (hrest : ∀ c, Keeps NoEffectIfStatic (rest c)) :
    Keeps NoEffectIfStatic (get >>= fun c => modifyJournal (fun _ => f c) >>= fun _ => rest c) := by
  intro context r context' h
  have hstep : NoEffectIfStatic context { context with persistableState := f context } :=
    ⟨rfl, fun _ => hf context⟩
  exact IsTrans.trans _ _ _ hstep (hrest context _ _ _ h)

theorem keeps_modifyJournal (f : StateManager → StateManager) :
    Keeps SameEnvironment (modifyJournal f) :=
  .modify fun _ => rfl

/-! ### Calls -/

section Calls

variable {environs : Environs}
  {nested : Context → Option (Except Err ContractCallResults × Context)}

variable {context context' : Context}

theorem readMemory_eq_some {α : Type} {method : TaggedMemory → Except Err α} {r : Except Err α} (h : readMemory method context = some (r, context')) :
    method context.machineState.memory = r ∧ context' = context := by
  obtain ⟨hr, hc⟩ := Prod.mk.inj (Option.some.inj h)
  exact ⟨hr, hc.symm⟩

variable {r : Except Err Unit}

theorem writeMemory_cases {method : TaggedMemory → Except Err TaggedMemory} (h : writeMemory method context = some (r, context')) :
    context'.environment = context.environment ∧
      context'.persistableState = context.persistableState := by
  rcases bind_eq_some.1 h with ⟨e, hread, -⟩ | ⟨memory, mid, hread, hset⟩
  · obtain ⟨-, rfl⟩ := readMemory_eq_some hread
    exact ⟨rfl, rfl⟩
  · obtain ⟨-, rfl⟩ := readMemory_eq_some hread
    obtain ⟨-, rfl⟩ := Prod.mk.inj (Option.some.inj hset)
    exact ⟨rfl, rfl⟩

variable {nestedContext context context' : Context} {retOffset retSize successOffset : ℕ}

variable {results : ContractCallResults}

theorem finishCall_cases (h : finishCall retOffset retSize successOffset results nestedContext context =
      some (r, context')) : context'.environment = context.environment ∧
      (context'.persistableState = context.persistableState ∨
        (results.reverted = false ∧ context'.persistableState =
          context.persistableState.acceptNestedCallState nestedContext.persistableState) ∨
        (results.reverted = true ∧ context'.persistableState =
          context.persistableState.rejectNestedCallState nestedContext.persistableState)) := by
  rcases bind_eq_some.1 h with ⟨e, hset, -⟩ | ⟨_, mid, hset, h⟩
  · obtain ⟨henv, hstate⟩ := writeMemory_cases hset
    exact ⟨henv, .inl hstate⟩
  obtain ⟨henv, hstate⟩ := writeMemory_cases hset
  rcases bind_eq_some.1 h with ⟨e, hset, -⟩ | ⟨_, last, hset, h⟩
  · obtain ⟨henv', hstate'⟩ := writeMemory_cases hset
    exact ⟨henv'.trans henv, .inl (hstate'.trans hstate)⟩
  obtain ⟨henv', hstate'⟩ := writeMemory_cases hset
  cases hr : results.reverted with
  | false =>
    rw [hr] at h
    cases h
    exact ⟨henv'.trans henv, .inr (.inl ⟨rfl, by rw [← hstate, ← hstate']⟩)⟩
  | true =>
    rw [hr] at h
    cases h
    exact ⟨henv'.trans henv, .inr (.inr ⟨rfl, by rw [← hstate, ← hstate']⟩)⟩

theorem runNested_cases {r : Except Err (ContractCallResults × Context)}
    (h : runNested nested nestedContext context = some (r, context')) : context' = context ∧
      ∀ p, r = .ok p → nested nestedContext = some (.ok p.1, p.2) := by
  rw [runNested] at h
  cases hn : nested nestedContext with
  | none =>
    rw [hn] at h
    cases h
  | some p =>
    obtain ⟨x, finished⟩ := p
    rw [hn] at h
    cases x with
    | error e =>
      cases h
      exact ⟨rfl, fun p hp => by cases hp⟩
    | ok results =>
      cases h
      refine ⟨rfl, fun p hp => ?_⟩
      cases hp
      rfl

variable {create : Context → Fr → List (Slot Fr) → Context}

theorem externalCall_cases {addrOffset argsOffset argsSize retOffset retSize successOffset : ℕ} (h : externalCall nested create addrOffset argsOffset argsSize retOffset retSize successOffset
      context = some (r, context')) : context' = context ∨ ∃ address calldata results nestedContext,
        callArguments addrOffset argsOffset argsSize context.machineState.memory =
          .ok (address, calldata) ∧
        nested (create context address calldata) = some (.ok results, nestedContext) ∧
        finishCall retOffset retSize successOffset results nestedContext context =
          some (r, context') := by
  rcases bind_eq_some.1 h with ⟨e, hargs, -⟩ | ⟨⟨address, calldata⟩, mid, hargs, h⟩
  · exact .inl (readMemory_eq_some hargs).2
  · obtain ⟨hargs, hmid⟩ := readMemory_eq_some hargs
    rw [hmid] at h
    have hrest : (runNested nested (create context address calldata) >>= fun p =>
        finishCall retOffset retSize successOffset p.1 p.2) context = some (r, context') := h
    rcases bind_eq_some.1 hrest with ⟨e, hrun, -⟩ | ⟨p, last, hrun, hfinish⟩
    · exact .inl (runNested_cases hrun).1
    · obtain ⟨hlast, hn⟩ := runNested_cases hrun
      rw [hlast] at hfinish
      exact .inr ⟨address, calldata, p.1, p.2, hargs, hn p rfl, hfinish⟩

/-- The ways a nested context is created: a fork of the journal, static below a static frame. -/
structure Forks (create : Context → Fr → List (Slot Fr) → Context) : Prop where
  effects : ∀ context address calldata,
    (create context address calldata).persistableState.effects = .none
  static : ∀ context address calldata, context.environment.isStaticCall = true →
    (create context address calldata).environment.isStaticCall = true

theorem forks_createNestedContractCallContext : Forks Context.createNestedContractCallContext :=
  ⟨fun _ _ _ => rfl, fun _ _ _ h => h⟩

theorem forks_createNestedContractStaticCallContext :
    Forks Context.createNestedContractStaticCallContext :=
  ⟨fun _ _ _ => rfl, fun _ _ _ _ => rfl⟩

theorem effects_finishCall (h : finishCall retOffset retSize successOffset results nestedContext context =
      some (r, context')) (hnone : nestedContext.persistableState.effects = .none) :
    context'.persistableState.effects = context.persistableState.effects := by
  rcases (finishCall_cases h).2 with hsame | ⟨-, haccept⟩ | ⟨-, hreject⟩
  · rw [hsame]
  · rw [haccept, effects_acceptNestedCallState hnone]
  · rw [hreject, effects_rejectNestedCallState hnone]

theorem keeps_externalCall (hfork : Forks create)
    (hnested : Keeps NoEffectIfStatic nested)
    (addrOffset argsOffset argsSize retOffset retSize successOffset : ℕ) :
    Keeps NoEffectIfStatic (externalCall nested create addrOffset argsOffset argsSize retOffset
      retSize successOffset) := by
  intro context r context' h
  rcases externalCall_cases h with rfl | ⟨address, calldata, results, nestedContext, -, hn, hfinish⟩
  · exact ⟨rfl, fun _ => rfl⟩
  · refine ⟨(finishCall_cases hfinish).1, fun hs => effects_finishCall hfinish ?_⟩
    rw [(hnested _ _ _ hn).2 (hfork.static _ _ _ hs), hfork.effects]

/-! ### Instructions and runs -/

section

variable (hnested : Keeps NoEffectIfStatic nested)
include hnested

theorem Instruction.keeps_execute (i : Instruction) :
    Keeps NoEffectIfStatic (i.execute environs nested) := by
  cases i with
  | threeOperand cls _ inTag aOffset bOffset dstOffset => exact keeps_compute _ _
  | twoOperand cls _ inTag aOffset dstOffset => exact keeps_compute _ _
  | getter cls _ dstOffset =>
    exact .bind .get fun _ => .bind (keeps_writeMemory _) fun _ => keeps_incrementPc
  | calldataCopy _ cdOffset copySize dstOffset =>
    exact .bind .get fun _ => .bind (keeps_writeMemory _) fun _ => keeps_incrementPc
  | jump jumpOffset => exact keeps_setPc _
  | jumpI _ loc condOffset =>
    refine .bind (keeps_readMemory _) fun condition => ?_
    split
    · exact keeps_incrementPc
    · exact keeps_setPc _
  | internalCall loc => exact .bind (keeps_modifyMachine _) fun _ => keeps_setPc _
  | internalReturn =>
    refine .bind .get fun context => ?_
    split
    · exact .throw _
    · exact .bind (keeps_modifyMachine _) fun _ => keeps_setPc _
  | set _ inTag value dstOffset =>
    have hrest : Keeps NoEffectIfStatic (do
        let res ← liftExcept (TaggedMemory.integralFromTag value.toInt inTag)
        writeMemory fun memory => memory.set dstOffset (some res)
        incrementPc) :=
      .bind (.liftExcept _) fun _ => .bind (keeps_writeMemory _) fun _ => keeps_incrementPc
    rw [Instruction.execute]
    split
    · exact .bind (.throw _) fun _ => hrest
    · exact hrest
  | mov indirect srcOffset dstOffset => exact keeps_compute _ _
  | cMov _ aOffset bOffset condOffset dstOffset => exact keeps_compute _ _
  | sLoad _ aOffset bOffset =>
    refine .bind (keeps_readMemory _) fun slot => keeps_get_modifyJournal
      (f := fun c => (c.persistableState.readStorage environs.host c.parent
        c.environment.storageAddress slot).2) (fun c => rfl) fun c => ?_
    exact .bind (keeps_writeMemory _) fun _ => keeps_incrementPc
  | sStore _ aOffset bOffset =>
    exact keeps_assertNotStatic_bind (.bind (keeps_readMemory _) fun _ => .bind .get fun _ =>
      .bind (keeps_modifyJournal _) fun _ => keeps_incrementPc)
  | emitNoteHash _ noteHashOffset =>
    exact keeps_assertNotStatic_bind (.bind (keeps_readMemory _) fun _ =>
      .bind (keeps_modifyJournal _) fun _ => keeps_incrementPc)
  | emitNullifier _ nullifierOffset =>
    refine keeps_assertNotStatic_bind (.bind (keeps_readMemory _) fun nullifier => .bind .get
      fun context => .bind (.liftExcept _) fun _ => .bind (.liftExcept _) fun _ => ?_)
    have hthrow (e : Err) : Keeps SameEnvironment (throw e >>= fun _ : Unit => incrementPc) :=
      .bind (.throw e) fun _ => keeps_incrementPc
    have hwrite (journal : StateManager) :
        Keeps SameEnvironment (modifyJournal (fun _ => journal) >>= fun _ => incrementPc) :=
      .bind (keeps_modifyJournal _) fun _ => keeps_incrementPc
    dsimp only
    split
    · refine .bind (.throw _) fun _ => ?_
      split
      · exact hthrow _
      · exact hwrite _
    · split
      · exact hthrow _
      · exact hwrite _
  | emitUnencryptedLog _ logOffset logSize =>
    exact keeps_assertNotStatic_bind (.bind (keeps_readMemory _) fun _ =>
      .bind (keeps_modifyJournal _) fun _ => keeps_incrementPc)
  | sendL2ToL1Message _ msgOffset msgSize =>
    exact keeps_assertNotStatic_bind (.bind (keeps_readMemory _) fun _ =>
      .bind (keeps_modifyJournal _) fun _ => keeps_incrementPc)
  | call _ _ addrOffset argsOffset argsSize retOffset retSize successOffset =>
    exact keeps_externalCall forks_createNestedContractCallContext hnested _ _ _ _ _ _
  | staticCall _ _ addrOffset argsOffset argsSize retOffset retSize successOffset =>
    exact keeps_externalCall forks_createNestedContractStaticCallContext hnested _ _ _ _ _ _
  | ret _ returnOffset copySize =>
    exact .bind (keeps_readMemory _) fun _ => keeps_modifyMachine _
  | revert _ returnOffset retSize =>
    exact .bind (keeps_readMemory _) fun _ => keeps_modifyMachine _
  | hashing cls indirect dstOffset hashOffset hashSize =>
    refine .bind (keeps_readMemory _) fun p => ?_
    obtain ⟨dst, digest⟩ := p
    have hend : Keeps NoEffectIfStatic incrementPc := keeps_incrementPc
    dsimp only
    split
    · exact .bind (keeps_writeMemory _) fun _ => .bind (keeps_writeMemory _) fun _ => hend
    · exact .bind (keeps_writeMemory _) fun _ => hend

theorem keeps_loop (instructions : List Instruction) (steps : ℕ) :
    Keeps NoEffectIfStatic (loop environs nested instructions steps) := by
  induction steps with
  | zero => exact .diverge
  | succ steps ih =>
    rw [loop]
    refine .bind .get fun context => ?_
    split
    · exact .pure _
    · refine .bind .get fun context => ?_
      split
      · exact .throw _
      · refine .bind (Instruction.keeps_execute hnested _) fun _ => .bind .get fun context => ?_
        dsimp only
        split
        · exact .bind (.throw _) fun _ => ih
        · exact ih

theorem keeps_executeInstructions (instructions : List Instruction) (steps : ℕ) :
    Keeps NoEffectIfStatic (executeInstructions environs nested instructions steps) := by
  refine .bind (.liftExcept _) fun _ => .tryCatch ?_ fun e => ?_
  · exact .bind (keeps_loop hnested instructions steps) fun _ => .bind .get fun _ =>
      .bind (.liftExcept _) fun _ => .pure _
  · dsimp only
    split
    · exact .bind (.throw _) fun _ => .pure _
    · exact .pure _

end

end Calls

theorem keeps_fetchAndDecodeBytecode (environs : Environs) :
    Keeps NoEffectIfStatic (fetchAndDecodeBytecode environs) := by
  refine .bind .get fun context => ?_
  dsimp only
  split
  · exact .bind (.liftExcept _) fun _ => .throw _
  · exact .liftExcept _

theorem keeps_execute (environs : Environs) (fuel : ℕ) :
    Keeps NoEffectIfStatic (execute environs fuel) := by
  induction fuel with
  | zero => exact .diverge
  | succ fuel ih =>
    exact .bind (keeps_fetchAndDecodeBytecode environs) fun instructions =>
      keeps_executeInstructions ih instructions fuel

/-! ### The tree of nested calls -/

/-- The context that is created with the arguments of a call. -/
def createNested (create : Context → Fr → List (Slot Fr) → Context)
    (addrOffset argsOffset argsSize : ℕ) (context : Context) : Option Context :=
  match callArguments addrOffset argsOffset argsSize context.machineState.memory with
  | .ok (address, calldata) => some (create context address calldata)
  | .error _ => none

/-- The context a call instruction creates for the contract it calls. -/
def Instruction.nestedContext (i : Instruction) (context : Context) : Option Context :=
  match i with
  | .call _ _ addrOffset argsOffset argsSize _ _ _ =>
    createNested Context.createNestedContractCallContext addrOffset argsOffset argsSize context
  | .staticCall _ _ addrOffset argsOffset argsSize _ _ _ =>
    createNested Context.createNestedContractStaticCallContext addrOffset argsOffset argsSize
      context
  | _ => none

variable {context nestedContext : Context}

theorem createNested_eq_some {create : Context → Fr → List (Slot Fr) → Context}
    {addrOffset argsOffset argsSize : ℕ} (h : createNested create addrOffset argsOffset argsSize context = some nestedContext) :
    ∃ address calldata, callArguments addrOffset argsOffset argsSize context.machineState.memory =
        .ok (address, calldata) ∧ nestedContext = create context address calldata := by
  rw [createNested] at h
  split at h
  · next address calldata hargs => exact ⟨address, calldata, hargs, (Option.some.inj h).symm⟩
  · exact nomatch h

def Instruction.isStaticCall : Instruction → Bool
  | .staticCall _ _ _ _ _ _ _ _ => true
  | _ => false

/-- **A nested call that reverts or is static leaves no effect in its caller's caches**: neither
does one below a static frame. -/
def CallsLeaveNoEffect (environs : Environs) : Prop :=
  ∀ (fuel : ℕ) (i : Instruction) (context nestedContext : Context), 
    i.nestedContext context = some nestedContext →
    ∀ (results : ContractCallResults) (finished : Context),
      execute environs fuel nestedContext = some (.ok results, finished) →
      (results.reverted = true ∨ i.isStaticCall = true ∨
        context.environment.isStaticCall = true) →
      ∀ (r : Except Err Unit) (context' : Context),
        i.execute environs (execute environs fuel) context = some (r, context') →
        context'.persistableState.cache = context.persistableState.cache ∧
          context'.persistableState.nullifiers = context.persistableState.nullifiers ∧
          context'.persistableState.newL1Messages = context.persistableState.newL1Messages ∧
          context'.persistableState.newLogs = context.persistableState.newLogs

structure Frame where
  context : Context
  instructions : List Instruction

/-- The contexts in which a frame goes on with its next instruction, if it has not halted. -/
inductive Frame.Running (environs : Environs) (frame : Frame) : Context → Prop
  | start : Running environs frame frame.context
  | step {context context' : Context} {i : Instruction} {fuel : ℕ}
      (before : Running environs frame context) (running : context.machineState.halted = false)
      (fetch : frame.instructions[context.machineState.pc]? = some i)
      (execute : i.execute environs (execute environs fuel) context = some (.ok (), context'))
      (inside : context'.machineState.pc < frame.instructions.length) :
      Running environs frame context'

/-- The contexts a frame reaches: also those an instruction leaves behind when it throws. -/
def Frame.Reached (environs : Environs) (frame : Frame) (context' : Context) : Prop :=
  frame.Running environs context' ∨ ∃ (context : Context) (i : Instruction) (fuel : ℕ)
    (r : Except Err Unit), frame.Running environs context ∧
      i.execute environs (execute environs fuel) context = some (r, context')

structure Frame.Enters (environs : Environs) (caller frame : Frame) (i : Instruction)
    (context : Context) : Prop where
  before : caller.Running environs context
  running : context.machineState.halted = false
  fetch : caller.instructions[context.machineState.pc]? = some i
  create : i.nestedContext context = some frame.context
  decode : fetchAndDecodeBytecode environs frame.context = some (.ok frame.instructions, frame.context)

def Frame.Calls (environs : Environs) (caller frame : Frame) : Prop :=
  ∃ i context, Frame.Enters environs caller frame i context

/-- **Nothing is ever added to the journal of a frame that is static or below a static one.** -/
def StaticFramesAddNothing (environs : Environs) : Prop :=
  ∀ top frame : Frame, top.context.environment.isStaticCall = true →
    Relation.ReflTransGen (Frame.Calls environs) top frame →
    ∀ context, frame.Reached environs context →
      context.persistableState.effects = frame.context.persistableState.effects ∧
        (top ≠ frame → context.persistableState.effects = .none)

variable {environs : Environs}

theorem Frame.Running.noEffectIfStatic {frame : Frame} {context : Context}
    (h : frame.Running environs context) : NoEffectIfStatic frame.context context := by
  induction h with
  | start => exact Std.Refl.refl _
  | step before running fetch hexecute inside ih =>
    exact IsTrans.trans _ _ _ ih
      (Instruction.keeps_execute (keeps_execute environs _) _ _ _ _ hexecute)

theorem Frame.Reached.noEffectIfStatic {frame : Frame} {context : Context}
    (h : frame.Reached environs context) : NoEffectIfStatic frame.context context := by
  rcases h with hrunning | ⟨before, i, fuel, r, hrunning, hexecute⟩
  · exact hrunning.noEffectIfStatic
  · exact IsTrans.trans _ _ _ hrunning.noEffectIfStatic
      (Instruction.keeps_execute (keeps_execute environs _) _ _ _ _ hexecute)

theorem Instruction.nestedContext_cases {i : Instruction} (h : i.nestedContext context = some nestedContext) :
    nestedContext.persistableState.effects = .none ∧
      (i.isStaticCall = true ∨ context.environment.isStaticCall = true →
        nestedContext.environment.isStaticCall = true) := by
  cases i with
  | call _ _ addrOffset argsOffset argsSize _ _ _ =>
    obtain ⟨address, calldata, -, rfl⟩ := createNested_eq_some h
    exact ⟨rfl, fun hs => hs.resolve_left Bool.false_ne_true⟩
  | staticCall _ _ addrOffset argsOffset argsSize _ _ _ =>
    obtain ⟨address, calldata, -, rfl⟩ := createNested_eq_some h
    exact ⟨rfl, fun _ => rfl⟩
  | _ => exact nomatch h

theorem Frame.Calls.static {caller frame : Frame}
    (h : caller.Calls environs frame) (hstatic : caller.context.environment.isStaticCall = true) :
    frame.context.environment.isStaticCall = true ∧
      frame.context.persistableState.effects = .none := by
  obtain ⟨i, context, henters⟩ := h
  have hcases := Instruction.nestedContext_cases henters.create
  refine ⟨hcases.2 (.inr ?_), hcases.1⟩
  rw [henters.before.noEffectIfStatic.1]
  exact hstatic

theorem staticFramesAddNothing (environs : Environs) : StaticFramesAddNothing environs := by
  intro top frame hstatic hcalls context hreached
  have hframe : frame.context.environment.isStaticCall = true ∧
      (top ≠ frame → frame.context.persistableState.effects = .none) := by
    clear hreached
    induction hcalls with
    | refl => exact ⟨hstatic, fun hne => absurd rfl hne⟩
    | tail _ hcall ih =>
      obtain ⟨hs, hnone⟩ := hcall.static ih.1
      exact ⟨hs, fun _ => hnone⟩
  have hkeep := hreached.noEffectIfStatic.2 hframe.1
  exact ⟨hkeep, fun hne => hkeep.trans (hframe.2 hne)⟩

theorem Instruction.execute_call_cases {fuel : ℕ} {i : Instruction}
    {context nestedContext finished context' : Context} {results : ContractCallResults}
    {r : Except Err Unit} (hcreate : i.nestedContext context = some nestedContext)
    (hrun : Avm.execute environs fuel nestedContext = some (.ok results, finished))
    (h : i.execute environs (Avm.execute environs fuel) context = some (r, context')) :
    context' = context ∨ ∃ retOffset retSize successOffset,
      finishCall retOffset retSize successOffset results finished context = some (r, context') := by
  have hcall : ∀ {create : Context → Fr → List (Slot Fr) → Context}
      {addrOffset argsOffset argsSize retOffset retSize successOffset : ℕ},
      createNested create addrOffset argsOffset argsSize context = some nestedContext →
      externalCall (Avm.execute environs fuel) create addrOffset argsOffset argsSize retOffset
        retSize successOffset context = some (r, context') →
      context' = context ∨ finishCall retOffset retSize successOffset results finished context =
        some (r, context') := by
    intro create addrOffset argsOffset argsSize retOffset retSize successOffset hcreate hexternal
    obtain ⟨address, calldata, hargs, hnested⟩ := createNested_eq_some hcreate
    rcases externalCall_cases hexternal with hsame | ⟨address', calldata', results', finished',
      hargs', hn, hfinish⟩
    · exact .inl hsame
    · rw [hargs] at hargs'
      obtain ⟨rfl, rfl⟩ := Prod.mk.inj (Except.ok.inj hargs')
      rw [← hnested, hrun] at hn
      obtain ⟨hresults, rfl⟩ := Prod.mk.inj (Option.some.inj hn)
      obtain rfl := Except.ok.inj hresults
      exact .inr hfinish
  cases i with
  | call _ _ addrOffset argsOffset argsSize retOffset retSize successOffset =>
    exact (hcall hcreate h).imp_right fun hf => ⟨_, _, _, hf⟩
  | staticCall _ _ addrOffset argsOffset argsSize retOffset retSize successOffset =>
    exact (hcall hcreate h).imp_right fun hf => ⟨_, _, _, hf⟩
  | _ => exact nomatch hcreate

theorem callsLeaveNoEffect (environs : Environs) : CallsLeaveNoEffect environs := by
  intro fuel i context nestedContext hcreate results finished hrun hcase r context' h
  rcases Instruction.execute_call_cases hcreate hrun h with rfl | ⟨_, _, _, hfinish⟩
  · exact ⟨rfl, rfl, rfl, rfl⟩
  by_cases hstatic : i.isStaticCall = true ∨ context.environment.isStaticCall = true
  · -- The nested context was static, so there is nothing in its journal to be merged.
    obtain ⟨hfork, hnestedStatic⟩ := Instruction.nestedContext_cases hcreate
    have hnone : finished.persistableState.effects = .none :=
      ((keeps_execute environs fuel _ _ _ hrun).2 (hnestedStatic hstatic)).trans hfork
    have heq := effects_finishCall hfinish hnone
    obtain ⟨hcache, hnullifiers, hmessages, hlogs, -⟩ := (Effects.mk.injEq ..).mp heq
    exact ⟨hcache, hnullifiers, hmessages, hlogs⟩
  · have hreverted : results.reverted = true := by tauto
    rcases (finishCall_cases hfinish).2 with hsame | ⟨hnot, -⟩ | ⟨-, hreject⟩
    · rw [hsame]
      exact ⟨rfl, rfl, rfl, rfl⟩
    · rw [hreverted] at hnot
      cases hnot
    · rw [hreject]
      exact ⟨rfl, rfl, rfl, rfl⟩

/-- **Reverted and static calls leave no effect.** -/
theorem callsLeaveNoEffect_and_staticFramesAddNothing (environs : Environs) :
    CallsLeaveNoEffect environs ∧ StaticFramesAddNothing environs :=
  ⟨callsLeaveNoEffect environs, staticFramesAddNothing environs⟩

end Avm
