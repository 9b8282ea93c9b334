/-
**Faults of the AVM simulator.**

An instruction that throws an `AvmExecutionError` makes the call revert; anything else that is
thrown leaves the simulator.  The errors of the JavaScript engine, failed assertions and the errors
of the field and the codec are of the second kind.
-/

import Aztec.AvmStaticCalls
import Aztec.ScalarField

namespace Avm

open Stateful Failing TaggedMemory

/-! ### Operands -/

def BigInt.Fits (n : ℤ) : Prop := n.natAbs.log2 < maxBits

def BigInt.Shifts (n m : ℤ) : Prop := 0 ≤ m → n = 0 ∨ n.natAbs.log2 + m.toNat < maxBits

def BigInt.shifted (n m : ℤ) : ℤ := if 0 ≤ m then n * 2 ^ m.toNat else n >>> (-m).toNat

open MemoryValue in
/-- Operands on which the method of a class returns a value. -/
def ThreeOperand.Accepts : ThreeOperand → MemoryValue → MemoryValue → Prop
  | Add, uint _ n, uint _ m => BigInt.Fits (n + m)
  | Add, field _, field _ => True
  | Sub, uint cls n, uint _ m => BigInt.Fits (n - m) ∧ n - m < cls.mod
  | Sub, field x, field y => Fr.toBigInt x - Fr.toBigInt y < Fr.MODULUS
  | Mul, uint _ n, uint _ m => BigInt.Fits (n * m)
  | Mul, field _, field _ => True
  | Div, uint cls n, uint _ m => m ≠ 0 ∧ n.tdiv m < cls.mod
  | Div, field _, field y => 0 < Fr.toBigInt y
  | Eq, uint _ _, uint _ _ => True
  | Eq, field x, field y => 0 ≤ Fr.toBigInt x ∧ 0 ≤ Fr.toBigInt y
  | Lt, uint _ _, uint _ _ => True
  | Lte, uint _ _, uint _ _ => True
  | And, uint cls n, uint _ m => Int.land n m < cls.mod
  | Or, uint cls n, uint _ m => Int.lor n m < cls.mod
  | Xor, uint cls n, uint _ m => Int.xor n m < cls.mod
  | Shl, uint _ n, uint _ m => BigInt.Shifts n m
  | Shr, uint cls n, uint _ m => BigInt.Shifts n (-m) ∧ BigInt.shifted n (-m) < cls.mod
  | _, _, _ => False

namespace TaggedMemory

def HasWord (memory : TaggedMemory) (offset : ℤ) (word : MemoryValue) : Prop :=
  offset.toNat < MAX_MEMORY_SIZE ∧ memory.getWord offset = some word

/-- The places of a slice are below the size of memory, and what is stored there satisfies a
property; holes are passed over. -/
def HasSlice (memory : TaggedMemory) (offset : ℤ) (size : ℕ) (P : MemoryValue → Prop) : Prop :=
  offset.toNat < MAX_MEMORY_SIZE ∧ (offset + size).toNat < MAX_MEMORY_SIZE ∧
    ∀ i ∈ sliceIndices memory.length offset (offset + size), ∀ slot, memory.mem i = some slot →
      ∃ word, slot = some word ∧ P word

end TaggedMemory

def MemoryValue.ToFr (word : MemoryValue) : Prop := word.toBigInt < Fr.MODULUS

def MemoryValue.ToBuffer (word : MemoryValue) : Prop := 0 ≤ word.toBigInt

def Addressable (offset : ℤ) : Prop := offset.toNat < MAX_MEMORY_SIZE

instance (offset : ℤ) : Decidable (Addressable offset) := inferInstanceAs (Decidable (_ < _))

/-! ### Computations that throw errors of the AVM only -/

def ThrowsAvm {α : Type} (x : Except Err α) : Prop :=
  ∀ e, x = .error e → e.isAvmExecutionError = true

namespace ThrowsAvm

variable {α β : Type}

theorem ok (a : α) : ThrowsAvm (.ok a : Except Err α) := by
  intro e h
  cases h

theorem error {e : Err} (he : e.isAvmExecutionError = true) :
    ThrowsAvm (.error e : Except Err α) := by
  intro e' h
  cases h
  exact he

theorem bind {x : Except Err α} {f : α → Except Err β} (hx : ThrowsAvm x)
    (hf : ∀ a, x = .ok a → ThrowsAvm (f a)) : ThrowsAvm (x >>= f) := by
  intro e h
  cases x with
  | error e' =>
    cases h
    exact hx e rfl
  | ok a => exact hf a rfl e h

theorem of_eq_ok {x : Except Err α} {a : α} (h : x = .ok a) : ThrowsAvm x := h ▸ ok a

end ThrowsAvm

def Context.Printable (context : Context) : Prop :=
  ∀ f, some f ∈ context.machineState.output → 0 ≤ Fr.toBigInt f

/-- Whatever a computation throws in a context is an error of the AVM, and it leaves an output that
can be printed if there was one. -/
def OnlyAvm {α : Type} (m : Exec α) (context : Context) : Prop :=
  ∀ r context', m context = some (r, context') →
    ThrowsAvm r ∧ (context.Printable → context'.Printable)

namespace OnlyAvm

variable {α β : Type} {context : Context}

theorem bind {m : Exec α} {f : α → Exec β} (hm : OnlyAvm m context)
    (hf : ∀ a context', m context = some (.ok a, context') → OnlyAvm (f a) context') :
    OnlyAvm (m >>= f) context := by
  intro r context' h
  rcases bind_eq_some.1 h with ⟨e, he, rfl⟩ | ⟨a, mid, ha, hmid⟩
  · obtain ⟨hthrows, hprintable⟩ := hm _ context' he
    exact ⟨.error (hthrows e rfl), hprintable⟩
  · obtain ⟨hthrows, hprintable⟩ := hf a mid ha r context' hmid
    exact ⟨hthrows, fun hcontext => hprintable ((hm _ mid ha).2 hcontext)⟩

theorem pure (a : α) : OnlyAvm (Pure.pure a) context := by
  intro r context' h
  cases h
  exact ⟨.ok a, id⟩

theorem throw {e : Err} (he : e.isAvmExecutionError = true) :
    OnlyAvm (MonadExcept.throw e : Exec α) context := by
  intro r context' h
  cases h
  exact ⟨.error he, id⟩

theorem modify {f : Context → Context} (hf : context.Printable → (f context).Printable) :
    OnlyAvm (modify f) context := by
  intro r context' h
  cases h
  exact ⟨.ok _, hf⟩

theorem liftExcept {x : Except Err α} (hx : ThrowsAvm x) :
    OnlyAvm (Stateful.liftExcept x) context := by
  intro r context' h
  cases h
  exact ⟨hx, id⟩

theorem readMemory {method : TaggedMemory → Except Err α}
    (h : ThrowsAvm (method context.machineState.memory)) : OnlyAvm (Avm.readMemory method) context := by
  intro r context' heq
  obtain ⟨rfl, rfl⟩ := readMemory_eq_some heq
  exact ⟨h, id⟩

theorem writeMemory {method : TaggedMemory → Except Err TaggedMemory}
    (h : ThrowsAvm (method context.machineState.memory)) :
    OnlyAvm (Avm.writeMemory method) context :=
  .bind (.readMemory h) fun _ _ _ => .modify id

theorem compute {compute : TaggedMemory → Except Err α}
    {store : α → TaggedMemory → Except Err TaggedMemory}
    (hcompute : ThrowsAvm (compute context.machineState.memory))
    (hstore : ∀ a, compute context.machineState.memory = .ok a →
      ThrowsAvm (store a context.machineState.memory)) :
    OnlyAvm (do
      let a ← Avm.readMemory compute
      Avm.writeMemory (store a)
      incrementPc) context := by
  refine .bind (.readMemory hcompute) fun a mid ha => ?_
  obtain ⟨ha, rfl⟩ := readMemory_eq_some ha
  exact .bind (.writeMemory (hstore a ha)) fun _ _ _ => .modify id

end OnlyAvm

/-! ### Methods of values -/

namespace BigInt

theorem shiftLeft_eq {n m : ℤ} (h : Shifts n m) : shiftLeft n m = .ok (shifted n m) := by
  by_cases hm : 0 ≤ m
  · rw [shiftLeft, shifted, if_pos hm, if_pos hm]
    rcases h hm with rfl | hlt
    · simp
    · by_cases hn : n = 0
      · simp [hn]
      · rw [if_neg hn, if_neg (by omega)]
  · rw [shiftLeft, shifted, if_neg hm, if_neg hm]

theorem toBufferBE_eq {n : ℤ} (h : 0 ≤ n) (width : ℕ) :
    toBufferBE n width = .ok (BigEndian.write width n.toNat) := if_neg (by omega)

end BigInt

namespace Fr

theorem ofBigInt_eq {n : ℤ} (h : n < MODULUS) : ∃ self, ofBigInt n = .ok self := by
  rw [ofBigInt, if_neg (by omega)]
  split
  · exact ⟨_, rfl⟩
  · exact ⟨_, rfl⟩

theorem toBuffer_eq {self : Fr} (h : 0 ≤ toBigInt self) : ∃ buffer, toBuffer self = .ok buffer :=
  ⟨_, BigInt.toBufferBE_eq h 32⟩

end Fr

namespace MemoryValue

end MemoryValue

def IntegralTag (inTag : ℕ) : Prop :=
  ((TypeTag.ofCode inTag).bind UintClass.ofTag).isSome = true

/-- A contract without bytecode has an address that can be printed, and the bytecode of any other
is that of instructions. -/
def HasProgram (environs : Environs) (address : Fr) (selector : ℕ) : Prop :=
  match environs.host.getBytecode address selector with
  | none => 0 ≤ Fr.toBigInt address
  | some bytecode =>
    ∃ instructions, decodeFromBytecode bytecode = .ok instructions ∧ instructions ≠ []

/-- The arguments of a call are field elements, there is a program to call, and there is room for
what it returns. -/
def CallFaultless (environs : Environs) (addrOffset argsOffset argsSize retOffset retSize
    successOffset : ℕ) (context : Context) : Prop :=
  (∃ address, context.machineState.memory.HasWord addrOffset address ∧ address.ToFr) ∧
    context.machineState.memory.HasSlice argsOffset argsSize MemoryValue.ToFr ∧
    (∀ address calldata, callArguments addrOffset argsOffset argsSize
      context.machineState.memory = .ok (address, calldata) →
      HasProgram environs address context.environment.temporaryFunctionSelector) ∧
    Addressable successOffset ∧ Addressable retOffset ∧ Addressable (retOffset + retSize)

section Memory

variable {memory : TaggedMemory}

variable {offset : ℤ} {word : MemoryValue} {tag size indirect inTag aOffset bOffset dstOffset : ℕ}
  {cls : ThreeOperand}

theorem assertOffset_eq (h : Addressable offset) : assertOffset offset = .ok () := by
  have hlt : offset.toNat < MAX_MEMORY_SIZE := h
  rw [assertOffset, assertThat, decide_eq_true hlt, if_pos rfl]

theorem get_eq (h : Addressable offset) : memory.get offset = .ok (memory.getWord offset) :=
  bind_eq_ok.2 ⟨(), assertOffset_eq h, rfl⟩

theorem get_hasWord (h : memory.HasWord offset word) : memory.get offset = .ok (some word) := by
  rw [get_eq h.1, h.2]

theorem throwsAvm_set (h : Addressable offset) (v : Option MemoryValue) :
    ThrowsAvm (memory.set offset v) :=
  .of_eq_ok (bind_eq_ok.2 ⟨(), assertOffset_eq h, rfl⟩)

theorem throwsAvm_setSlice {offset : ℕ} {vs : List (Slot MemoryValue)} (h : Addressable offset)
    (hend : Addressable (offset + vs.length)) : ThrowsAvm (memory.setSlice offset vs) :=
  .of_eq_ok (bind_eq_ok.2 ⟨(), assertOffset_eq h, bind_eq_ok.2 ⟨(), assertOffset_eq hend, rfl⟩⟩)

theorem checkTag_eq_ok (h : memory.checkTag tag offset = .ok ()) :
    (memory.getTag offset).code = tag := by
  rw [checkTag] at h
  split at h
  · cases h
  · next heq => exact not_not.1 heq

theorem integralTag_of_check (h : checkIsIntegralTag tag = .ok ()) : IntegralTag tag := by
  rw [checkIsIntegralTag] at h
  split at h
  · cases h
  · next hnone => simpa [IntegralTag, Option.isSome_iff_ne_none] using hnone

theorem toFr_eq (h : word.ToFr) : ∃ r, word.toFr = .ok r := Fr.ofBigInt_eq h

theorem toBuffer_eq (h : word.ToBuffer) : ∃ b, word.toBuffer = .ok b := by
  cases word with
  | uint cls n => exact ⟨_, BigInt.toBufferBE_eq h _⟩
  | field rep => exact Fr.toBuffer_eq h

theorem mapSlots_total {S T : Type} {f : S → Except Err T} {slots : List (Slot S)}
    (h : ∀ value, some value ∈ slots → ∃ t, f value = .ok t) : ∃ out, mapSlots f slots = .ok out := by
  refine mapM_total fun slot hslot => ?_
  cases slot with
  | none => exact ⟨none, rfl⟩
  | some value =>
    obtain ⟨t, ht⟩ := h value hslot
    exact ⟨some t, by simp only [ht]; rfl⟩

theorem getSlice_eq {α : Type} {method : MemoryValue → Except Err α} {P : MemoryValue → Prop}
    (hmethod : ∀ word, P word → ∃ a, method word = .ok a) (h : memory.HasSlice offset size P) :
    ∃ words slots, memory.getSlice offset size = .ok words ∧
      mapSlots (onWord method) words = .ok slots := by
  obtain ⟨hstart, hend, hwords⟩ := h
  obtain ⟨slots, hslots⟩ := mapSlots_total (f := onWord method) (by
      intro value hvalue
      obtain ⟨i, hi, hmem⟩ := List.mem_map.1 hvalue
      obtain ⟨word, rfl, hP⟩ := hwords i hi value hmem
      exact hmethod word hP)
  exact ⟨_, slots, bind_eq_ok.2 ⟨(), assertOffset_eq hstart,
    bind_eq_ok.2 ⟨(), assertOffset_eq hend, rfl⟩⟩, hslots⟩

theorem HasSlice.imp {P Q : MemoryValue → Prop} (hPQ : ∀ word, P word → Q word)
    (h : memory.HasSlice offset size P) : memory.HasSlice offset size Q := by
  obtain ⟨hstart, hend, hwords⟩ := h
  refine ⟨hstart, hend, fun i hi slot hslot => ?_⟩
  obtain ⟨word, hword, hP⟩ := hwords i hi slot hslot
  exact ⟨word, hword, hPQ word hP⟩

theorem ThreeOperand.checked {dest : MemoryValue}
    (h : cls.dest inTag aOffset bOffset memory = .ok dest) : (cls.checksTags = true →
      (memory.getTag aOffset).code = inTag ∧ (memory.getTag bOffset).code = inTag) ∧
    (cls.checksIntegralTag = true → IntegralTag inTag) := by
  have hintegral {x : Except Err MemoryValue} (hx : (do
      if cls.checksIntegralTag then checkIsIntegralTag inTag
      x) = .ok dest) : cls.checksIntegralTag = true → IntegralTag inTag := by
    intro hcheck
    rw [if_pos hcheck] at hx
    obtain ⟨⟨⟩, hok, -⟩ := bind_eq_ok.1 hx
    exact integralTag_of_check hok
  rw [ThreeOperand.dest] at h
  dsimp only at h
  split at h
  · obtain ⟨⟨⟩, hcheck, hrest⟩ := bind_eq_ok.1 h
    have hall := forM_eq_ok.1 hcheck
    exact ⟨fun _ => ⟨checkTag_eq_ok (hall _ (by simp)), checkTag_eq_ok (hall _ (by simp))⟩,
      hintegral hrest⟩
  · next hnot => exact ⟨fun hcheck => absurd hcheck hnot, hintegral h⟩

end Memory

/-! ### Instructions in a context -/

section Execution

variable {environs : Environs}
  {nested : Context → Option (Except Err ContractCallResults × Context)} {context : Context}

theorem OnlyAvm.incrementPc : OnlyAvm Avm.incrementPc context := .modify id

theorem OnlyAvm.setPc (pc : ℕ) : OnlyAvm (Avm.setPc pc) context := .modify id

theorem OnlyAvm.store {method : TaggedMemory → Except Err TaggedMemory}
    (h : ThrowsAvm (method context.machineState.memory)) :
    OnlyAvm (Avm.writeMemory method >>= fun _ => Avm.incrementPc) context :=
  .bind (.writeMemory h) fun _ _ _ => .incrementPc

theorem OnlyAvm.assertNotStatic {α : Type} {m : Unit → Exec α}
    (h : context.environment.isStaticCall = false → OnlyAvm (m ()) context) :
    OnlyAvm (Avm.assertNotStatic >>= m) context := by
  cases hs : context.environment.isStaticCall with
  | true =>
    intro r context' heq
    simp only [Avm.assertNotStatic, bind_apply, get_apply, hs, if_true, throw_apply] at heq
    cases heq
    exact ⟨.error rfl, id⟩
  | false =>
    intro e context' heq
    simp only [Avm.assertNotStatic, bind_apply, get_apply, hs, Bool.false_eq_true, if_false,
      pure_apply] at heq
    exact h hs e context' heq

theorem OnlyAvm.read_bind {α β : Type} {method : TaggedMemory → Except Err α} {f : α → Exec β}
    (h : ThrowsAvm (method context.machineState.memory))
    (hf : ∀ a, method context.machineState.memory = .ok a → OnlyAvm (f a) context) :
    OnlyAvm (Avm.readMemory method >>= f) context := by
  refine .bind (.readMemory h) fun a mid ha => ?_
  obtain ⟨ha, rfl⟩ := readMemory_eq_some ha
  exact hf a ha

theorem OnlyAvm.get_bind {β : Type} {f : Context → Exec β} (h : OnlyAvm (f context) context) :
    OnlyAvm (MonadState.get >>= f) context := h

theorem OnlyAvm.modifyJournal (f : StateManager → StateManager) :
    OnlyAvm (Avm.modifyJournal f >>= fun _ => Avm.incrementPc) context :=
  .bind (.modify id) fun _ _ _ => .incrementPc

theorem OnlyAvm.finishCall {retOffset retSize successOffset : ℕ} (results : ContractCallResults)
    (nestedContext : Context) (hsuccess : Addressable successOffset) (hret : Addressable retOffset)
    (hend : Addressable (retOffset + retSize)) :
    OnlyAvm (Avm.finishCall retOffset retSize successOffset results nestedContext) context := by
  refine .bind (.writeMemory (throwsAvm_set hsuccess _)) fun _ _ _ =>
    .bind (.writeMemory (throwsAvm_setSlice hret ?_)) fun _ _ _ => ?_
  · have hlength : (results.output.take retSize).length ≤ retSize := List.length_take_le _ _
    rw [Addressable, List.length_map]
    rw [Addressable] at hend
    omega
  · dsimp only
    split
    · exact .modifyJournal _
    · exact .modifyJournal _

theorem OnlyAvm.externalCall {create : Context → Fr → List (Slot Fr) → Context}
    {addrOffset argsOffset argsSize retOffset retSize successOffset : ℕ}
    (h : CallFaultless environs addrOffset argsOffset argsSize retOffset retSize successOffset
      context) (hnested : ∀ nestedContext,
      createNested create addrOffset argsOffset argsSize context = some nestedContext →
      OnlyAvm nested nestedContext) :
    OnlyAvm (Avm.externalCall nested create addrOffset argsOffset argsSize retOffset retSize
      successOffset) context := by
  obtain ⟨⟨address, haddress, hfr⟩, hslice, -, hsuccess, hret, hend⟩ := h
  obtain ⟨fr, hfr⟩ := toFr_eq hfr
  obtain ⟨words, calldata, hwords, hcalldata⟩ := getSlice_eq (fun _ => toFr_eq) hslice
  have hargs : callArguments addrOffset argsOffset argsSize context.machineState.memory =
      .ok (fr, calldata) :=
    bind_eq_ok.2 ⟨_, get_hasWord haddress, bind_eq_ok.2 ⟨words, hwords,
      bind_eq_ok.2 ⟨calldata, hcalldata, bind_eq_ok.2 ⟨fr, hfr, rfl⟩⟩⟩⟩
  refine .read_bind (.of_eq_ok hargs) fun p hp => .get_bind (.bind ?_ fun _ _ _ =>
    .finishCall _ _ hsuccess hret hend)
  -- What the nested run throws, the call throws.
  intro r context' heq
  rw [runNested] at heq
  cases hn : nested (create context p.1 p.2) with
  | none =>
    rw [hn] at heq
    cases heq
  | some outcome =>
    obtain ⟨outcome, finished⟩ := outcome
    rw [hn] at heq
    cases outcome with
    | ok results =>
      cases heq
      exact ⟨.ok _, id⟩
    | error e =>
      cases heq
      exact ⟨.error ((hnested _ (by rw [createNested, hp]) _ _ hn).1 e rfl), id⟩

end Execution

/-! ### Runs -/

section Runs

variable {environs : Environs}

theorem HasProgram.fetchAndDecodeBytecode {context : Context}
    (h : HasProgram environs context.environment.address
      context.environment.temporaryFunctionSelector) :
    (∃ e, Avm.fetchAndDecodeBytecode environs context = some (.error e, context) ∧
        e.isAvmExecutionError = true) ∨
      ∃ instructions, Avm.fetchAndDecodeBytecode environs context =
        some (.ok instructions, context) ∧ 0 < instructions.length := by
  have hget : Avm.fetchAndDecodeBytecode environs context =
      (match environs.host.getBytecode context.environment.address
          context.environment.temporaryFunctionSelector with
        | none => do
          let _ ← Stateful.liftExcept (Fr.toBuffer context.environment.address)
          throw (.noBytecodeForContract context.environment.address)
        | some bytecode =>
          Stateful.liftExcept ((decodeFromBytecode bytecode).mapError Err.codec) :
        Exec (List Instruction)) context := rfl
  rw [hget]
  rw [HasProgram] at h
  split at h
  · next hnone =>
    obtain ⟨buffer, hbuffer⟩ := Fr.toBuffer_eq h
    rw [hnone, hbuffer]
    exact .inl ⟨_, rfl, rfl⟩
  · next bytecode hsome =>
    obtain ⟨instructions, hdecode, hne⟩ := h
    refine .inr ⟨instructions, ?_, List.length_pos_iff.2 hne⟩
    rw [hsome]
    exact congrArg (fun x => some (x.mapError Err.codec, context)) hdecode

end Runs

/-- A context in which nothing has happened, with an environment of zeros. -/
def Context.initial : Context where
  parent := none
  persistableState := .new none
  environment := ⟨0, 0, 0, 0, 0, 0, 0, 0, 0, ⟨0, 0, 0, 0⟩, false, false, [], 0⟩
  machineState := .new

def Environs.empty : Environs where
  host := ⟨fun _ _ => none, fun _ => none, fun _ _ => none⟩
  siloNullifier address nullifier := address + nullifier
  hash _ _ := .ok 0

end Avm
