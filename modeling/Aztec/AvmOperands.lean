/-
**Operands of storage and of return data.**

`SStore` is built from the place of the value and that of the slot, and takes the first for the
slot.  `Revert` gives the end of its output where the size is asked for.
-/

import Aztec.AvmFaults

namespace Avm

open Stateful Failing TaggedMemory

/-! ### Stores and loads -/

/-- An instruction that changes neither a slot of the call's storage nor a word of its memory. -/
def LeavesAlone (environs : Environs) (storageAddress slot : Fr) (offset : ℕ)
    (context context' : Context) : Prop :=
  (∃ fuel, ∃ i : Instruction,
      i.execute environs (execute environs fuel) context = some (.ok (), context')) ∧
    context'.persistableState.cache.read storageAddress slot =
      context.persistableState.cache.read storageAddress slot ∧
    context'.machineState.memory.getWord offset = context.machineState.memory.getWord offset

/-- **What is stored is what a later load leaves in memory**: the source, at the slot. -/
structure Stores (environs : Environs) (context stored : Context) (slotOffset : ℕ)
    (src slot : Fr) : Prop where
  journal : stored.persistableState =
    context.persistableState.writeStorage context.environment.storageAddress slot src
  load : ∀ (slotOffset2 dstOffset indirect fuel : ℕ) (before : Context),
    Addressable slotOffset2 → Addressable dstOffset →
    (context.machineState.memory.getWord slotOffset2).map MemoryValue.toBigInt =
      (context.machineState.memory.getWord slotOffset).map MemoryValue.toBigInt →
    Relation.ReflTransGen
      (LeavesAlone environs context.environment.storageAddress slot slotOffset2) stored before →
    ∃ after, (Instruction.sLoad indirect slotOffset2 dstOffset).execute environs
        (execute environs fuel) before = some (.ok (), after) ∧
      after.machineState.memory.getWord dstOffset = some (.field src)

/-- `SStore(srcOffset, slotOffset)` stores the word at the first place in the slot at the second. -/
def StoresSource (environs : Environs) (context : Context) (srcOffset slotOffset : ℕ) : Prop :=
  ∀ indirect fuel src slot, wordToFr srcOffset context.machineState.memory = .ok src →
    wordToFr slotOffset context.machineState.memory = .ok slot →
    ∃ stored, (Instruction.sStore indirect srcOffset slotOffset).execute environs
        (execute environs fuel) context = some (.ok (), stored) ∧
      Stores environs context stored slotOffset src slot

section Storage

variable {environs : Environs} {context : Context} {memory : TaggedMemory}
  {offset srcOffset slotOffset : ℕ} {src slot a s v : Fr}

theorem addressable_of_assertOffset {place : ℤ} (h : assertOffset place = .ok ()) :
    Addressable place := by
  rw [assertOffset, assertThat] at h
  split at h
  · next hlt => exact of_decide_eq_true hlt
  · cases h

theorem wordToFr_eq_ok : wordToFr offset memory = .ok v ↔
    ∃ word, memory.HasWord offset word ∧ word.toFr = .ok v := by
  constructor
  · intro h
    obtain ⟨word, hget, hword⟩ := bind_eq_ok.1 h
    obtain ⟨⟨⟩, hassert, hword'⟩ := bind_eq_ok.1 hget
    cases word with
    | none => cases hword
    | some word => exact ⟨word, ⟨addressable_of_assertOffset hassert, Except.ok.inj hword'⟩, hword⟩
  · rintro ⟨word, hhas, hfr⟩
    exact bind_eq_ok.2 ⟨_, get_hasWord hhas, hfr⟩

theorem set_eq {place : ℤ} (h : Addressable place) (word : Option MemoryValue) :
    memory.set place word = .ok ⟨Function.update memory.mem place (some word),
      max memory.length (place + 1).toNat⟩ :=
  bind_eq_ok.2 ⟨(), assertOffset_eq h, rfl⟩

theorem writeMemory_execute {method : TaggedMemory → Except Err TaggedMemory}
    (h : method context.machineState.memory = .ok memory) :
    writeMemory method context = some (.ok (), { context with
      machineState := { context.machineState with memory := memory } }) :=
  bind_eq_some.2 (.inr ⟨memory, context, congrArg (fun r => some (r, context)) h, rfl⟩)

theorem sStore_execute (indirect fuel : ℕ) (hstatic : context.environment.isStaticCall = false)
    (hsrc : wordToFr srcOffset context.machineState.memory = .ok src)
    (hslot : wordToFr slotOffset context.machineState.memory = .ok slot) :
    (Instruction.sStore indirect srcOffset slotOffset).execute environs (execute environs fuel)
      context = some (.ok (), { context with
        persistableState := context.persistableState.writeStorage
          context.environment.storageAddress src slot
        machineState := { context.machineState with pc := context.machineState.pc + 1 } }) := by
  obtain ⟨word, hword, hfr⟩ := wordToFr_eq_ok.1 hsrc
  obtain ⟨word', hword', hfr'⟩ := wordToFr_eq_ok.1 hslot
  have harguments : sStoreArguments srcOffset slotOffset context.machineState.memory =
      .ok (src, slot) :=
    bind_eq_ok.2 ⟨_, get_hasWord hword, bind_eq_ok.2 ⟨_, get_hasWord hword',
      bind_eq_ok.2 ⟨_, hfr, bind_eq_ok.2 ⟨_, hfr', rfl⟩⟩⟩⟩
  refine bind_eq_some.2 (.inr ⟨(), context, ?_, bind_eq_some.2 (.inr ⟨(src, slot), context, ?_,
    rfl⟩)⟩)
  · simp [assertNotStatic, bind_apply, hstatic]
  · exact congrArg (fun r => some (r, context)) harguments

/-- A load of a slot that the call has written to. -/
theorem sLoad_execute (indirect fuel : ℕ) {dstOffset : ℕ}
    (hslot : wordToFr slotOffset context.machineState.memory = .ok slot)
    (hdst : Addressable dstOffset) (hread : context.persistableState.cache.read
      context.environment.storageAddress slot = some v) :
    ∃ after, (Instruction.sLoad indirect slotOffset dstOffset).execute environs
        (execute environs fuel) context = some (.ok (), after) ∧
      after.machineState.memory.getWord dstOffset = some (.field v) := by
  obtain ⟨written, hset, hword⟩ : ∃ written : TaggedMemory,
      context.machineState.memory.set dstOffset (some (.field
        (context.persistableState.readStorage environs.host context.parent
          context.environment.storageAddress slot).1)) = .ok written ∧
        written.getWord dstOffset = some (.field v) :=
    ⟨_, set_eq hdst _, by simp [getWord, StateManager.readStorage, PublicStorage.read, hread]⟩
  exact ⟨_, bind_eq_some.2 (.inr ⟨slot, context, congrArg (fun r => some (r, context)) hslot,
    bind_eq_some.2 (.inr ⟨context, context, rfl, bind_eq_some.2 (.inr ⟨(), _, rfl,
      bind_eq_some.2 (.inr ⟨(), _, writeMemory_execute hset, rfl⟩)⟩)⟩)⟩), hword⟩

def StateManager.writesAt (self : StateManager) (a s : Fr) : Option (List Fr) :=
  ((self.trace.publicStorageWrites.lookup a).getD ∅).lookup s

theorem writesAt_writeStorage (self : StateManager) (s' : Fr) :
    (self.writeStorage a s v).writesAt a s' =
      if s' = s then some (((self.writesAt a s).getD []) ++ [v]) else self.writesAt a s' := by
  simp [StateManager.writesAt, StateManager.writeStorage, AvmPersistableStateManager.writeStorage,
    WorldStateAccessTrace.tracePublicStorageWrite, WorldStateAccessTrace.journalUpdate,
    KeyedMerge.lookup_insert_if]

theorem writeStorage_injective {self : StateManager}
    (h : self.writeStorage a s v = self.writeStorage a v s) : s = v := by
  by_contra hne
  have hwrites := congrArg (fun manager => manager.writesAt a s) h
  simp only [writesAt_writeStorage, if_neg hne] at hwrites
  cases hs : self.writesAt a s <;> simp [hs] at hwrites

/-- A store and the load of it, of a value that is its own slot. -/
theorem StoresSource.of_same (hstatic : context.environment.isStaticCall = false)
    (h : ∀ src slot, wordToFr srcOffset context.machineState.memory = .ok src →
      wordToFr slotOffset context.machineState.memory = .ok slot → src = slot) :
    StoresSource environs context srcOffset slotOffset := by
  intro indirect fuel src slot hsrc hslot
  obtain rfl := h src slot hsrc hslot
  refine ⟨_, sStore_execute indirect fuel hstatic hsrc hslot, rfl, ?_⟩
  intro slotOffset2 dstOffset indirect' fuel' before hslot2 hdst hsame hbetween
  obtain ⟨word, hword, hfr⟩ := wordToFr_eq_ok.1 hslot
  rw [hword.2] at hsame
  obtain ⟨word2, hword2, hnumber⟩ := Option.map_eq_some_iff.1 hsame
  -- What the instructions in between keep.
  have hkept : before.environment = context.environment ∧
      before.persistableState.cache.read context.environment.storageAddress src = some src ∧
      before.machineState.memory.getWord slotOffset2 = some word2 := by
    induction hbetween with
    | refl =>
      refine ⟨rfl, ?_, hword2⟩
      exact (PublicStorageCache.read_write _ _ _ _ _ _).trans (if_pos ⟨rfl, rfl⟩)
    | tail _ hstep ih =>
      obtain ⟨⟨fuel, i, hexecute⟩, hcache, hmemory⟩ := hstep
      obtain ⟨henvironment, hread, hgetWord⟩ := ih
      exact ⟨(Instruction.keeps_execute (keeps_execute environs fuel) i _ _ _ hexecute).1.trans
        henvironment, hcache.trans hread, hmemory.trans hgetWord⟩
  obtain ⟨henvironment, hread, hgetWord⟩ := hkept
  rw [← henvironment] at hread
  refine sLoad_execute indirect' fuel' (wordToFr_eq_ok.2 ⟨word2, ⟨hslot2, hgetWord⟩, ?_⟩) hdst hread
  rw [MemoryValue.toFr, hnumber]
  exact hfr

theorem StoresSource.same (hstatic : context.environment.isStaticCall = false)
    (h : StoresSource environs context srcOffset slotOffset)
    (hsrc : wordToFr srcOffset context.machineState.memory = .ok src)
    (hslot : wordToFr slotOffset context.machineState.memory = .ok slot) : src = slot := by
  obtain ⟨stored, hexecute, hjournal, -⟩ := h 0 0 src slot hsrc hslot
  rw [sStore_execute 0 0 hstatic hsrc hslot] at hexecute
  cases hexecute
  exact writeStorage_injective hjournal

/-- **A store stores its source exactly when it is its own slot.** -/
theorem storesSource_iff (environs : Environs) (srcOffset slotOffset : ℕ)
    (hstatic : context.environment.isStaticCall = false) :
    StoresSource environs context srcOffset slotOffset ↔
      ∀ src slot, wordToFr srcOffset context.machineState.memory = .ok src →
        wordToFr slotOffset context.machineState.memory = .ok slot → src = slot :=
  ⟨fun h _ _ hsrc hslot => h.same hstatic hsrc hslot, .of_same hstatic⟩

def Context.withTwoWords : Context :=
  { Context.initial with
    machineState := { MachineState.new with
      memory := ⟨fun place => if place = 0 then some (some (.field 1)) else
        if place = 1 then some (some (.field 2)) else none, 2⟩ } }

theorem storesSource_self : StoresSource .empty .withTwoWords 1 1 :=
  (storesSource_iff .empty 1 1 rfl).2 fun _ _ hsrc hslot => Except.ok.inj (hsrc.symm.trans hslot)

/-- **The value is taken for the slot.** -/
theorem not_storesSource : ¬∀ (environs : Environs) (context : Context) (srcOffset slotOffset : ℕ),
      context.environment.isStaticCall = false →
        StoresSource environs context srcOffset slotOffset := by
  intro h
  have hone : wordToFr 0 Context.withTwoWords.machineState.memory = .ok 1 := by decide
  have htwo : wordToFr 1 Context.withTwoWords.machineState.memory = .ok 2 := by decide
  exact absurd ((h .empty .withTwoWords 0 1 rfl).same rfl hone htwo) (by decide)

end Storage

/-! ### Return data -/

/-- The output has the fields of the words from a place on, and nothing else. -/
def FieldsOf (memory : TaggedMemory) (offset size : ℕ) (output : List (Slot Fr)) : Prop :=
  output.length = size ∧ ∀ k < size, ∃ word fr, memory.getWord (offset + k : ℕ) = some word ∧
    word.toFr = .ok fr ∧ output[k]? = some (some fr)

/-- The memory of a caller in which nothing else has changed than the flag and the return data. -/
structure Returned (before after : TaggedMemory) (output : List (Slot Fr))
    (retOffset size successOffset : ℕ) : Prop where
  frame : ∀ place : ℤ, place ≠ successOffset →
    ¬((retOffset : ℤ) ≤ place ∧ place < retOffset + size) → after.mem place = before.mem place
  data : ∀ k < size, after.getWord (retOffset + k : ℕ) = output[k]?.join.map .field

/-- One turn of the loop after which the call goes on. -/
def Turn (environs : Environs) (fuel : ℕ) (instructions : List Instruction)
    (context context' : Context) : Prop :=
  context.machineState.halted = false ∧ context'.machineState.pc < instructions.length ∧
    ∃ i, instructions[context.machineState.pc]? = some i ∧
      i.execute environs (execute environs fuel) context = some (.ok (), context')

/-- **A nested call that an instruction halts**, with the context in which it does. -/
structure HaltedBy (environs : Environs) (fuel : ℕ) (j : Instruction) (start last : Context)
    (results : ContractCallResults) : Prop where
  run : ∃ finished, execute environs (fuel + 1) start = some (.ok results, finished)
  last : ∃ instructions halted,
    fetchAndDecodeBytecode environs start = some (.ok instructions, start) ∧
    Relation.ReflTransGen (Turn environs fuel instructions) start last ∧
    last.machineState.halted = false ∧ instructions[last.machineState.pc]? = some j ∧
    j.execute environs (execute environs fuel) last = some (.ok (), halted)

section ReturnData

variable {environs : Environs} {memory : TaggedMemory} {fuel offset size steps : ℕ}
  {context context' start last halted : Context} {instructions : List Instruction}
  {j : Instruction} {results : ContractCallResults} {output : List (Slot Fr)}
  {r : Except Err Unit}

theorem mapSlots_getElem {S T : Type} {f : S → Except Err T} {slots : List (Slot S)}
    {out : List (Slot T)} (h : mapSlots f slots = .ok out) : out.length = slots.length ∧
      ∀ (k : ℕ) v, slots[k]? = some (some v) → ∃ t, f v = .ok t ∧ out[k]? = some (some t) := by
  induction slots generalizing out with
  | nil =>
    cases h
    exact ⟨rfl, fun k v hk => by simp at hk⟩
  | cons slot slots ih =>
    rw [mapSlots, List.mapM_cons] at h
    obtain ⟨o, ho, h⟩ := bind_eq_ok.1 h
    obtain ⟨rest, hrest, h⟩ := bind_eq_ok.1 h
    cases h
    obtain ⟨hlength, hget⟩ := ih hrest
    refine ⟨congrArg (· + 1) hlength, fun k v hk => ?_⟩
    cases k with
    | zero =>
      obtain rfl : slot = some v := Option.some.inj hk
      replace ho : some <$> f v = .ok o := ho
      cases hv : f v with
      | error e =>
        rw [hv] at ho
        cases ho
      | ok t =>
        rw [hv] at ho
        exact ⟨t, rfl, congrArg some (Except.ok.inj ho).symm⟩
    | succ k => exact hget k v hk

theorem sliceIndices_eq (length offset stop : ℕ) : sliceIndices length offset stop =
    (List.range (min stop length - offset)).map fun i => ((offset + i : ℕ) : ℤ) := by
  have hstart : ¬(offset : ℤ) < 0 := by omega
  have hstop : ¬(stop : ℤ) < 0 := by omega
  simp only [sliceIndices, if_neg hstart, if_neg hstop]
  rcases Nat.le_total offset length with hle | hle
  · have hsize : (min (stop : ℤ) length - min (offset : ℤ) length).toNat =
        min stop length - offset := by omega
    rw [hsize, min_eq_left (by omega)]
    simp [List.map_eq_flatMap, List.flatMap_assoc]
  · have hsize : (min (stop : ℤ) length - min (offset : ℤ) length).toNat = 0 := by omega
    rw [hsize, Nat.sub_eq_zero_of_le (by omega)]
    rfl

theorem fieldsOf_iff {n : ℕ} (h : sliceToFr offset n memory = .ok output) :
    FieldsOf memory offset size output ↔ min (offset + n) memory.length - offset = size ∧
      ∀ k < size, (memory.getWord (offset + k : ℕ)).isSome := by
  obtain ⟨slots, hslice, hmap⟩ := bind_eq_ok.1 h
  obtain ⟨⟨⟩, -, hslice⟩ := bind_eq_ok.1 hslice
  obtain ⟨⟨⟩, -, hslice⟩ := bind_eq_ok.1 hslice
  obtain ⟨hlength, hget⟩ := mapSlots_getElem hmap
  have hslots : slots = (List.range (min (offset + n) memory.length - offset)).map
      fun i => memory.mem (offset + i : ℕ) := by
    rw [← Except.ok.inj hslice, ← Nat.cast_add, sliceIndices_eq, List.map_map]
    rfl
  rw [hslots, List.length_map, List.length_range] at hlength
  constructor
  · rintro ⟨hsize, hwords⟩
    refine ⟨hlength ▸ hsize, fun k hk => ?_⟩
    obtain ⟨word, fr, hword, -⟩ := hwords k hk
    rw [hword]
    rfl
  · rintro ⟨hsize, hset⟩
    refine ⟨hlength.trans hsize, fun k hk => ?_⟩
    obtain ⟨word, hword⟩ := Option.isSome_iff_exists.1 (hset k hk)
    have hmem : memory.mem (offset + k : ℕ) = some (some word) := Option.join_eq_some_iff.1 hword
    obtain ⟨fr, hfr, hout⟩ := hget k (some word) (by simpa [hslots, hsize, hk] using hmem)
    exact ⟨word, fr, hword, hfr, hout⟩

theorem halt_execute {indirect stop : ℕ} (hj : j = .ret indirect offset size ∧ stop = size ∨
      j = .revert indirect offset size ∧ stop = offset + size)
    (h : j.execute environs (execute environs fuel) last = some (.ok (), halted)) :
    halted.machineState.halted = true ∧ halted.machineState.pc = last.machineState.pc ∧
      sliceToFr offset stop last.machineState.memory = .ok halted.machineState.output := by
  rcases hj with ⟨rfl, rfl⟩ | ⟨rfl, rfl⟩
  · rcases bind_eq_some.1 h with ⟨e, -, herror⟩ | ⟨output, mid, hread, hmodify⟩
    · cases herror
    · obtain ⟨hread, rfl⟩ := readMemory_eq_some hread
      cases hmodify
      exact ⟨rfl, rfl, hread⟩
  · rcases bind_eq_some.1 h with ⟨e, -, herror⟩ | ⟨output, mid, hread, hmodify⟩
    · cases herror
    · obtain ⟨hread, rfl⟩ := readMemory_eq_some hread
      cases hmodify
      exact ⟨rfl, rfl, hread⟩

/-- A turn of the loop that does not throw. -/
theorem loop_succ {i : Instruction} (hactive : context.machineState.halted = false)
    (hfetch : instructions[context.machineState.pc]? = some i)
    (hexecute : i.execute environs (execute environs fuel) context = some (.ok (), context'))
    (hinside : context'.machineState.pc < instructions.length) :
    loop environs (execute environs fuel) instructions (steps + 1) context =
      loop environs (execute environs fuel) instructions steps context' := by
  simp [loop, bind_apply, hactive, hfetch, hexecute, not_le.2 hinside]

theorem loop_halted (h : context.machineState.halted = true) :
    loop environs (execute environs fuel) instructions (steps + 1) context =
      some (.ok (), context) := by
  simp [loop, bind_apply, h]

/-- The turns of a run that finishes are followed by the rest of it. -/
theorem loop_turns {outcome : Except Err Unit × Context}
    (hturns : Relation.ReflTransGen (Turn environs fuel instructions) start last)
    (hloop : loop environs (execute environs fuel) instructions steps start = some outcome) :
    ∃ rest, loop environs (execute environs fuel) instructions rest last = some outcome := by
  induction hturns with
  | refl => exact ⟨steps, hloop⟩
  | tail _ hturn ih =>
    obtain ⟨rest, hrest⟩ := ih
    obtain ⟨hactive, hinside, i, hfetch, hexecute⟩ := hturn
    cases rest with
    | zero => cases hrest
    | succ rest => exact ⟨rest, by rwa [loop_succ hactive hfetch hexecute hinside] at hrest⟩

/-- What printing throws is not an error of the AVM. -/
theorem isAvm_of_toString {e : Err} (h : results.toString = .error e) :
    e.isAvmExecutionError = false := by
  obtain ⟨slot, -, hslot⟩ := mapM_eq_error h
  cases slot with
  | none => cases hslot
  | some f =>
    have hbuffer : some <$> BigInt.toBufferBE (Fr.toBigInt f) 32 = .error e := hslot
    rw [BigInt.toBufferBE] at hbuffer
    split at hbuffer
    · cases hbuffer
      rfl
    · cases hbuffer

theorem HaltedBy.output_eq {indirect stop : ℕ} (h : HaltedBy environs fuel j start last results)
    (hj : j = .ret indirect offset size ∧ stop = size ∨
      j = .revert indirect offset size ∧ stop = offset + size) :
    sliceToFr offset stop last.machineState.memory = .ok results.output := by
  obtain ⟨finished, hrun⟩ := h.run
  obtain ⟨instructions, halted, hdecode, hturns, hactive, hfetch, hexecute⟩ := h.last
  obtain ⟨hhalted, hpc, houtput⟩ := halt_execute hj hexecute
  have hinside : halted.machineState.pc < instructions.length := by
    rw [hpc]
    exact (List.getElem?_eq_some_iff.1 hfetch).1
  rw [execute] at hrun
  rcases bind_eq_some.1 hrun with ⟨e, hfetched, -⟩ | ⟨instructions', mid, hfetched, hrun⟩
  · rw [hdecode] at hfetched
    cases hfetched
  rw [hdecode] at hfetched
  cases hfetched
  have hassert : assertThat (decide (0 < instructions.length)) "" = .ok () := by
    rw [assertThat, decide_eq_true (Nat.zero_lt_of_lt hinside), if_pos rfl]
  rw [executeInstructions, hassert, bind_apply, liftExcept_apply] at hrun
  dsimp only at hrun
  rw [tryCatch_apply, bind_apply] at hrun
  cases hloop : loop environs (execute environs fuel) instructions fuel start with
  | none =>
    rw [hloop] at hrun
    cases hrun
  | some outcome =>
    obtain ⟨rest, hrest⟩ := loop_turns hturns hloop
    obtain rfl : outcome = (.ok (), halted) := by
      rcases rest with _ | _ | rest
      · cases hrest
      · rw [loop_succ hactive hfetch hexecute hinside] at hrest
        cases hrest
      · rw [loop_succ hactive hfetch hexecute hinside, loop_halted hhalted] at hrest
        exact (Option.some.inj hrest).symm
    simp only [hloop, bind_apply, get_apply, liftExcept_apply] at hrun
    cases hprint : ContractCallResults.toString
        ⟨halted.machineState.reverted, halted.machineState.output, none⟩ with
    | error e =>
      simp only [hprint, isAvm_of_toString hprint] at hrun
      cases hrun
    | ok text =>
      rw [hprint] at hrun
      cases hrun
      exact houtput

theorem writeMemory_eq_ok {method : TaggedMemory → Except Err TaggedMemory}
    (h : writeMemory method context = some (.ok (), context')) :
    method context.machineState.memory = .ok context'.machineState.memory := by
  rcases bind_eq_some.1 h with ⟨e, -, herror⟩ | ⟨memory, mid, hread, hset⟩
  · cases herror
  · obtain ⟨hread, rfl⟩ := readMemory_eq_some hread
    cases hset
    exact hread

theorem finishCall_returned {retOffset retSize successOffset : ℕ}
    (h : finishCall retOffset retSize successOffset results last context = some (.ok (), context')) :
    Returned context.machineState.memory context'.machineState.memory results.output retOffset
      (min retSize results.output.length) successOffset := by
  rcases bind_eq_some.1 h with ⟨e, -, herror⟩ | ⟨⟨⟩, mid, hflag, h⟩
  · cases herror
  rcases bind_eq_some.1 h with ⟨e, -, herror⟩ | ⟨⟨⟩, mid', hdata, h⟩
  · cases herror
  have hmemory : context'.machineState.memory = mid'.machineState.memory := by
    cases hr : results.reverted with
    | false =>
      rw [hr] at h
      cases h
      rfl
    | true =>
      rw [hr] at h
      cases h
      rfl
  obtain ⟨⟨⟩, -, hset⟩ := bind_eq_ok.1 (writeMemory_eq_ok hflag)
  obtain ⟨⟨⟩, -, hslice⟩ := bind_eq_ok.1 (writeMemory_eq_ok hdata)
  obtain ⟨⟨⟩, -, hslice⟩ := bind_eq_ok.1 hslice
  have hlength : (((results.output.take retSize).map fun f => f.map MemoryValue.field).length : ℤ) =
      (min retSize results.output.length : ℕ) := by simp
  rw [hmemory, ← Except.ok.inj hslice, ← Except.ok.inj hset]
  constructor
  · intro place hne hout
    dsimp only
    rw [hlength, if_neg (by omega)]
    exact Function.update_of_ne hne _ _
  · intro k hk
    simp only [getWord]
    rw [hlength, if_pos (by omega)]
    have hk' : k < retSize := by omega
    have hindex : (((retOffset + k : ℕ) : ℤ) - retOffset).toNat = k := by omega
    rw [hindex, List.getElem?_map, List.getElem?_take_of_lt hk']
    cases results.output[k]? <;> rfl

/-- A call whose nested call returns results finishes with them. -/
theorem externalCall_returned {create : Context → Fr → List (Slot Fr) → Context}
    {addrOffset argsOffset argsSize retOffset retSize successOffset : ℕ} {caller after : Context}
    (hstart : createNested create addrOffset argsOffset argsSize caller = some start)
    (hrun : ∃ finished, execute environs fuel start = some (.ok results, finished))
    (h : externalCall (execute environs fuel) create addrOffset argsOffset argsSize retOffset retSize
      successOffset caller = some (.ok (), after)) :
    Returned caller.machineState.memory after.machineState.memory results.output retOffset
      (min retSize results.output.length) successOffset := by
  obtain ⟨address, calldata, hargs, rfl⟩ := createNested_eq_some hstart
  obtain ⟨finished, hrun⟩ := hrun
  rcases bind_eq_some.1 h with ⟨e, -, herror⟩ | ⟨⟨address', calldata'⟩, mid, hargs', h⟩
  · cases herror
  obtain ⟨hargs', rfl⟩ := readMemory_eq_some hargs'
  rw [hargs] at hargs'
  cases hargs'
  have hrest : (runNested (execute environs fuel) (create mid address calldata) >>= fun p =>
      finishCall retOffset retSize successOffset p.1 p.2) mid = some (.ok (), after) := h
  rcases bind_eq_some.1 hrest with ⟨e, -, herror⟩ | ⟨p, mid', hnested, hfinish⟩
  · cases herror
  obtain ⟨rfl, hn⟩ := runNested_cases hnested
  have hp := (hn p rfl).symm.trans hrun
  obtain ⟨hresults, -⟩ := Prod.mk.inj (Option.some.inj hp)
  rw [← Except.ok.inj hresults]
  exact finishCall_returned hfinish

/-- **Return data is exact exactly when its words are set and, after `Revert`, the offset is zero or
memory ends with the range.** -/
theorem returned_iff {i : Instruction} {caller after : Context}
    {indirect gasOffset addrOffset argsOffset argsSize retOffset retSize successOffset indirect' : ℕ}
    (hi : i = .call indirect gasOffset addrOffset argsOffset argsSize retOffset retSize
        successOffset ∨
      i = .staticCall indirect gasOffset addrOffset argsOffset argsSize retOffset retSize
        successOffset) (hj : j = .ret indirect' offset size ∨ j = .revert indirect' offset size)
    (hstart : i.nestedContext caller = some start)
    (hhalted : HaltedBy environs fuel j start last results)
    (h : i.execute environs (execute environs (fuel + 1)) caller = some (.ok (), after)) :
    FieldsOf last.machineState.memory offset size results.output ∧
        Returned caller.machineState.memory after.machineState.memory results.output retOffset
          (min retSize size) successOffset ↔
      (∀ k < size, offset + k < last.machineState.memory.length ∧
          (last.machineState.memory.getWord (offset + k : ℕ)).isSome) ∧
        (j = .ret indirect' offset size ∨ offset = 0 ∨
          last.machineState.memory.length ≤ offset + size) := by
  have hreturned : Returned caller.machineState.memory after.machineState.memory results.output
      retOffset (min retSize results.output.length) successOffset := by
    rcases hi with rfl | rfl
    · exact externalCall_returned hstart hhalted.run h
    · exact externalCall_returned hstart hhalted.run h
  have hand : FieldsOf last.machineState.memory offset size results.output →
      Returned caller.machineState.memory after.machineState.memory results.output retOffset
        (min retSize size) successOffset := fun hfields => hfields.1 ▸ hreturned
  rw [and_iff_left_of_imp hand]
  rcases hj with rfl | rfl
  · rw [fieldsOf_iff (hhalted.output_eq (.inl ⟨rfl, rfl⟩))]
    constructor
    · rintro ⟨hsize, hset⟩
      exact ⟨fun k hk => ⟨by omega, hset k hk⟩, .inl rfl⟩
    · rintro ⟨hset, -⟩
      refine ⟨?_, fun k hk => (hset k hk).2⟩
      by_cases hzero : size = 0
      · omega
      · have hlast := (hset (size - 1) (by omega)).1
        omega
  · rw [fieldsOf_iff (hhalted.output_eq (.inr ⟨rfl, rfl⟩))]
    constructor
    · rintro ⟨hsize, hset⟩
      exact ⟨fun k hk => ⟨by omega, hset k hk⟩, .inr (by omega)⟩
    · rintro ⟨hset, hend⟩
      replace hend := hend.resolve_left (by simp)
      refine ⟨?_, fun k hk => (hset k hk).2⟩
      by_cases hzero : size = 0
      · omega
      · have hlast := (hset (size - 1) (by omega)).1
        omega

/-- An environment in which every contract has one bytecode. -/
def Environs.running (bytecode : List UInt8) : Environs :=
  { Environs.empty with host := ⟨fun _ _ => none, fun _ => none, fun _ _ => some bytecode⟩ }

def Context.called : Context := Context.withTwoWords.createNestedContractCallContext 1 []

def Context.calledSet (dstOffset : ℕ) : Context :=
  { Context.called with
    machineState := { MachineState.new with
      pc := 1
      memory := ⟨Function.update (fun _ => none) (dstOffset : ℤ) (some (some (.uint .Uint8 5))),
        dstOffset + 1⟩ } }

theorem haltedBy_of_decode {bytecode : List UInt8} {dstOffset : ℕ}
    (hdecode : decodeFromBytecode bytecode =
      .ok [.set 0 TypeTag.UINT8.code (.number 5) dstOffset, j])
    (hset : (Instruction.set 0 TypeTag.UINT8.code (.number 5) dstOffset).execute (.running bytecode)
      (execute (.running bytecode) 3) .called = some (.ok (), .calledSet dstOffset))
    (hexecute : j.execute (.running bytecode) (execute (.running bytecode) 3)
      (.calledSet dstOffset) = some (.ok (), halted))
    (hhalted : halted.machineState.halted = true) (hpc : halted.machineState.pc = 1)
    (houtput : halted.machineState.output = [some 5])
    (hfinish : finishCall 0 1 1 ⟨halted.machineState.reverted, halted.machineState.output, none⟩ halted
      .withTwoWords = some (.ok (), context')) :
    HaltedBy (.running bytecode) 3 j .called (.calledSet dstOffset)
        ⟨halted.machineState.reverted, halted.machineState.output, none⟩ ∧
      (Instruction.call 0 0 0 0 0 0 1 1).execute (.running bytecode) (execute (.running bytecode) 4)
        .withTwoWords = some (.ok (), context') := by
  have hfetch : fetchAndDecodeBytecode (.running bytecode) .called =
      some (.ok [.set 0 TypeTag.UINT8.code (.number 5) dstOffset, j], .called) := by
    have hbytecode : fetchAndDecodeBytecode (.running bytecode) .called =
        some ((decodeFromBytecode bytecode).mapError Err.codec, .called) := rfl
    rw [hbytecode, hdecode]
    rfl
  have hrun : execute (.running bytecode) 4 .called =
      some (.ok ⟨halted.machineState.reverted, halted.machineState.output, none⟩, halted) := by
    have hloop : loop (.running bytecode) (execute (.running bytecode) 3)
        [.set 0 TypeTag.UINT8.code (.number 5) dstOffset, j] 3 .called = some (.ok (), halted) :=
      (loop_succ rfl rfl hset (by exact Nat.lt_succ_self 1)).trans
        ((loop_succ rfl rfl hexecute (by simp [hpc])).trans (loop_halted hhalted))
    rw [execute, bind_apply, hfetch]
    dsimp only
    have hassert : assertThat (decide (0 < ([.set 0 TypeTag.UINT8.code (.number 5) dstOffset, j] :
        List Instruction).length)) "" = .ok () := rfl
    rw [executeInstructions, hassert, bind_apply, liftExcept_apply]
    dsimp only
    have hprint : ContractCallResults.toString ⟨halted.machineState.reverted,
        halted.machineState.output, none⟩ = .ok [some (BigEndian.write 32 5)] := by
      rw [ContractCallResults.toString, houtput]
      rfl
    rw [tryCatch_apply, bind_apply, hloop]
    simp only [bind_apply, get_apply, liftExcept_apply, hprint]
    rfl
  have harguments : callArguments 0 0 0 Context.withTwoWords.machineState.memory = .ok (1, []) := by
    decide
  refine ⟨⟨⟨_, hrun⟩, _, _, hfetch, .single ⟨rfl, Nat.lt_succ_self 1, _, rfl, hset⟩, rfl, rfl, hexecute⟩, ?_⟩
  refine bind_eq_some.2 (.inr ⟨(1, []), _, congrArg (fun r => some (r, _)) harguments, ?_⟩)
  refine bind_eq_some.2 (.inr ⟨_, _, rfl, bind_eq_some.2 (.inr ⟨(_, halted), _, ?_, hfinish⟩)⟩)
  rw [runNested, show execute (.running bytecode) 4 (Context.withTwoWords.createNestedContractCallContext
    1 []) = _ from hrun]

theorem nestedContext_withTwoWords :
    (Instruction.call 0 0 0 0 0 0 1 1).nestedContext .withTwoWords = some .called := by
  have harguments : callArguments 0 0 0 Context.withTwoWords.machineState.memory = .ok (1, []) := by
    decide
  rw [Instruction.nestedContext, createNested, harguments]
  rfl

/-- A number that is set and returned. -/
theorem returned_set : ∃ (results : ContractCallResults) (after : TaggedMemory),
    FieldsOf (Context.calledSet 0).machineState.memory 0 1 results.output ∧
      Returned Context.withTwoWords.machineState.memory after results.output 0 (min 1 1) 1 := by
  have hdecode : decodeFromBytecode [39, 0, 1, 5, 0, 0, 0, 0, 55, 0, 0, 0, 0, 0, 0, 0, 0, 1] =
      .ok [.set 0 TypeTag.UINT8.code (.number 5) 0, .ret 0 0 1] := by decide +kernel
  obtain ⟨hhalted, hcall⟩ := haltedBy_of_decode hdecode rfl rfl rfl rfl rfl rfl
  refine ⟨_, _, (returned_iff (.inl rfl) (.inl rfl) nestedContext_withTwoWords hhalted hcall).2
    ⟨fun k hk => ?_, .inl rfl⟩⟩
  obtain rfl : k = 0 := by omega
  exact ⟨by decide, rfl⟩

/-- **After `Revert` the output is longer than its size.** -/
theorem not_returned :
    ¬∀ (environs : Environs) (fuel offset size indirect : ℕ) (start last : Context)
      (results : ContractCallResults),
      HaltedBy environs fuel (.revert indirect offset size) start last results →
        FieldsOf last.machineState.memory offset size results.output := by
  intro h
  have hdecode : decodeFromBytecode [39, 0, 1, 5, 0, 0, 0, 1, 56, 0, 0, 0, 0, 1, 0, 0, 0, 0] =
      .ok [.set 0 TypeTag.UINT8.code (.number 5) 1, .revert 0 1 0] := by decide +kernel
  obtain ⟨hhalted, -⟩ := haltedBy_of_decode hdecode rfl rfl rfl rfl rfl rfl
  have hlength := (h _ _ _ _ _ _ _ _ hhalted).1
  cases hlength

end ReturnData

end Avm
