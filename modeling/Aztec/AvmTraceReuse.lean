/-
**Reuse of the trace builder of the AVM circuit.**

`reset` keeps the program counter, the call stack with its pointer, the tags of the memory and the
lookup counts.  A reader of the next trace sees each of them.
-/

import Aztec.AvmMemTable

open List Option

namespace AvmTrace

open AvmTraceBuilder AvmMemTraceBuilder

/-- The trace of a sequence of operations, unless one of them throws. -/
def finalizedTrace (self : AvmTraceBuilder) (operations : List Operation) : Option (List Row) :=
  (run self operations).bind fun builder => builder.finalize.map Prod.fst

/-- The builder after `reset` or after `finalize`. -/
def AvmTraceBuilder.Reused (self after : AvmTraceBuilder) : Prop :=
  after = self.reset ∨ ∃ trace, self.finalize = some (trace, after)

/-- **What is not reset is as in a new builder.** -/
structure AvmTraceBuilder.Afresh (builder : AvmTraceBuilder) : Prop where
  pc : builder.pc = 0
  internalReturnPtr : builder.internalReturnPtr = CALLSTACK_OFFSET
  memoryTag : ∀ addr < MEM_SIZE, builder.memTraceBuilder.memoryTag addr = .U0
  tagErrLookupCounts : builder.memTraceBuilder.tagErrLookupCounts = []

/-- The destination of a jump is a `uint32_t`. -/
def Operation.Typed : Operation → Prop
  | jump jmpDest | internalCall jmpDest => jmpDest < 2 ^ 32
  | _ => True

/-! ### What holds of every builder -/

/-- Loads of the first row find no tag, so that the counts are those of later clocks. -/
structure MemReachable (clk : ℕ) (mem : AvmMemTraceBuilder) : Prop where
  outside : ∀ addr, MEM_SIZE ≤ addr → mem.memoryTag addr = .U0
  first : clk = 0 → ∀ addr, mem.memoryTag addr = .U0
  counts : ∀ c ∈ mem.tagErrLookupCounts, 0 < c

structure Reachable (builder : AvmTraceBuilder) : Prop where
  mem : MemReachable builder.mainTrace.length builder.memTraceBuilder
  pc : builder.pc < 2 ^ 32
  internalReturnPtr : builder.internalReturnPtr = CALLSTACK_OFFSET + builder.internalCallStack.length
  stack : ∀ storedPc ∈ builder.internalCallStack, storedPc < 2 ^ 32
  bound : builder.internalReturnPtr ≤ MEM_SIZE

section Reachable

variable {clk t addr pos : ℕ} {reg : IntermRegister} {inTag : AvmMemoryTag} {result : MemRead}
  {mem mem' : AvmMemTraceBuilder} {val : FF} {before after : AvmTraceBuilder} {present : Bool}
  {operations : List Operation}

theorem MemReachable.of_pos {clk' : ℕ} (h : MemReachable clk mem) (hpos : 0 < clk') :
    MemReachable clk' mem :=
  { h with first := fun hzero => absurd hzero hpos.ne' }

theorem MemReachable.read (h : MemReachable clk mem)
    (hread : mem.readAndLoadFromMemory clk reg addr inTag = some (result, mem')) :
    MemReachable clk mem' := by
  obtain ⟨y, hloaded⟩ := readAndLoadFromMemory_eq_some hread
  refine ⟨by rw [hloaded.memoryTag]; exact h.outside, by rw [hloaded.memoryTag]; exact h.first, ?_⟩
  simp only [readAndLoadFromMemory, loadInMemTrace] at hread
  split_ifs at hread with hlt hmatch
  · cases hread
    exact h.counts
  · cases hread
    intro c hc
    rcases mem_append.1 hc with hc | hc
    · exact h.counts c hc
    · rw [mem_singleton.1 hc]
      exact Nat.pos_of_ne_zero fun hzero => hmatch (.inl (h.first hzero addr))

theorem MemReachable.write {clk' : ℕ} (h : MemReachable clk mem) (hpos : 0 < clk')
    (hwrite : mem.writeIntoMemory t reg addr val inTag = some mem') :
    MemReachable clk' mem' ∧ addr < MEM_SIZE := by
  rw [writeIntoMemory] at hwrite
  split at hwrite
  · next hlt =>
    cases hwrite
    refine ⟨⟨fun a ha => ?_, fun hzero => absurd hzero hpos.ne', h.counts⟩, hlt⟩
    exact (Function.update_of_ne (by omega) _ _).trans (h.outside a ha)
  · cases hwrite

theorem MemReachable.storeCalldata {callDataMem : List FF} {cdIdx memIdx clk' : ℕ} {r : RegisterOp}
    (h : MemReachable clk mem) (hpos : 0 < clk') (hstore : AvmTraceBuilder.storeCalldata callDataMem
      t reg present cdIdx memIdx mem = some (r, mem')) : MemReachable clk' mem' := by
  rw [AvmTraceBuilder.storeCalldata] at hstore
  split at hstore
  · simp only [bind_eq_bind, bind_eq_some_iff] at hstore
    obtain ⟨value, -, mid, hwrite, heq⟩ := hstore
    cases heq
    exact (h.write hpos hwrite).1
  · cases hstore
    exact h.of_pos hpos

theorem MemReachable.loadReturn {memIdx : ℕ} {tagMatch : Bool} {values : List FF} {r : RegisterOp}
    (h : MemReachable clk mem) (hload : AvmTraceBuilder.loadReturn clk reg present memIdx mem =
      some (tagMatch, values, r, mem')) : MemReachable clk mem' := by
  rw [AvmTraceBuilder.loadReturn] at hload
  split at hload
  · simp only [bind_eq_bind, bind_eq_some_iff] at hload
    obtain ⟨⟨read, mid⟩, hread, heq⟩ := hload
    cases heq
    exact h.read hread
  · cases hload
    exact h

section

variable (h : Reachable before)
include h

/-- One more row, with what the operation has done to the memory. -/
theorem Reachable.row (hmem : MemReachable (before.mainTrace.length + 1) after.memTraceBuilder)
    (htrace : after.mainTrace.length = before.mainTrace.length + 1) (hpc : after.pc < 2 ^ 32)
    (hptr : after.internalReturnPtr = before.internalReturnPtr)
    (hstack : after.internalCallStack = before.internalCallStack) : Reachable after where
  mem := htrace ▸ hmem
  pc := hpc
  internalReturnPtr := by rw [hptr, hstack, h.internalReturnPtr]
  stack := hstack ▸ h.stack
  bound := hptr ▸ h.bound

/-- One more row of an operation that goes on to the next one. -/
theorem Reachable.incrementPc (alu : AvmAluTraceBuilder) {row : MainRow}
    (hmem : MemReachable (before.mainTrace.length + 1) mem) :
    Reachable ({ before with aluTraceBuilder := alu }.pushBack mem row).incrementPc :=
  h.row hmem length_append (Nat.mod_lt _ (by norm_num)) rfl rfl

theorem Reachable.halt : Reachable before.halt :=
  h.row (h.mem.of_pos (Nat.succ_pos _)) length_append (Nat.lt_succ_self (2 ^ 32 - 1)) rfl rfl

section

variable (hclk : before.clk = before.mainTrace.length)
include hclk

variable {aOffset bOffset dstOffset : ℕ}

theorem Reachable.aluOperation {aluOp : AvmAluTraceBuilder → FF → FF → AvmMemoryTag → ℕ → FF × AvmAluTraceBuilder}
    {select : MainRow → MainRow} (hexec : before.aluOperation aluOp select aOffset bOffset dstOffset inTag = some after) :
    Reachable after := by
  simp only [AvmTraceBuilder.aluOperation, bind_eq_bind, bind_eq_some_iff] at hexec
  obtain ⟨⟨readA, memA⟩, ha, ⟨readB, memB⟩, hb, memC, hc, heq⟩ := hexec
  cases heq
  rw [hclk] at ha hb
  exact h.incrementPc _ (((h.mem.read ha).read hb).write (Nat.succ_pos _) hc).1

theorem Reachable.opDiv (hexec : before.opDiv aOffset bOffset dstOffset inTag = some after) : Reachable after := by
  simp only [AvmTraceBuilder.opDiv, bind_eq_bind, bind_eq_some_iff] at hexec
  obtain ⟨⟨readA, memA⟩, ha, ⟨readB, memB⟩, hb, memC, hc, heq⟩ := hexec
  cases heq
  rw [hclk] at ha hb
  exact h.incrementPc before.aluTraceBuilder (((h.mem.read ha).read hb).write (Nat.succ_pos _) hc).1

theorem Reachable.opNot {aOffset dstOffset : ℕ} (hexec : before.opNot aOffset dstOffset inTag = some after) :
    Reachable after := by
  simp only [AvmTraceBuilder.opNot, bind_eq_bind, bind_eq_some_iff] at hexec
  obtain ⟨⟨readA, memA⟩, ha, memC, hc, heq⟩ := hexec
  cases heq
  rw [hclk] at ha
  exact h.incrementPc _ ((h.mem.read ha).write (Nat.succ_pos _) hc).1

end

end

theorem Reachable.calldataCopyFrom {cdOffset copySize dstOffset : ℕ} {callDataMem : List FF}
    (h : Reachable before) (hexec : before.calldataCopyFrom cdOffset copySize dstOffset callDataMem
      pos = some after) : Reachable after := by
  induction hm : copySize - pos using Nat.strong_induction_on generalizing pos before with
  | _ m ih =>
    rw [AvmTraceBuilder.calldataCopyFrom] at hexec
    split at hexec
    · next hlt =>
      simp only [bind_eq_bind, bind_eq_some_iff] at hexec
      obtain ⟨⟨a, memA⟩, ha, ⟨b, memB⟩, hb, ⟨c, memC⟩, hc, hrest⟩ := hexec
      have hpos := Nat.succ_pos before.mainTrace.length
      refine ih _ ?_ (h.incrementPc before.aluTraceBuilder
        (((h.mem.storeCalldata hpos ha).storeCalldata hpos hb).storeCalldata hpos hc)) hrest rfl
      split <;> omega
    · cases hexec
      exact h

theorem Reachable.returnFrom {retOffset retSize : ℕ} {returnMem returnMem' : List FF}
    (h : Reachable before) (hlength : after.mainTrace.length < 2 ^ 32)
    (hexec : before.returnFrom retOffset retSize pos returnMem = some (returnMem', after)) :
    Reachable after := by
  induction hm : retSize - pos using Nat.strong_induction_on generalizing pos before returnMem with
  | _ m ih =>
    have hle := (rowSteps_returnFrom hexec).length_le
    rw [AvmTraceBuilder.returnFrom] at hexec
    split at hexec
    · next hlt =>
      simp only [bind_eq_bind, bind_eq_some_iff] at hexec
      obtain ⟨⟨matchA, valuesA, a, memA⟩, ha, ⟨matchB, valuesB, b, memB⟩, hb,
        ⟨matchC, valuesC, c, memC⟩, hc, hrest⟩ := hexec
      rw [clk_eq before (by omega)] at ha hb hc
      have hmem := ((h.mem.loadReturn ha).loadReturn hb).loadReturn hc
      refine ih _ ?_ ?_ hrest rfl
      · split <;> omega
      · exact h.row (hmem.of_pos (Nat.succ_pos _)) length_append h.pc rfl rfl
    · cases hexec
      exact h

theorem Reachable.execute {operation : Operation} (h : Reachable before)
    (hexec : operation.execute before = some after) (htyped : operation.Typed)
    (hlength : after.mainTrace.length < 2 ^ 32) : Reachable after := by
  have hle := (Operation.steps hexec).length_le
  have hclk := clk_eq before (by omega)
  have hpos := Nat.succ_pos before.mainTrace.length
  cases operation with
  | opAdd aOffset bOffset dstOffset inTag =>
    rw [Operation.execute, opAdd] at hexec
    exact h.aluOperation hclk hexec
  | opSub aOffset bOffset dstOffset inTag =>
    rw [Operation.execute, opSub] at hexec
    exact h.aluOperation hclk hexec
  | opMul aOffset bOffset dstOffset inTag =>
    rw [Operation.execute, opMul] at hexec
    exact h.aluOperation hclk hexec
  | opDiv aOffset bOffset dstOffset inTag =>
    rw [Operation.execute] at hexec
    exact h.opDiv hclk hexec
  | opEq aOffset bOffset dstOffset inTag =>
    rw [Operation.execute, opEq] at hexec
    exact h.aluOperation hclk hexec
  | opNot aOffset dstOffset inTag =>
    rw [Operation.execute] at hexec
    exact h.opNot hclk hexec
  | set val dstOffset inTag =>
    obtain ⟨mem, hc, heq⟩ := bind_eq_some_iff.1 hexec
    cases heq
    exact h.incrementPc before.aluTraceBuilder (h.mem.write hpos hc).1
  | calldataCopy cdOffset copySize dstOffset callDataMem => exact h.calldataCopyFrom hexec
  | returnOp retOffset retSize =>
    obtain ⟨⟨returnMem, mid⟩, hreturn, rfl⟩ := map_eq_some_iff.1 hexec
    rw [returnOp] at hreturn
    split at hreturn
    · cases hreturn
      exact h.halt
    · simp only [bind_eq_bind, bind_eq_some_iff] at hreturn
      obtain ⟨⟨returnMem', last⟩, hfrom, heq⟩ := hreturn
      cases heq
      have hlast : Reachable last := h.returnFrom hlength hfrom
      exact { hlast with pc := Nat.lt_succ_self (2 ^ 32 - 1) }
  | halt =>
    cases hexec
    exact h.halt
  | jump jmpDest =>
    cases hexec
    exact h.row (h.mem.of_pos hpos) length_append htyped rfl rfl
  | internalCall jmpDest =>
    obtain ⟨mem, hb, heq⟩ := bind_eq_some_iff.1 hexec
    cases heq
    obtain ⟨hmem, hptr⟩ := h.mem.write hpos hb
    rw [MEM_SIZE] at hptr
    have hnext : (before.internalReturnPtr + 1) % 2 ^ 32 = before.internalReturnPtr + 1 :=
      Nat.mod_eq_of_lt (by omega)
    refine ⟨by rw [pushBack, length_append]; exact hmem, htyped, ?_, ?_, hnext.le.trans hptr⟩
    · rw [length_cons, ← add_assoc, ← h.internalReturnPtr]
      exact hnext
    · rintro storedPc (_ | ⟨_, hstored⟩)
      · exact Nat.mod_lt _ (by norm_num)
      · exact h.stack storedPc hstored
  | internalReturn =>
    simp only [Operation.execute, internalReturn, bind_eq_bind, bind_eq_some_iff] at hexec
    obtain ⟨⟨readA, mem⟩, ha, heq⟩ := hexec
    have hreturn := h.internalReturnPtr
    split at heq
    · cases heq
    · next top stack hstack =>
      cases heq
      have hbound := h.bound
      rw [hstack, length_cons] at hreturn
      have hptr : before.returnPtr = CALLSTACK_OFFSET + stack.length := by
        rw [returnPtr, hreturn]
        rw [hreturn, MEM_SIZE] at hbound
        omega
      rw [hclk] at ha
      refine ⟨by
        rw [pushBack, length_append]
        exact (h.mem.read ha).of_pos hpos, h.stack top (by simp [hstack]), hptr,
        fun storedPc hstored => h.stack storedPc (by simp [hstack, hstored]), ?_⟩
      exact hptr.le.trans (by omega)

theorem Reachable.run (h : Reachable before) (hrun : run before operations = some after)
    (htyped : ∀ operation ∈ operations, operation.Typed)
    (hlength : after.mainTrace.length < 2 ^ 32) : Reachable after := by
  induction operations generalizing before with
  | nil =>
    cases hrun
    exact h
  | cons operation rest ih =>
    obtain ⟨mid, hmid, hrest⟩ := run_cons.1 hrun
    have hle := length_le_run hrest
    exact ih (h.execute hmid (htyped _ mem_cons_self) (by omega)) hrest
      fun other hother => htyped _ (mem_cons_of_mem _ hother)

theorem Reachable.new : Reachable {} :=
  ⟨⟨fun _ _ => rfl, fun _ _ => rfl, by simp⟩, by decide, rfl, by simp, by decide⟩

end Reachable

/-! ### What the next trace shows -/

variable {self other : AvmTraceBuilder} {operations : List Operation} {builder : AvmTraceBuilder}

/-- A builder in which nothing is left is a new one. -/
theorem AvmTraceBuilder.Afresh.reset_eq (h : builder.Afresh) (hreach : Reachable builder) :
    builder.reset = {} := by
  obtain ⟨main, ⟨memTrace, memory, memoryTag, counts⟩, alu, pc, ptr, stack⟩ := builder
  obtain ⟨rfl, rfl, htag, rfl⟩ := h
  have hstack : stack = [] := length_eq_zero_iff.1 (by simpa using hreach.internalReturnPtr)
  have hmemoryTag : memoryTag = fun _ => .U0 := by
    funext addr
    rcases Nat.lt_or_ge addr MEM_SIZE with hlt | hge
    · exact htag addr hlt
    · exact hreach.mem.outside addr hge
  rw [hstack, hmemoryTag]
  rfl

/-- Two traces are one only if their first rows are, and the clocks counted are rows. -/
theorem first_eq (hsome : ∃ trace after, other.finalize = some (trace, after))
    (heq : self.finalize.map Prod.fst = other.finalize.map Prod.fst) :
    self.mainRow 0 = other.mainRow 0 ∧
      ∀ clk ∈ self.memTraceBuilder.tagErrLookupCounts, clk < self.mainTrace.length := by
  obtain ⟨trace, after, hother⟩ := hsome
  rw [hother] at heq
  obtain ⟨⟨trace', after'⟩, hself, htrace⟩ := map_eq_some_iff.1 heq
  rw [AvmTraceBuilder.finalize] at hself hother
  split at hself
  · next hsizes =>
    split at hother
    · refine ⟨?_, hsizes.1⟩
      rw [some.injEq, Prod.mk.injEq] at hself hother
      rw [← hself.1, ← hother.1] at htrace
      exact congrArg (fun rows => ((rows.getD 1 firstRow).main)) htrace
    · cases hother
  · cases hself

theorem finalizedTrace_cons {operation : Operation} {after : AvmTraceBuilder}
    (h : operation.execute self = some after) :
    finalizedTrace self [operation] = after.finalize.map Prod.fst := by
  rw [finalizedTrace, run, foldlM_cons, h]
  rfl

/-- A halt shows the program counter, the pointer and the counts. -/
theorem halt_shows (hreach : Reachable builder)
    (h : finalizedTrace builder.reset [.halt] = finalizedTrace {} [.halt]) :
    builder.pc = 0 ∧ builder.internalReturnPtr = CALLSTACK_OFFSET ∧
      builder.memTraceBuilder.tagErrLookupCounts = [] := by
  rw [finalizedTrace_cons rfl, finalizedTrace_cons rfl] at h
  have hnew : ∃ trace after, AvmTraceBuilder.finalize (AvmTraceBuilder.halt {}) =
      some (trace, after) := exists_finalize rfl (by decide) (by decide) (by decide) (by decide)
  obtain ⟨hrow, hcounts⟩ := first_eq hnew h
  have hpc : (builder.pc : FF) = (0 : ℕ) := congrArg MainRow.pc hrow
  have hptr : (builder.internalReturnPtr : FF) = (CALLSTACK_OFFSET : ℕ) :=
    congrArg MainRow.internalReturnPtr hrow
  have hbound := hreach.bound
  rw [MEM_SIZE] at hbound
  refine ⟨FF.natCast_injOn (FF.lt_fieldModulus (by have := hreach.pc; omega))
    (FF.lt_fieldModulus (by norm_num)) hpc, FF.natCast_injOn (FF.lt_fieldModulus (by omega))
    (FF.lt_fieldModulus (by decide)) hptr, eq_nil_iff_forall_not_mem.2 fun clk hclk => ?_⟩
  have hzero : clk < 1 := hcounts clk hclk
  have hpos := hreach.mem.counts clk hclk
  omega

/-- The row of a division of a cell by itself on an empty trace. -/
theorem opDiv_row (self : AvmTraceBuilder) {addr : ℕ} (inTag : AvmMemoryTag) (hlt : addr < MEM_SIZE)
    (hmain : self.mainTrace = []) :
    ∃ after, (Operation.opDiv addr addr addr inTag).execute self = some after ∧
      (after.mainRow 0).tagErr = FF.ofBool !decide (self.memTraceBuilder.memoryTag addr = .U0 ∨
        self.memTraceBuilder.memoryTag addr = inTag) ∧ after.mainTrace.length = 1 ∧
      after.aluTraceBuilder = self.aluTraceBuilder ∧ (self.memTraceBuilder.memoryTag addr = .U0 →
        after.memTraceBuilder.tagErrLookupCounts = self.memTraceBuilder.tagErrLookupCounts ∧
        after.memTraceBuilder.memTrace.length = self.memTraceBuilder.memTrace.length + 3) := by
  by_cases hmatch : self.memTraceBuilder.memoryTag addr = .U0 ∨
      self.memTraceBuilder.memoryTag addr = inTag
  · simp [Operation.execute, AvmTraceBuilder.opDiv, readAndLoadFromMemory, loadInMemTrace, hlt,
      hmatch, insertInMemTrace, writeIntoMemory, storeInMemTrace, mainRow, pushBack,
      AvmTraceBuilder.incrementPc, hmain, binaryRow]
  · obtain ⟨hzero, hne⟩ := not_or.1 hmatch
    simp [Operation.execute, AvmTraceBuilder.opDiv, readAndLoadFromMemory, loadInMemTrace, hlt, hne,
      loadMismatchTagInMemTrace, writeIntoMemory, storeInMemTrace, insertInMemTrace, hzero, mainRow,
      pushBack, AvmTraceBuilder.incrementPc, hmain, binaryRow]

/-- A division with another tag shows the tag of a cell. -/
theorem opDiv_shows {addr : ℕ} {inTag : AvmMemoryTag} (hlt : addr < MEM_SIZE)
    (h : finalizedTrace builder.reset [.opDiv addr addr addr inTag] =
      finalizedTrace {} [.opDiv addr addr addr inTag]) :
    builder.memTraceBuilder.memoryTag addr = .U0 ∨
      builder.memTraceBuilder.memoryTag addr = inTag := by
  obtain ⟨after, hafter, hrow, -⟩ := opDiv_row builder.reset inTag hlt rfl
  obtain ⟨fresh, hfresh, hfreshRow, hlength, halu, hmem⟩ :=
    opDiv_row {} inTag hlt rfl
  obtain ⟨hcounts, htrace⟩ := hmem rfl
  rw [finalizedTrace_cons hafter, finalizedTrace_cons hfresh] at h
  have hfinal := exists_finalize hcounts (by rw [htrace]; decide)
    (by rw [hlength]; decide) (by rw [hlength]; decide) (by rw [halu]; decide)
  have htagErr := congrArg MainRow.tagErr (first_eq hfinal h).1
  rw [hrow, hfreshRow] at htagErr
  by_contra hmatch
  simp [AvmTraceBuilder.reset, AvmMemTraceBuilder.reset, hmatch] at htagErr

/-- **A builder can be used again exactly when the program counter, the pointer of the call stack,
the tags and the lookup counts are as in a new one.** -/
theorem reused_iff {ops1 : List Operation} (hrun : run {} ops1 = some builder)
    (htyped : ∀ operation ∈ ops1, operation.Typed) (hlength : builder.mainTrace.length < 2 ^ 32) :
    (∀ after, builder.Reused after → ∀ ops2, finalizedTrace after ops2 = finalizedTrace {} ops2) ↔
      builder.Afresh := by
  have hreach := Reachable.new.run hrun htyped hlength
  constructor
  · intro h
    have hreset := h _ (.inl rfl)
    obtain ⟨hpc, hptr, hcounts⟩ := halt_shows hreach (hreset [.halt])
    refine ⟨hpc, hptr, fun addr hlt => ?_, hcounts⟩
    rcases opDiv_shows hlt (hreset [.opDiv addr addr addr .U8]) with hzero | hU8
    · exact hzero
    · rcases opDiv_shows hlt (hreset [.opDiv addr addr addr .U16]) with hzero | hU16
      · exact hzero
      · rw [hU8] at hU16
        cases hU16
  · intro h after hafter ops2
    suffices heq : after = builder.reset by rw [heq, h.reset_eq hreach]
    obtain rfl | ⟨trace, hfinal⟩ := hafter
    · rfl
    · rw [AvmTraceBuilder.finalize] at hfinal
      split at hfinal
      · cases hfinal
        rfl
      · cases hfinal

/-- A jump to the start leaves nothing behind. -/
theorem reused_jump : ∃ builder : AvmTraceBuilder, run {} [.jump 0] = some builder ∧
    ∀ after, builder.Reused after → ∀ ops2, finalizedTrace after ops2 = finalizedTrace {} ops2 := by
  refine ⟨_, rfl, (reused_iff (show run {} [.jump 0] = some _ from rfl) ?_ (by decide)).2
    ⟨rfl, rfl, ?_, rfl⟩⟩
  · simp [Operation.Typed]
  · exact fun _ _ => rfl

/-- **The program counter is not reset.** -/
theorem not_reused :
    ¬∀ (ops1 ops2 : List Operation) (builder after : AvmTraceBuilder), run {} ops1 = some builder →
      builder.Reused after → finalizedTrace after ops2 = finalizedTrace {} ops2 := by
  intro h
  have hreach : Reachable (({} : AvmTraceBuilder).jump 1) :=
    Reachable.new.run (show run {} [.jump 1] = some _ from rfl) (by simp [Operation.Typed])
      (by decide)
  have hpc := (halt_shows hreach (h [.jump 1] [.halt] _ _ rfl (.inl rfl))).1
  cases hpc

end AvmTrace
