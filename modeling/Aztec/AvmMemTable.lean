/-
**The memory table of the AVM circuit.**
-/

import Aztec.AvmTraceBuilder

open List

namespace AvmTrace

/-! ### The final trace -/

structure MemRow where
  mClk : FF := 0
  mSubClk : FF := 0
  mAddr : FF := 0
  mTag : FF := 0
  mVal : FF := 0
  mLastAccess : FF := 0
  mLast : FF := 0
  mRw : FF := 0
  mInTag : FF := 0
  mTagErr : FF := 0
  mOneMinInv : FF := 0

structure Row where
  main : MainRow
  mem : MemRow
  alu : AluRow

def AVM_TRACE_SIZE : ℕ := 256

def MemoryTraceEntry.toRow (src : MemoryTraceEntry) : MemRow where
  mClk := src.mClk
  mSubClk := src.mSubClk
  mAddr := src.mAddr
  mVal := src.mVal
  mRw := FF.ofBool src.mRw
  mInTag := ofTag src.mInTag
  mTag := ofTag src.mTag
  mTagErr := FF.ofBool src.mTagErr
  mOneMinInv := src.mOneMinInv

/-- The row of the memory table at a place, where the sorted trace has one. -/
def memRow (memTrace : List MemoryTraceEntry) (i : ℕ) : MemRow :=
  match memTrace[i]? with
  | none => {}
  | some src =>
    match memTrace[i + 1]? with
    | some next => { src.toRow with mLastAccess := FF.ofBool (src.mAddr != next.mAddr) }
    | none => { src.toRow with mLastAccess := 1, mLast := 1 }

namespace AvmTraceBuilder

/-- The row of the main trace at a place, filled with zeros. -/
def mainRow (self : AvmTraceBuilder) (i : ℕ) : MainRow :=
  match self.mainTrace[i]? with
  | none => {}
  | some row =>
    { row with
      equivTagErrCounts := self.memTraceBuilder.tagErrLookupCounts.count i
      last := if i + 1 = self.mainTrace.length then 1 else row.last }

def reset (self : AvmTraceBuilder) : AvmTraceBuilder :=
  { self with
    mainTrace := []
    memTraceBuilder := self.memTraceBuilder.reset
    aluTraceBuilder := {} }

def firstRow : Row := ⟨{ first := 1 }, { mLastAccess := 1 }, AluTraceEntry.toRow {}⟩

/-- `finalize`, with the checks of the sizes and of the places that are written to. -/
def finalize (self : AvmTraceBuilder) : Option (List Row × AvmTraceBuilder) :=
  let memTrace := self.memTraceBuilder.finalize
  let aluTrace := self.aluTraceBuilder.aluTrace
  if (∀ clk ∈ self.memTraceBuilder.tagErrLookupCounts, clk < self.mainTrace.length) ∧
      memTrace.length < AVM_TRACE_SIZE ∧ self.mainTrace.length < AVM_TRACE_SIZE ∧
      aluTrace.length < AVM_TRACE_SIZE ∧ 0 < self.mainTrace.length then
    some (firstRow :: (List.range (AVM_TRACE_SIZE - 1)).map fun i =>
      ⟨self.mainRow i, memRow memTrace i, (aluTrace[i]?.getD {}).toRow⟩, self.reset)
  else none

end AvmTraceBuilder

/-! ### The relations of the table -/

/-- The relations of the memory table at a row and the one after it. -/
structure MemRelations (row next : MemRow) : Prop where
  lastAccess : row.mLastAccess * (1 - row.mLastAccess) = 0
  last : row.mLast * (1 - row.mLast) = 0
  rw : row.mRw * (1 - row.mRw) = 0
  tagErr : row.mTagErr * (1 - row.mTagErr) = 0
  lastAccessDelimiter : (1 - row.mLastAccess) * (next.mAddr - row.mAddr) = 0
  readWriteValConsistency :
    (1 - row.mLastAccess) * (1 - next.mRw) * (next.mVal - row.mVal) = 0
  readWriteTagConsistency :
    (1 - row.mLastAccess) * (1 - next.mRw) * (next.mTag - row.mTag) = 0
  zeroInit : row.mLastAccess * (1 - next.mRw) * next.mVal = 0
  inTagConsistency1 : (row.mInTag - row.mTag) * (1 - row.mOneMinInv) - row.mTagErr = 0
  inTagConsistency2 : (1 - row.mTagErr) * row.mOneMinInv = 0

/-- What the memory table of a sorted trace should be.  A shifted column is zero on the last row. -/
structure MemTableCorrect (entries : List MemoryTraceEntry) (table : List MemRow) : Prop where
  included : ∀ i y, entries[i]? = some y → ∃ lastAccess last,
    table[i + 1]? = some { y.toRow with mLastAccess := lastAccess, mLast := last }
  sorted : entries.Pairwise fun x y => x.lt y = true
  lastAccess : ∀ i y row, entries[i]? = some y → table[i + 1]? = some row →
    (row.mLastAccess = 1 ↔ ∀ z, entries[i + 1]? = some z → z.mAddr ≠ y.mAddr)
  read : ∀ i x y, entries[i]? = some x → entries[i + 1]? = some y → x.mAddr = y.mAddr →
    Follows x y
  firstLoad : ∀ i y, entries[i]? = some y → (∀ x ∈ entries.take i, x.mAddr ≠ y.mAddr) → ZeroInit y
  tagChecked : ∀ y ∈ entries, TagChecked y
  relations : (table ++ [({} : MemRow)]).IsChain MemRelations

/-! ### Consistent runs -/

/-- Every read of the operation agrees with the accesses before it. -/
def Operation.Consistent (self : AvmTraceBuilder) (operation : Operation) : Prop :=
  ∀ addr ∈ operation.reads self, ConsistentRead self.memTraceBuilder addr operation.inTag

/-- **Every operation of the sequence is consistent.** -/
def ConsistentRun : AvmTraceBuilder → List Operation → Prop
  | _, [] => True
  | self, operation :: rest => operation.Consistent self ∧
      ∀ after, operation.execute self = some after → ConsistentRun after rest

variable {y : MemoryTraceEntry} {b : Bool} {x : FF} {entries : List MemoryTraceEntry} {i : ℕ}
  {builder : AvmTraceBuilder}

theorem Stored.consistentRead {mem mem' : AvmMemTraceBuilder} {clk addr : ℕ} {reg : IntermRegister}
    {val : FF} {inTag : AvmMemoryTag} (h : Stored mem mem' clk reg addr val inTag y) {other : ℕ}
    (hother : ConsistentRead mem other inTag) : ConsistentRead mem' other inTag := by
  intro htag x hx
  rw [accesses_append h.memTrace] at hx
  split at hx
  · rw [getLast?_append_of_ne_nil _ (by simp)] at hx
    obtain rfl : x = y := (Option.some.inj hx).symm
    exact h.mTag
  · next hne =>
    rw [h.mAddr] at hne
    rw [h.memoryTag, Function.update_of_ne (Ne.symm hne)] at htag
    exact hother htag x hx

section Invariant

variable {clk : ℕ} {inTag : AvmMemoryTag} {mem mem' : AvmMemTraceBuilder} {t : ℕ}

variable {loads : List (IntermRegister × ℕ)} {other : ℕ} {stores : List (IntermRegister × ℕ × FF)}
  {reads : List ℕ} {operations : List Operation}

theorem Loads.consistentRead (h : Loads clk inTag mem loads mem')
    (hother : ConsistentRead mem other inTag) : ConsistentRead mem' other inTag := by
  induction h with
  | nil mem => exact hother
  | cons head tail ih => exact ih (head.consistentRead hother)

theorem Stores.consistentRead (h : Stores clk inTag mem stores mem')
    (hother : ConsistentRead mem other inTag) : ConsistentRead mem' other inTag := by
  induction h with
  | nil mem => exact hother
  | cons head tail ih => exact ih (head.consistentRead hother)

theorem Loads.memInvariant (h : Loads clk inTag mem loads mem') (hmem : MemInvariant mem t)
    (hend : t ≤ 6 * clk + 3) (hstart : ∀ p ∈ loads, t ≤ 6 * clk + p.1.subClkLoad)
    (horder : (loads.map fun p => p.1.subClkLoad).Pairwise (· < ·))
    (hconsistent : ∀ p ∈ loads, ConsistentRead mem p.2 inTag) :
    MemInvariant mem' (6 * clk + 3) := by
  induction h generalizing t with
  | nil mem => exact hmem.mono hend
  | @cons mem mid mem' reg addr read y rest head tail ih =>
    rw [map_cons, pairwise_cons] at horder
    have hsub : reg.subClkLoad < 3 := by cases reg <;> decide
    refine ih (hmem.load head (hstart _ mem_cons_self) (hconsistent _ mem_cons_self))
      (by omega) (fun p hp => ?_) horder.2 fun p hp => ?_
    · have hlt : reg.subClkLoad < p.1.subClkLoad := horder.1 _ (mem_map_of_mem hp)
      omega
    · exact head.consistentRead (hconsistent p (mem_cons_of_mem _ hp))

theorem Stores.memInvariant (h : Stores clk inTag mem stores mem') (hmem : MemInvariant mem t)
    (hend : t ≤ 6 * clk + 6) (hstart : ∀ p ∈ stores, t ≤ 6 * clk + p.1.subClkStore)
    (horder : (stores.map fun p => p.1.subClkStore).Pairwise (· < ·)) :
    MemInvariant mem' (6 * clk + 6) := by
  induction h generalizing t with
  | nil mem => exact hmem.mono hend
  | @cons mem mid mem' reg addr val y rest head tail ih =>
    rw [map_cons, pairwise_cons] at horder
    have hsub : reg.subClkStore < 6 := by cases reg <;> decide
    refine ih (hmem.store head (hstart _ mem_cons_self)) (by omega) (fun p hp => ?_) horder.2
    have hlt : reg.subClkStore < p.1.subClkStore := horder.1 _ (mem_map_of_mem hp)
    omega

variable {before after : AvmTraceBuilder}

theorem RowStep.memInvariant {row : MainRow} (h : RowStep inTag loads stores row before after)
    (hlength : before.mainTrace.length < 2 ^ 32)
    (hmem : MemInvariant before.memTraceBuilder (6 * before.mainTrace.length))
    (hconsistent : ∀ p ∈ loads, ConsistentRead before.memTraceBuilder p.2 inTag) :
    MemInvariant after.memTraceBuilder (6 * after.mainTrace.length) := by
  obtain ⟨mid, hloads, hstores⟩ := h.accesses
  rw [clk_eq before hlength] at hloads hstores
  have hmid := hloads.memInvariant hmem (by omega) (fun p _ => by omega) h.loadOrder hconsistent
  have hstart (p : IntermRegister × ℕ × FF) (_ : p ∈ stores) :
      6 * before.mainTrace.length + 3 ≤ 6 * before.mainTrace.length + p.1.subClkStore := by
    obtain ⟨reg, -⟩ := p
    cases reg <;> simp [IntermRegister.subClkStore]
  have hafter := hstores.memInvariant hmid (by omega) hstart h.storeOrder
  rw [h.mainTrace, length_append, length_singleton, mul_add]
  exact hafter

theorem RowSteps.length_le (h : RowSteps inTag reads before after) :
    before.mainTrace.length ≤ after.mainTrace.length := by
  induction h with
  | done mainTrace mem => rw [mainTrace]
  | row head within tail ih =>
    rw [head.mainTrace, length_append] at ih
    omega

theorem RowSteps.memInvariant (h : RowSteps inTag reads before after)
    (hlength : after.mainTrace.length < 2 ^ 32)
    (hmem : MemInvariant before.memTraceBuilder (6 * before.mainTrace.length))
    (hconsistent : ∀ addr ∈ reads, ConsistentRead before.memTraceBuilder addr inTag) :
    MemInvariant after.memTraceBuilder (6 * after.mainTrace.length) := by
  induction h with
  | done mainTrace mem =>
    rw [mainTrace, mem]
    exact hmem
  | row head within tail ih =>
    have hle := tail.length_le
    rw [head.mainTrace, length_append] at hle
    obtain ⟨mid, hloads, hstores⟩ := head.accesses
    refine ih hlength (head.memInvariant (by omega) hmem fun p hp => hconsistent _ (within p hp))
      fun addr haddr => ?_
    exact hstores.consistentRead (hloads.consistentRead (hconsistent addr haddr))

theorem run_cons {operation : Operation} {rest : List Operation} :
    run before (operation :: rest) = some after ↔
      ∃ mid, operation.execute before = some mid ∧ run mid rest = some after := by
  rw [run, foldlM_cons]
  exact Option.bind_eq_some_iff

theorem length_le_run (h : run before operations = some after) :
    before.mainTrace.length ≤ after.mainTrace.length := by
  induction operations generalizing before with
  | nil =>
    cases h
    exact le_rfl
  | cons operation rest ih =>
    obtain ⟨mid, hmid, hrest⟩ := run_cons.1 h
    exact (Operation.steps hmid).length_le.trans (ih hrest)

/-- **Consistent runs keep the invariant.** -/
theorem memInvariant_run (h : run before operations = some after)
    (hconsistent : ConsistentRun before operations) (hlength : after.mainTrace.length < 2 ^ 32)
    (hmem : MemInvariant before.memTraceBuilder (6 * before.mainTrace.length)) :
    MemInvariant after.memTraceBuilder (6 * after.mainTrace.length) := by
  induction operations generalizing before with
  | nil =>
    cases h
    exact hmem
  | cons operation rest ih =>
    obtain ⟨mid, hmid, hrest⟩ := run_cons.1 h
    have hle := length_le_run hrest
    exact ih hrest (hconsistent.2 mid hmid)
      ((Operation.steps hmid).memInvariant (by omega) hmem hconsistent.1)

end Invariant

/-! ### The table of a run -/

theorem ofTag_injective {tag tag' : AvmMemoryTag} (h : ofTag tag = ofTag tag') : tag = tag' := by
  have hlt (tag : AvmMemoryTag) : tag.ctorIdx < Kernel.fieldModulus := by
    refine FF.lt_fieldModulus ?_
    cases tag <;> decide
  have hidx := FF.natCast_injOn (hlt tag) (hlt tag') h
  cases tag <;> cases tag' <;> first | rfl | exact absurd hidx (by decide)

theorem TagChecked.relations (h : TagChecked y) :
    (ofTag y.mInTag - ofTag y.mTag) * (1 - y.mOneMinInv) - FF.ofBool y.mTagErr = 0 ∧
      (1 - FF.ofBool y.mTagErr) * y.mOneMinInv = 0 := by
  obtain ⟨hiff, hinv⟩ := h
  cases herr : y.mTagErr with
  | true =>
    have hne : ofTag y.mInTag - ofTag y.mTag ≠ 0 := fun hzero =>
      hiff.1 herr (ofTag_injective (sub_eq_zero.1 hzero))
    rw [hinv, if_pos herr]
    simp [hne]
  | false =>
    have hsame : y.mInTag = y.mTag := by
      by_contra hne
      rw [hiff.2 hne] at herr
      cases herr
    rw [hinv, herr, hsame]
    simp

theorem ofBool_mul (b : Bool) : FF.ofBool b * (1 - FF.ofBool b) = 0 := by cases b <;> simp

theorem ofBool_mul_eq_zero (h : b = true → x = 0) : FF.ofBool b * x = 0 := by
  cases b with
  | true => rw [h rfl, mul_zero]
  | false => simp

theorem one_sub_ofBool_mul_eq_zero (h : b = false → x = 0) : (1 - FF.ofBool b) * x = 0 := by
  cases b with
  | true => simp
  | false => rw [h rfl, mul_zero]

theorem TagChecked.memRelations (h : TagChecked y) (lastAccess last : Bool) {next : MemRow}
    (haddr : lastAccess = false → next.mAddr = y.mAddr)
    (hval : lastAccess = false → (1 - next.mRw) * (next.mVal - y.mVal) = 0)
    (htag : lastAccess = false → (1 - next.mRw) * (next.mTag - ofTag y.mTag) = 0)
    (hzero : lastAccess = true → (1 - next.mRw) * next.mVal = 0) : MemRelations { y.toRow with
      mLastAccess := FF.ofBool lastAccess, mLast := FF.ofBool last } next := by
  obtain ⟨htag1, htag2⟩ := h.relations
  refine ⟨ofBool_mul _, ofBool_mul _, ofBool_mul _, ofBool_mul _, ?_, ?_, ?_, ?_, htag1, htag2⟩
  · exact one_sub_ofBool_mul_eq_zero fun hfalse => sub_eq_zero.2 (haddr hfalse)
  · rw [mul_assoc]
    exact one_sub_ofBool_mul_eq_zero hval
  · rw [mul_assoc]
    exact one_sub_ofBool_mul_eq_zero htag
  · rw [mul_assoc]
    exact ofBool_mul_eq_zero hzero

def tableRow (entries : List MemoryTraceEntry) : ℕ → MemRow
  | 0 => { mLastAccess := 1 }
  | i + 1 => memRow entries i

theorem memRow_of_none (h : entries[i]? = none) : memRow entries i = {} := by
  rw [memRow, h]

theorem memRow_of_some (h : entries[i]? = some y) : ∃ lastAccess last : Bool, memRow entries i =
      { y.toRow with mLastAccess := FF.ofBool lastAccess, mLast := FF.ofBool last } ∧
      (lastAccess = true ↔ ∀ z, entries[i + 1]? = some z → z.mAddr ≠ y.mAddr) := by
  rw [memRow, h]
  cases hnext : entries[i + 1]? with
  | none => exact ⟨true, true, by rw [FF.ofBool_true], by simp⟩
  | some z =>
    refine ⟨y.mAddr != z.mAddr, false, by rw [FF.ofBool_false]; rfl, ?_⟩
    rw [bne_iff_ne]
    exact ⟨fun hne w hw => by cases hw; exact hne.symm, fun h => (h z rfl).symm⟩

theorem memRelations_tableRow {entries : List MemoryTraceEntry}
    (hread : ∀ i x y, entries[i]? = some x → entries[i + 1]? = some y → x.mAddr = y.mAddr →
      Follows x y)
    (hfirst : ∀ i x y, entries[i]? = some x → entries[i + 1]? = some y → x.mAddr ≠ y.mAddr →
      ZeroInit y)
    (hhead : ∀ y, entries[0]? = some y → ZeroInit y) (hchecked : ∀ y ∈ entries, TagChecked y)
    (i : ℕ) : MemRelations (tableRow entries i) (tableRow entries (i + 1)) := by
  have hzeroInit {y : MemoryTraceEntry} (h : ZeroInit y) : (1 - FF.ofBool y.mRw) * y.mVal = 0 := by
    cases hrw : y.mRw with
    | true => simp
    | false => simp [h hrw]
  cases i with
  | zero =>
    cases hy : entries[0]? with
    | none =>
      rw [tableRow, tableRow, memRow_of_none hy]
      constructor <;> simp
    | some y =>
      obtain ⟨lastAccess, last, hrow, -⟩ := memRow_of_some hy
      rw [tableRow, tableRow, hrow]
      constructor <;> simp [MemoryTraceEntry.toRow, hzeroInit (hhead y hy)]
  | succ i =>
    cases hx : entries[i]? with
    | none =>
      have hy : entries[i + 1]? = none := by
        rw [getElem?_eq_none_iff] at hx ⊢
        omega
      rw [tableRow, tableRow, memRow_of_none hx, memRow_of_none hy]
      constructor <;> simp
    | some x =>
      obtain ⟨lastAccess, last, hrow, hlast⟩ := memRow_of_some hx
      have hchecked := hchecked x (mem_of_getElem? hx)
      rw [tableRow, tableRow, hrow]
      cases hy : entries[i + 1]? with
      | none =>
        have hlastAccess : lastAccess = true := hlast.2 (by simp [hy])
        rw [memRow_of_none hy]
        refine hchecked.memRelations lastAccess last ?_ ?_ ?_ fun _ => by simp
        all_goals
          intro hfalse
          rw [hlastAccess] at hfalse
          cases hfalse
      | some y =>
        obtain ⟨lastAccess', last', hrow', -⟩ := memRow_of_some hy
        rw [hrow']
        have hsame (hfalse : lastAccess = false) : x.mAddr = y.mAddr := by
          by_contra hne
          rw [hlast.2 fun z hz => by rw [hy] at hz; cases hz; exact Ne.symm hne] at hfalse
          cases hfalse
        refine hchecked.memRelations lastAccess last (fun hfalse => ?_) (fun hfalse => ?_)
          (fun hfalse => ?_) fun htrue => ?_
        · exact congrArg Nat.cast (hsame hfalse).symm
        · cases hrw : y.mRw with
          | true => simp [MemoryTraceEntry.toRow, hrw]
          | false =>
            simp [MemoryTraceEntry.toRow, (hread i x y hx hy (hsame hfalse) hrw).1]
        · cases hrw : y.mRw with
          | true => simp [MemoryTraceEntry.toRow, hrw]
          | false =>
            simp [MemoryTraceEntry.toRow, (hread i x y hx hy (hsame hfalse) hrw).2]
        · exact hzeroInit (hfirst i x y hx hy (hlast.1 htrue y hy).symm)

theorem finalize_eq_some {after : AvmTraceBuilder} {trace : List Row}
    (h : builder.finalize = some (trace, after)) : trace.map Row.mem =
        (range AVM_TRACE_SIZE).map (tableRow builder.memTraceBuilder.finalize) ∧
      builder.memTraceBuilder.finalize.length < AVM_TRACE_SIZE ∧
      builder.mainTrace.length < AVM_TRACE_SIZE := by
  rw [AvmTraceBuilder.finalize] at h
  split at h
  · next hsizes =>
    cases h
    refine ⟨?_, hsizes.2.1, hsizes.2.2.1⟩
    have hrange : range AVM_TRACE_SIZE = 0 :: (range 255).map Nat.succ :=
      range_succ_eq_map
    rw [hrange, map_cons, map_cons, map_map, map_map]
    rfl
  · cases h

theorem MemInvariant.tableCorrect {mem : AvmMemTraceBuilder} {t : ℕ} (h : MemInvariant mem t)
    (hsize : mem.finalize.length < AVM_TRACE_SIZE) :
    MemTableCorrect mem.finalize ((List.range AVM_TRACE_SIZE).map (tableRow mem.finalize)) := by
  have hsorted := h.pairwise_finalize
  have hmem (y : MemoryTraceEntry) : y ∈ mem.finalize ↔ y ∈ mem.memTrace :=
    (perm_finalize mem).mem_iff
  have hrow (i : ℕ) (y : MemoryTraceEntry) (hy : mem.finalize[i]? = some y) :
      ((List.range AVM_TRACE_SIZE).map (tableRow mem.finalize))[i + 1]? =
        some (memRow mem.finalize i) := by
    have hi := (List.getElem?_eq_some_iff.1 hy).1
    rw [List.getElem?_map, List.getElem?_range (by omega)]
    rfl
  have hchecked (y : MemoryTraceEntry) (hy : y ∈ mem.finalize) : TagChecked y :=
    h.tagChecked y ((hmem y).1 hy)
  have hread (i : ℕ) (x y : MemoryTraceEntry) (hx : mem.finalize[i]? = some x)
      (hy : mem.finalize[i + 1]? = some y) (hsame : x.mAddr = y.mAddr) : Follows x y := by
    refine SortedLog.rel_of_adjacent hx hy hsame ?_
    rw [h.accesses_finalize]
    exact h.follows _
  have hzero (y : MemoryTraceEntry)
      (hhead : (SortedLog.ofKey MemoryTraceEntry.mAddr mem.finalize y.mAddr).head? = some y) :
      ZeroInit y := by
    rw [h.accesses_finalize] at hhead
    exact h.zeroInit _ y hhead
  refine ⟨?_, ?_, ?_, hread, fun i y hy hfirst => hzero y (SortedLog.head_of_take hy hfirst), hchecked,
    ?_⟩
  · intro i y hy
    obtain ⟨lastAccess, last, heq, -⟩ := memRow_of_some hy
    exact ⟨_, _, (hrow i y hy).trans (congrArg some heq)⟩
  · refine hsorted.imp_of_mem fun {x y} hx hy hbefore => ?_
    exact (MemoryTraceEntry.lt_iff (h.subClk x ((hmem x).1 hx)) (h.subClk y ((hmem y).1 hy))).2
      hbefore
  · intro i y row hy heq
    obtain ⟨lastAccess, last, hlastRow, hiff⟩ := memRow_of_some hy
    rw [hrow i y hy] at heq
    cases heq
    rw [hlastRow, ← hiff]
    cases lastAccess <;> simp
  · -- The row after the last one is a row of zeros, as all rows beyond the entries are.
    have hpad : ((List.range AVM_TRACE_SIZE).map (tableRow mem.finalize)) ++ [({} : MemRow)] =
        (List.range (AVM_TRACE_SIZE + 1)).map (tableRow mem.finalize) := by
      have hlast : tableRow mem.finalize AVM_TRACE_SIZE = {} :=
        memRow_of_none (List.getElem?_eq_none (Nat.le_of_lt_succ hsize))
      rw [List.range_succ, List.map_append, List.map_singleton, hlast]
    rw [hpad, List.isChain_map]
    refine (List.isChain_range_succ _ AVM_TRACE_SIZE).2 fun i _ => ?_
    exact memRelations_tableRow hread
      (fun i x y hx hy hne => hzero y (SortedLog.head_of_first hsorted hx hy hne))
      (fun y hy => hzero y (SortedLog.head_of_head hy)) hchecked i

/-- **The tables of consistent runs satisfy the relations.** -/
theorem ConsistentRun.memTableCorrect {operations : List Operation}
    {builder after : AvmTraceBuilder} {trace : List Row} (hrun : run {} operations = some builder)
    (hfinalize : builder.finalize = some (trace, after)) (h : ConsistentRun {} operations) :
    MemTableCorrect builder.memTraceBuilder.finalize (trace.map Row.mem) := by
  obtain ⟨htable, hsize, hlength⟩ := finalize_eq_some hfinalize
  have hbound : builder.mainTrace.length < 2 ^ 32 := hlength.trans (by decide)
  rw [htable]
  exact (memInvariant_run hrun h hbound .new).tableCorrect hsize

def doubling : List Operation := [.set 5 0 .U8, .opAdd 0 0 1 .U8]

theorem exists_finalize (hcounts : builder.memTraceBuilder.tagErrLookupCounts = [])
    (hmem : builder.memTraceBuilder.memTrace.length < AVM_TRACE_SIZE)
    (hmain : builder.mainTrace.length < AVM_TRACE_SIZE) (hpos : 0 < builder.mainTrace.length)
    (halu : builder.aluTraceBuilder.aluTrace.length < AVM_TRACE_SIZE) :
    ∃ trace after, builder.finalize = some (trace, after) :=
  ⟨_, _, if_pos ⟨by simp [hcounts], by rwa [(perm_finalize _).length_eq], hmain, halu, hpos⟩⟩

theorem memTableCorrect_doubling : ∃ builder trace after, run {} doubling = some builder ∧
    builder.finalize = some (trace, after) ∧
      MemTableCorrect builder.memTraceBuilder.finalize (trace.map Row.mem) := by
  obtain ⟨builder, hrun, hcounts, hmem, hmain, hpos, halu⟩ : ∃ builder,
      run {} doubling = some builder ∧ builder.memTraceBuilder.tagErrLookupCounts = [] ∧
        builder.memTraceBuilder.memTrace.length < AVM_TRACE_SIZE ∧
        builder.mainTrace.length < AVM_TRACE_SIZE ∧ 0 < builder.mainTrace.length ∧
        builder.aluTraceBuilder.aluTrace.length < AVM_TRACE_SIZE :=
    ⟨_, rfl, rfl, by decide, by decide, by decide, by decide⟩
  obtain ⟨trace, after, htrace⟩ := exists_finalize hcounts hmem hmain hpos halu
  refine ⟨builder, trace, after, hrun, htrace, ConsistentRun.memTableCorrect hrun htrace ?_⟩
  refine ⟨fun addr haddr => absurd haddr List.not_mem_nil, fun mid hmid => ?_⟩
  cases hmid
  refine ⟨fun addr haddr htag => ?_, fun _ _ => trivial⟩
  rcases List.mem_pair.1 haddr with rfl | rfl
  · cases htag
  · cases htag

/-- A cell that is never written and is read with two tags. -/
def negatingTwice : List Operation := [.opNot 0 1 .U8, .opNot 0 1 .U16]

/-- **Reads of an unwritten cell break a relation** if their tags differ. -/
theorem not_memTableCorrect :
    ¬∀ (operations : List Operation) (builder after : AvmTraceBuilder) (trace : List Row),
      run {} operations = some builder → builder.finalize = some (trace, after) →
        MemTableCorrect builder.memTraceBuilder.finalize (trace.map Row.mem) := by
  intro h
  obtain ⟨builder, hrun, hcounts, hmain, hpos, halu, e0, e1, e2, e3, hmem, h0, h1, h2, h3, hrw,
      htag⟩ : ∃ builder, run {} negatingTwice = some builder ∧
        builder.memTraceBuilder.tagErrLookupCounts = [] ∧
        builder.mainTrace.length < AVM_TRACE_SIZE ∧ 0 < builder.mainTrace.length ∧
        builder.aluTraceBuilder.aluTrace.length < AVM_TRACE_SIZE ∧
        ∃ e0 e1 e2 e3, builder.memTraceBuilder.memTrace = [e0, e1, e2, e3] ∧
          (e0.mAddr = 0 ∧ e0.mClk = 0) ∧ (e1.mAddr = 1 ∧ e1.mClk = 0) ∧
          (e2.mAddr = 0 ∧ e2.mClk = 1) ∧ (e3.mAddr = 1 ∧ e3.mClk = 1) ∧ e2.mRw = false ∧
          e2.mTag ≠ e0.mTag :=
    ⟨_, rfl, rfl, by decide, by decide, by decide, _, _, _, _, rfl, ⟨rfl, rfl⟩, ⟨rfl, rfl⟩,
      ⟨rfl, rfl⟩, ⟨rfl, rfl⟩, rfl, by decide⟩
  obtain ⟨trace, after, htrace⟩ := exists_finalize hcounts (by simp [hmem, AVM_TRACE_SIZE]) hmain
    hpos halu
  have hcorrect := h negatingTwice builder after trace hrun htrace
  -- The two reads are neighbours once the trace is sorted.
  have hentries : builder.memTraceBuilder.finalize = [e0, e2, e1, e3] := by
    have hperm : builder.memTraceBuilder.finalize.Perm [e0, e2, e1, e3] := by
      refine (perm_finalize _).trans ?_
      rw [hmem]
      exact .cons e0 (.swap e2 e1 [e3])
    refine hperm.eq_of_pairwise (fun x y _ _ hxy hyx => ?_) hcorrect.sorted ?_
    · rw [MemoryTraceEntry.lt_eq_true] at hxy hyx
      omega
    · simp [MemoryTraceEntry.lt, h0, h1, h2, h3]
  have hread := hcorrect.read 0 e0 e2 (by rw [hentries]; rfl) (by rw [hentries]; rfl)
    (h0.1.trans h2.1.symm)
  exact htag (hread hrw).2

end AvmTrace
