/-
**The memory trace of the AVM circuit.**
-/

import Aztec.AvmTraceDeserialization
import Aztec.ScalarField
import Aztec.SortedLog

open List

namespace AvmTrace

/-! ### Entries -/

inductive IntermRegister
  | IA | IB | IC
  deriving DecidableEq, Repr

def IntermRegister.subClkLoad : IntermRegister → ℕ
  | IA => 0
  | IB => 1
  | IC => 2

def IntermRegister.subClkStore : IntermRegister → ℕ
  | IA => 3
  | IB => 4
  | IC => 5

def ofTag (tag : AvmMemoryTag) : FF := (tag.ctorIdx : ℕ)

structure MemoryTraceEntry where
  mClk : ℕ
  mSubClk : ℕ
  mAddr : ℕ
  mVal : FF
  mTag : AvmMemoryTag
  mInTag : AvmMemoryTag
  mRw : Bool := false
  mTagErr : Bool := false
  mOneMinInv : FF := 0

namespace MemoryTraceEntry

def lt (self other : MemoryTraceEntry) : Bool :=
  if self.mAddr < other.mAddr then true
  else if other.mAddr < self.mAddr then false
  else if self.mClk < other.mClk then true
  else if other.mClk < self.mClk then false
  else decide (self.mSubClk < other.mSubClk)

def time (self : MemoryTraceEntry) : ℕ := 6 * self.mClk + self.mSubClk

theorem lt_eq_true {x y : MemoryTraceEntry} : x.lt y = true ↔
    x.mAddr < y.mAddr ∨ (x.mAddr = y.mAddr ∧
      (x.mClk < y.mClk ∨ (x.mClk = y.mClk ∧ x.mSubClk < y.mSubClk))) := by
  rw [lt]
  split_ifs <;> simp only [decide_eq_true_eq, true_iff, false_iff] <;> omega

theorem lt_iff {x y : MemoryTraceEntry} (hx : x.mSubClk < 6) (hy : y.mSubClk < 6) :
    x.lt y = true ↔ SortedLog.Before mAddr time x y := by
  rw [lt_eq_true, SortedLog.Before, time, time]
  omega

end MemoryTraceEntry

/-! ### The builder -/

def MEM_SIZE : ℕ := 1024

/-- The class `AvmMemTraceBuilder`.  Of the lookup counts there is the list of the clocks that are
counted. -/
structure AvmMemTraceBuilder where
  memTrace : List MemoryTraceEntry := []
  memory : ℕ → FF := fun _ => 0
  memoryTag : ℕ → AvmMemoryTag := fun _ => .U0
  tagErrLookupCounts : List ℕ := []

structure MemRead where
  tagMatch : Bool
  val : FF

namespace AvmMemTraceBuilder

/-- `reset`.  The tags and the counts are not reset. -/
def reset (self : AvmMemTraceBuilder) : AvmMemTraceBuilder :=
  { self with memTrace := [], memory := fun _ => 0 }

def insertInMemTrace (self : AvmMemTraceBuilder) (clk subClk addr : ℕ) (val : FF)
    (inTag : AvmMemoryTag) (rw : Bool) : AvmMemTraceBuilder :=
  { self with
    memTrace := self.memTrace ++
      [{ mClk := clk, mSubClk := subClk, mAddr := addr, mVal := val, mTag := inTag,
         mInTag := inTag, mRw := rw }] }

def loadMismatchTagInMemTrace (self : AvmMemTraceBuilder) (clk subClk addr : ℕ) (val : FF)
    (inTag tag : AvmMemoryTag) : AvmMemTraceBuilder :=
  { self with
    tagErrLookupCounts := self.tagErrLookupCounts ++ [clk]
    memTrace := self.memTrace ++
      [{ mClk := clk, mSubClk := subClk, mAddr := addr, mVal := val, mTag := tag, mInTag := inTag,
         mTagErr := true, mOneMinInv := 1 - (ofTag inTag - ofTag tag)⁻¹ }] }

def loadInMemTrace (self : AvmMemTraceBuilder) (clk : ℕ) (intermReg : IntermRegister) (addr : ℕ)
    (val : FF) (inTag : AvmMemoryTag) : Bool × AvmMemTraceBuilder :=
  let tag := self.memoryTag addr
  if tag = .U0 ∨ tag = inTag then
    (true, self.insertInMemTrace clk intermReg.subClkLoad addr val inTag false)
  else
    (false, self.loadMismatchTagInMemTrace clk intermReg.subClkLoad addr val inTag tag)

def storeInMemTrace (self : AvmMemTraceBuilder) (clk : ℕ) (intermReg : IntermRegister) (addr : ℕ)
    (val : FF) (inTag : AvmMemoryTag) : AvmMemTraceBuilder :=
  self.insertInMemTrace clk intermReg.subClkStore addr val inTag true

/-- `read_and_load_from_memory`.  An address that is out of range throws. -/
def readAndLoadFromMemory (self : AvmMemTraceBuilder) (clk : ℕ) (intermReg : IntermRegister)
    (addr : ℕ) (inTag : AvmMemoryTag) : Option (MemRead × AvmMemTraceBuilder) :=
  if addr < MEM_SIZE then
    let val := self.memory addr
    let (tagMatch, self) := self.loadInMemTrace clk intermReg addr val inTag
    some (⟨tagMatch, val⟩, self)
  else none

def writeIntoMemory (self : AvmMemTraceBuilder) (clk : ℕ) (intermReg : IntermRegister) (addr : ℕ)
    (val : FF) (inTag : AvmMemoryTag) : Option AvmMemTraceBuilder :=
  if addr < MEM_SIZE then
    some ({ self with
      memory := Function.update self.memory addr val
      memoryTag := Function.update self.memoryTag addr inTag }.storeInMemTrace clk intermReg addr
        val inTag)
  else none

/-- `finalize`: the entries in the order of the comparator. -/
def finalize (self : AvmMemTraceBuilder) : List MemoryTraceEntry :=
  self.memTrace.mergeSort fun x y => !y.lt x

def accesses (self : AvmMemTraceBuilder) (addr : ℕ) : List MemoryTraceEntry :=
  SortedLog.ofKey MemoryTraceEntry.mAddr self.memTrace addr

end AvmMemTraceBuilder

/-! ### What is said of accesses -/

/-- A read repeats the value and the tag of the access before it. -/
def Follows (x y : MemoryTraceEntry) : Prop := y.mRw = false → y.mVal = x.mVal ∧ y.mTag = x.mTag

def ZeroInit (y : MemoryTraceEntry) : Prop := y.mRw = false → y.mVal = 0

/-- The error flag is set when the tags differ, with the inverse of their difference. -/
def TagChecked (y : MemoryTraceEntry) : Prop :=
  (y.mTagErr = true ↔ y.mInTag ≠ y.mTag) ∧
    y.mOneMinInv = if y.mTagErr then 1 - (ofTag y.mInTag - ofTag y.mTag)⁻¹ else 0

/-- **A read that agrees with the accesses before it**: if the cell has no tag, then the last access,
if there is one, was with the tag of the instruction. -/
def ConsistentRead (mem : AvmMemTraceBuilder) (addr : ℕ) (inTag : AvmMemoryTag) : Prop :=
  mem.memoryTag addr = .U0 → ∀ x ∈ (mem.accesses addr).getLast?, x.mTag = inTag

/-! ### What an access does -/

structure Loaded (mem mem' : AvmMemTraceBuilder) (clk : ℕ) (reg : IntermRegister) (addr : ℕ)
    (inTag : AvmMemoryTag) (read : MemRead) (y : MemoryTraceEntry) : Prop where
  memTrace : mem'.memTrace = mem.memTrace ++ [y]
  memory : mem'.memory = mem.memory
  memoryTag : mem'.memoryTag = mem.memoryTag
  mClk : y.mClk = clk
  mSubClk : y.mSubClk = reg.subClkLoad
  mAddr : y.mAddr = addr
  mVal : y.mVal = read.val
  mRw : y.mRw = false
  mInTag : y.mInTag = inTag
  mTag : y.mTag = if mem.memoryTag addr = .U0 then inTag else mem.memoryTag addr
  val : read.val = mem.memory addr
  tagMatch : read.tagMatch = !y.mTagErr
  tagChecked : TagChecked y

structure Stored (mem mem' : AvmMemTraceBuilder) (clk : ℕ) (reg : IntermRegister) (addr : ℕ)
    (val : FF) (inTag : AvmMemoryTag) (y : MemoryTraceEntry) : Prop where
  memTrace : mem'.memTrace = mem.memTrace ++ [y]
  memory : mem'.memory = Function.update mem.memory addr val
  memoryTag : mem'.memoryTag = Function.update mem.memoryTag addr inTag
  mClk : y.mClk = clk
  mSubClk : y.mSubClk = reg.subClkStore
  mAddr : y.mAddr = addr
  mVal : y.mVal = val
  mRw : y.mRw = true
  mTag : y.mTag = inTag
  tagChecked : TagChecked y

variable {clk addr : ℕ} {reg : IntermRegister} {inTag : AvmMemoryTag} {read : MemRead}
  {y : MemoryTraceEntry}

variable {mem mem' : AvmMemTraceBuilder}

theorem readAndLoadFromMemory_eq_some (h : mem.readAndLoadFromMemory clk reg addr inTag = some (read, mem')) :
    ∃ y, Loaded mem mem' clk reg addr inTag read y := by
  rw [AvmMemTraceBuilder.readAndLoadFromMemory] at h
  split at h
  · by_cases hmatch : mem.memoryTag addr = .U0 ∨ mem.memoryTag addr = inTag
    · simp only [AvmMemTraceBuilder.loadInMemTrace, if_pos hmatch] at h
      cases h
      refine ⟨_, rfl, rfl, rfl, rfl, rfl, rfl, rfl, rfl, rfl, ?_, rfl, rfl, by simp [TagChecked]⟩
      rcases hmatch with hzero | hsame
      · rw [if_pos hzero]
      · rw [hsame, ite_self]
    · simp only [AvmMemTraceBuilder.loadInMemTrace, if_neg hmatch] at h
      cases h
      rw [not_or] at hmatch
      refine ⟨_, rfl, rfl, rfl, rfl, rfl, rfl, rfl, rfl, rfl, ?_, rfl, rfl, ?_⟩
      · rw [if_neg hmatch.1]
      · simpa [TagChecked] using Ne.symm hmatch.2
  · cases h

theorem writeIntoMemory_eq_some {val : FF}
    (h : mem.writeIntoMemory clk reg addr val inTag = some mem') :
    ∃ y, Stored mem mem' clk reg addr val inTag y := by
  rw [AvmMemTraceBuilder.writeIntoMemory] at h
  split at h
  · cases h
    exact ⟨_, rfl, rfl, rfl, rfl, rfl, rfl, rfl, rfl, rfl, by simp [TagChecked]⟩
  · cases h

theorem accesses_append (h : mem'.memTrace = mem.memTrace ++ [y])
    (addr : ℕ) :
    mem'.accesses addr = if y.mAddr = addr then mem.accesses addr ++ [y] else mem.accesses addr := by
  rw [AvmMemTraceBuilder.accesses, h, SortedLog.ofKey_append_singleton]
  rfl

theorem perm_finalize (mem : AvmMemTraceBuilder) : mem.finalize.Perm mem.memTrace :=
  mergeSort_perm _ _

theorem Loaded.consistentRead (h : Loaded mem mem' clk reg addr inTag read y) {other : ℕ}
    (hother : ConsistentRead mem other inTag) : ConsistentRead mem' other inTag := by
  intro htag x hx
  rw [h.memoryTag] at htag
  rw [accesses_append h.memTrace] at hx
  split at hx
  · next heq =>
    rw [getLast?_append_of_ne_nil _ (by simp)] at hx
    obtain rfl : x = y := (Option.some.inj hx).symm
    rw [h.mTag, ← h.mAddr, heq, if_pos htag]
  · exact hother htag x hx

/-! ### The invariant -/

/-- The accesses of every cell up to a time are those of a memory. -/
structure MemInvariant (mem : AvmMemTraceBuilder) (t : ℕ) : Prop where
  before : ∀ x ∈ mem.memTrace, x.time < t
  chronological : mem.memTrace.Pairwise fun x y => x.time < y.time
  subClk : ∀ x ∈ mem.memTrace, x.mSubClk < 6
  tagChecked : ∀ x ∈ mem.memTrace, TagChecked x
  follows : ∀ addr, (mem.accesses addr).IsChain Follows
  zeroInit : ∀ addr, ∀ y ∈ (mem.accesses addr).head?, ZeroInit y
  memory : ∀ addr, mem.memory addr = ((mem.accesses addr).getLast?.map (·.mVal)).getD 0
  memoryTag : ∀ addr, mem.memoryTag addr ≠ .U0 →
    ∀ x ∈ (mem.accesses addr).getLast?, x.mTag = mem.memoryTag addr

namespace MemInvariant

theorem new : MemInvariant {} 0 := by
  constructor <;> simp [AvmMemTraceBuilder.accesses, SortedLog.ofKey]

theorem mono {mem : AvmMemTraceBuilder} {t t' : ℕ} (h : MemInvariant mem t) (hle : t ≤ t') :
    MemInvariant mem t' :=
  { h with before := fun x hx => (h.before x hx).trans_le hle }

variable {mem mem' : AvmMemTraceBuilder} {t : ℕ}

variable {y : MemoryTraceEntry} {clk addr : ℕ} {reg : IntermRegister} {inTag : AvmMemoryTag}

theorem append (h : MemInvariant mem t) (htrace : mem'.memTrace = mem.memTrace ++ [y])
    (htime : t ≤ y.time) (hsub : y.mSubClk < 6) (hchecked : TagChecked y)
    (hfollows : ∀ x ∈ (mem.accesses y.mAddr).getLast?, Follows x y)
    (hzero : (mem.accesses y.mAddr).getLast? = none → ZeroInit y)
    (hmemory : mem'.memory = Function.update mem.memory y.mAddr y.mVal)
    (htag : ∀ addr, addr ≠ y.mAddr → mem'.memoryTag addr = mem.memoryTag addr)
    (htagOf : mem'.memoryTag y.mAddr ≠ .U0 → y.mTag = mem'.memoryTag y.mAddr) :
    MemInvariant mem' (y.time + 1) := by
  have haccesses := accesses_append htrace
  constructor
  · rw [htrace]
    intro x hx
    rcases mem_append.1 hx with hx | hx
    · have hlt := h.before x hx
      omega
    · rw [mem_singleton.1 hx]
      omega
  · rw [htrace]
    refine pairwise_append.2 ⟨h.chronological, pairwise_singleton _ _, fun x hx z hz => ?_⟩
    rw [mem_singleton.1 hz]
    exact (h.before x hx).trans_le htime
  · rw [htrace]
    exact forall_mem_append.2 ⟨h.subClk, by simpa using hsub⟩
  · rw [htrace]
    exact forall_mem_append.2 ⟨h.tagChecked, by simpa using hchecked⟩
  · intro addr
    rw [haccesses]
    split
    · next heq =>
      subst heq
      refine isChain_append.2 ⟨h.follows _, isChain_singleton _, fun x hx z hz => ?_⟩
      cases hz
      exact hfollows x hx
    · exact h.follows addr
  · intro addr z hz
    rw [haccesses] at hz
    split at hz
    · next heq =>
      subst heq
      cases hlist : mem.accesses y.mAddr with
      | nil =>
        rw [hlist] at hz
        cases hz
        exact hzero (by rw [hlist]; rfl)
      | cons x xs =>
        rw [hlist] at hz
        exact h.zeroInit y.mAddr z (by rw [hlist]; exact hz)
    · exact h.zeroInit addr z hz
  · intro addr
    rw [haccesses, hmemory]
    split
    · next heq =>
      subst heq
      simp
    · next hne => rw [Function.update_of_ne (Ne.symm hne), h.memory]
  · intro addr hne x hx
    rw [haccesses] at hx
    split at hx
    · next heq =>
      subst heq
      rw [getLast?_append_of_ne_nil _ (by simp)] at hx
      cases hx
      exact htagOf hne
    · next haddr =>
      rw [htag addr (Ne.symm haddr)] at hne ⊢
      exact h.memoryTag addr hne x hx

theorem load (h : MemInvariant mem t) {read : MemRead}
    (hload : Loaded mem mem' clk reg addr inTag read y) (ht : t ≤ 6 * clk + reg.subClkLoad)
    (hconsistent : ConsistentRead mem addr inTag) :
    MemInvariant mem' (6 * clk + reg.subClkLoad + 1) := by
  have htime : y.time = 6 * clk + reg.subClkLoad := by
    rw [MemoryTraceEntry.time, hload.mClk, hload.mSubClk]
  have hval : y.mVal = mem.memory y.mAddr := by rw [hload.mVal, hload.val, hload.mAddr]
  rw [← htime]
  rw [← htime] at ht
  refine h.append hload.memTrace ht ?_ hload.tagChecked ?_ ?_ ?_ ?_ ?_
  · rw [hload.mSubClk]
    cases reg <;> decide
  · intro x hx _
    rw [hload.mAddr] at hx
    constructor
    · rw [hval, h.memory, hload.mAddr, Option.mem_def.1 hx]
      rfl
    · rw [hload.mTag]
      split
      · next hzero => exact (hconsistent hzero x hx).symm
      · next hne => exact (h.memoryTag addr hne x hx).symm
  · intro hnone _
    rw [hval, h.memory, hnone]
    rfl
  · rw [hload.memory, hval, Function.update_eq_self]
  · intro addr _
    rw [hload.memoryTag]
  · intro hne
    rw [hload.memoryTag, hload.mAddr] at hne ⊢
    rw [hload.mTag, if_neg hne]

theorem store (h : MemInvariant mem t) {val : FF}
    (hstore : Stored mem mem' clk reg addr val inTag y) (ht : t ≤ 6 * clk + reg.subClkStore) :
    MemInvariant mem' (6 * clk + reg.subClkStore + 1) := by
  have htime : y.time = 6 * clk + reg.subClkStore := by
    rw [MemoryTraceEntry.time, hstore.mClk, hstore.mSubClk]
  rw [← htime]
  rw [← htime] at ht
  refine h.append hstore.memTrace ht ?_ hstore.tagChecked ?_ ?_ ?_ ?_ ?_
  · rw [hstore.mSubClk]
    cases reg <;> decide
  · intro x _ hread
    rw [hstore.mRw] at hread
    cases hread
  · intro _ hread
    rw [hstore.mRw] at hread
    cases hread
  · rw [hstore.memory, hstore.mAddr, hstore.mVal]
  · intro other hne
    rw [hstore.mAddr] at hne
    rw [hstore.memoryTag, Function.update_of_ne hne]
  · intro _
    rw [hstore.mTag, hstore.memoryTag, hstore.mAddr, Function.update_self]

/-! ### The sorted trace -/

theorem pairwise_finalize (h : MemInvariant mem t) :
    mem.finalize.Pairwise (SortedLog.Before MemoryTraceEntry.mAddr MemoryTraceEntry.time) := by
  have hsub (x : MemoryTraceEntry) (hx : x ∈ mem.finalize) : x.mSubClk < 6 :=
    h.subClk x ((perm_finalize mem).mem_iff.1 hx)
  have hsorted : mem.finalize.Pairwise fun x y => (!y.lt x) = true := by
    refine pairwise_mergeSort ?_ ?_ mem.memTrace
    · intro x y z hxy hyz
      rw [Bool.not_eq_true', ← Bool.not_eq_true, MemoryTraceEntry.lt_eq_true] at hxy hyz ⊢
      omega
    · intro x y
      rw [Bool.or_eq_true, Bool.not_eq_true', Bool.not_eq_true', ← Bool.not_eq_true,
        ← Bool.not_eq_true, MemoryTraceEntry.lt_eq_true, MemoryTraceEntry.lt_eq_true]
      omega
  -- No two entries have the same time.
  have hdistinct : mem.finalize.Pairwise fun x y => x.time ≠ y.time :=
    ((perm_finalize mem).pairwise_iff fun {x y} hxy => hxy.symm).2
      (h.chronological.imp fun hlt => hlt.ne)
  refine (hsorted.and hdistinct).imp_of_mem ?_
  rintro x y hx hy ⟨hle, hne⟩
  rw [Bool.not_eq_true', ← Bool.not_eq_true,
    MemoryTraceEntry.lt_iff (hsub y hy) (hsub x hx), SortedLog.Before] at hle
  rw [SortedLog.Before]
  omega

theorem accesses_finalize (h : MemInvariant mem t) (addr : ℕ) :
    SortedLog.ofKey MemoryTraceEntry.mAddr mem.finalize addr = mem.accesses addr :=
  SortedLog.ofKey_eq (perm_finalize mem) h.pairwise_finalize h.chronological addr

end MemInvariant

end AvmTrace
