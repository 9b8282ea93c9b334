/-
**RAM arrays of the Ultra circuit builder.**

Every initialisation, read and write of an array is a gate that makes one record of an index, a
timestamp, a value and an access type.  When the circuit is finalised the records are sorted by
index and timestamp into fresh variables, and gates compare neighbours: the index grows by at most
one, a read has the value before it when the index stays the same, and the timestamps grow.  The
last index is that of the last cell.  No gate says that the first index is zero: the list may begin
with accesses at index `-1`.

Casts of counts to `uint32_t` are left out, since the indices of variables are of that type and
every access has a variable.
-/

import Aztec.MemoryChecking
import Aztec.UltraMemory

open List Option

namespace RamArray

open UltraGates UltraMemory MemoryChecking

/-! ### Records and calls -/

inductive AccessType where
  | read
  | write
deriving DecidableEq

/-- `RamRecord`, without `gate_index`. -/
structure RamRecord where
  indexWitness : ℕ
  timestampWitness : ℕ
  valueWitness : ℕ
  index : ℕ
  timestamp : ℕ
  accessType : AccessType
  recordWitness : ℕ

open RamRecord

/-- `RamTranscript`: `none` is an `UNINITIALIZED_MEMORY_RECORD`. -/
structure RamTranscript where
  state : List (Option ℕ)
  records : List RamRecord
  accessCount : ℕ

def createRamArray (arraySize : ℕ) : RamTranscript := ⟨List.replicate arraySize none, [], 0⟩

def accessGate (record : RamRecord) : Gate FF :=
  auxGate (if record.accessType = .read then .ramRead else .ramWrite) record.indexWitness
    record.timestampWitness record.valueWitness record.recordWitness

def createRamGate (s : Builder) (record : RamRecord) : Builder × RamRecord :=
  let (s, recordWitness) := s.addVariable 0
  let record := { record with recordWitness := recordWitness }
  (s.addGate (accessGate record), record)

/-- What the three calls share: a new record with the next timestamp. -/
def addRecord (s : Builder) (array : RamTranscript) (indexWitness valueWitness index : ℕ)
    (accessType : AccessType) : Builder × RamTranscript :=
  let (s, timestampWitness) := s.putConstantVariable array.accessCount
  let (s, record) := createRamGate s
    { indexWitness := indexWitness, timestampWitness := timestampWitness,
      valueWitness := valueWitness, index := index, timestamp := array.accessCount,
      accessType := accessType, recordWitness := 0 }
  (s, { array with records := array.records ++ [record], accessCount := array.accessCount + 1 })

def initRamElement (s : Builder) (array : RamTranscript) (indexValue valueWitness : ℕ) :
    Option (Builder × RamTranscript) :=
  let (s, indexWitness) :=
    if indexValue = 0 then (s, zeroIdx) else s.putConstantVariable indexValue
  if array.state[indexValue]? = some none then
    let (s, array) := addRecord s array indexWitness valueWitness indexValue .write
    some (s, { array with state := array.state.set indexValue (some valueWitness) })
  else
    none

/-- The value of an index witness, `static_cast<uint32_t>`. -/
def indexOf (s : Builder) (indexWitness : ℕ) : ℕ := (s.getVariable indexWitness).val % 2 ^ 32

/-- The call returns the witness of the value that was read, `valueWitness` of the new record. -/
def readRamArray (s : Builder) (array : RamTranscript) (indexWitness : ℕ) :
    Option (Builder × RamTranscript) :=
  let index := indexOf s indexWitness
  match array.state[index]? with
  | some (some witness) =>
    let (s, valueWitness) := s.addVariable (s.getVariable witness)
    some (addRecord s array indexWitness valueWitness index .read)
  | _ => none

def writeRamArray (s : Builder) (array : RamTranscript) (indexWitness valueWitness : ℕ) :
    Option (Builder × RamTranscript) :=
  let index := indexOf s indexWitness
  match array.state[index]? with
  | some (some _) =>
    let (s, array) := addRecord s array indexWitness valueWitness index .write
    some (s, { array with state := array.state.set index (some valueWitness) })
  | _ => none

/-- The calls on an array, and what other calls on the circuit do. -/
inductive Call where
  | addVariable (value : FF)
  | putConstantVariable (value : FF)
  | initRamElement (indexValue valueWitness : ℕ)
  | readRamArray (indexWitness : ℕ)
  | writeRamArray (indexWitness valueWitness : ℕ)

def step (s : Builder × RamTranscript) : Call → Option (Builder × RamTranscript)
  | .addVariable value => some ((s.1.addVariable value).1, s.2)
  | .putConstantVariable value => some ((s.1.putConstantVariable value).1, s.2)
  | .initRamElement indexValue valueWitness => initRamElement s.1 s.2 indexValue valueWitness
  | .readRamArray indexWitness => readRamArray s.1 s.2 indexWitness
  | .writeRamArray indexWitness valueWitness => writeRamArray s.1 s.2 indexWitness valueWitness

def run (arraySize : ℕ) (calls : List Call) : Option (Builder × RamTranscript) :=
  calls.foldlM step (.new, createRamArray arraySize)

/-! ### Finalisation -/

/-- `operator<`. -/
def RamRecord.lt (record other : RamRecord) : Bool :=
  decide (record.index < other.index) ||
    (record.index == other.index && decide (record.timestamp < other.timestamp))

def initRest (s : Builder × RamTranscript) : Option (Builder × RamTranscript) :=
  (List.range s.2.state.length).foldlM (fun s i =>
    if s.2.state[i]? = some none then initRamElement s.1 s.2 i zeroIdx else some s) s

def sortedRecord (s : Builder) (record : RamRecord) : Builder × RamRecord :=
  let value := s.getVariable record.valueWitness
  let (s, indexWitness) := s.addVariable record.index
  let (s, timestampWitness) := s.addVariable record.timestamp
  let (s, valueWitness) := s.addVariable value
  let (s, recordWitness) := s.addVariable 0
  (s, { record with
    indexWitness := indexWitness, timestampWitness := timestampWitness,
    valueWitness := valueWitness, recordWitness := recordWitness })

def sortedRecords (s : Builder) : List RamRecord → Builder × List RamRecord
  | [] => (s, [])
  | record :: records =>
    let (s, sorted) := sortedRecord s record
    let (s, rest) := sortedRecords s records
    (s, sorted :: rest)

def sortedGates (arraySize : ℕ) : List RamRecord → List (Gate FF)
  | [] => []
  | [last] =>
    [createBigAddGate last.indexWitness last.timestampWitness last.valueWitness last.recordWitness
      1 0 0 0 (-((arraySize - 1 : ℕ) : FF)) false]
  | record :: next :: rest =>
    auxGate .ramConsistencyCheck record.indexWitness record.timestampWitness record.valueWitness
      record.recordWitness :: sortedGates arraySize (next :: rest)

def timestampDelta (current next : RamRecord) : FF :=
  if current.index = next.index then ((next.timestamp - current.timestamp : ℕ) : FF) else 0

def timestampDeltas (s : Builder) : List RamRecord → Builder × List ℕ
  | current :: next :: rest =>
    let (s, witness) := s.addVariable (timestampDelta current next)
    let (s, witnesses) := timestampDeltas s (next :: rest)
    (s, witness :: witnesses)
  | _ => (s, [])

def timestampGates : List RamRecord → List ℕ → List (Gate FF)
  | current :: next :: rest, witness :: witnesses =>
    auxGate .ramTimestampCheck current.indexWitness current.timestampWitness witness zeroIdx ::
      timestampGates (next :: rest) witnesses
  | [last], [] =>
    [createBigAddGate last.indexWitness last.timestampWitness zeroIdx zeroIdx 0 0 0 0 0 false]
  | _, _ => []

/-- A circuit with a processed array: its records in the order of the calls and sorted, and the
variables with a range constraint. -/
structure Processed where
  builder : Builder
  records : List RamRecord
  sorted : List RamRecord
  deltas : List ℕ
  maxTimestamp : ℕ

/-- The sorted list of an initialised array, and its gates. -/
def sortArray (s : Builder) (array : RamTranscript) : Processed :=
  let (s, sorted) := sortedRecords s (array.records.mergeSort fun record other => !other.lt record)
  let (s, deltas) := timestampDeltas s sorted
  { builder := { s with
      gates := s.gates ++ (sortedGates array.state.length sorted ++ timestampGates sorted deltas) }
    records := array.records
    sorted := sorted
    deltas := deltas
    maxTimestamp := array.accessCount - 1 }

def processRamArray (s : Builder × RamTranscript) : Option Processed :=
  (initRest s).map fun t => sortArray t.1 t.2

def circuit (arraySize : ℕ) (calls : List Call) : Option Processed :=
  (run arraySize calls).bind processRamArray

/-! ### Assignments -/

def RamRecord.wires (v : ℕ → FF) (record : RamRecord) : Wires FF :=
  ⟨v record.indexWitness, v record.timestampWitness, v record.valueWitness, v record.recordWitness⟩

@[ext] structure Entry where
  index : FF
  timestamp : FF
  value : FF
  accessType : FF

def RamRecord.entry (eta : FF) (v : ℕ → FF) (record : RamRecord) : Entry where
  index := v record.indexWitness
  timestamp := v record.timestampWitness
  value := v record.valueWitness
  accessType := UltraGates.accessType eta (record.wires v)

/-- **A satisfying assignment**: the gates hold, for every factor `alpha`; the differences of
timestamps are in their range; the records and the sorted records are the same multiset. -/
structure Accepts (p : Processed) (eta : FF) (v : ℕ → FF) : Prop where
  gates : ∀ alpha, Satisfied alpha eta v p.builder.gates
  ranges : ∀ witness ∈ p.deltas, (v witness).val ≤ p.maxTimestamp
  records : (p.records.map (entry eta v)).Perm (p.sorted.map (entry eta v))

def access (v : ℕ → FF) (record : RamRecord) : Access ℕ ℕ FF where
  index := (v record.indexWitness).val
  time := record.timestamp
  value := v record.valueWitness
  isWrite := decide (record.accessType = .write)

/-! ### What the calls leave in the circuit -/

/-- Every record has its gate and a constant timestamp, which is its place in the order of calls. -/
structure Recorded (arraySize : ℕ) (s : Builder) (array : RamTranscript) : Prop where
  valid : s.Valid
  size : array.state.length = arraySize
  gate : ∀ r ∈ array.records, accessGate r ∈ s.gates
  timestamp : ∀ r ∈ array.records, ((r.timestamp : FF), r.timestampWitness) ∈ s.constants
  timestamps : array.records.map RamRecord.timestamp = List.range array.accessCount
  length : array.accessCount ≤ s.values.length
  count : array.state.countP Option.isSome ≤ array.accessCount

section Recorded

variable {arraySize : ℕ} {s s' : Builder} {array array' : RamTranscript}

theorem Recorded.new (arraySize : ℕ) : Recorded arraySize .new (createRamArray arraySize) where
  valid := valid_new
  size := length_replicate
  gate _ hr := absurd hr not_mem_nil
  timestamp _ hr := absurd hr not_mem_nil
  timestamps := rfl
  length := Nat.zero_le _
  count := by simp [createRamArray]

section

variable (h : Recorded arraySize s array)
include h

theorem Recorded.extends (hextends : Extends s s') (hvalid : s'.Valid) :
    Recorded arraySize s' array where
  valid := hvalid
  size := h.size
  gate r hr := hextends.mem_gates (h.gate r hr)
  timestamp r hr := hextends.constants _ (h.timestamp r hr)
  timestamps := h.timestamps
  length := h.length.trans hextends.length_le
  count := h.count

theorem Recorded.addVariable (value : FF) : Recorded arraySize (s.addVariable value).1 array :=
  h.extends (extends_addVariable value) (h.valid.extends (extends_addVariable value) rfl)

theorem Recorded.putConstantVariable (value : FF) :
    Recorded arraySize (s.putConstantVariable value).1 array :=
  h.extends (extends_putConstantVariable value) (h.valid.putConstantVariable value).1

end

variable {valueWitness indexValue : ℕ} {t : Builder × RamTranscript}

section

variable (h : Recorded arraySize s array)
include h

theorem Recorded.addRecord {indexWitness index : ℕ} {accessType : AccessType}
    (state : List (Option ℕ)) (hlength : state.length = array.state.length)
    (hcount : state.countP isSome ≤ array.state.countP isSome + 1) :
    Recorded arraySize (addRecord s array indexWitness valueWitness index accessType).1
      { (addRecord s array indexWitness valueWitness index accessType).2 with state := state } := by
  obtain ⟨hvalid, hconstant⟩ := h.valid.putConstantVariable array.accessCount
  have hput := h.putConstantVariable array.accessCount
  have hextends := (extends_addVariable (s := (s.putConstantVariable array.accessCount).1) 0)
  simp only [RamArray.addRecord, createRamGate]
  generalize hrecord : RamRecord.mk indexWitness (s.putConstantVariable array.accessCount).2
    valueWitness index array.accessCount accessType _ = record
  have hadd := hextends.trans (extends_addGate (accessGate record))
  refine ⟨hvalid.extends hadd rfl, hlength.trans h.size, fun r hr => ?_, fun r hr => ?_, ?_, ?_,
    hcount.trans (Nat.succ_le_succ h.count)⟩
  · rcases mem_append.1 hr with hr | hr
    · exact hadd.mem_gates (hput.gate r hr)
    · rw [mem_singleton.1 hr]
      exact mem_append_right _ (mem_singleton_self _)
  · rcases mem_append.1 hr with hr | hr
    · exact hadd.constants _ (hput.timestamp r hr)
    · rw [mem_singleton.1 hr, ← hrecord]
      exact hadd.constants _ hconstant
  · rw [map_append, h.timestamps, range_succ, map_singleton, ← hrecord]
  · exact (Nat.succ_le_succ hput.length).trans (length_addVariable 0).ge

theorem Recorded.initRamElement (hcall : initRamElement s array indexValue valueWitness = some t) :
    Recorded arraySize t.1 t.2 := by
  have hindex : Recorded arraySize
      (if indexValue = 0 then (s, zeroIdx) else s.putConstantVariable indexValue).1 array := by
    split
    · exact h
    · exact h.putConstantVariable indexValue
  simp only [RamArray.initRamElement] at hcall
  split at hcall
  · obtain rfl := some_inj.1 hcall
    exact hindex.addRecord _ length_set (countP_set_le _ _ _)
  · exact absurd hcall (some_ne_none t).symm

theorem Recorded.step {call : Call} (hstep : step (s, array) call = some t) :
    Recorded arraySize t.1 t.2 := by
  cases call with
  | addVariable value =>
    obtain rfl := some_inj.1 hstep
    exact h.addVariable value
  | putConstantVariable value =>
    obtain rfl := some_inj.1 hstep
    exact h.putConstantVariable value
  | initRamElement indexValue valueWitness => exact h.initRamElement hstep
  | readRamArray indexWitness =>
    simp only [RamArray.step, RamArray.readRamArray] at hstep
    split at hstep
    · obtain rfl := some_inj.1 hstep
      exact (h.addVariable _).addRecord array.state rfl (Nat.le_succ _)
    · exact absurd hstep (some_ne_none t).symm
  | writeRamArray indexWitness valueWitness =>
    simp only [RamArray.step, RamArray.writeRamArray] at hstep
    split at hstep
    · obtain rfl := some_inj.1 hstep
      exact h.addRecord _ length_set (countP_set_le _ _ _)
    · exact absurd hstep (some_ne_none t).symm

end

theorem Recorded.run {calls : List Call} (hrun : run arraySize calls = some t) :
    Recorded arraySize t.1 t.2 :=
  foldlM_keeps (f := RamArray.step) (P := fun t => Recorded arraySize t.1 t.2)
    (fun _ _ _ h hstep => h.step hstep) (Recorded.new arraySize) hrun

theorem Recorded.initRest {u : Builder × RamTranscript} (h : Recorded arraySize u.1 u.2)
    (hrest : initRest u = some t) : Recorded arraySize t.1 t.2 := by
  refine foldlM_keeps (P := fun t => Recorded arraySize t.1 t.2) (fun s i t hs hstep => ?_) h hrest
  split at hstep
  · exact hs.initRamElement hstep
  · exact some_inj.1 hstep ▸ hs

theorem state_initRamElement (hcall : initRamElement s array indexValue valueWitness = some t) :
    t.2.state = array.state.set indexValue (some valueWitness) := by
  simp only [RamArray.initRamElement] at hcall
  split at hcall
  · obtain rfl := some_inj.1 hcall
    rfl
  · exact absurd hcall (some_ne_none t).symm

theorem Recorded.cells (h : Recorded arraySize s array)
    (hrest : RamArray.initRest (s, array) = some t) :
    (∀ i < arraySize, t.2.state[i]? ≠ some none) ∧ arraySize ≤ t.2.accessCount := by
  have ht := h.initRest (u := (s, array)) hrest
  have hcells : ∀ i < array.state.length, t.2.state[i]? ≠ some none :=
    fill_below (fun u : Builder × RamTranscript => u.2.state)
      (fun _ _ _ hset => ⟨_, state_initRamElement hset⟩) hrest
  rw [h.size] at hcells
  have hcount : t.2.state.length ≤ t.2.state.countP isSome :=
    countP_of_cells (ht.size.symm ▸ hcells)
  rw [ht.size] at hcount
  exact ⟨hcells, hcount.trans ht.count⟩

end Recorded

/-! ### What the gates of the sorted list say -/

/-- What the gate of a record says of it and the next one. -/
structure Neighbours (e e' : Entry) : Prop where
  step : Step e.index e'.index
  accessType : e.accessType ^ 2 = e.accessType
  next : e'.accessType ^ 2 = e'.accessType
  value : (1 - (e'.index - e.index)) * (e'.value - e.value) * (1 - e'.accessType) = 0

/-- The difference of the timestamps is small when the index stays the same. -/
def TimesGrow (maxTimestamp : ℕ) (e e' : Entry) : Prop :=
  ((1 - (e'.index - e.index)) * (e'.timestamp - e.timestamp)).val ≤ maxTimestamp

section Gates

variable {arraySize : ℕ} {eta : FF} {v : ℕ → FF}

variable {sorted : List RamRecord} {deltas : List ℕ}

theorem satisfied_sortedGates {rest : List (Gate FF)} :
    (∀ alpha, Satisfied alpha eta v (sortedGates arraySize sorted ++ rest)) ↔
      (sorted.map (entry eta v)).IsChain Neighbours ∧
        (∀ last ∈ sorted.getLast?, v last.indexWitness = ((arraySize - 1 : ℕ) : FF)) ∧
          ∀ alpha, Satisfied alpha eta v rest := by
  induction sorted with
  | nil => simp [sortedGates]
  | cons record sorted ih =>
    cases sorted with
    | nil =>
      simp only [sortedGates, singleton_append, Satisfied, holds_bigAdd, forall_and,
        forall_const, map_singleton, isChain_singleton, true_and,
        List.getLast?_singleton, mem_some_iff, forall_eq']
      simp only [wiresOf, createBigAddGate]
      refine and_congr_left fun _ => ?_
      constructor
      · intro h
        linear_combination h
      · intro h
        linear_combination h
    | cons next rest' =>
      have hnext : nextWires v (sortedGates arraySize (next :: rest') ++ rest) = next.wires v := by
        cases rest' <;> rfl
      rw [sortedGates, map_cons, map_cons, isChain_cons_cons, ← map_cons,
        List.getLast?_cons_cons, and_assoc, ← ih, cons_append]
      simp only [Satisfied, forall_and, hnext]
      refine and_congr_left fun _ => ?_
      rw [holds_ramConsistency char_ne_two char_ne_three]
      constructor
      · rintro ⟨htype, htype', hstep, hvalue⟩
        exact ⟨hstep, htype, htype', hvalue⟩
      · intro h
        exact ⟨h.accessType, h.next, h.step, h.value⟩

theorem length_timestampDeltas (s : Builder) (sorted : List RamRecord) :
    (timestampDeltas s sorted).2.length = sorted.length - 1 := by
  induction sorted generalizing s with
  | nil => rfl
  | cons current sorted ih =>
    cases sorted with
    | nil => rfl
    | cons next rest => exact congrArg Nat.succ (ih (s.addVariable (timestampDelta current next)).1)

/-- The variables of `deltas` are the differences of the timestamps at one index. -/
def Differences (v : ℕ → FF) : List RamRecord → List ℕ → Prop
  | current :: next :: rest, witness :: witnesses =>
    (1 - (v next.indexWitness - v current.indexWitness)) *
        (v next.timestampWitness - v current.timestampWitness) = v witness ∧
      Differences v (next :: rest) witnesses
  | _, _ => True

theorem satisfied_timestampGates (hlength : deltas.length = sorted.length - 1) :
    (∀ alpha, Satisfied alpha eta v (timestampGates sorted deltas)) ↔
      Differences v sorted deltas := by
  induction sorted generalizing deltas with
  | nil => simp [timestampGates, Differences, Satisfied]
  | cons current sorted ih =>
    cases sorted with
    | nil =>
      obtain rfl := length_eq_zero_iff.1 hlength
      simp only [timestampGates, Differences, Satisfied, holds_bigAdd, iff_true]
      exact fun _ => ⟨by ring, trivial⟩
    | cons next rest =>
      cases deltas with
      | nil => exact absurd hlength (Nat.succ_ne_zero _).symm
      | cons witness witnesses =>
        have hlength' : witnesses.length = rest.length := by simpa using hlength
        have hnext : (nextWires v (timestampGates (next :: rest) witnesses)).w_1 =
            v next.indexWitness ∧ (nextWires v (timestampGates (next :: rest) witnesses)).w_2 =
              v next.timestampWitness := by
          cases rest with
          | nil =>
            obtain rfl := length_eq_zero_iff.1 hlength'
            exact ⟨rfl, rfl⟩
          | cons _ _ =>
            cases witnesses with
            | nil => exact absurd hlength' (Nat.succ_ne_zero _).symm
            | cons _ _ => exact ⟨rfl, rfl⟩
        simp only [timestampGates, Differences, Satisfied, forall_and, ih hlength',
          holds_ramTimestamp, hnext.1, hnext.2, forall_const]
        rfl

theorem Differences.isChain (eta : FF) {maxTimestamp : ℕ} (h : Differences v sorted deltas)
    (hlength : deltas.length = sorted.length - 1)
    (hranges : ∀ witness ∈ deltas, (v witness).val ≤ maxTimestamp) :
    (sorted.map (entry eta v)).IsChain (TimesGrow maxTimestamp) := by
  induction sorted generalizing deltas with
  | nil => exact .nil
  | cons current sorted ih =>
    cases sorted with
    | nil => exact .singleton _
    | cons next rest =>
      cases deltas with
      | nil => exact absurd hlength (Nat.succ_ne_zero _).symm
      | cons witness witnesses =>
        rw [map_cons, map_cons, isChain_cons_cons, ← map_cons]
        have hhead : TimesGrow maxTimestamp (current.entry eta v) (next.entry eta v) :=
          (congrArg ZMod.val h.1).trans_le (hranges witness mem_cons_self)
        exact ⟨hhead, ih h.2 (by simpa using hlength) fun witness hwitness =>
          hranges witness (mem_cons_of_mem _ hwitness)⟩

end Gates

/-! ### The sorted list is a run of a memory -/

def Entry.toAccess (e : Entry) : Access ℕ ℕ FF where
  index := e.index.val
  time := e.timestamp.val
  value := e.value
  isWrite := decide (e.accessType = 1)

section Sorted

variable {entries : List Entry} {maxTimestamp : ℕ}

theorem val_eq_iff {x y : FF} : x.val = y.val ↔ x = y := (ZMod.val_injective _).eq_iff

theorem isChain_before (hneighbours : entries.IsChain Neighbours)
    (htimes : entries.IsChain (TimesGrow maxTimestamp)) (hmax : maxTimestamp < 2 ^ 32)
    (hindex : ∀ e ∈ entries, e.index ≠ -1)
    (htimestamp : ∀ e ∈ entries, e.timestamp.val ≤ maxTimestamp)
    (hdistinct : (entries.map Entry.timestamp).Nodup) :
    (entries.map Entry.toAccess).IsChain Before := by
  rw [isChain_map]
  have hne : entries.IsChain fun e e' => e.timestamp ≠ e'.timestamp :=
    (pairwise_map.1 hdistinct).isChain
  rw [isChain_iff_getElem] at hneighbours htimes hne ⊢
  intro i hi
  have hstep := (hneighbours i hi).step
  have hmem : entries[i] ∈ entries := getElem_mem _
  rcases hstep.cases with heq | hsucc
  · refine .inr ⟨(congrArg ZMod.val heq).symm, ?_⟩
    -- the later timestamp is the earlier one plus a small number
    have hdelta := htimes i hi
    rw [TimesGrow, heq, sub_self, sub_zero, one_mul] at hdelta
    have hlow := htimestamp _ hmem
    have hsum : (entries[i + 1].timestamp).val =
        entries[i].timestamp.val + (entries[i + 1].timestamp - entries[i].timestamp).val := by
      have hlt : entries[i].timestamp.val + (entries[i + 1].timestamp -
          entries[i].timestamp).val < Kernel.fieldModulus :=
        FF.lt_fieldModulus (by omega)
      rw [← ZMod.val_add_of_lt hlt, add_sub_cancel]
    have hneval : entries[i].timestamp.val ≠ entries[i + 1].timestamp.val := fun h =>
      hne i hi (val_eq_iff.1 h)
    simp only [Entry.toAccess]
    omega
  · refine .inl ?_
    simp only [Entry.toAccess]
    rw [hsucc, val_add_one (hindex _ hmem)]
    exact Nat.lt_succ_self _

theorem isChain_copies (hneighbours : entries.IsChain Neighbours) :
    (entries.map Entry.toAccess).IsChain Copies := by
  rw [isChain_map]
  refine hneighbours.imp fun e e' h hindex hread => ?_
  have heq : e.index = e'.index := val_eq_iff.1 hindex
  have hzero : e'.accessType = 0 :=
    (eq_zero_or_one h.next).resolve_right (of_decide_eq_false hread)
  have hvalue := h.value
  rw [heq, hzero, sub_self, sub_zero, one_mul, mul_one] at hvalue
  exact sub_eq_zero.1 hvalue

end Sorted

/-! ### Soundness -/

section Sound

variable {arraySize : ℕ} {calls : List Call} {p : Processed} {eta : FF} {v : ℕ → FF}

theorem extends_sortedRecords (s : Builder) (records : List RamRecord) :
    Extends s (sortedRecords s records).1 ∧ (sortedRecords s records).1.constants = s.constants ∧
        (sortedRecords s records).1.gates = s.gates := by
  induction records generalizing s with
  | nil => exact ⟨.refl s, rfl, rfl⟩
  | cons record records ih =>
    obtain ⟨hextends, hconstants, hgates⟩ := ih (sortedRecord s record).1
    have hrecord : Extends s (sortedRecord s record).1 :=
      (((extends_addVariable _).trans (extends_addVariable _)).trans (extends_addVariable _)).trans
        (extends_addVariable 0)
    exact ⟨hrecord.trans hextends, hconstants, hgates⟩

theorem extends_timestampDeltas (s : Builder) (sorted : List RamRecord) :
    Extends s (timestampDeltas s sorted).1 ∧ (timestampDeltas s sorted).1.constants = s.constants ∧
        (timestampDeltas s sorted).1.gates = s.gates := by
  induction sorted generalizing s with
  | nil => exact ⟨.refl s, rfl, rfl⟩
  | cons current sorted ih =>
    cases sorted with
    | nil => exact ⟨.refl s, rfl, rfl⟩
    | cons next rest =>
      obtain ⟨hextends, hconstants, hgates⟩ := ih (s.addVariable (timestampDelta current next)).1
      exact ⟨(extends_addVariable _).trans hextends, hconstants, hgates⟩

theorem exists_of_circuit (h : circuit arraySize calls = some p) :
    ∃ s array, Recorded arraySize s array ∧ arraySize ≤ array.accessCount ∧
      p = sortArray s array := by
  obtain ⟨u, hu, hp⟩ := bind_eq_some_iff.1 h
  obtain ⟨t, ht, rfl⟩ := map_eq_some_iff.1 hp
  have hrun := Recorded.run hu
  exact ⟨t.1, t.2, hrun.initRest ht, (hrun.cells ht).2, rfl⟩

variable {s : Builder} {array : RamTranscript}

theorem gates_sortArray : (sortArray s array).builder.gates =
    s.gates ++ (sortedGates array.state.length (sortArray s array).sorted ++
      timestampGates (sortArray s array).sorted (sortArray s array).deltas) := by
  have hgates := (extends_timestampDeltas (sortedRecords s
    (array.records.mergeSort fun record other => !other.lt record)).1
      (sortArray s array).sorted).2.2
  rw [(extends_sortedRecords s _).2.2] at hgates
  simp only [sortArray] at hgates ⊢
  rw [hgates]

theorem length_deltas : (sortArray s array).deltas.length = (sortArray s array).sorted.length - 1 :=
  length_timestampDeltas _ _

theorem length_le_sortArray : s.values.length ≤ (sortArray s array).builder.values.length :=
  (extends_sortedRecords s _).1.length_le.trans (extends_timestampDeltas _ _).1.length_le

variable {alpha : FF} {r : RamRecord}

section

variable (h : Recorded arraySize s array)
include h

section

variable (hgates : EachHolds alpha eta v s.gates) (hr : r ∈ array.records)
include hgates hr

theorem Recorded.accessType_eq :
    (r.entry eta v).accessType = if r.accessType = .write then 1 else 0 := by
  obtain ⟨shifted, hholds⟩ := hgates _ (h.gate r hr)
  cases htype : r.accessType with
  | read =>
    rw [accessGate, if_pos htype] at hholds
    exact (holds_memory (.inr (.inl rfl))).1 hholds
  | write =>
    rw [accessGate, if_neg (by rw [htype]; exact AccessType.noConfusion)] at hholds
    exact (holds_memory (.inr (.inr rfl))).1 hholds

theorem Recorded.timestamp_eq :
    v r.timestampWitness = r.timestamp :=
  h.valid.assignment_eq hgates (h.timestamp r hr)

end

theorem Recorded.timestamp_lt (hr : r ∈ array.records) : r.timestamp < array.accessCount := by
  have hmem := mem_map_of_mem (f := RamRecord.timestamp) hr
  rwa [h.timestamps, mem_range] at hmem

section

variable (hbits : s.values.length ≤ 2 ^ 32) (hgates : EachHolds alpha eta v s.gates)
include hbits hgates

theorem Recorded.toAccess_entry (hr : r ∈ array.records) :
    (r.entry eta v).toAccess = access v r := by
  have hlt : r.timestamp < 2 ^ 253 :=
    ((h.timestamp_lt hr).trans_le (h.length.trans hbits)).trans (by norm_num)
  have htimestamp : (v r.timestampWitness).val = r.timestamp := by
    rw [h.timestamp_eq hgates hr, val_natCast hlt]
  have htype : (r.entry eta v).accessType = 1 ↔ r.accessType = .write := by
    rw [h.accessType_eq hgates hr]
    split <;> simp_all
  simp only [Entry.toAccess, access, htype]
  simp only [entry, htimestamp]

theorem Recorded.nodup_timestamps :
    ((array.records.map (RamRecord.entry eta v)).map Entry.timestamp).Nodup := by
  have hmap : (array.records.map (RamRecord.entry eta v)).map Entry.timestamp =
      (List.range array.accessCount).map fun t : ℕ => (t : FF) := by
    rw [← h.timestamps, List.map_map, List.map_map]
    exact map_congr_left fun r hr => h.timestamp_eq hgates hr
  rw [hmap]
  have hlt : ∀ t ∈ List.range array.accessCount, t < 2 ^ 253 := fun t ht =>
    ((mem_range.1 ht).trans_le (h.length.trans hbits)).trans (by norm_num)
  exact List.Nodup.map_on (fun t ht t' ht' heq => natCast_inj (hlt t ht) (hlt t' ht') heq)
    nodup_range

end

end

/-- The entries of the sorted list, without `-1`. -/
structure SortedFacts (arraySize : ℕ) (eta : FF) (v : ℕ → FF) (s : Builder)
    (array : RamTranscript) : Prop where
  perm : (array.records.map (access v)).Perm
    (((sortArray s array).sorted.map (entry eta v)).map Entry.toAccess)
  lt : ∀ r ∈ array.records, (v r.indexWitness).val < arraySize
  before : (((sortArray s array).sorted.map (entry eta v)).map
    Entry.toAccess).Pairwise Before
  copies : (((sortArray s array).sorted.map (entry eta v)).map
    Entry.toAccess).IsChain Copies

theorem Recorded.sortedFacts (h : Recorded arraySize s array) (hpos : 0 < arraySize)
    (hsize : arraySize ≤ array.accessCount) (hbits : s.values.length ≤ 2 ^ 32)
    (haccepts : Accepts (sortArray s array) eta v)
    (hne : ∀ r ∈ array.records, v r.indexWitness ≠ -1) : SortedFacts arraySize eta v s array := by
  have hall := haccepts.gates
  simp only [gates_sortArray, h.size] at hall
  have heach : EachHolds 0 eta v s.gates := eachHolds_left (hall 0)
  obtain ⟨hneighbours, hlast, htimestamps⟩ :=
    satisfied_sortedGates.1 fun alpha => (hall alpha).of_append
  have htimes := ((satisfied_timestampGates length_deltas).1 htimestamps).isChain eta
    length_deltas haccepts.ranges
  have hperm : (array.records.map (RamRecord.entry eta v)).Perm
    ((sortArray s array).sorted.map (RamRecord.entry eta v)) := haccepts.records
  have hcount : array.accessCount ≤ 2 ^ 32 := h.length.trans hbits
  -- the entries are those of the accesses
  have hindex : ∀ e ∈ (sortArray s array).sorted.map (RamRecord.entry eta v), e.index ≠ -1 := by
    intro e he
    obtain ⟨r, hr, rfl⟩ := mem_map.1 (hperm.mem_iff.2 he)
    exact hne r hr
  have htimestamp : ∀ e ∈ (sortArray s array).sorted.map (RamRecord.entry eta v),
      e.timestamp.val ≤ array.accessCount - 1 := by
    intro e he
    obtain ⟨r, hr, rfl⟩ := mem_map.1 (hperm.mem_iff.2 he)
    have hlt := h.timestamp_lt hr
    have hval : (v r.timestampWitness).val = r.timestamp := by
      rw [h.timestamp_eq heach hr, val_natCast ((hlt.trans_le hcount).trans (by norm_num))]
    exact hval.trans_le (Nat.le_sub_one_of_lt hlt)
  have hdistinct := (hperm.map Entry.timestamp).nodup_iff.1 (h.nodup_timestamps hbits heach)
  have hbefore := isChain_before hneighbours htimes (by show _ - 1 < _; omega) hindex htimestamp
    hdistinct
  refine ⟨?_, ?_, isChain_iff_pairwise.1 hbefore, isChain_copies hneighbours⟩
  · have haccess : array.records.map (access v) =
        (array.records.map (RamRecord.entry eta v)).map Entry.toAccess := by
      rw [List.map_map]
      exact map_congr_left fun r hr => (h.toAccess_entry hbits heach hr).symm
    rw [haccess]
    exact hperm.map _
  · -- the indices go up by steps to the last one
    have hsteps : ((sortArray s array).sorted.map fun r => v r.indexWitness).IsChain Step := by
      rw [isChain_map] at hneighbours ⊢
      exact hneighbours.imp fun _ _ hn => hn.step
    intro r hr
    have hmem : r.entry eta v ∈ (sortArray s array).sorted.map (RamRecord.entry eta v) :=
      hperm.mem_iff.1 (mem_map_of_mem hr)
    obtain ⟨r', hr', heq⟩ := mem_map.1 hmem
    obtain ⟨last, hgetLast⟩ : ∃ last, (sortArray s array).sorted.getLast? = some last :=
      ⟨_, List.getLast?_eq_getLast_of_ne_nil (ne_nil_of_mem hr')⟩
    have hne' : ∀ x ∈ (sortArray s array).sorted.map fun r => v r.indexWitness, x ≠ -1 := by
      intro x hx
      obtain ⟨r, hr, rfl⟩ := mem_map.1 hx
      exact hindex _ (mem_map_of_mem hr)
    have hle : (v r'.indexWitness).val ≤ (v last.indexWitness).val :=
      indices_of_steps hsteps (by rw [List.getLast?_map, hgetLast]; rfl) hne' _ (mem_map_of_mem hr')
    rw [hlast last hgetLast, val_natCast (by omega)] at hle
    have hindexEq : v r'.indexWitness = v r.indexWitness := congrArg Entry.index heq
    rw [hindexEq] at hle
    omega

/-- **A satisfying assignment is a run of a memory, exactly** when no index is `-1` and every read
has an initialisation or write of its cell before it. -/
theorem consistent_iff (hcircuit : circuit arraySize calls = some p) (hpos : 0 < arraySize)
    (hbits : p.builder.values.length ≤ 2 ^ 32) (haccepts : Accepts p eta v) :
    ((∀ r ∈ p.records, (v r.indexWitness).val < arraySize) ∧
        Consistent (p.records.map (access v))) ↔ (∀ r ∈ p.records, v r.indexWitness ≠ -1) ∧
        ∀ r ∈ p.records, r.accessType = .read → ∃ w ∈ p.records, w.accessType = .write ∧
          v w.indexWitness = v r.indexWitness ∧ w.timestamp < r.timestamp := by
  obtain ⟨s, array, h, hsize, rfl⟩ := exists_of_circuit hcircuit
  have hbits' : s.values.length ≤ 2 ^ 32 := length_le_sortArray.trans hbits
  constructor
  · rintro ⟨hlt, hconsistent⟩
    refine ⟨fun r hr heq => ?_, fun r hr hread => ?_⟩
    · have hcount : arraySize ≤ 2 ^ 32 := hsize.trans (h.length.trans hbits')
      have hval := hlt r hr
      exact ne_neg_one (by omega) heq
    · obtain ⟨w, hw, -⟩ := hconsistent _ (mem_map_of_mem hr) (by simp [access, hread])
      obtain ⟨w', hw', rfl⟩ := mem_map.1 hw.mem
      exact ⟨w', hw', of_decide_eq_true hw.isWrite, val_eq_iff.1 hw.index, hw.time⟩
  · rintro ⟨hne, hwritten⟩
    have hfacts := h.sortedFacts hpos hsize hbits' haccepts hne
    refine ⟨hfacts.lt, fun a ha hread => ?_⟩
    obtain ⟨r, hr, rfl⟩ := mem_map.1 ha
    have htype : r.accessType = .read := by
      cases hr : r.accessType with
      | read => rfl
      | write => simp [access, hr] at hread
    obtain ⟨w, hw, hwrite, hindex, htime⟩ := hwritten r hr htype
    have hexists : ∃ w ∈ array.records.map (access v), w.isWrite = true ∧
        w.index = (access v r).index ∧ w.time < (access v r).time :=
      ⟨access v w, mem_map_of_mem hw, decide_eq_true hwrite, congrArg ZMod.val hindex, htime⟩
    obtain ⟨latest, hlatest⟩ := exists_latestWrite hexists
    exact ⟨latest, hlatest, value_eq_of_latestWrite hfacts.before hfacts.copies
      (hfacts.perm.mem_iff.1 ha) hread (hlatest.of_perm hfacts.perm)⟩

end Sound

end RamArray
