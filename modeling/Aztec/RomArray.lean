/-
**ROM arrays of the Ultra circuit builder.**

The cells of an array have two columns.  Initialisations and reads make records of an index and two
values; the sorted list compares neighbours, which are equal when the index stays the same, and ends
with a gate whose index is the number of cells.  As for RAM arrays no gate says that the first index
is zero.  A read of one column has zero in the second, so it fails on a cell that was initialised
with a pair whose second value is not zero.
-/

import Aztec.MemoryChecking
import Aztec.UltraMemory

open List Option

namespace RomArray

open UltraGates UltraMemory MemoryChecking

/-! ### Records and calls -/

/-- `RomRecord`, without `gate_index`. -/
structure RomRecord where
  indexWitness : ℕ
  valueColumn1Witness : ℕ
  valueColumn2Witness : ℕ
  index : ℕ
  recordWitness : ℕ

/-- `RomTranscript`: `none` is an `UNINITIALIZED_MEMORY_RECORD`. -/
structure RomTranscript where
  state : List (Option (ℕ × ℕ))
  records : List RomRecord

def createRomArray (arraySize : ℕ) : RomTranscript := ⟨List.replicate arraySize none, []⟩

def accessGate (record : RomRecord) : Gate FF :=
  auxGate .romRead record.indexWitness record.valueColumn1Witness record.valueColumn2Witness
    record.recordWitness

def createRomGate (s : Builder) (record : RomRecord) : Builder × RomRecord :=
  let (s, recordWitness) := s.addVariable 0
  let record := { record with recordWitness := recordWitness }
  (s.addGate (accessGate record), record)

def addRecord (s : Builder) (array : RomTranscript)
    (indexWitness valueColumn1Witness valueColumn2Witness index : ℕ) : Builder × RomTranscript :=
  let (s, record) := createRomGate s
    { indexWitness := indexWitness, valueColumn1Witness := valueColumn1Witness,
      valueColumn2Witness := valueColumn2Witness, index := index, recordWitness := 0 }
  (s, { array with records := array.records ++ [record] })

def setRomElementPair (s : Builder) (array : RomTranscript) (indexValue : ℕ)
    (valueWitnesses : ℕ × ℕ) : Option (Builder × RomTranscript) :=
  let (s, indexWitness) :=
    if indexValue = 0 then (s, zeroIdx) else s.putConstantVariable indexValue
  if array.state[indexValue]? = some none then
    some (addRecord s { array with state := array.state.set indexValue (some valueWitnesses) }
      indexWitness valueWitnesses.1 valueWitnesses.2 indexValue)
  else
    none

def setRomElement (s : Builder) (array : RomTranscript) (indexValue valueWitness : ℕ) :
    Option (Builder × RomTranscript) :=
  setRomElementPair s array indexValue (valueWitness, zeroIdx)

/-- The value of an index witness, `static_cast<uint32_t>`. -/
def indexOf (s : Builder) (indexWitness : ℕ) : ℕ := (s.getVariable indexWitness).val % 2 ^ 32

/-- The call returns the witness of the value that was read, the first column of the new record. -/
def readRomArray (s : Builder) (array : RomTranscript) (indexWitness : ℕ) :
    Option (Builder × RomTranscript) :=
  let index := indexOf s indexWitness
  match array.state[index]? with
  | some (some witnesses) =>
    let (s, valueWitness) := s.addVariable (s.getVariable witnesses.1)
    some (addRecord s array indexWitness valueWitness zeroIdx index)
  | _ => none

/-- The call returns the witnesses of the two columns of the new record. -/
def readRomArrayPair (s : Builder) (array : RomTranscript) (indexWitness : ℕ) :
    Option (Builder × RomTranscript) :=
  let index := indexOf s indexWitness
  match array.state[index]? with
  | some (some witnesses) =>
    let value2 := s.getVariable witnesses.2
    let (s, valueWitness1) := s.addVariable (s.getVariable witnesses.1)
    let (s, valueWitness2) := s.addVariable value2
    some (addRecord s array indexWitness valueWitness1 valueWitness2 index)
  | _ => none

/-- The calls on an array, and what other calls on the circuit do. -/
inductive Call where
  | addVariable (value : FF)
  | putConstantVariable (value : FF)
  | setRomElement (indexValue valueWitness : ℕ)
  | setRomElementPair (indexValue : ℕ) (valueWitnesses : ℕ × ℕ)
  | readRomArray (indexWitness : ℕ)
  | readRomArrayPair (indexWitness : ℕ)

def step (s : Builder × RomTranscript) : Call → Option (Builder × RomTranscript)
  | .addVariable value => some ((s.1.addVariable value).1, s.2)
  | .putConstantVariable value => some ((s.1.putConstantVariable value).1, s.2)
  | .setRomElement indexValue valueWitness => setRomElement s.1 s.2 indexValue valueWitness
  | .setRomElementPair indexValue valueWitnesses =>
    setRomElementPair s.1 s.2 indexValue valueWitnesses
  | .readRomArray indexWitness => readRomArray s.1 s.2 indexWitness
  | .readRomArrayPair indexWitness => readRomArrayPair s.1 s.2 indexWitness

def run (arraySize : ℕ) (calls : List Call) : Option (Builder × RomTranscript) :=
  calls.foldlM step (.new, createRomArray arraySize)

/-! ### Finalisation -/

/-- `operator<`. -/
def RomRecord.lt (record other : RomRecord) : Bool := decide (record.index < other.index)

def initRest (s : Builder × RomTranscript) : Option (Builder × RomTranscript) :=
  (List.range s.2.state.length).foldlM (fun s i =>
    if s.2.state[i]? = some none then setRomElementPair s.1 s.2 i (zeroIdx, zeroIdx) else some s) s

def sortedRecord (s : Builder) (record : RomRecord) : Builder × RomRecord :=
  let value1 := s.getVariable record.valueColumn1Witness
  let value2 := s.getVariable record.valueColumn2Witness
  let (s, indexWitness) := s.addVariable record.index
  let (s, value1Witness) := s.addVariable value1
  let (s, value2Witness) := s.addVariable value2
  let (s, recordWitness) := s.addVariable 0
  (s, { record with
    indexWitness := indexWitness, valueColumn1Witness := value1Witness,
    valueColumn2Witness := value2Witness, recordWitness := recordWitness })

def sortedRecords (s : Builder) : List RomRecord → Builder × List RomRecord
  | [] => (s, [])
  | record :: records =>
    let (s, sorted) := sortedRecord s record
    let (s, rest) := sortedRecords s records
    (s, sorted :: rest)

def sortedGates (arraySize maxIndex : ℕ) : List RomRecord → List (Gate FF)
  | [] =>
    [createBigAddGate maxIndex zeroIdx zeroIdx zeroIdx 1 0 0 0 (-(arraySize : FF)) false]
  | record :: rest =>
    auxGate .romConsistencyCheck record.indexWitness record.valueColumn1Witness
      record.valueColumn2Witness record.recordWitness :: sortedGates arraySize maxIndex rest

/-- A circuit with a processed array: its cells, its records in the order of the calls, and the
sorted records. -/
structure Processed where
  builder : Builder
  state : List (Option (ℕ × ℕ))
  records : List RomRecord
  sorted : List RomRecord

/-- The sorted list of an initialised array, and its gates. -/
def sortArray (s : Builder) (array : RomTranscript) : Processed :=
  let (s, sorted) := sortedRecords s (array.records.mergeSort fun record other => !other.lt record)
  let (s, maxIndex) := s.addVariable (array.state.length : FF)
  { builder := { s with gates := s.gates ++ sortedGates array.state.length maxIndex sorted }
    state := array.state
    records := array.records
    sorted := sorted }

def processRomArray (s : Builder × RomTranscript) : Option Processed :=
  (initRest s).map fun t => sortArray t.1 t.2

def circuit (arraySize : ℕ) (calls : List Call) : Option Processed :=
  (run arraySize calls).bind processRomArray

/-! ### Assignments -/

@[ext] structure Entry where
  index : FF
  value1 : FF
  value2 : FF

def RomRecord.entry (v : ℕ → FF) (record : RomRecord) : Entry where
  index := v record.indexWitness
  value1 := v record.valueColumn1Witness
  value2 := v record.valueColumn2Witness

def Entry.record (eta : FF) (e : Entry) : FF := encode eta e.index e.value1 e.value2 0

/-- **A satisfying assignment**: the gates hold, for every factor `alpha`, and the records and the
sorted records are the same multiset. -/
structure Accepts (p : Processed) (eta : FF) (v : ℕ → FF) : Prop where
  gates : ∀ alpha, Satisfied alpha eta v p.builder.gates
  records : (p.records.map (RomRecord.entry v)).Perm (p.sorted.map (RomRecord.entry v))

/-- `eta` tells the entries apart, and from zeros. -/
def InjectiveRecords (eta : FF) (entries : List Entry) : Prop :=
  ∀ e ∈ ⟨0, 0, 0⟩ :: entries, ∀ e' ∈ ⟨0, 0, 0⟩ :: entries, e.record eta = e'.record eta → e = e'

/-- **Every access is to a cell, and has its initial values.** -/
def ReadsCells (p : Processed) (v : ℕ → FF) : Prop :=
  ∀ r ∈ p.records, ∃ (i : ℕ) (witnesses : ℕ × ℕ), p.state[i]? = some (some witnesses) ∧
    v r.indexWitness = i ∧ v r.valueColumn1Witness = v witnesses.1 ∧
      v r.valueColumn2Witness = v witnesses.2

/-! ### What the calls leave in the circuit -/

/-- Every record has its gate, and every initialised cell a record with a constant index. -/
structure Recorded (arraySize : ℕ) (s : Builder) (array : RomTranscript) : Prop where
  valid : s.Valid
  size : array.state.length = arraySize
  gate : ∀ r ∈ array.records, accessGate r ∈ s.gates
  cell : ∀ (i : ℕ) (witnesses : ℕ × ℕ), array.state[i]? = some (some witnesses) →
    ∃ r ∈ array.records, ((i : FF), r.indexWitness) ∈ s.constants ∧ r.index = i ∧
      r.valueColumn1Witness = witnesses.1 ∧ r.valueColumn2Witness = witnesses.2
  length : array.records.length ≤ s.values.length
  count : array.state.countP Option.isSome ≤ array.records.length

section Recorded

variable {arraySize : ℕ} {s s' : Builder} {array array' : RomTranscript}

theorem Recorded.new (arraySize : ℕ) : Recorded arraySize .new (createRomArray arraySize) where
  valid := valid_new
  size := length_replicate
  gate _ hr := absurd hr not_mem_nil
  cell i witnesses h := by
    rw [createRomArray, getElem?_replicate] at h
    split at h <;> cases h
  length := Nat.zero_le _
  count := by simp [createRomArray]

section

variable (h : Recorded arraySize s array)
include h

theorem Recorded.extends (hextends : Extends s s')
    (hvalid : s'.Valid) : Recorded arraySize s' array where
  valid := hvalid
  size := h.size
  gate r hr := hextends.mem_gates (h.gate r hr)
  cell i witnesses hcell := by
    obtain ⟨r, hr, hconstant, hcolumns⟩ := h.cell i witnesses hcell
    exact ⟨r, hr, hextends.constants _ hconstant, hcolumns⟩
  length := h.length.trans hextends.length_le
  count := h.count

theorem Recorded.addVariable (value : FF) : Recorded arraySize (s.addVariable value).1 array :=
  h.extends (extends_addVariable value) (h.valid.extends (extends_addVariable value) rfl)

theorem Recorded.putConstantVariable (value : FF) :
    Recorded arraySize (s.putConstantVariable value).1 array :=
  h.extends (extends_putConstantVariable value) (h.valid.putConstantVariable value).1

theorem Recorded.addRecord {indexWitness column1 column2 index : ℕ} {state : List (Option (ℕ × ℕ))}
    (hlength : state.length = array.state.length)
    (hcount : state.countP isSome ≤ array.state.countP isSome + 1)
    (hstate : ∀ (i : ℕ) (witnesses : ℕ × ℕ), state[i]? = some (some witnesses) →
      array.state[i]? = some (some witnesses) ∨ i = index ∧ witnesses = (column1, column2) ∧
        ((index : FF), indexWitness) ∈ s.constants) : Recorded arraySize
      (addRecord s { array with state := state } indexWitness column1 column2 index).1
      (addRecord s { array with state := state } indexWitness column1 column2 index).2 := by
  simp only [RomArray.addRecord, createRomGate]
  generalize hrecord : RomRecord.mk indexWitness column1 column2 index _ = record
  have hadd : Extends s ((s.addVariable 0).1.addGate (accessGate record)) :=
    (extends_addVariable 0).trans (extends_addGate (accessGate record))
  refine ⟨h.valid.extends hadd rfl, hlength.trans h.size, fun r hr => ?_,
    fun i witnesses hcell => ?_, ?_, ?_⟩
  · rcases mem_append.1 hr with hr | hr
    · exact hadd.mem_gates (h.gate r hr)
    · rw [mem_singleton.1 hr]
      exact mem_append_right _ (mem_singleton_self _)
  · rcases hstate i witnesses hcell with hcell | ⟨rfl, rfl, hconstant⟩
    · obtain ⟨r, hr, hconstant, hcolumns⟩ := h.cell i witnesses hcell
      exact ⟨r, mem_append_left _ hr, hadd.constants _ hconstant, hcolumns⟩
    · subst hrecord
      exact ⟨_, mem_append_right _ (mem_singleton_self _), hadd.constants _ hconstant,
        rfl, rfl, rfl⟩
  · rw [length_append]
    exact (Nat.succ_le_succ h.length).trans (length_addVariable 0).ge
  · rw [length_append]
    exact hcount.trans (Nat.succ_le_succ h.count)

end

variable {indexValue : ℕ} {valueWitnesses : ℕ × ℕ} {t : Builder × RomTranscript}

theorem Recorded.setRomElementPair (h : Recorded arraySize s array)
    (hcall : setRomElementPair s array indexValue valueWitnesses = some t) :
    Recorded arraySize t.1 t.2 := by
  have hindex : ∃ u,
      u = (if indexValue = 0 then (s, zeroIdx) else s.putConstantVariable indexValue) ∧
      Recorded arraySize u.1 array ∧ ((indexValue : FF), u.2) ∈ u.1.constants := by
    refine ⟨_, rfl, ?_⟩
    split
    · next heq =>
      refine ⟨h, ?_⟩
      rw [heq, Nat.cast_zero]
      exact h.valid.zero
    · exact ⟨h.putConstantVariable indexValue, (h.valid.putConstantVariable _).2⟩
  obtain ⟨u, hu, hrecorded, hconstant⟩ := hindex
  simp only [RomArray.setRomElementPair, ← hu] at hcall
  split at hcall
  · obtain rfl := some_inj.1 hcall
    refine hrecorded.addRecord length_set (countP_set_le _ _ _) fun i witnesses hcell => ?_
    rcases getElem?_set_cases hcell with hcell | ⟨rfl, heq⟩
    · exact .inl hcell
    · exact .inr ⟨rfl, heq, hconstant⟩
  · exact absurd hcall (some_ne_none t).symm

theorem Recorded.step (h : Recorded arraySize s array) {call : Call}
    (hstep : step (s, array) call = some t) : Recorded arraySize t.1 t.2 := by
  have hsame : ∀ (index iw w₁ w₂ : ℕ) (s : Builder) (i : ℕ) (witnesses : ℕ × ℕ),
      array.state[i]? = some (some witnesses) → array.state[i]? = some (some witnesses) ∨
        i = index ∧ witnesses = (w₁, w₂) ∧ ((index : FF), iw) ∈ s.constants :=
    fun _ _ _ _ _ _ _ hcell => .inl hcell
  cases call with
  | addVariable value =>
    obtain rfl := some_inj.1 hstep
    exact h.addVariable value
  | putConstantVariable value =>
    obtain rfl := some_inj.1 hstep
    exact h.putConstantVariable value
  | setRomElement indexValue valueWitness => exact h.setRomElementPair hstep
  | setRomElementPair indexValue valueWitnesses => exact h.setRomElementPair hstep
  | readRomArray indexWitness =>
    simp only [RomArray.step, RomArray.readRomArray] at hstep
    split at hstep
    · obtain rfl := some_inj.1 hstep
      exact (h.addVariable _).addRecord rfl (Nat.le_succ _) (hsame _ _ _ _ _)
    · exact absurd hstep (some_ne_none t).symm
  | readRomArrayPair indexWitness =>
    simp only [RomArray.step, RomArray.readRomArrayPair] at hstep
    split at hstep
    · obtain rfl := some_inj.1 hstep
      exact ((h.addVariable _).addVariable _).addRecord rfl (Nat.le_succ _) (hsame _ _ _ _ _)
    · exact absurd hstep (some_ne_none t).symm

theorem Recorded.run {calls : List Call} (hrun : run arraySize calls = some t) :
    Recorded arraySize t.1 t.2 :=
  foldlM_keeps (f := RomArray.step) (P := fun t => Recorded arraySize t.1 t.2)
    (fun _ _ _ h hstep => h.step hstep) (Recorded.new arraySize) hrun

theorem Recorded.initRest {u : Builder × RomTranscript} (h : Recorded arraySize u.1 u.2)
    (hrest : initRest u = some t) : Recorded arraySize t.1 t.2 := by
  refine foldlM_keeps (P := fun t => Recorded arraySize t.1 t.2) (fun s i t hs hstep => ?_) h hrest
  split at hstep
  · exact hs.setRomElementPair hstep
  · exact some_inj.1 hstep ▸ hs

theorem state_setRomElementPair
    (hcall : setRomElementPair s array indexValue valueWitnesses = some t) :
    t.2.state = array.state.set indexValue (some valueWitnesses) := by
  simp only [RomArray.setRomElementPair] at hcall
  split at hcall
  · obtain rfl := some_inj.1 hcall
    rfl
  · exact absurd hcall (some_ne_none t).symm

theorem Recorded.cells (h : Recorded arraySize s array)
    (hrest : RomArray.initRest (s, array) = some t) :
    (∀ i < arraySize, t.2.state[i]? ≠ some none) ∧ arraySize ≤ t.2.records.length := by
  have ht := h.initRest (u := (s, array)) hrest
  have hcells : ∀ i < array.state.length, t.2.state[i]? ≠ some none :=
    fill_below (fun u : Builder × RomTranscript => u.2.state)
      (fun _ _ _ hset => ⟨_, state_setRomElementPair hset⟩) hrest
  rw [h.size] at hcells
  have hcount : t.2.state.length ≤ t.2.state.countP isSome :=
    countP_of_cells (ht.size.symm ▸ hcells)
  rw [ht.size] at hcount
  exact ⟨hcells, hcount.trans ht.count⟩

end Recorded

/-! ### What the gates of the sorted list say -/

structure Line where
  index : FF
  record : FF

def RomRecord.line (v : ℕ → FF) (record : RomRecord) : Line :=
  ⟨v record.indexWitness, v record.recordWitness⟩

structure Neighbours (l l' : Line) : Prop where
  step : Step l.index l'.index
  record : (1 - (l'.index - l.index)) * (l'.record - l.record) = 0

def lines (v : ℕ → FF) (maxIndex : ℕ) (sorted : List RomRecord) : List Line :=
  sorted.map (RomRecord.line v) ++ [⟨v maxIndex, v zeroIdx⟩]

section Gates

variable {arraySize maxIndex : ℕ} {eta : FF} {v : ℕ → FF}

theorem satisfied_sortedGates {sorted : List RomRecord} :
    (∀ alpha, Satisfied alpha eta v (sortedGates arraySize maxIndex sorted)) ↔
      (lines v maxIndex sorted).IsChain Neighbours ∧
        (∀ r ∈ sorted, v r.recordWitness = (r.entry v).record eta) ∧ v maxIndex = arraySize := by
  induction sorted with
  | nil =>
    simp only [sortedGates, Satisfied, holds_bigAdd, lines, map_nil, nil_append, isChain_singleton,
      not_mem_nil, false_imp_iff, implies_true, true_and, and_true, forall_const]
    simp only [wiresOf, createBigAddGate]
    constructor
    · intro h
      linear_combination h
    · intro h
      linear_combination h
  | cons record sorted ih =>
    -- the gate after a record is that of the next record, or the last gate
    obtain ⟨next, rest, hlines, hindex, hrecord⟩ : ∃ next rest,
        lines v maxIndex sorted = next :: rest ∧
          (nextWires v (sortedGates arraySize maxIndex sorted)).w_1 = next.index ∧
            (nextWires v (sortedGates arraySize maxIndex sorted)).w_4 = next.record := by
      cases sorted with
      | nil => exact ⟨_, _, rfl, rfl, rfl⟩
      | cons next rest => exact ⟨_, _, rfl, rfl, rfl⟩
    have hcons : lines v maxIndex (record :: sorted) = record.line v :: lines v maxIndex sorted :=
      rfl
    rw [hcons, hlines, isChain_cons_cons, ← hlines, forall_mem_cons]
    simp only [sortedGates, Satisfied, forall_and, holds_romConsistency char_ne_two char_ne_three,
      ih, hindex, hrecord]
    have htype : accessType eta (wiresOf v (auxGate .romConsistencyCheck record.indexWitness
        record.valueColumn1Witness record.valueColumn2Witness record.recordWitness)) = 0 ↔
          v record.recordWitness = (record.entry v).record eta := by
      rw [accessType, sub_eq_zero, Entry.record, encode, add_zero]
      rfl
    rw [htype]
    constructor
    · rintro ⟨⟨hrecord', hstep, hline⟩, hchain, hrest, hmax⟩
      exact ⟨⟨⟨hstep, hline⟩, hchain⟩, ⟨hrecord', hrest⟩, hmax⟩
    · rintro ⟨⟨hline, hchain⟩, ⟨hrecord', hrest⟩, hmax⟩
      exact ⟨⟨hrecord', hline.step, hline.record⟩, hchain, hrest, hmax⟩

theorem line_eq_of_index_eq {sorted : List RomRecord}
    (hchain : (lines v maxIndex sorted).IsChain Neighbours)
    (hne : ∀ l ∈ lines v maxIndex sorted, l.index ≠ -1) :
    ∀ l ∈ lines v maxIndex sorted, ∀ l' ∈ lines v maxIndex sorted, l.index = l'.index → l = l' := by
  have hle : (lines v maxIndex sorted).IsChain fun l l' => l.index.val ≤ l'.index.val :=
    hchain.imp_of_mem_imp fun l l' hl _ hline => hline.step.val_le (hne l hl)
  have hsame : (lines v maxIndex sorted).IsChain fun l l' =>
      l.index.val = l'.index.val → l = l' := by
    refine hchain.imp fun l l' hline hval => ?_
    have hindex : l.index = l'.index := ZMod.val_injective _ hval
    have hrecord := hline.record
    rw [hindex, sub_self, sub_zero, one_mul, sub_eq_zero] at hrecord
    cases l
    cases l'
    simp_all
  exact fun l hl l' hl' heq =>
    eq_of_index_eq (fun l : Line => l.index.val) hle hsame l hl l' hl' (congrArg ZMod.val heq)

end Gates

/-! ### Soundness -/

section Sound

variable {arraySize : ℕ} {calls : List Call} {p : Processed} {eta : FF} {v : ℕ → FF}

theorem extends_sortedRecords (s : Builder) (records : List RomRecord) :
    Extends s (sortedRecords s records).1 ∧ (sortedRecords s records).1.constants = s.constants ∧
        (sortedRecords s records).1.gates = s.gates := by
  induction records generalizing s with
  | nil => exact ⟨.refl s, rfl, rfl⟩
  | cons record records ih =>
    obtain ⟨hextends, hconstants, hgates⟩ := ih (sortedRecord s record).1
    have hrecord : Extends s (sortedRecord s record).1 :=
      (((extends_addVariable _).trans (extends_addVariable _)).trans (extends_addVariable _)).trans
        (extends_addVariable 0)
    exact ⟨hrecord.trans hextends, hconstants, hgates⟩

theorem exists_of_circuit (h : circuit arraySize calls = some p) :
    ∃ s array, Recorded arraySize s array ∧ (∀ i < arraySize, array.state[i]? ≠ some none) ∧
      arraySize ≤ array.records.length ∧ p = sortArray s array := by
  obtain ⟨u, hu, hp⟩ := bind_eq_some_iff.1 h
  obtain ⟨t, ht, rfl⟩ := map_eq_some_iff.1 hp
  have hrun := Recorded.run hu
  obtain ⟨hcells, hcount⟩ := hrun.cells ht
  exact ⟨t.1, t.2, hrun.initRest ht, hcells, hcount, rfl⟩

variable {s : Builder} {array : RomTranscript}

def maxIndexOf (s : Builder) (array : RomTranscript) : ℕ :=
  (sortedRecords s (array.records.mergeSort fun record other => !other.lt record)).1.values.length

theorem gates_sortArray : (sortArray s array).builder.gates =
    s.gates ++ sortedGates array.state.length (maxIndexOf s array) (sortArray s array).sorted := by
  have hgates := (extends_sortedRecords s
    (array.records.mergeSort fun record other => !other.lt record)).2.2
  simp only [sortArray, maxIndexOf, Builder.addVariable]
  rw [hgates]

theorem length_le_sortArray : s.values.length ≤ (sortArray s array).builder.values.length :=
  (extends_sortedRecords s _).1.length_le.trans
    (extends_addVariable (array.state.length : FF)).length_le

theorem Recorded.sorted_facts (h : Recorded arraySize s array) (hpos : 0 < arraySize)
    (hsize : arraySize ≤ array.records.length) (hbits : s.values.length ≤ 2 ^ 32)
    (haccepts : Accepts (sortArray s array) eta v)
    (hinjective : InjectiveRecords eta (array.records.map (RomRecord.entry v)))
    (hne : ∀ r ∈ array.records, v r.indexWitness ≠ -1) :
    (∀ r ∈ array.records, (v r.indexWitness).val < arraySize) ∧
      ∀ r ∈ array.records, ∀ r' ∈ array.records, v r.indexWitness = v r'.indexWitness →
        r.entry v = r'.entry v := by
  have hall := haccepts.gates
  simp only [gates_sortArray, h.size] at hall
  have heach : EachHolds 0 eta v s.gates := eachHolds_left (hall 0)
  obtain ⟨hchain, hrecords, hmax⟩ := satisfied_sortedGates.1 fun alpha => (hall alpha).of_append
  have hzero : v zeroIdx = 0 := h.valid.assignment_eq heach h.valid.zero
  have hcount : arraySize ≤ 2 ^ 32 := hsize.trans (h.length.trans hbits)
  have hperm : (array.records.map (RomRecord.entry v)).Perm
    ((sortArray s array).sorted.map (RomRecord.entry v)) := haccepts.records
  -- the lines of the sorted list are those of the accesses
  have hline : ∀ r ∈ array.records, (⟨v r.indexWitness, (r.entry v).record eta⟩ : Line) ∈
        lines v (maxIndexOf s array) (sortArray s array).sorted := by
    intro r hr
    obtain ⟨r', hr', heq⟩ := mem_map.1 (hperm.mem_iff.1 (mem_map_of_mem hr))
    have hindex : v r'.indexWitness = v r.indexWitness := congrArg Entry.index heq
    refine mem_append_left _ (mem_map.2 ⟨r', hr', ?_⟩)
    rw [RomRecord.line, hrecords r' hr', heq, hindex]
  have hlast : (⟨(arraySize : FF), 0⟩ : Line) ∈
      lines v (maxIndexOf s array) (sortArray s array).sorted := by
    rw [lines, hmax, hzero]
    exact mem_append_right _ (mem_singleton_self _)
  have hlast_ne : ((arraySize : ℕ) : FF) ≠ -1 :=
    ne_neg_one (by rw [val_natCast (by omega)]; omega)
  have hnelines : ∀ l ∈ lines v (maxIndexOf s array) (sortArray s array).sorted, l.index ≠ -1 := by
    intro l hl
    rcases mem_append.1 hl with hl | hl
    · obtain ⟨r', hr', rfl⟩ := mem_map.1 hl
      obtain ⟨r, hr, heq⟩ := mem_map.1 (hperm.mem_iff.2 (mem_map_of_mem hr'))
      have hindex : v r.indexWitness = v r'.indexWitness := congrArg Entry.index heq
      show v r'.indexWitness ≠ -1
      exact hindex ▸ hne r hr
    · rw [mem_singleton.1 hl, hmax]
      exact hlast_ne
  have hequal := line_eq_of_index_eq hchain hnelines
  have hentries : ∀ r ∈ array.records, r.entry v ∈ (⟨0, 0, 0⟩ : Entry) ::
      array.records.map (RomRecord.entry v) := fun r hr =>
    mem_cons_of_mem _ (mem_map_of_mem hr)
  refine ⟨fun r hr => ?_, fun r hr r' hr' hindex => ?_⟩
  · have hsteps : ((lines v (maxIndexOf s array) (sortArray s array).sorted).map
        Line.index).IsChain Step := by
      rw [isChain_map]
      exact hchain.imp fun _ _ hn => hn.step
    have hle : (v r.indexWitness).val ≤ ((arraySize : ℕ) : FF).val := by
      refine indices_of_steps hsteps ?_ (fun x hx => ?_) _ (mem_map_of_mem (hline r hr))
      · rw [lines, map_append, map_singleton, getLast?_concat, hmax]
      · obtain ⟨l, hl, rfl⟩ := mem_map.1 hx
        exact hnelines l hl
    rw [val_natCast (by omega)] at hle
    refine lt_of_le_of_ne hle fun heq => ?_
    -- an access to the index after the last cell has the record zero
    have hindex : v r.indexWitness = arraySize := by
      rw [← heq, ZMod.natCast_rightInverse]
    have hrecord : (r.entry v).record eta = 0 :=
      congrArg Line.record (hequal _ (hline r hr) _ hlast hindex)
    have hentry := hinjective _ (hentries r hr) _ mem_cons_self
      (hrecord.trans (by simp [Entry.record, encode]))
    have hzeroIndex : v r.indexWitness = 0 := congrArg Entry.index hentry
    exact natCast_ne_zero hpos (by omega) (hindex.symm.trans hzeroIndex)
  · refine hinjective _ (hentries r hr) _ (hentries r' hr') ?_
    exact congrArg Line.record (hequal _ (hline r hr) _ (hline r' hr') hindex)

theorem readsCells_iff (hcircuit : circuit arraySize calls = some p) (hpos : 0 < arraySize)
    (hbits : p.builder.values.length ≤ 2 ^ 32) (haccepts : Accepts p eta v)
    (hinjective : InjectiveRecords eta (p.records.map (RomRecord.entry v))) :
    ReadsCells p v ↔ ∀ r ∈ p.records, v r.indexWitness ≠ -1 := by
  obtain ⟨s, array, h, hcells, hsize, rfl⟩ := exists_of_circuit hcircuit
  have hbits' : s.values.length ≤ 2 ^ 32 := length_le_sortArray.trans hbits
  have hcount : arraySize ≤ 2 ^ 32 := hsize.trans (h.length.trans hbits')
  have hall := haccepts.gates 0
  rw [gates_sortArray] at hall
  have heach : EachHolds 0 eta v s.gates := eachHolds_left hall
  constructor
  · intro hreads r hr
    obtain ⟨i, witnesses, hcell, hindex, -⟩ := hreads r hr
    have hlt : i < arraySize := h.size ▸ (List.getElem?_eq_some_iff.1 hcell).1
    refine ne_neg_one ?_
    rw [hindex, val_natCast (by omega)]
    omega
  · intro hne r hr
    obtain ⟨hlt, hequal⟩ := h.sorted_facts hpos hsize hbits' haccepts hinjective hne
    have hi := hlt r hr
    have hsome := hcells _ hi
    obtain ⟨witnesses, hcell⟩ : ∃ witnesses,
        array.state[(v r.indexWitness).val]? = some (some witnesses) := by
      have hstate : (v r.indexWitness).val < array.state.length := h.size.symm ▸ hi
      rw [List.getElem?_eq_getElem hstate, Ne, some_inj] at hsome
      obtain ⟨witnesses, hwitnesses⟩ := ne_none_iff_exists'.1 hsome
      exact ⟨witnesses, by rw [List.getElem?_eq_getElem hstate, hwitnesses]⟩
    obtain ⟨w, hw, hconstant, -, hcolumn1, hcolumn2⟩ := h.cell _ _ hcell
    have hindex : v w.indexWitness = v r.indexWitness := by
      rw [h.valid.assignment_eq heach hconstant, ZMod.natCast_rightInverse]
    have hentry := hequal r hr w hw hindex.symm
    refine ⟨_, witnesses, hcell, (ZMod.natCast_rightInverse _).symm, ?_, ?_⟩
    · exact (congrArg Entry.value1 hentry).trans (congrArg v hcolumn1)
    · exact (congrArg Entry.value2 hentry).trans (congrArg v hcolumn2)

end Sound

end RomArray
