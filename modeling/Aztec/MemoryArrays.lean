/-
**The memory argument of the Ultra circuit builder.**

RAM and ROM arrays together.  The sorted list of an array ends with its last cell, and its indices
go up by at most one, but nothing says where it begins.  An access to index `-1` sorts before the
cell `0`, and it can have any value: these are the only wrong accesses, with the reads of a RAM cell
that come before all its writes.
-/

import Aztec.RamHonest
import Aztec.RomHonest

namespace MemoryArrays

open UltraGates UltraMemory MemoryChecking

/-- **The memory argument.**  A satisfying assignment of a RAM array is a run of a memory if and
only if no index is `-1` and every read has a write of its cell before it; one of a ROM array reads
the cells if and only if no index is `-1`.  The values of an honest prover satisfy the gates if and
only if the index witnesses have the values of cells, and for ROM arrays the second columns agree.
The number of variables is bounded since their indices are of type `uint32_t`. -/
theorem memory_iff (arraySize : ℕ) (eta : FF) :
    (∀ (calls : List RamArray.Call) (p : RamArray.Processed) (v : ℕ → FF),
      RamArray.circuit arraySize calls = some p → 0 < arraySize →
        p.builder.values.length ≤ 2 ^ 32 → RamArray.Accepts p eta v →
          (((∀ r ∈ p.records, (v r.indexWitness).val < arraySize) ∧
            Consistent (p.records.map (RamArray.access v))) ↔
              (∀ r ∈ p.records, v r.indexWitness ≠ -1) ∧
                ∀ r ∈ p.records, r.accessType = .read → ∃ w ∈ p.records, w.accessType = .write ∧
                  v w.indexWitness = v r.indexWitness ∧ w.timestamp < r.timestamp)) ∧
    (∀ (calls : List RomArray.Call) (p : RomArray.Processed) (v : ℕ → FF),
      RomArray.circuit arraySize calls = some p → 0 < arraySize →
        p.builder.values.length ≤ 2 ^ 32 → RomArray.Accepts p eta v →
          RomArray.InjectiveRecords eta (p.records.map (RomArray.RomRecord.entry v)) →
            (RomArray.ReadsCells p v ↔ ∀ r ∈ p.records, v r.indexWitness ≠ -1)) ∧
    (∀ (calls : List RamArray.Call) (p : RamArray.Processed),
      RamArray.circuit arraySize calls = some p →
        RamArray.Admissible (.new, RamArray.createRamArray arraySize) calls →
          p.builder.values.length ≤ 2 ^ 32 →
            (RamArray.Accepts p eta (RamArray.honestAssignment eta p) ↔
              ∀ r ∈ p.records, (p.builder.getVariable r.indexWitness).val < arraySize)) ∧
    ∀ (calls : List RomArray.Call) (p : RomArray.Processed),
      RomArray.circuit arraySize calls = some p →
        RomArray.Admissible (.new, RomArray.createRomArray arraySize) calls → 0 < arraySize →
          p.builder.values.length ≤ 2 ^ 32 → eta ≠ 0 →
            (RomArray.Accepts p eta (RomArray.honestAssignment eta p) ↔
              ∀ r ∈ p.records, (p.builder.getVariable r.indexWitness).val < arraySize ∧
                RomArray.SecondColumn p r) :=
  ⟨fun _ _ _ hcircuit hpos hbits haccepts =>
      RamArray.consistent_iff hcircuit hpos hbits haccepts,
    fun _ _ _ hcircuit hpos hbits haccepts hinjective =>
      RomArray.readsCells_iff hcircuit hpos hbits haccepts hinjective,
    fun _ _ hcircuit hadmissible hbits => RamArray.honest_iff hcircuit hadmissible hbits,
    fun _ _ hcircuit hadmissible hpos hbits heta =>
      RomArray.honest_iff hcircuit hadmissible hpos hbits heta⟩

/-! ### Arrays of two cells -/

namespace TwoCells

/-- Both cells are initialised and read, the second one after a write. -/
def ramCalls : List RamArray.Call := [.addVariable (5 : ℕ), .addVariable (7 : ℕ), .addVariable 1,
  .initRamElement 0 1, .readRamArray 0, .initRamElement 1 2, .writeRamArray 3 1, .readRamArray 3]

def romCalls : List RomArray.Call := [.addVariable (5 : ℕ), .addVariable (7 : ℕ), .addVariable 1,
  .setRomElement 0 1, .readRomArray 0, .setRomElement 1 2, .readRomArray 3]

section Ram

open RamArray

def ram : Builder × RamTranscript :=
  ((run 2 ramCalls).bind initRest).getD (.new, createRamArray 2)

theorem circuit_ram : circuit 2 ramCalls = some (sortArray ram.1 ram.2) := by
  have hsome : ((run 2 ramCalls).bind initRest).isSome = true := by decide
  obtain ⟨t, ht⟩ := Option.isSome_iff_exists.1 hsome
  obtain ⟨u, hu, hrest⟩ := Option.bind_eq_some_iff.1 ht
  rw [circuit, hu, Option.bind_some, processRamArray, hrest, ram, ht]
  rfl

theorem sorted_ram : ram.2.records.mergeSort (fun record other => !other.lt record) =
    ram.2.records := List.mergeSort_of_pairwise (by decide)

theorem admissible_ram : Admissible (.new, createRamArray 2) ramCalls := by
  iterate 3
    refine ⟨trivial, ?_⟩
    rintro _ ⟨⟩
  iterate 3
    refine ⟨⟨by decide, by decide⟩, ?_⟩
    rintro _ ⟨⟩
  refine ⟨⟨⟨by decide, by decide⟩, by decide, by decide⟩, ?_⟩
  rintro _ ⟨⟩
  exact ⟨⟨by decide, by decide⟩, fun _ _ => trivial⟩

theorem length_ram : (sortArray ram.1 ram.2).builder.values.length ≤ 2 ^ 32 := by
  rw [sortArray, sorted_ram]
  decide

end Ram

section Rom

open RomArray

def rom : Builder × RomTranscript :=
  ((run 2 romCalls).bind initRest).getD (.new, createRomArray 2)

theorem circuit_rom : circuit 2 romCalls = some (sortArray rom.1 rom.2) := by
  have hsome : ((run 2 romCalls).bind initRest).isSome = true := by decide
  obtain ⟨t, ht⟩ := Option.isSome_iff_exists.1 hsome
  obtain ⟨u, hu, hrest⟩ := Option.bind_eq_some_iff.1 ht
  rw [circuit, hu, Option.bind_some, processRomArray, hrest, rom, ht]
  rfl

theorem sorted_rom : rom.2.records.mergeSort (fun record other => !other.lt record) =
    rom.2.records := List.mergeSort_of_pairwise (by decide)

theorem admissible_rom : Admissible (.new, createRomArray 2) romCalls := by
  iterate 3
    refine ⟨trivial, ?_⟩
    rintro _ ⟨⟩
  iterate 3
    refine ⟨⟨by decide, by decide⟩, ?_⟩
    rintro _ ⟨⟩
  exact ⟨⟨by decide, by decide⟩, fun _ _ => trivial⟩

theorem length_rom : (sortArray rom.1 rom.2).builder.values.length ≤ 2 ^ 32 := by
  rw [sortArray, sorted_rom]
  decide

theorem index_rom : ∀ r ∈ (sortArray rom.1 rom.2).records,
    ((sortArray rom.1 rom.2).builder.getVariable r.indexWitness).val < 2 := by
  rw [sortArray, sorted_rom]
  decide

theorem secondColumn_rom : ∀ r ∈ (sortArray rom.1 rom.2).records,
    SecondColumn (sortArray rom.1 rom.2) r := by
  have hrecords : ∀ r ∈ rom.2.records, r.valueColumn2Witness = 0 := by decide
  have hstate : ∀ cell ∈ rom.2.state, cell.map Prod.snd = some 0 := by decide
  intro r hr witnesses hcell
  have hzero : witnesses.2 = 0 := Option.some.inj (hstate _ (List.mem_of_getElem? hcell))
  rw [hrecords r hr, hzero]

end Rom

end TwoCells

open TwoCells in
/-- The honest provers of both arrays, whose reads are right. -/
theorem memory_iff_twoCells :
    (RamArray.Accepts (RamArray.sortArray ram.1 ram.2) 3
        (RamArray.honestAssignment 3 (RamArray.sortArray ram.1 ram.2)) ∧
      Consistent ((RamArray.sortArray ram.1 ram.2).records.map
        (RamArray.access (RamArray.honestAssignment 3 (RamArray.sortArray ram.1 ram.2))))) ∧
    RomArray.Accepts (RomArray.sortArray rom.1 rom.2) 3
        (RomArray.honestAssignment 3 (RomArray.sortArray rom.1 rom.2)) ∧
      RomArray.ReadsCells (RomArray.sortArray rom.1 rom.2)
        (RomArray.honestAssignment 3 (RomArray.sortArray rom.1 rom.2)) := by
  obtain ⟨hram, hrom, hramHonest, hromHonest⟩ := memory_iff 2 3
  have haccepts := (hramHonest _ _ circuit_ram admissible_ram length_ram).2 (by
    rw [RamArray.sortArray, sorted_ram]
    decide)
  have haccepts' := (hromHonest _ _ circuit_rom admissible_rom Nat.two_pos length_rom
    (by decide)).2 fun r hr => ⟨index_rom r hr, secondColumn_rom r hr⟩
  refine ⟨⟨haccepts, ((hram _ _ _ circuit_ram Nat.two_pos length_ram haccepts).2 ⟨?_, ?_⟩).2⟩,
    haccepts', (hrom _ _ _ circuit_rom Nat.two_pos length_rom haccepts' ?_).2 ?_⟩
  · rw [RamArray.sortArray, sorted_ram]
    decide
  · rw [RamArray.sortArray, sorted_ram]
    decide
  · have hinjective : ∀ e ∈ ⟨0, 0, 0⟩ :: (RomArray.sortArray rom.1 rom.2).records.map
        (RomArray.RomRecord.entry (RomArray.honestAssignment 3 (RomArray.sortArray rom.1 rom.2))),
        ∀ e' ∈ ⟨0, 0, 0⟩ :: (RomArray.sortArray rom.1 rom.2).records.map
          (RomArray.RomRecord.entry (RomArray.honestAssignment 3 (RomArray.sortArray rom.1 rom.2))),
        e.record 3 = e'.record 3 →
          e.index = e'.index ∧ e.value1 = e'.value1 ∧ e.value2 = e'.value2 := by
      rw [RomArray.sortArray, sorted_rom]
      decide
    intro e he e' he' heq
    obtain ⟨hindex, hvalue1, hvalue2⟩ := hinjective e he e' he' heq
    exact RomArray.Entry.ext hindex hvalue1 hvalue2
  · rw [RomArray.sortArray, sorted_rom]
    decide

/-! ### A read before the first cell -/

namespace BeforeFirst

open RomArray

/-- The cell has the value zero, and is read at a witness. -/
def calls : List Call := [.setRomElement 0 zeroIdx, .addVariable 0, .readRomArray 2]

def records : List RomRecord := [⟨0, 0, 0, 0, 1⟩, ⟨2, 3, 0, 0, 4⟩]

def builder : Builder := ⟨[0, 0, 0, 0, 0], [(0, 0)], fixWitness 0 0 0 :: records.map accessGate⟩

def array : RomTranscript := ⟨[some (0, 0)], records⟩

attribute [local instance] two_atLeastTwo in
/-- The index is `-1` and the value one; it comes first in the sorted list. -/
def assignment : ℕ → FF
  | 2 => -1
  | 3 => 1
  | 4 => 2
  | 5 => -1
  | 6 => 1
  | 8 => 2
  | 13 => 1
  | _ => 0

theorem circuit_eq : circuit 1 calls = some (sortArray builder array) := rfl

theorem mergeSort_records : records.mergeSort (fun record other => !other.lt record) = records :=
  List.mergeSort_of_pairwise (by decide)

theorem sorted_eq : (sortArray builder array).sorted = [⟨5, 6, 7, 0, 8⟩, ⟨9, 10, 11, 0, 12⟩] := by
  rw [sortArray, show array.records = records from rfl, mergeSort_records]
  rfl

theorem maxIndexOf_eq : maxIndexOf builder array = 13 := by
  rw [maxIndexOf, show array.records = records from rfl, mergeSort_records]
  rfl

theorem accepts : Accepts (sortArray builder array) 2 assignment := by
  refine ⟨fun alpha => ?_, ?_⟩
  · rw [gates_sortArray, sorted_eq, maxIndexOf_eq]
    refine satisfied_append (fun g hg shifted => ?_) (satisfied_sortedGates.2 ⟨?_, ?_, ?_⟩ alpha)
    · rcases List.mem_cons.1 hg with rfl | hg
      · refine holds_bigAdd.2 ?_
        simp [wiresOf, fixWitness, createBigAddGate, assignment]
      · obtain ⟨r, hr, rfl⟩ := List.mem_map.1 hg
        refine (holds_memory (.inl rfl)).2 ?_
        simp only [records, List.mem_cons, List.not_mem_nil, or_false] at hr
        rcases hr with rfl | rfl
        · simp [accessType, partialRecord, wiresOf, accessGate, auxGate, assignment]
        · simp [accessType, partialRecord, wiresOf, accessGate, auxGate, assignment]
          norm_num
    · -- from `-1` to the cell, and from the cell to the number of cells
      refine .cons_cons ⟨?_, ?_⟩ (.cons_cons ⟨?_, ?_⟩ (.singleton _))
      all_goals simp [Step, RomRecord.line, assignment, zeroIdx]
    · intro r hr
      simp only [List.mem_cons, List.not_mem_nil, or_false] at hr
      rcases hr with rfl | rfl
      · simp [Entry.record, encode, RomRecord.entry, assignment]
        norm_num
      · simp [Entry.record, encode, RomRecord.entry, assignment]
    · exact Nat.cast_one.symm
  · rw [sorted_eq]
    exact .swap _ _ _

theorem injectiveRecords :
    InjectiveRecords 2 ((sortArray builder array).records.map (RomRecord.entry assignment)) := by
  have hentries : (sortArray builder array).records.map (RomRecord.entry assignment) =
      [⟨0, 0, 0⟩, ⟨-1, 1, 0⟩] := rfl
  have hrecord : (⟨-1, 1, 0⟩ : Entry).record 2 = 2 := by
    rw [Entry.record, encode]
    ring
  have hzero : (⟨0, 0, 0⟩ : Entry).record 2 = 0 := by simp [Entry.record, encode]
  rw [hentries]
  intro e he e' he' heq
  simp only [List.mem_cons, List.not_mem_nil, or_false] at he he'
  rcases he with rfl | rfl | rfl <;> rcases he' with rfl | rfl | rfl <;>
    simp_all [char_ne_two, char_ne_two.symm]

end BeforeFirst

open BeforeFirst RomArray in
/-- **A read before the first cell is not of any cell.** -/
theorem not_readsCells : ¬ ∀ (arraySize : ℕ) (calls : List Call) (p : Processed) (eta : FF)
    (v : ℕ → FF), circuit arraySize calls = some p → 0 < arraySize → Accepts p eta v →
      InjectiveRecords eta (p.records.map (RomRecord.entry v)) → ReadsCells p v := by
  intro h
  have hreads := h 1 calls _ 2 assignment circuit_eq Nat.one_pos accepts injectiveRecords
  have hmem : (⟨2, 3, 0, 0, 4⟩ : RomRecord) ∈ (sortArray builder array).records :=
    List.mem_cons_of_mem _ (List.mem_singleton_self _)
  obtain ⟨i, witnesses, hcell, hindex, -⟩ := hreads _ hmem
  have hlt : i < 1 := (List.getElem?_eq_some_iff.1 hcell).1
  obtain rfl : i = 0 := Nat.lt_one_iff.1 hlt
  have hminus : (-1 : FF) = 0 := hindex.trans Nat.cast_zero
  exact one_ne_zero (neg_eq_zero.1 hminus)

end MemoryArrays
