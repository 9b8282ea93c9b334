/-
**ROM arrays: the values of an honest prover.**

The builder gives every read the values of the cell.  These values, with records made from `eta`,
satisfy all the gates when every index witness has the value of a cell, and every access has the
second column of its cell: a read of one column puts zero there.
-/

import Aztec.RomArray

open List Option

namespace RomArray

open UltraGates UltraMemory

/-! ### Calls with witnesses of the circuit -/

def Given (s : Builder) (records : List RomRecord) (witness : ℕ) : Prop :=
  witness < s.values.length ∧ ∀ r ∈ records, r.recordWitness ≠ witness

def Call.Admissible (s : Builder) (records : List RomRecord) : Call → Prop
  | .setRomElement _ valueWitness => Given s records valueWitness
  | .setRomElementPair _ valueWitnesses =>
    Given s records valueWitnesses.1 ∧ Given s records valueWitnesses.2
  | .readRomArray indexWitness => Given s records indexWitness
  | .readRomArrayPair indexWitness => Given s records indexWitness
  | _ => True

def Admissible (s : Builder × RomTranscript) : List Call → Prop
  | [] => True
  | call :: calls =>
    call.Admissible s.1 s.2.records ∧ ∀ t, step s call = some t → Admissible t calls

/-! ### What the records say -/

/-- **The records have the values of the cells in their first column**, and are apart from other
variables. -/
structure Tracked (arraySize : ℕ) (s : Builder) (array : RomTranscript) : Prop
    extends Recorded arraySize s array where
  lt : ∀ r ∈ array.records, r.recordWitness < s.values.length
  nodup : (array.records.map RomRecord.recordWitness).Nodup
  indexGiven : ∀ r ∈ array.records, Given s array.records r.indexWitness
  column1Given : ∀ r ∈ array.records, Given s array.records r.valueColumn1Witness
  column2Given : ∀ r ∈ array.records, Given s array.records r.valueColumn2Witness
  constants : ∀ c ∈ s.constants, ∀ r ∈ array.records, r.recordWitness ≠ c.2
  gates : ∀ g ∈ s.gates, (∃ c ∈ s.constants, g = fixWitness zeroIdx c.2 c.1) ∨
    ∃ r ∈ array.records, g = accessGate r
  index : ∀ r ∈ array.records, r.index < arraySize
  indexValue : ∀ r ∈ array.records, s.getVariable r.indexWitness = r.index ∨
    r.index = indexOf s r.indexWitness
  column1 : ∀ r ∈ array.records, ∃ witnesses : ℕ × ℕ,
    array.state[r.index]? = some (some witnesses) ∧ witnesses.1 < s.values.length ∧
      s.getVariable r.valueColumn1Witness = s.getVariable witnesses.1

section Tracked

variable {arraySize : ℕ} {s s' : Builder} {array : RomTranscript} {records : List RomRecord}

variable {witness : ℕ} {record : RomRecord} {t u : Builder × RomTranscript}

theorem Given.extends (h : Given s records witness) (hextends : Extends s s') :
    Given s' records witness :=
  ⟨h.1.trans_le hextends.length_le, h.2⟩

theorem indexOf_extends (hextends : Extends s s') (h : witness < s.values.length) :
    indexOf s' witness = indexOf s witness := by
  rw [indexOf, indexOf, hextends.getVariable h]

theorem tracked_new (arraySize : ℕ) : Tracked arraySize .new (createRomArray arraySize) where
  toRecorded := .new arraySize
  lt _ hr := absurd hr not_mem_nil
  nodup := nodup_nil
  indexGiven _ hr := absurd hr not_mem_nil
  column1Given _ hr := absurd hr not_mem_nil
  column2Given _ hr := absurd hr not_mem_nil
  constants _ _ _ hr := absurd hr not_mem_nil
  gates _ hg := .inl ⟨(0, zeroIdx), mem_cons_self, mem_singleton.1 hg⟩
  index _ hr := absurd hr not_mem_nil
  indexValue _ hr := absurd hr not_mem_nil
  column1 _ hr := absurd hr not_mem_nil

section

variable (h : Tracked arraySize s array)
include h

theorem Tracked.extends (hextends : Extends s s') (hvalid : s'.Valid)
    (hconstants : ∀ c ∈ s'.constants, c ∈ s.constants ∨ s.values.length ≤ c.2)
    (hgates : ∀ g ∈ s'.gates, g ∈ s.gates ∨ ∃ c ∈ s'.constants, g = fixWitness zeroIdx c.2 c.1) :
    Tracked arraySize s' array where
  toRecorded := h.toRecorded.extends hextends hvalid
  lt r hr := (h.lt r hr).trans_le hextends.length_le
  nodup := h.nodup
  indexGiven r hr := (h.indexGiven r hr).extends hextends
  column1Given r hr := (h.column1Given r hr).extends hextends
  column2Given r hr := (h.column2Given r hr).extends hextends
  constants c hc r hr := by
    rcases hconstants c hc with hc | hle
    · exact h.constants c hc r hr
    · exact ((h.lt r hr).trans_le hle).ne
  gates g hg := by
    rcases hgates g hg with hg | hg
    · exact (h.gates g hg).imp (fun ⟨c, hc, heq⟩ => ⟨c, hextends.constants c hc, heq⟩) id
    · exact .inl hg
  index := h.index
  indexValue r hr := by
    have hlt := (h.indexGiven r hr).1
    rw [hextends.getVariable hlt, indexOf_extends hextends hlt]
    exact h.indexValue r hr
  column1 r hr := by
    obtain ⟨witnesses, hcell, hlt, hvalue⟩ := h.column1 r hr
    rw [hextends.getVariable (h.column1Given r hr).1]
    exact ⟨witnesses, hcell, hlt.trans_le hextends.length_le,
      hvalue.trans (hextends.getVariable hlt).symm⟩

theorem Tracked.addVariable (value : FF) : Tracked arraySize (s.addVariable value).1 array :=
  h.extends (extends_addVariable value) (h.valid.extends (extends_addVariable value) rfl)
    (fun _ hc => .inl hc) fun _ hg => .inl hg

theorem Tracked.putConstantVariable (value : FF) :
    Tracked arraySize (s.putConstantVariable value).1 array := by
  obtain ⟨hconstants, hgates⟩ := mem_putConstantVariable (s := s) value
  exact h.extends (extends_putConstantVariable value) (h.valid.putConstantVariable value).1
    hconstants hgates

theorem Tracked.given_constant {c : FF × ℕ} (hc : c ∈ s.constants) : Given s array.records c.2 :=
  ⟨h.valid.lt c hc, fun r hr => h.constants c hc r hr⟩

theorem Tracked.given_addVariable (value : FF) :
    Given (s.addVariable value).1 array.records (s.addVariable value).2 :=
  ⟨(Nat.lt_succ_self _).trans_eq (length_addVariable _).symm, fun r hr => (h.lt r hr).ne⟩

end

theorem Given.append (h : Given s records witness) (hextends : Extends s s')
    (hrecord : record.recordWitness = s.values.length) :
    Given s' (records ++ [record]) witness := by
  refine ⟨(h.extends hextends).1, fun r hr => ?_⟩
  rcases mem_append.1 hr with hr | hr
  · exact h.2 r hr
  · rw [mem_singleton.1 hr, hrecord]
    exact h.1.ne'

section

variable (h : Tracked arraySize s array)
include h

theorem Tracked.append {record : RomRecord}
    {state : List (Option (ℕ × ℕ))}
    (hnew : Recorded arraySize ((s.addVariable 0).1.addGate (accessGate record))
      ⟨state, array.records ++ [record]⟩) (hrecord : record.recordWitness = s.values.length)
    (hindexGiven : Given s array.records record.indexWitness)
    (hcolumn1Given : Given s array.records record.valueColumn1Witness)
    (hcolumn2Given : Given s array.records record.valueColumn2Witness)
    (hindex : record.index < arraySize)
    (hindexValue : s.getVariable record.indexWitness = record.index ∨
      record.index = indexOf s record.indexWitness)
    (hcolumn1 : ∃ witnesses : ℕ × ℕ, state[record.index]? = some (some witnesses) ∧
      witnesses.1 < s.values.length ∧
        s.getVariable record.valueColumn1Witness = s.getVariable witnesses.1)
    (hstate : ∀ (i : ℕ) (witnesses : ℕ × ℕ), array.state[i]? = some (some witnesses) →
      state[i]? = some (some witnesses)) :
    Tracked arraySize ((s.addVariable 0).1.addGate (accessGate record))
      ⟨state, array.records ++ [record]⟩ := by
  have hextends : Extends s ((s.addVariable 0).1.addGate (accessGate record)) :=
    (extends_addVariable 0).trans (extends_addGate _)
  have hgiven : ∀ {witness}, Given s array.records witness →
      Given ((s.addVariable 0).1.addGate (accessGate record)) (array.records ++ [record]) witness :=
    fun hwitness => hwitness.append hextends hrecord
  have hold : ∀ {P : RomRecord → Prop}, (∀ r ∈ array.records, P r) → P record →
      ∀ r ∈ array.records ++ [record], P r :=
    fun hP hlast => forall_mem_append.2 ⟨hP, forall_mem_singleton.2 hlast⟩
  refine
    { toRecorded := hnew
      lt := hold (fun r hr => (h.lt r hr).trans_le hextends.length_le) ?_
      nodup := ?_
      indexGiven := hold (fun r hr => hgiven (h.indexGiven r hr)) (hgiven hindexGiven)
      column1Given := hold (fun r hr => hgiven (h.column1Given r hr)) (hgiven hcolumn1Given)
      column2Given := hold (fun r hr => hgiven (h.column2Given r hr)) (hgiven hcolumn2Given)
      constants := fun c hc => (hgiven (h.given_constant hc)).2
      gates := ?_
      index := hold h.index hindex
      indexValue := hold ?_ ?_
      column1 := hold ?_ ?_ }
  · rw [hrecord]
    exact (Nat.lt_succ_self _).trans_eq (length_addVariable 0).symm
  · rw [map_append, map_singleton, nodup_append]
    refine ⟨h.nodup, nodup_singleton _, fun x hx y hy => ?_⟩
    obtain ⟨r, hr, rfl⟩ := mem_map.1 hx
    rw [mem_singleton.1 hy, hrecord]
    exact (h.lt r hr).ne
  · intro g hg
    rcases mem_append.1 hg with hg | hg
    · refine (h.gates g hg).imp id fun ⟨r, hr, heq⟩ => ⟨r, mem_append_left _ hr, heq⟩
    · exact .inr ⟨record, by simp, mem_singleton.1 hg⟩
  · intro r hr
    rw [hextends.getVariable (h.indexGiven r hr).1, indexOf_extends hextends (h.indexGiven r hr).1]
    exact h.indexValue r hr
  · rw [hextends.getVariable hindexGiven.1, indexOf_extends hextends hindexGiven.1]
    exact hindexValue
  · intro r hr
    obtain ⟨witnesses, hcell, hlt, hvalue⟩ := h.column1 r hr
    rw [hextends.getVariable (h.column1Given r hr).1]
    exact ⟨witnesses, hstate _ _ hcell, hlt.trans_le hextends.length_le,
      hvalue.trans (hextends.getVariable hlt).symm⟩
  · obtain ⟨witnesses, hcell, hlt, hvalue⟩ := hcolumn1
    rw [hextends.getVariable hcolumn1Given.1]
    exact ⟨witnesses, hcell, hlt.trans_le hextends.length_le,
      hvalue.trans (hextends.getVariable hlt).symm⟩

theorem Tracked.setRomElementPair {indexValue : ℕ}
    {valueWitnesses : ℕ × ℕ} (hgiven1 : Given s array.records valueWitnesses.1)
    (hgiven2 : Given s array.records valueWitnesses.2)
    (hcall : setRomElementPair s array indexValue valueWitnesses = some t) :
    Tracked arraySize t.1 t.2 := by
  have hrecorded := h.toRecorded.setRomElementPair hcall
  have hindex : ∃ u,
      u = (if indexValue = 0 then (s, zeroIdx) else s.putConstantVariable indexValue) ∧
      Tracked arraySize u.1 array ∧ Extends s u.1 ∧ ((indexValue : FF), u.2) ∈ u.1.constants := by
    refine ⟨_, rfl, ?_⟩
    split
    · next heq =>
      refine ⟨h, .refl s, ?_⟩
      rw [heq, Nat.cast_zero]
      exact h.valid.zero
    · exact ⟨h.putConstantVariable indexValue, extends_putConstantVariable _,
        (h.valid.putConstantVariable _).2⟩
  obtain ⟨u, hu, htracked, hextends, hconstant⟩ := hindex
  simp only [RomArray.setRomElementPair, ← hu] at hcall
  split at hcall
  · next hcell =>
    obtain rfl := some_inj.1 hcall
    have hlt := (List.getElem?_eq_some_iff.1 hcell).1
    refine htracked.append hrecorded rfl (htracked.given_constant hconstant)
      (hgiven1.extends hextends) (hgiven2.extends hextends) (h.size ▸ hlt)
      (.inl (htracked.valid.value _ hconstant)) ?_ fun i witnesses hold => ?_
    · exact ⟨valueWitnesses, List.getElem?_set_self hlt, (hgiven1.extends hextends).1, rfl⟩
    · -- the cell was empty
      rw [List.getElem?_set_ne, hold]
      rintro rfl
      rw [hcell] at hold
      cases hold
  · exact absurd hcall (some_ne_none t).symm

theorem Tracked.step {call : Call}
    (hadmissible : call.Admissible s array.records) (hstep : step (s, array) call = some t) :
    Tracked arraySize t.1 t.2 := by
  have hrecorded := h.toRecorded.step hstep
  cases call with
  | addVariable value =>
    obtain rfl := some_inj.1 hstep
    exact h.addVariable value
  | putConstantVariable value =>
    obtain rfl := some_inj.1 hstep
    exact h.putConstantVariable value
  | setRomElement indexValue valueWitness =>
    have hgiven : Given s array.records (valueWitness, zeroIdx).1 := hadmissible
    exact h.setRomElementPair hgiven (h.given_constant h.valid.zero) hstep
  | setRomElementPair indexValue valueWitnesses =>
    exact h.setRomElementPair hadmissible.1 hadmissible.2 hstep
  | readRomArray indexWitness =>
    simp only [RomArray.step, RomArray.readRomArray] at hstep
    split at hstep
    · next witnesses hcell =>
      obtain rfl := some_inj.1 hstep
      have hextends := extends_addVariable (s := s) (s.getVariable witnesses.1)
      have hnew := h.addVariable (s.getVariable witnesses.1)
      have hlt : indexOf s indexWitness < arraySize :=
        h.size ▸ (List.getElem?_eq_some_iff.1 hcell).1
      refine hnew.append hrecorded rfl (hadmissible.extends hextends) (h.given_addVariable _)
        (hnew.given_constant hnew.valid.zero) hlt
        (.inr (indexOf_extends hextends hadmissible.1).symm) ?_ fun _ _ hold => hold
      obtain ⟨r, hr, -, -, hcolumn, -⟩ := h.cell _ _ hcell
      have hwitness : witnesses.1 < s.values.length := hcolumn ▸ (h.column1Given r hr).1
      refine ⟨witnesses, hcell, hwitness.trans_le hextends.length_le, ?_⟩
      exact (getVariable_addVariable _).trans (hextends.getVariable hwitness).symm
    · exact absurd hstep (some_ne_none t).symm
  | readRomArrayPair indexWitness =>
    simp only [RomArray.step, RomArray.readRomArrayPair] at hstep
    split at hstep
    · next witnesses hcell =>
      obtain rfl := some_inj.1 hstep
      have hextends1 := extends_addVariable (s := s) (s.getVariable witnesses.1)
      have hextends2 := extends_addVariable (s := (s.addVariable (s.getVariable witnesses.1)).1)
        (s.getVariable witnesses.2)
      have hextends := hextends1.trans hextends2
      have hnew1 := h.addVariable (s.getVariable witnesses.1)
      have hnew := hnew1.addVariable (s.getVariable witnesses.2)
      have hlt : indexOf s indexWitness < arraySize :=
        h.size ▸ (List.getElem?_eq_some_iff.1 hcell).1
      refine hnew.append hrecorded rfl (hadmissible.extends hextends)
        ((h.given_addVariable _).extends hextends2) (hnew1.given_addVariable _) hlt
        (.inr (indexOf_extends hextends hadmissible.1).symm) ?_ fun _ _ hold => hold
      obtain ⟨r, hr, -, -, hcolumn, -⟩ := h.cell _ _ hcell
      have hwitness : witnesses.1 < s.values.length := hcolumn ▸ (h.column1Given r hr).1
      refine ⟨witnesses, hcell, hwitness.trans_le hextends.length_le, ?_⟩
      exact hextends2.getVariable_add.trans (hextends.getVariable hwitness).symm
    · exact absurd hstep (some_ne_none t).symm

end

theorem Tracked.run {calls : List Call} (h : Tracked arraySize u.1 u.2)
    (hadmissible : Admissible u calls) (hrun : calls.foldlM RomArray.step u = some t) :
    Tracked arraySize t.1 t.2 := by
  induction calls generalizing u with
  | nil => exact some_inj.1 hrun ▸ h
  | cons call calls ih =>
    rw [foldlM_cons] at hrun
    obtain ⟨m, hm, ht⟩ := bind_eq_some_iff.1 hrun
    exact ih (h.step hadmissible.1 hm) (hadmissible.2 m hm) ht

theorem Tracked.initRest (h : Tracked arraySize u.1 u.2) (hrest : initRest u = some t) :
    Tracked arraySize t.1 t.2 := by
  refine foldlM_keeps (P := fun t => Tracked arraySize t.1 t.2) (fun s i t hs hstep => ?_) h hrest
  split at hstep
  · have hzero := hs.given_constant hs.valid.zero
    exact hs.setRomElementPair hzero hzero hstep
  · exact some_inj.1 hstep ▸ hs

end Tracked

/-! ### The sorted records -/

abbrev RomTranscript.ordered (array : RomTranscript) : List RomRecord :=
  array.records.mergeSort fun record other => !other.lt record

theorem RomTranscript.ordered_perm (array : RomTranscript) : array.ordered.Perm array.records :=
  mergeSort_perm _ _

structure Copied (s s' : Builder) (record sorted : RomRecord) : Prop where
  index : sorted.index = record.index
  indexWitness : s'.getVariable sorted.indexWitness = record.index
  column1 : s'.getVariable sorted.valueColumn1Witness = s.getVariable record.valueColumn1Witness
  column2 : s'.getVariable sorted.valueColumn2Witness = s.getVariable record.valueColumn2Witness

theorem copied_sortedRecords {s₀ s s' : Builder} {records : List RomRecord} (hs : Extends s₀ s)
    (hlt : ∀ r ∈ records, r.valueColumn1Witness < s₀.values.length ∧
      r.valueColumn2Witness < s₀.values.length)
    (hextends : Extends (sortedRecords s records).1 s') :
    List.Forall₂ (Copied s₀ s') records (sortedRecords s records).2 := by
  induction records generalizing s with
  | nil => exact .nil
  | cons record records ih =>
    obtain ⟨hlt1, hlt2⟩ := hlt record mem_cons_self
    have hrest : Extends (sortedRecord s record).1 s' :=
      (extends_sortedRecords _ records).1.trans hextends
    have hcolumn2 : Extends (((s.addVariable record.index).1.addVariable
        (s.getVariable record.valueColumn1Witness)).1.addVariable
          (s.getVariable record.valueColumn2Witness)).1 s' :=
      (extends_addVariable (0 : FF)).trans hrest
    have hcolumn1 : Extends ((s.addVariable record.index).1.addVariable
        (s.getVariable record.valueColumn1Witness)).1 s' :=
      (extends_addVariable _).trans hcolumn2
    have hindex : Extends (s.addVariable record.index).1 s' :=
      (extends_addVariable _).trans hcolumn1
    have hfirst : Extends s (sortedRecord s record).1 :=
      (((extends_addVariable _).trans (extends_addVariable _)).trans (extends_addVariable _)).trans
        (extends_addVariable 0)
    refine .cons ⟨rfl, hindex.getVariable_add, hcolumn1.getVariable_add.trans (hs.getVariable hlt1),
      hcolumn2.getVariable_add.trans (hs.getVariable hlt2)⟩ ?_
    exact ih (hs.trans hfirst) (fun r hr => hlt r (mem_cons_of_mem _ hr)) hextends

theorem sortedRecord_snd (s : Builder) (record : RomRecord) : (sortedRecord s record).2 =
    { record with
      indexWitness := s.values.length, valueColumn1Witness := s.values.length + 1,
      valueColumn2Witness := s.values.length + 2, recordWitness := s.values.length + 3 } := by
  simp [sortedRecord, Builder.addVariable]

theorem sortedRecords_cons (s : Builder) (record : RomRecord) (records : List RomRecord) :
    (sortedRecords s (record :: records)).2 =
      (sortedRecord s record).2 :: (sortedRecords (sortedRecord s record).1 records).2 :=
  rfl

theorem witnesses_sortedRecords (s : Builder) (records : List RomRecord) :
    ∀ r ∈ (sortedRecords s records).2, ∃ k, r.indexWitness = s.values.length + 4 * k ∧
      r.valueColumn1Witness = s.values.length + 4 * k + 1 ∧
        r.valueColumn2Witness = s.values.length + 4 * k + 2 ∧
          r.recordWitness = s.values.length + 4 * k + 3 ∧
            r.recordWitness < (sortedRecords s records).1.values.length := by
  induction records generalizing s with
  | nil => exact fun r hr => absurd hr not_mem_nil
  | cons record records ih =>
    have hlength : (sortedRecord s record).1.values.length = s.values.length + 4 := by
      simp only [sortedRecord, length_addVariable]
    intro r hr
    rw [sortedRecords_cons] at hr
    rcases mem_cons.1 hr with rfl | hr
    · have hle := (extends_sortedRecords (sortedRecord s record).1 records).1.length_le
      rw [hlength] at hle
      rw [sortedRecord_snd]
      exact ⟨0, rfl, rfl, rfl, rfl, hle⟩
    · obtain ⟨k, hindex, hcolumn1, hcolumn2, hrecord, hlt⟩ := ih (sortedRecord s record).1 r hr
      exact ⟨k + 1, by omega, by omega, by omega, by omega, hlt⟩

theorem pairwise_sortedRecords (s : Builder) (records : List RomRecord) :
    ((sortedRecords s records).2.map RomRecord.recordWitness).Pairwise (· < ·) := by
  induction records generalizing s with
  | nil => exact .nil
  | cons record records ih =>
    rw [sortedRecords_cons]
    refine pairwise_cons.2 ⟨fun w hw => ?_, ih (sortedRecord s record).1⟩
    obtain ⟨r, hr, rfl⟩ := mem_map.1 hw
    obtain ⟨k, -, -, -, hrecord, -⟩ := witnesses_sortedRecords _ _ r hr
    have hlength : (sortedRecord s record).1.values.length = s.values.length + 4 := by
      simp only [sortedRecord, length_addVariable]
    have hfirst : (sortedRecord s record).2.recordWitness = s.values.length + 3 := by
      rw [sortedRecord_snd]
    omega

theorem pairwise_mergeSort (records : List RomRecord) :
    (records.mergeSort fun record other => !other.lt record).Pairwise fun a b =>
      a.index ≤ b.index := by
  have hnot : ∀ a b : RomRecord, (!b.lt a) = true ↔ a.index ≤ b.index := by
    intro a b
    rw [RomRecord.lt, Bool.not_eq_true', decide_eq_false_iff_not, not_lt]
  refine (List.pairwise_mergeSort (fun a b c hab hbc => ?_) (fun a b => ?_) records).imp
    fun {a b} hab => (hnot a b).1 hab
  · rw [hnot] at hab hbc ⊢
    exact hab.trans hbc
  · rw [Bool.or_eq_true, hnot, hnot]
    exact Nat.le_total _ _

/-! ### The values of an honest prover -/

def RomRecord.row (record : RomRecord) : Row :=
  ⟨record.indexWitness, record.valueColumn1Witness, record.valueColumn2Witness,
    record.recordWitness, 0⟩

/-- **The values of an honest prover.** -/
def honestAssignment (eta : FF) (p : Processed) : ℕ → FF :=
  honest eta p.builder.getVariable ((p.records ++ p.sorted).map RomRecord.row)

def SecondColumn (p : Processed) (record : RomRecord) : Prop :=
  ∀ witnesses : ℕ × ℕ, p.state[record.index]? = some (some witnesses) →
    p.builder.getVariable record.valueColumn2Witness = p.builder.getVariable witnesses.2

section Honest

variable {arraySize : ℕ} {s : Builder} {array : RomTranscript} {eta : FF}

theorem extends_sortArray : Extends s (sortArray s array).builder where
  values := by
    obtain ⟨rest, hrest⟩ := ((extends_sortedRecords s
      array.ordered).1.trans
        (extends_addVariable (array.state.length : FF))).values
    exact ⟨rest, hrest⟩
  constants c hc := by
    have hconstants := (extends_sortedRecords s
      array.ordered).2.1
    exact hconstants.symm ▸ hc
  gates := ⟨_, gates_sortArray⟩

variable {r : RomRecord} {w : ℕ}

theorem mem_sorted (hr : r ∈ (sortArray s array).sorted) :
    ∃ k, r.indexWitness = s.values.length + 4 * k ∧
      r.valueColumn1Witness = s.values.length + 4 * k + 1 ∧
        r.valueColumn2Witness = s.values.length + 4 * k + 2 ∧
          r.recordWitness = s.values.length + 4 * k + 3 ∧ r.recordWitness < maxIndexOf s array :=
  witnesses_sortedRecords s _ r hr

theorem honestAssignment_of_ne (hrecords : ∀ r ∈ array.records, r.recordWitness ≠ w)
    (hsorted : ∀ r ∈ (sortArray s array).sorted, r.recordWitness ≠ w) :
    honestAssignment eta (sortArray s array) w = (sortArray s array).builder.getVariable w := by
  refine UltraMemory.honest_of_ne fun row hrow => ?_
  obtain ⟨r, hr, rfl⟩ := mem_map.1 hrow
  exact (mem_append.1 hr).elim (hrecords r) (hsorted r)

theorem honestAssignment_given (hw : Given s array.records w) :
    honestAssignment eta (sortArray s array) w = s.getVariable w := by
  rw [honestAssignment_of_ne hw.2, extends_sortArray.getVariable hw.1]
  intro r hr
  obtain ⟨k, -, -, -, hrecord, -⟩ := mem_sorted hr
  have := hw.1
  omega

def storedEntry (s : Builder) (record : RomRecord) : Entry :=
  ⟨record.index, s.getVariable record.valueColumn1Witness,
    s.getVariable record.valueColumn2Witness⟩

variable (h : Tracked arraySize s array)
include h

theorem Tracked.nodup_rows : (((array.records ++ (sortArray s array).sorted).map RomRecord.row).map
      Row.recordWitness).Nodup := by
  have hmap : ((array.records ++ (sortArray s array).sorted).map RomRecord.row).map
      Row.recordWitness = array.records.map RomRecord.recordWitness ++
        (sortArray s array).sorted.map RomRecord.recordWitness := by
    rw [List.map_map, map_append]
    rfl
  rw [hmap, nodup_append]
  refine ⟨h.nodup, (pairwise_sortedRecords s _).imp Nat.ne_of_lt, fun x hx y hy => ?_⟩
  obtain ⟨r, hr, rfl⟩ := mem_map.1 hx
  obtain ⟨r', hr', rfl⟩ := mem_map.1 hy
  obtain ⟨k, -, -, -, hrecord, -⟩ := mem_sorted hr'
  have := h.lt r hr
  omega

theorem Tracked.honest_sorted (hle : s.values.length ≤ w)
    (hw : ∀ k, w ≠ s.values.length + 4 * k + 3) :
    honestAssignment eta (sortArray s array) w = (sortArray s array).builder.getVariable w := by
  refine honestAssignment_of_ne (fun r hr => ((h.lt r hr).trans_le hle).ne) fun r hr heq => ?_
  obtain ⟨k, -, -, -, hrecord, -⟩ := mem_sorted hr
  exact hw k (heq ▸ hrecord)

theorem Tracked.honest_record (eta : FF) {r : RomRecord}
    (hr : r ∈ array.records ++ (sortArray s array).sorted)
    (hvalues : ∀ w, w = r.indexWitness ∨ w = r.valueColumn1Witness ∨ w = r.valueColumn2Witness →
      honestAssignment eta (sortArray s array) w = (sortArray s array).builder.getVariable w) :
    honestAssignment eta (sortArray s array) r.recordWitness =
      (r.entry (honestAssignment eta (sortArray s array))).record eta := by
  have hmem : r.row ∈ (array.records ++ (sortArray s array).sorted).map RomRecord.row :=
    mem_map_of_mem hr
  refine (UltraMemory.honest_record h.nodup_rows hmem).trans ?_
  rw [Entry.record, RomRecord.entry, hvalues _ (.inl rfl), hvalues _ (.inr (.inl rfl)),
    hvalues _ (.inr (.inr rfl))]
  rfl

theorem Tracked.copied : List.Forall₂ (Copied s (sortArray s array).builder)
    array.ordered (sortArray s array).sorted := by
  refine copied_sortedRecords (.refl s) (fun r hr => ?_) ?_
  · have hmem := (mergeSort_perm _ _).mem_iff.1 hr
    exact ⟨(h.column1Given r hmem).1, (h.column2Given r hmem).1⟩
  · have hextends := extends_addVariable (s := (sortedRecords s
      array.ordered).1) (array.state.length : FF)
    exact ⟨hextends.values, hextends.constants, ⟨_, rfl⟩⟩

theorem Tracked.entry_sorted (eta : FF) {sorted : RomRecord}
    (hr : sorted ∈ (sortArray s array).sorted)
    (hcopied : Copied s (sortArray s array).builder r sorted) :
    sorted.entry (honestAssignment eta (sortArray s array)) = storedEntry s r := by
  obtain ⟨k, hindex, hcolumn1, hcolumn2, -, -⟩ := mem_sorted hr
  ext
  · exact (h.honest_sorted (by omega) fun j => by omega).trans hcopied.indexWitness
  · exact (h.honest_sorted (by omega) fun j => by omega).trans hcopied.column1
  · exact (h.honest_sorted (by omega) fun j => by omega).trans hcopied.column2

theorem Tracked.entries_sorted :
    (sortArray s array).sorted.map (RomRecord.entry (honestAssignment eta (sortArray s array))) =
      array.ordered.map (storedEntry s) :=
  map_eq_of_forall₂ h.copied fun _ _ hr hcopied => h.entry_sorted eta hr hcopied

theorem Tracked.entry_record (hr : r ∈ array.records) (hbits : arraySize ≤ 2 ^ 32)
    (hindex : (s.getVariable r.indexWitness).val < arraySize) :
    r.entry (honestAssignment eta (sortArray s array)) = storedEntry s r := by
  have hvalue : s.getVariable r.indexWitness = r.index := by
    rcases h.indexValue r hr with heq | heq
    · exact heq
    · rw [heq, indexOf, Nat.mod_eq_of_lt (by omega), ZMod.natCast_rightInverse]
  ext
  · exact (honestAssignment_given (h.indexGiven r hr)).trans hvalue
  · exact honestAssignment_given (h.column1Given r hr)
  · exact honestAssignment_given (h.column2Given r hr)

theorem Tracked.isChain_index (hcells : ∀ i < arraySize, array.state[i]? ≠ some none) :
    (array.ordered.IsChain fun a b =>
      b.index = a.index ∨ b.index = a.index + 1) ∧
      ∀ last ∈ array.ordered.getLast?,
        last.index = arraySize - 1 := by
  have hperm := array.ordered_perm
  refine isChain_of_sorted (pairwise_map.2 (pairwise_mergeSort array.records)) (fun i hi => ?_)
    fun r hr => h.index r (hperm.mem_iff.1 hr)
  have hlt : i < array.state.length := h.size.symm ▸ hi
  have hne := hcells i hi
  rw [List.getElem?_eq_getElem hlt, Ne, some_inj] at hne
  obtain ⟨witnesses, hwitnesses⟩ := ne_none_iff_exists'.1 hne
  have hcell : array.state[i]? = some (some witnesses) := by
    rw [List.getElem?_eq_getElem hlt, hwitnesses]
  obtain ⟨r, hr, -, hindex, -⟩ := h.cell i witnesses hcell
  exact ⟨r, hperm.mem_iff.2 hr, hindex⟩

theorem Tracked.storedEntry_eq {a b : RomRecord} (ha : a ∈ array.records) (hb : b ∈ array.records)
    (hcolumn : ∀ r ∈ array.records, SecondColumn (sortArray s array) r)
    (hindex : a.index = b.index) : storedEntry s a = storedEntry s b := by
  obtain ⟨witnesses, hcell, -, ha1⟩ := h.column1 a ha
  obtain ⟨witnesses', hcell', -, hb1⟩ := h.column1 b hb
  rw [hindex, hcell', some_inj, some_inj] at hcell
  subst hcell
  have ha2 := hcolumn a ha witnesses' (hindex ▸ hcell')
  have hb2 := hcolumn b hb witnesses' hcell'
  rw [extends_sortArray.getVariable (h.column2Given a ha).1] at ha2
  rw [extends_sortArray.getVariable (h.column2Given b hb).1] at hb2
  rw [storedEntry, storedEntry, hindex, ha1, hb1, ha2, hb2]

theorem Tracked.honest_maxIndex :
    honestAssignment eta (sortArray s array) (maxIndexOf s array) = (arraySize : FF) := by
  have hle := (extends_sortedRecords s
    array.ordered).1.length_le
  rw [honestAssignment_of_ne, ← h.size]
  · exact getVariable_addVariable _
  · exact fun r hr => ((h.lt r hr).trans_le hle).ne
  · intro r hr
    obtain ⟨k, -, -, -, -, hlt⟩ := mem_sorted hr
    exact hlt.ne

theorem Tracked.lines_sorted : lines (honestAssignment eta (sortArray s array)) (maxIndexOf s array)
      (sortArray s array).sorted =
        array.ordered.map
          (fun r => ⟨r.index, (storedEntry s r).record eta⟩) ++ [⟨(arraySize : FF), 0⟩] := by
  have hzero : honestAssignment eta (sortArray s array) zeroIdx = 0 :=
    (honestAssignment_given (h.given_constant h.valid.zero)).trans h.valid.zero_eq
  rw [lines, h.honest_maxIndex, hzero]
  congr 1
  refine map_eq_of_forall₂ h.copied fun r sorted hsorted hcopied => ?_
  have hentry := h.entry_sorted eta hsorted hcopied
  obtain ⟨k, hindex, hcolumn1, hcolumn2, -, -⟩ := mem_sorted hsorted
  have hrecord := h.honest_record eta (mem_append_right _ hsorted) fun w hw =>
    h.honest_sorted (by omega) fun j => by omega
  rw [RomRecord.line, hrecord, hentry]
  congr 1
  exact congrArg Entry.index hentry

theorem Tracked.isChain_lines (hcells : ∀ i < arraySize, array.state[i]? ≠ some none)
    (hpos : 0 < arraySize) (hcolumn : ∀ r ∈ array.records, SecondColumn (sortArray s array) r) :
    (lines (honestAssignment eta (sortArray s array)) (maxIndexOf s array)
      (sortArray s array).sorted).IsChain Neighbours := by
  obtain ⟨hchain, hlast⟩ := h.isChain_index hcells
  have hperm := array.ordered_perm
  rw [h.lines_sorted]
  refine List.IsChain.append ?_ (isChain_singleton _) ?_
  · rw [isChain_map]
    refine hchain.imp_of_mem_imp fun a b ha hb hab => ?_
    rcases hab with hindex | hindex
    · have hentry := h.storedEntry_eq (hperm.mem_iff.1 ha) (hperm.mem_iff.1 hb) hcolumn hindex.symm
      refine ⟨?_, ?_⟩
      · rw [Step, hindex]
        ring
      · rw [hentry]
        ring
    · refine ⟨?_, ?_⟩
      · rw [Step, hindex, Nat.cast_succ]
        ring
      · rw [hindex, Nat.cast_succ]
        ring
  · intro line hline last hlast'
    rw [List.getLast?_map] at hline
    obtain ⟨r, hr, rfl⟩ := map_eq_some_iff.1 hline
    obtain rfl := some_inj.1 hlast'
    have hsize : (arraySize : FF) = r.index + 1 := by
      rw [← Nat.cast_succ, hlast r hr]
      congr 1
      omega
    refine ⟨?_, ?_⟩
    · rw [Step, hsize]
      ring
    · rw [hsize]
      ring

theorem Tracked.holds_calls {alpha : FF} : ∀ g ∈ s.gates, ∀ shifted, Holds alpha eta g
    (wiresOf (honestAssignment eta (sortArray s array)) g) shifted := by
  intro g hg shifted
  rcases h.gates g hg with ⟨c, hc, rfl⟩ | ⟨r, hr, rfl⟩
  · have hvalue : honestAssignment eta (sortArray s array) c.2 = c.1 :=
      (honestAssignment_given (h.given_constant hc)).trans (h.valid.value c hc)
    refine holds_bigAdd.2 ?_
    simp only [wiresOf, fixWitness, createBigAddGate, hvalue]
    ring
  · have hgiven : ∀ {w}, Given s array.records w → honestAssignment eta (sortArray s array) w =
        (sortArray s array).builder.getVariable w :=
      fun hw => (honestAssignment_given hw).trans (extends_sortArray.getVariable hw.1).symm
    have hrecord := h.honest_record eta (mem_append_left _ hr) (by
      rintro w (rfl | rfl | rfl)
      · exact hgiven (h.indexGiven r hr)
      · exact hgiven (h.column1Given r hr)
      · exact hgiven (h.column2Given r hr))
    refine (holds_memory (.inl rfl)).2 ?_
    rw [if_neg (by decide), accessType, sub_eq_zero]
    exact hrecord.trans (by rw [Entry.record, encode, add_zero]; rfl)

theorem Tracked.records_sorted : ∀ r ∈ (sortArray s array).sorted,
    honestAssignment eta (sortArray s array) r.recordWitness =
      (r.entry (honestAssignment eta (sortArray s array))).record eta := by
  intro r hr
  obtain ⟨k, hindex, hcolumn1, hcolumn2, -, -⟩ := mem_sorted hr
  exact h.honest_record eta (mem_append_right _ hr) fun w hw =>
    h.honest_sorted (by omega) fun j => by omega

theorem Tracked.secondColumn (hcount : arraySize ≤ 2 ^ 32) (heta : eta ≠ 0)
    (hchain : (lines (honestAssignment eta (sortArray s array)) (maxIndexOf s array)
      (sortArray s array).sorted).IsChain Neighbours) {r : RomRecord} (hr : r ∈ array.records) :
    SecondColumn (sortArray s array) r := by
  intro witnesses hstate
  have hcell : array.state[r.index]? = some (some witnesses) := hstate
  obtain ⟨w, hw, -, hindex, hcolumn1, hcolumn2⟩ := h.cell _ _ hcell
  have hperm := array.ordered_perm
  have hline : ∀ r ∈ array.records, (⟨r.index, (storedEntry s r).record eta⟩ : Line) ∈
      lines (honestAssignment eta (sortArray s array)) (maxIndexOf s array)
        (sortArray s array).sorted := by
    intro r hr
    rw [h.lines_sorted]
    exact mem_append_left _ (mem_map.2 ⟨r, hperm.mem_iff.2 hr, rfl⟩)
  have hne : ∀ l ∈ lines (honestAssignment eta (sortArray s array)) (maxIndexOf s array)
      (sortArray s array).sorted, l.index ≠ -1 := by
    intro l hl
    have hsmall : ∀ i ≤ arraySize, (i : FF) ≠ -1 := fun i hi =>
      ne_neg_one (by rw [val_natCast (by omega)]; omega)
    rw [h.lines_sorted] at hl
    rcases mem_append.1 hl with hl | hl
    · obtain ⟨r, hr, rfl⟩ := mem_map.1 hl
      exact hsmall _ (h.index r (hperm.mem_iff.1 hr)).le
    · rw [mem_singleton.1 hl]
      exact hsmall _ le_rfl
  have heq := line_eq_of_index_eq hchain hne _ (hline r hr) _ (hline w hw)
    (congrArg Nat.cast hindex.symm)
  have hrecord : (storedEntry s r).record eta = (storedEntry s w).record eta :=
    congrArg Line.record heq
  obtain ⟨witnesses', hcell', -, hvalue⟩ := h.column1 r hr
  rw [hcell, some_inj, some_inj] at hcell'
  subst hcell'
  -- the first columns agree
  simp only [storedEntry, Entry.record, encode, hindex, hvalue, hcolumn1, hcolumn2] at hrecord
  have hdifference : (s.getVariable r.valueColumn2Witness - s.getVariable witnesses.2) * eta ^ 3 =
      0 := by
    linear_combination hrecord
  have hlt : witnesses.2 < s.values.length := hcolumn2 ▸ (h.column2Given w hw).1
  rw [extends_sortArray.getVariable (h.column2Given r hr).1, extends_sortArray.getVariable hlt]
  exact sub_eq_zero.1 ((mul_eq_zero.1 hdifference).resolve_right (pow_ne_zero 3 heta))

end Honest

variable {calls : List Call} {p : Processed}

theorem tracked_of_circuit {arraySize : ℕ} (hcircuit : circuit arraySize calls = some p)
    (hadmissible : Admissible (.new, createRomArray arraySize) calls) :
    ∃ s array, Tracked arraySize s array ∧ arraySize ≤ array.records.length ∧
      (∀ i < arraySize, array.state[i]? ≠ some none) ∧ p = sortArray s array := by
  obtain ⟨u, hu, hp⟩ := bind_eq_some_iff.1 hcircuit
  obtain ⟨t, ht, rfl⟩ := map_eq_some_iff.1 hp
  have hrun := (tracked_new arraySize).run (u := (.new, createRomArray arraySize)) hadmissible hu
  obtain ⟨hcells, hcount⟩ := hrun.toRecorded.cells ht
  exact ⟨t.1, t.2, hrun.initRest ht, hcount, hcells, rfl⟩

/-- **The values of an honest prover satisfy the gates, exactly** when every index witness has the
value of a cell and every access has the second column of its cell. -/
theorem honest_iff {arraySize : ℕ} {eta : FF} (hcircuit : circuit arraySize calls = some p)
    (hadmissible : Admissible (.new, createRomArray arraySize) calls) (hpos : 0 < arraySize)
    (hbits : p.builder.values.length ≤ 2 ^ 32) (heta : eta ≠ 0) :
    Accepts p eta (honestAssignment eta p) ↔
      ∀ r ∈ p.records, (p.builder.getVariable r.indexWitness).val < arraySize ∧
        SecondColumn p r := by
  obtain ⟨s, array, h, hsize, hcells, rfl⟩ := tracked_of_circuit hcircuit hadmissible
  have hcount : arraySize ≤ 2 ^ 32 :=
    (hsize.trans h.length).trans (length_le_sortArray.trans hbits)
  have hperm := array.ordered_perm
  have hvalue : ∀ r ∈ array.records, (sortArray s array).builder.getVariable r.indexWitness =
      s.getVariable r.indexWitness := fun r hr =>
    extends_sortArray.getVariable (h.indexGiven r hr).1
  constructor
  · intro haccepts
    have hindex : ∀ r ∈ array.records, (s.getVariable r.indexWitness).val < arraySize := by
      intro r hr
      have hmem := haccepts.records.mem_iff.1 (mem_map_of_mem hr)
      rw [h.entries_sorted] at hmem
      obtain ⟨r', hr', hentry⟩ := mem_map.1 hmem
      have hlt := h.index r' (hperm.mem_iff.1 hr')
      have heq : s.getVariable r.indexWitness = r'.index :=
        (honestAssignment_given (h.indexGiven r hr)).symm.trans (congrArg Entry.index hentry).symm
      rw [heq, val_natCast (by omega)]
      exact hlt
    intro r hr
    have hgates : ∀ alpha, Satisfied alpha eta (honestAssignment eta (sortArray s array))
        (sortedGates arraySize (maxIndexOf s array) (sortArray s array).sorted) := by
      intro alpha
      have hall := haccepts.gates alpha
      rw [gates_sortArray, h.size] at hall
      exact hall.of_append
    exact ⟨(hvalue r hr) ▸ hindex r hr,
      h.secondColumn hcount heta (satisfied_sortedGates.1 hgates).1 hr⟩
  · intro hall
    refine ⟨fun alpha => ?_, ?_⟩
    · rw [gates_sortArray]
      refine satisfied_append h.holds_calls ?_
      rw [h.size]
      refine satisfied_sortedGates.2
        ⟨h.isChain_lines hcells hpos fun r hr => (hall r hr).2, h.records_sorted,
          h.honest_maxIndex⟩ alpha
    · have hrecords : array.records.map (RomRecord.entry
          (honestAssignment eta (sortArray s array))) = array.records.map (storedEntry s) :=
        map_congr_left fun r hr =>
          h.entry_record hr hcount ((hvalue r hr) ▸ (hall r hr).1)
      show (array.records.map _).Perm _
      rw [hrecords, h.entries_sorted]
      exact (hperm.map _).symm

end RomArray
